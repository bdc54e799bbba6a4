import Scriptlet.Proofs.Fits
import Scriptlet.Proofs.Frames

/-!
# Typed heaps

A collection has the types of its items once and for all, whoever holds it. A heap typing says for each address what
lies there; a value is typed if it fits its type and what it refers to is what it takes it for; a heap is typed if
every cell holds typed values. Cells are never freed and never change their nature, so typings only grow.
-/

namespace Scriptlet

/-- What lies at an address. -/
inductive Content
  | items (element : Ty)
  | entries (key value : Ty)
  | object (className : String)

/-- What lies at the addresses that are in use. -/
abbrev HeapTyping := Address → Option Content

namespace HeapTyping

/-- The second typing knows all that the first one knows. -/
def Grows (σ τ : HeapTyping) : Prop :=
  ∀ a content, σ a = some content → τ a = some content

theorem Grows.refl (σ : HeapTyping) : σ.Grows σ :=
  fun _ _ => id

variable {σ : HeapTyping}

theorem Grows.trans {τ υ : HeapTyping} (h : σ.Grows τ) (h' : τ.Grows υ) : σ.Grows υ :=
  fun a content ha => h' a content (h a content ha)

def extend (σ : HeapTyping) (a : Address) (content : Content) : HeapTyping :=
  fun b => if b = a then some content else σ b

theorem extend_self (σ : HeapTyping) (a : Address) (content : Content) : σ.extend a content a = some content := by
  simp [extend]

theorem extend_of_ne {a b : Address} (h : b ≠ a) (content : Content) : σ.extend a content b = σ b := by
  simp [extend, h]

theorem grows_extend {a : Address} (h : σ a = none) (content : Content) : σ.Grows (σ.extend a content) := by
  intro b found hb
  have hne : b ≠ a := by
    rintro rfl
    rw [h] at hb
    cases hb
  rw [extend_of_ne hne, hb]

end HeapTyping

/-- The classes of a host, and the types of the fields that their objects have. -/
structure HostTypes where
  classes : Hierarchy
  layout : String → List (String × Ty)

namespace Value

/-- What the value refers to is what it takes it for. -/
def Located (σ : HeapTyping) : Value → Prop
  | .sequence _ element a => σ a = some (.items element)
  | .dictionary key value a => σ a = some (.entries key value)
  | .host className a => σ a = some (.object className)
  | _ => True

/-- A value that fits a type and refers to what it should. -/
structure Typed (t : HostTypes) (σ : HeapTyping) (ty : Ty) (v : Value) : Prop where
  fits : v.Fits t.classes ty
  located : v.Located σ

variable {σ : HeapTyping} {v : Value}

theorem Located.mono {τ : HeapTyping} (h : v.Located σ) (hσ : σ.Grows τ) : v.Located τ := by
  cases v <;> first | trivial | exact hσ _ _ h

theorem Located.of_isPlain (h : v.IsPlain) : v.Located σ := by
  cases v <;> trivial

theorem Located.coerce (h : v.Located σ) (ty : Ty) : (v.coerce ty).Located σ := by
  rcases v.coerce_eq_or_isPlain ty with heq | hplain
  · rwa [heq]
  · exact .of_isPlain hplain

namespace Typed

variable {t : HostTypes} {σ τ : HeapTyping} {ty other : Ty} {v : Value}

theorem mono (h : v.Typed t σ ty) (hσ : σ.Grows τ) : v.Typed t τ ty :=
  ⟨h.fits, h.located.mono hσ⟩

theorem of_eq (h : v.Typed t σ ty) (heq : other = ty) : v.Typed t σ other :=
  heq ▸ h

theorem of_runtimeType (h : v.runtimeType = ty) (hplain : v.IsPlain) : v.Typed t σ ty :=
  ⟨.of_runtimeType h, .of_isPlain hplain⟩

theorem of_accepts (h : t.classes.accepts ty v.runtimeType = true) (hv : v.Located σ) : (v.coerce ty).Typed t σ ty :=
  ⟨.of_accepts h, hv.coerce ty⟩

theorem coerce (hwf : t.classes.WellFormed) (hv : v.Typed t σ other) (h : t.classes.accepts ty other = true) :
    (v.coerce ty).Typed t σ ty :=
  ⟨hv.fits.coerce hwf h, hv.located.coerce ty⟩

theorem default (ty : Ty) : (Value.default ty).Typed t σ ty :=
  ⟨.default ty, .of_isPlain (by cases ty <;> trivial)⟩

end Typed

end Value

def Cell.Typed (t : HostTypes) (σ : HeapTyping) : Content → Cell → Prop
  | .items element, .items values => ∀ v ∈ values, v.Typed t σ element
  | .entries key value, .entries pairs => ∀ p ∈ pairs, p.1.Typed t σ key ∧ p.2.Typed t σ value
  | .object className, .fields named =>
    ∀ f ∈ named, ∀ ty, (t.layout className).lookup f.1 = some ty → f.2.Typed t σ ty
  | _, _ => False

theorem Cell.Typed.mono {t : HostTypes} {σ τ : HeapTyping} {content : Content} {cell : Cell}
    (h : cell.Typed t σ content) (hσ : σ.Grows τ) : cell.Typed t τ content := by
  cases content <;> cases cell <;> try exact h.elim
  · exact fun v hv => (h v hv).mono hσ
  · exact fun p hp => ⟨(h p hp).1.mono hσ, (h p hp).2.mono hσ⟩
  · exact fun f hf ty hty => (h f hf ty hty).mono hσ

def Heap.Typed (t : HostTypes) (σ : HeapTyping) (h : Heap) : Prop :=
  ∀ a content, σ a = some content → ∃ cell, h.cells[a]? = some cell ∧ cell.Typed t σ content

namespace Heap.Typed

variable {t : HostTypes} {σ : HeapTyping} {h : Heap} {a : Address} (hh : h.Typed t σ)

include hh

theorem items {element : Ty} (ha : σ a = some (.items element)) : ∀ v ∈ h.items a, v.Typed t σ element := by
  obtain ⟨cell, hcell, htyped⟩ := hh a _ ha
  cases cell with
  | items values =>
    have hitems : h.items a = values := by simp [Heap.items, hcell]
    rw [hitems]
    exact htyped
  | entries => exact htyped.elim
  | fields => exact htyped.elim

theorem entries {key value : Ty} (ha : σ a = some (.entries key value)) :
    ∀ p ∈ h.entries a, p.1.Typed t σ key ∧ p.2.Typed t σ value := by
  obtain ⟨cell, hcell, htyped⟩ := hh a _ ha
  cases cell with
  | entries pairs =>
    have hentries : h.entries a = pairs := by simp [Heap.entries, hcell]
    rw [hentries]
    exact htyped
  | items => exact htyped.elim
  | fields => exact htyped.elim

theorem fresh : σ h.cells.size = none := by
  cases hσ : σ h.cells.size with
  | none => rfl
  | some content =>
    obtain ⟨cell, hcell, -⟩ := hh _ _ hσ
    simp at hcell

theorem allocate {content : Content} {cell : Cell} (hcell : cell.Typed t σ content) :
    (h.allocate cell).2.Typed t (σ.extend h.cells.size content) := by
  have hgrows := HeapTyping.grows_extend hh.fresh content
  intro b found hb
  by_cases hbs : b = h.cells.size
  · subst hbs
    rw [HeapTyping.extend_self] at hb
    cases hb
    exact ⟨cell, by simp [Heap.allocate], hcell.mono hgrows⟩
  · rw [HeapTyping.extend_of_ne hbs] at hb
    obtain ⟨old, hold, htyped⟩ := hh b found hb
    have hlt : b < h.cells.size := (Array.getElem?_eq_some_iff.mp hold).1
    refine ⟨old, ?_, htyped.mono hgrows⟩
    simp [Heap.allocate, Array.getElem?_push, Nat.ne_of_lt hlt, hold]

theorem modify {f : Cell → Cell}
    (hf : ∀ content cell, σ a = some content → cell.Typed t σ content → (f cell).Typed t σ content) :
    Heap.Typed t σ ⟨h.cells.modify a f⟩ := by
  intro b content hb
  obtain ⟨cell, hcell, htyped⟩ := hh b content hb
  by_cases hab : a = b
  · subst hab
    exact ⟨f cell, by simp [Array.getElem?_modify, hcell], hf content cell hb htyped⟩
  · exact ⟨cell, by simp [Array.getElem?_modify, hab, hcell], htyped⟩

theorem updateItems {element : Ty} (ha : σ a = some (.items element)) {f : Array Value → Array Value}
    (hf : ∀ values, (∀ v ∈ values, v.Typed t σ element) → ∀ v ∈ f values, v.Typed t σ element) :
    (h.updateItems a f).Typed t σ := by
  refine hh.modify fun content cell hcontent hcell => ?_
  rw [ha] at hcontent
  cases hcontent
  cases cell with
  | items values => exact hf values hcell
  | entries => exact hcell.elim
  | fields => exact hcell.elim

theorem setEntries {key value : Ty} (ha : σ a = some (.entries key value))
    {pairs : List (Value × Value)} (hp : ∀ p ∈ pairs, p.1.Typed t σ key ∧ p.2.Typed t σ value) :
    (h.setEntries a pairs).Typed t σ := by
  refine hh.modify fun content cell hcontent hcell => ?_
  rw [ha] at hcontent
  cases hcontent
  cases cell with
  | entries => exact hp
  | items => exact hcell.elim
  | fields => exact hcell.elim

end Heap.Typed

/-- A computation that keeps its state typed, under a typing that may grow, and whose results have a property under
the typing that it ends with. -/
def Sustains {ε τ α : Type} (typed : HeapTyping → τ → Prop) (σ : HeapTyping) (x : EStateM ε τ α)
    (R : HeapTyping → α → Prop) : Prop :=
  ∀ σ₁ s, σ.Grows σ₁ → typed σ₁ s →
    ∃ σ₂, σ₁.Grows σ₂ ∧ typed σ₂ (finalState (x s)) ∧ ∀ a s', x s = .ok a s' → R σ₂ a

namespace Sustains

variable {ε τ α β : Type} {typed : HeapTyping → τ → Prop} {σ σ' : HeapTyping} {R : HeapTyping → α → Prop}
  {S : HeapTyping → β → Prop}

theorem pure {a : α} (h : ∀ σ₁, σ.Grows σ₁ → R σ₁ a) : Sustains typed σ (Pure.pure a : EStateM ε τ α) R := by
  intro σ₁ s hσ hs
  refine ⟨σ₁, .refl _, hs, ?_⟩
  rintro _ _ ⟨⟩
  exact h σ₁ hσ

theorem throw (e : ε) : Sustains typed σ (MonadExcept.throw e : EStateM ε τ α) R := by
  intro σ₁ s hσ hs
  refine ⟨σ₁, .refl _, hs, ?_⟩
  rintro _ _ ⟨⟩

theorem bind {x : EStateM ε τ α} {f : α → EStateM ε τ β} (hx : Sustains typed σ x R)
    (hf : ∀ a σ₁, σ.Grows σ₁ → R σ₁ a → Sustains typed σ₁ (f a) S) : Sustains typed σ (x >>= f) S := by
  intro σ₁ s hσ hs
  obtain ⟨σ₂, hgrows, htyped, hresult⟩ := hx σ₁ s hσ hs
  rw [finalState_bind]
  cases hxs : x s with
  | error e s' =>
    rw [hxs] at htyped
    refine ⟨σ₂, hgrows, htyped, fun b s'' h => ?_⟩
    obtain ⟨a, s₁, ha, -⟩ := ok_of_bind h
    rw [hxs] at ha
    cases ha
  | ok a s' =>
    rw [hxs] at htyped
    obtain ⟨σ₃, hgrows', htyped', hresult'⟩ :=
      hf a σ₂ (hσ.trans hgrows) (hresult a s' hxs) σ₂ s' (.refl _) htyped
    refine ⟨σ₃, hgrows.trans hgrows', htyped', fun b s'' h => ?_⟩
    obtain ⟨a', s₁, ha, hfa⟩ := ok_of_bind h
    rw [hxs] at ha
    cases ha
    exact hresult' b s'' hfa

theorem imp {x : EStateM ε τ α} {R' : HeapTyping → α → Prop} (hx : Sustains typed σ x R)
    (h : ∀ σ₁ a, σ.Grows σ₁ → R σ₁ a → R' σ₁ a) : Sustains typed σ x R' := by
  intro σ₁ s hσ hs
  obtain ⟨σ₂, hgrows, htyped, hresult⟩ := hx σ₁ s hσ hs
  exact ⟨σ₂, hgrows, htyped, fun a s' ha => h σ₂ a (hσ.trans hgrows) (hresult a s' ha)⟩

end Sustains

end Scriptlet
