import Scriptlet.Proofs.Places
import Scriptlet.Proofs.TypedMembers

/-!
# Typed states

A state is typed if its heap is and if every variable, wherever it is bound, has a value of its type. The steps of a
run keep states typed; a variable may be given any value that has the type it was declared with.
-/

namespace Scriptlet

def Bindings.Typed (t : HostTypes) (σ : HeapTyping) (b : Bindings) : Prop :=
  ∀ entry ∈ b, entry.2.value.Typed t σ entry.2.ty

namespace Bindings.Typed

variable {t : HostTypes} {σ τ : HeapTyping} {b b' : Bindings} {name : String} {found : Binding} {v : Value}

theorem mono (h : b.Typed t σ) (hσ : σ.Grows τ) : b.Typed t τ :=
  fun entry he => (h entry he).mono hσ

theorem lookup (h : b.Typed t σ) (hfound : b.lookup name = some found) : found.value.Typed t σ found.ty := by
  obtain ⟨before, behind, rfl, -⟩ := List.lookup_eq_some_iff.mp hfound
  exact h (name, found) (by simp)

theorem put (h : b.Typed t σ) {ty : Ty} (hv : v.Typed t σ ty) : (b.put name ⟨ty, v⟩).Typed t σ := by
  induction b with
  | nil =>
    intro entry he
    cases List.mem_singleton.mp he
    exact hv
  | cons first rest ih =>
    obtain ⟨hfirst, hrest⟩ := List.forall_mem_cons.mp h
    rw [Bindings.put]
    split
    · exact List.forall_mem_cons.mpr ⟨hv, hrest⟩
    · exact List.forall_mem_cons.mpr ⟨hfirst, ih hrest⟩

theorem assign (h : b.Typed t σ) (hfound : b.lookup name = some found) (hv : v.Typed t σ found.ty)
    (hassign : assign? name v b = some b') : b'.Typed t σ := by
  induction b generalizing b' with
  | nil => cases hfound
  | cons first rest ih =>
    obtain ⟨hfirst, hrest⟩ := List.forall_mem_cons.mp h
    rw [assign?] at hassign
    rw [List.lookup_cons] at hfound
    split at hassign
    · next heq =>
      simp only [heq, beq_self_eq_true, Option.some.injEq] at hfound
      cases hassign
      exact List.forall_mem_cons.mpr ⟨hfound ▸ hv, hrest⟩
    · next hne =>
      simp only [beq_eq_false_iff_ne.mpr (Ne.symm hne)] at hfound
      obtain ⟨rest', hrest', rfl⟩ := Option.map_eq_some_iff.mp hassign
      exact List.forall_mem_cons.mpr ⟨hfirst, ih hrest hfound hrest'⟩

/-- The same for a name in the first of some scopes that has it. -/
theorem assignFirst {scopes scopes' : List Bindings} {height : Nat} (h : ∀ scope ∈ scopes, scope.Typed t σ)
    (hfound : locate? name scopes = some (height, found)) (hv : v.Typed t σ found.ty)
    (hassign : assignFirst? name v scopes = some scopes') : ∀ scope ∈ scopes', scope.Typed t σ := by
  induction scopes generalizing scopes' with
  | nil => cases hfound
  | cons scope rest ih =>
    obtain ⟨hscope, hrest⟩ := List.forall_mem_cons.mp h
    rw [assignFirst?] at hassign
    rw [locate?] at hfound
    have hsome := assign?_isSome name v scope
    cases hlookup : scope.lookup name with
    | some b =>
      obtain ⟨scope', hscope'⟩ := Option.isSome_iff_exists.mp (hsome.trans (by rw [hlookup]; rfl))
      simp only [hlookup, Option.map_some, Option.some_or, Option.some.injEq, Prod.mk.injEq] at hfound
      simp only [hscope', Option.some.injEq] at hassign
      subst hassign
      exact List.forall_mem_cons.mpr ⟨hscope.assign hlookup (hfound.2 ▸ hv) hscope', hrest⟩
    | none =>
      have hnone : assign? name v scope = none := by
        rw [hlookup] at hsome
        exact Option.isNone_iff_eq_none.mp (by simpa using hsome)
      simp only [hlookup, Option.map_none, Option.none_or] at hfound
      simp only [hnone] at hassign
      obtain ⟨rest', hrest', rfl⟩ := Option.map_eq_some_iff.mp hassign
      exact List.forall_mem_cons.mpr ⟨hscope, ih hrest hfound hrest'⟩

theorem locate {scopes : List Bindings} {height : Nat} (h : ∀ scope ∈ scopes, scope.Typed t σ)
    (hfound : locate? name scopes = some (height, found)) : found.value.Typed t σ found.ty := by
  induction scopes with
  | nil => cases hfound
  | cons scope rest ih =>
    obtain ⟨hscope, hrest⟩ := List.forall_mem_cons.mp h
    rw [locate?] at hfound
    cases hlookup : scope.lookup name with
    | some b =>
      simp only [hlookup, Option.map_some, Option.some_or, Option.some.injEq, Prod.mk.injEq] at hfound
      exact hfound.2 ▸ hscope.lookup hlookup
    | none =>
      simp only [hlookup, Option.map_none, Option.none_or] at hfound
      exact ih hrest hfound

end Bindings.Typed

theorem Machine.cases_of_locate? {m : Machine} {name : String} {site : Site} {b : Binding}
    (h : m.locate? name = some (site, b)) :
    (∃ height, Bindings.locate? name m.frame = some (height, b)) ∨
      (Bindings.locate? name m.frame = none ∧ m.members.lookup name = some b) ∨
      (Bindings.locate? name m.frame = none ∧ m.members.lookup name = none ∧ m.globals.lookup name = some b) := by
  unfold Machine.locate? Machine.top? at h
  cases hframe : Bindings.locate? name m.frame with
  | some l =>
    simp only [hframe, Option.map_some, Option.some_or, Option.some.injEq, Prod.mk.injEq] at h
    exact .inl ⟨l.1, by rw [← h.2]⟩
  | none =>
    cases hmember : m.members.lookup name <;> simp_all

structure Machine.Typed (t : HostTypes) (σ : HeapTyping) (m : Machine) : Prop where
  heap : m.world.heap.Typed t σ
  globals : m.globals.Typed t σ
  members : m.members.Typed t σ
  frames : ∀ frame ∈ m.frames, ∀ scope ∈ frame, scope.Typed t σ

namespace Machine.Typed

variable {t : HostTypes} {σ τ : HeapTyping} {m m' : Machine} {name : String} {site : Site} {b : Binding} {v : Value}
  (h : m.Typed t σ)

include h

theorem of_eq (hheap : m'.world.heap = m.world.heap) (hglobals : m'.globals = m.globals)
    (hmembers : m'.members = m.members) (hframes : m'.frames = m.frames) : m'.Typed t σ :=
  ⟨hheap ▸ h.heap, hglobals ▸ h.globals, hmembers ▸ h.members, hframes ▸ h.frames⟩

/-- The host works on the heap only; the typing that it ends with types the variables as well. -/
theorem withWorld (hσ : σ.Grows τ) {w : World} (hw : w.Typed t τ) :
    Machine.Typed t τ { m with world := w } :=
  ⟨hw, h.globals.mono hσ, h.members.mono hσ, fun frame hf scope hs => (h.frames frame hf scope hs).mono hσ⟩

theorem frame : ∀ scope ∈ m.frame, scope.Typed t σ := by
  unfold Machine.frame
  cases hf : m.frames with
  | nil => exact fun _ hs => (nomatch hs)
  | cons frame rest => exact h.frames frame (hf ▸ List.mem_cons_self)

theorem locate (hfound : m.locate? name = some (site, b)) : b.value.Typed t σ b.ty := by
  rcases Machine.cases_of_locate? hfound with ⟨height, hscope⟩ | ⟨-, hmember⟩ | ⟨-, -, hglobal⟩
  · exact Bindings.Typed.locate h.frame hscope
  · exact h.members.lookup hmember
  · exact h.globals.lookup hglobal

/-- A name may be given any value that has the type of what is found under it. -/
theorem assign (hfound : m.locate? name = some (site, b)) (hv : v.Typed t σ b.ty)
    (hassign : m.assign? name v = some m') : m'.Typed t σ := by
  have hscopes := Bindings.assignFirst?_isSome name v m.frame
  have hmembers := Bindings.assign?_isSome name v m.members
  have hframe : m.frames.headD [] = m.frame := rfl
  rw [Machine.assign?, hframe] at hassign
  rcases Machine.cases_of_locate? hfound with ⟨height, hscope⟩ | ⟨hnone, hmember⟩ | ⟨hnone, hnone', hglobal⟩
  · rw [hscope, Option.isSome_some] at hscopes
    obtain ⟨scopes, hs⟩ := Option.isSome_iff_exists.mp hscopes
    rw [hs] at hassign
    cases hassign
    have htyped := Bindings.Typed.assignFirst h.frame hscope hv hs
    exact ⟨h.heap, h.globals, h.members,
      List.forall_mem_cons.mpr ⟨htyped, fun frame hf => h.frames frame (List.mem_of_mem_tail hf)⟩⟩
  · rw [hnone, Option.isSome_none, Option.isSome_eq_false_iff, Option.isNone_iff_eq_none] at hscopes
    rw [hmember, Option.isSome_some] at hmembers
    obtain ⟨members, hs⟩ := Option.isSome_iff_exists.mp hmembers
    simp only [hscopes, hs, Option.some.injEq] at hassign
    subst hassign
    exact ⟨h.heap, h.globals, h.members.assign hmember hv hs, h.frames⟩
  · rw [hnone, Option.isSome_none, Option.isSome_eq_false_iff, Option.isNone_iff_eq_none] at hscopes
    rw [hnone', Option.isSome_none, Option.isSome_eq_false_iff, Option.isNone_iff_eq_none] at hmembers
    simp only [hscopes, hmembers] at hassign
    obtain ⟨globals, hs, rfl⟩ := Option.map_eq_some_iff.mp hassign
    exact ⟨h.heap, h.globals.assign hglobal hv hs, h.members, h.frames⟩

theorem declare {ty : Ty} (hv : v.Typed t σ ty) : (m.declare name ⟨ty, v⟩).Typed t σ := by
  unfold Machine.declare
  split
  · next scope scopes rest hf =>
    obtain ⟨hfirst, hrest⟩ := List.forall_mem_cons.mp (hf ▸ h.frames)
    obtain ⟨hscope, hscopes⟩ := List.forall_mem_cons.mp hfirst
    exact ⟨h.heap, h.globals, h.members,
      List.forall_mem_cons.mpr ⟨List.forall_mem_cons.mpr ⟨hscope.put hv, hscopes⟩, hrest⟩⟩
  · exact ⟨h.heap, h.globals, h.members.put hv, h.frames⟩

theorem pushScope : m.pushScope.Typed t σ := by
  unfold Machine.pushScope
  split
  · next frame rest hf =>
    obtain ⟨hfirst, hrest⟩ := List.forall_mem_cons.mp (hf ▸ h.frames)
    refine ⟨h.heap, h.globals, h.members, List.forall_mem_cons.mpr ⟨List.forall_mem_cons.mpr ⟨?_, hfirst⟩, hrest⟩⟩
    exact fun _ he => (nomatch he)
  · exact h

theorem popScope : m.popScope.Typed t σ := by
  unfold Machine.popScope
  split
  · next frame rest hf =>
    obtain ⟨hfirst, hrest⟩ := List.forall_mem_cons.mp (hf ▸ h.frames)
    exact ⟨h.heap, h.globals, h.members,
      List.forall_mem_cons.mpr ⟨fun scope hs => hfirst scope (List.mem_of_mem_tail hs), hrest⟩⟩
  · exact h

theorem pushFrame : m.pushFrame.Typed t σ := by
  refine ⟨h.heap, h.globals, h.members, List.forall_mem_cons.mpr ⟨?_, h.frames⟩⟩
  exact List.forall_mem_singleton.mpr fun _ he => (nomatch he)

theorem popFrame : m.popFrame.Typed t σ :=
  ⟨h.heap, h.globals, h.members, fun frame hf => h.frames frame (List.mem_of_mem_tail hf)⟩

end Machine.Typed

/-- A collection of a type, where the heap says so. -/
def Collection.Typed (σ : HeapTyping) (ty : Ty) : Collection → Prop
  | .sequence kind element a => ty = .sequence kind element ∧ σ a = some (.items element)
  | .dictionary key value a => ty = .dictionary key value ∧ σ a = some (.entries key value)

theorem Heap.mem_of_item {h : Heap} {a : Address} {index : Int32} {v : Value} (hitem : h.item a index = .ok v) :
    v ∈ h.items a := by
  obtain ⟨place, hplace, ⟨⟩⟩ := exists_ok_of_bind hitem
  unfold Heap.place checkedIndex at hplace
  split at hplace
  · next hbounds =>
    cases hplace
    have hlt : index.toInt.toNat < (h.items a).size := by omega
    rw [Array.getD, dif_pos hlt]
    exact Array.getElem_mem hlt
  · cases hplace

namespace Sustains

variable {α : Type} {t : HostTypes} {σ : HeapTyping} {R : HeapTyping → α → Prop} {a : Address} {element key value : Ty}
  {v : Value}

theorem fail (fault : Fault) (p : Position) : Sustains (Machine.Typed t) σ (Run.fail fault p : Run α) R :=
  throw _

theorem located {r : Except Fault α} (p : Position) (h : ∀ a σ₁, σ.Grows σ₁ → r = .ok a → R σ₁ a) :
    Sustains (Machine.Typed t) σ (Run.located p r) R := by
  cases r with
  | ok a => exact pure fun σ₁ hσ => h a σ₁ hσ rfl
  | error fault => exact throw _

theorem host {action : Host α} (h : Sustains (World.Typed t) σ action R) (p : Position) :
    Sustains (Machine.Typed t) σ (Run.host p action) R := by
  intro σ₁ m hσ hm
  obtain ⟨σ₂, hgrows, hworld, hresult⟩ := h σ₁ m.world hσ hm.heap
  unfold Run.host
  cases haction : action m.world with
  | ok a w =>
    rw [haction] at hworld
    refine ⟨σ₂, hgrows, hm.withWorld hgrows hworld, ?_⟩
    rintro _ _ ⟨⟩
    exact hresult a w haction
  | error fault w =>
    rw [haction] at hworld
    refine ⟨σ₂, hgrows, hm.withWorld hgrows hworld, ?_⟩
    rintro _ _ ⟨⟩

theorem run_heap : Sustains (Machine.Typed t) σ Run.heap fun σ h => h.Typed t σ := by
  intro σ₁ m hσ hm
  refine ⟨σ₁, .refl _, hm, ?_⟩
  rintro _ _ ⟨⟩
  exact hm.heap

/-- What keeps all states typed, under every typing. -/
theorem of_final {x : Run α} (h : ∀ σ₁ m, m.Typed t σ₁ → σ.Grows σ₁ → (finalState (x m)).Typed t σ₁) :
    Sustains (Machine.Typed t) σ x fun _ _ => True :=
  fun σ₁ m hσ hm => ⟨σ₁, .refl _, h σ₁ m hm hσ, fun _ _ _ => trivial⟩

theorem checkpoint (e : Event) (p : Position) :
    Sustains (Machine.Typed t) σ (Run.checkpoint e p) fun _ _ => True := by
  refine of_final fun σ₁ m hm _ => ?_
  have hcheck : (m.check e).2.Typed t σ₁ := hm.of_eq rfl rfl rfl rfl
  rw [Run.checkpoint_eq]
  cases (m.check e).1 <;> exact hcheck

theorem enterCall (p : Position) : Sustains (Machine.Typed t) σ (Run.enterCall p) fun _ _ => True := by
  intro σ₁ m hσ hm
  rw [Run.enterCall_eq]
  split
  · exact fail _ p σ₁ m hσ hm
  · exact checkpoint _ p σ₁ m hσ hm

theorem begin : Sustains (Machine.Typed t) σ Run.begin fun _ _ => True := by
  refine of_final fun σ₁ m hm _ => ?_
  change Machine.Typed t σ₁ (if m.isIdle then m.resetMonitor else m)
  split
  · exact hm.of_eq rfl rfl rfl rfl
  · exact hm

theorem declare {name : String} {ty : Ty} (hv : v.Typed t σ ty) :
    Sustains (Machine.Typed t) σ (Run.declare name ty v) fun _ _ => True :=
  of_final fun _ _ hm hσ => hm.declare (hv.mono hσ)

theorem collection {e : Expr} (hv : v.Typed t σ e.ty) (hty : (Grammar.elementType? e.ty).isSome = true) :
    Sustains (Machine.Typed t) σ (Run.collection e v) fun σ c => c.Typed σ e.ty := by
  cases hnull : v.isNull with
  | true =>
    cases v <;> first | exact fail _ _ | cases hnull
  | false =>
    generalize hshape : e.ty = ty at hv hty
    cases ty with
    | sequence kind element =>
      obtain ⟨a, rfl, ha⟩ := hv.eq_sequence hnull
      exact pure fun _ hσ => ⟨rfl, hσ _ _ ha⟩
    | dictionary key value =>
      obtain ⟨a, rfl, ha⟩ := hv.eq_dictionary hnull
      exact pure fun _ hσ => ⟨rfl, hσ _ _ ha⟩
    | _ => cases hty

theorem item (ha : σ a = some (.items element)) (p : Position) (index : Int32) :
    Sustains (Machine.Typed t) σ (Run.item p a index) fun σ v => v.Typed t σ element :=
  run_heap.bind fun _ _ hσ hh => located p fun v _ hσ' hitem =>
    (hh.items (hσ _ _ ha) v (Heap.mem_of_item hitem)).mono hσ'

theorem dictionary (ha : σ a = some (.entries key value)) :
    Sustains (Machine.Typed t) σ (Run.dictionary key value a) fun σ d =>
      d.key = key ∧ d.value = value ∧ d.Typed t σ :=
  run_heap.bind fun _ _ hσ hh => pure fun _ hσ' =>
    ⟨rfl, rfl, Dictionary.Typed.mono (d := ⟨key, value, _⟩) (hh.entries (hσ _ _ ha)) hσ'⟩

theorem entry (ha : σ a = some (.entries key value)) (p : Position) (k : Value) :
    Sustains (Machine.Typed t) σ (Run.entry p key value a k) fun σ v => v.Typed t σ value := by
  refine run_heap.bind fun h σ₁ hσ _ => (dictionary (hσ _ _ ha)).bind ?_
  rintro d σ₂ hσ' ⟨-, rfl, hd⟩
  exact located p fun v _ hσ'' hget => (hd.get hget).mono hσ''

theorem stored (hv : v.Located σ) (p : Position) (ty : Ty) :
    Sustains (Machine.Typed t) σ (Run.stored t.classes p ty v) fun σ v => v.Typed t σ ty := by
  unfold Run.stored
  split
  · next haccepts => exact pure fun _ hσ => (Value.Typed.of_accepts haccepts hv).mono hσ
  · exact fail _ p

theorem newArray (p : Position) (element : Ty) (length : Int32) :
    Sustains (Machine.Typed t) σ (Run.newArray p element length) fun σ v => v.Typed t σ (.sequence .array element) := by
  unfold Run.newArray
  split
  · exact fail _ p
  · refine host (newSequence fun v hv => ?_) p
    rw [(Array.mem_replicate.mp hv).2]
    exact .default element

theorem visited {c : Collection} {ty : Ty} (hc : c.Typed σ ty) (hty : Grammar.elementType? ty = some element) :
    Sustains (Machine.Typed t) σ (Run.visited c) fun σ items => ∀ v ∈ items, v.Typed t σ element := by
  cases c with
  | sequence kind other a =>
    obtain ⟨rfl, ha⟩ := hc
    cases hty
    refine run_heap.bind fun h σ₁ hσ hh => pure fun σ₂ hσ' v hv => ?_
    have hmem : v ∈ (h.items a).toList := by
      cases kind <;> first | exact hv | exact List.mem_reverse.mp hv
    exact (hh.items (hσ _ _ ha) v (Array.mem_toList_iff.mp hmem)).mono hσ'
  | dictionary key value a =>
    obtain ⟨rfl, ha⟩ := hc
    cases hty
    refine run_heap.bind fun h σ₁ hσ hh => pure fun σ₂ hσ' v hv => ?_
    obtain ⟨p, hp, rfl⟩ := List.mem_map.mp hv
    exact (hh.entries (hσ _ _ ha) p hp).1.mono hσ'

end Sustains

end Scriptlet
