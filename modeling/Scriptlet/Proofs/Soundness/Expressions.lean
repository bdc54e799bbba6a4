import Scriptlet.Proofs.Checked
import Scriptlet.Proofs.TypedMachine

/-!
# Expressions give values of their types

Evaluating a checked expression in a typed state gives a value of its type and leaves the state typed. The one thing
that is taken on trust here is that an access to a variable finds one of the type it expects: this is what static
scoping is about. Every access is in the record of the run, so the trust is put in the record.
-/

namespace Scriptlet

open Recorded

/-- An access that finds a variable of the type it expects, if it finds one. -/
def Moment.Trusted (moment : Moment) : Prop :=
  ∀ ref visible, moment.happening = .access ref visible →
    ∀ site b, moment.machine.locate? ref.name = some (site, b) → b.ty = ref.declared

def Moment.Fits (classes : Hierarchy) (moment : Moment) : Prop :=
  ∀ e v, moment.happening = .value e v → v.Fits classes e.ty

/-- A typed state, and a record in which the values of all expressions fit. -/
structure Chronicle.Typed (t : HostTypes) (σ : HeapTyping) (c : Chronicle) : Prop where
  machine : c.machine.Typed t σ
  values : ∀ moment ∈ c.moments, moment.Fits t.classes

/-- A computation that, if some condition is met, keeps states typed and gives results with a property, as long as the
accesses in its record can be trusted. That records only grow does not depend on any condition. -/
structure Yields (t : HostTypes) (P : Prop) (σ : HeapTyping) {α : Type} (x : Recorded α) (R : HeapTyping → α → Prop) :
    Prop where
  grows : ∀ c, ∃ new, (finalState (x c)).moments = new ++ c.moments
  holds : P → ∀ σ₁ c, σ.Grows σ₁ → c.Typed t σ₁ → (∀ moment ∈ (finalState (x c)).moments, moment.Trusted) →
    ∃ σ₂, σ₁.Grows σ₂ ∧ (finalState (x c)).Typed t σ₂ ∧ ∀ a c', x c = .ok a c' → R σ₂ a

namespace Yields

variable {t : HostTypes} {P Q : Prop} {σ : HeapTyping} {α β : Type} {R R' : HeapTyping → α → Prop}
  {S : HeapTyping → β → Prop}

theorem given {x : Recorded α} (hx : Yields t Q σ x R) (h : P → Q) : Yields t P σ x R :=
  ⟨hx.grows, fun hp => hx.holds (h hp)⟩

theorem imp {x : Recorded α} (hx : Yields t P σ x R) (h : P → ∀ σ₁ a, σ.Grows σ₁ → R σ₁ a → R' σ₁ a) :
    Yields t P σ x R' := by
  refine ⟨hx.grows, fun hp σ₁ c hσ hc htrust => ?_⟩
  obtain ⟨σ₂, hgrows, htyped, hresult⟩ := hx.holds hp σ₁ c hσ hc htrust
  exact ⟨σ₂, hgrows, htyped, fun a c' ha => h hp σ₂ a (hσ.trans hgrows) (hresult a c' ha)⟩

theorem pure {a : α} (h : P → ∀ σ₁, σ.Grows σ₁ → R σ₁ a) : Yields t P σ (Pure.pure a : Recorded α) R := by
  refine ⟨fun _ => ⟨[], rfl⟩, fun hp σ₁ c hσ hc _ => ⟨σ₁, .refl _, hc, ?_⟩⟩
  rintro _ _ ⟨⟩
  exact h hp σ₁ hσ

theorem bind {x : Recorded α} {f : α → Recorded β} (hx : Yields t P σ x R)
    (hf : ∀ a σ₁, σ.Grows σ₁ → Yields t (P ∧ R σ₁ a) σ₁ (f a) S) : Yields t P σ (x >>= f) S := by
  refine ⟨fun c => ?_, fun hp σ₁ c hσ hc htrust => ?_⟩
  · refine finalState_bind_of (fun c' => ∃ new, Chronicle.moments c' = new ++ c.moments) (hx.grows c) ?_
    rintro a c' - ⟨new, hnew⟩
    obtain ⟨more, hmore⟩ := (hf a σ (.refl σ)).grows c'
    exact ⟨more ++ new, by rw [hmore, hnew, List.append_assoc]⟩
  · have hfirst := hx.holds hp σ₁ c hσ hc
    rw [finalState_bind] at htrust ⊢
    cases hxc : x c with
    | error e c' =>
      rw [hxc] at hfirst htrust
      obtain ⟨σ₂, hgrows, htyped, -⟩ := hfirst htrust
      refine ⟨σ₂, hgrows, htyped, fun b c'' h => ?_⟩
      obtain ⟨a, c₁, ha, -⟩ := ok_of_bind h
      rw [hxc] at ha
      cases ha
    | ok a c' =>
      rw [hxc] at hfirst htrust
      -- the record of the first part is the older part of the whole record
      obtain ⟨more, hmore⟩ := (hf a σ (.refl σ)).grows c'
      obtain ⟨σ₂, hgrows, htyped, hresult⟩ := hfirst fun moment hm =>
        htrust moment (by rw [hmore]; exact List.mem_append_right _ hm)
      obtain ⟨σ₃, hgrows', htyped', hresult'⟩ := (hf a σ₂ (hσ.trans hgrows)).holds ⟨hp, hresult a c' rfl⟩ σ₂ c'
        (.refl _) htyped htrust
      refine ⟨σ₃, hgrows.trans hgrows', htyped', fun b c'' h => ?_⟩
      obtain ⟨a', c₁, ha, hfa⟩ := ok_of_bind h
      rw [hxc] at ha
      cases ha
      exact hresult' b c'' hfa

theorem quietly {x : Run α} (h : P → Sustains (Machine.Typed t) σ x R) : Yields t P σ (Recorded.quietly x) R := by
  have hrun : ∀ c, finalState (Recorded.quietly x c) = ⟨finalState (x c.machine), c.moments⟩ := by
    intro c
    unfold Recorded.quietly
    cases x c.machine <;> rfl
  refine ⟨fun c => ⟨[], by rw [hrun]; rfl⟩, fun hp σ₁ c hσ hc _ => ?_⟩
  obtain ⟨σ₂, hgrows, htyped, hresult⟩ := h hp σ₁ c.machine hσ hc.machine
  refine ⟨σ₂, hgrows, ⟨by rw [hrun]; exact htyped, by rw [hrun]; exact hc.values⟩, fun a c' ha => ?_⟩
  unfold Recorded.quietly at ha
  cases hx : x c.machine with
  | ok a' m =>
    simp only [hx, EStateM.Result.ok.injEq] at ha
    exact ha.1 ▸ hresult a' m hx
  | error e m => simp [hx] at ha

theorem located (p : Position) (r : Except Fault α) :
    Yields t P σ (Recorded.quietly (Run.located p r)) fun _ _ => True :=
  quietly fun _ => .located p fun _ _ _ _ => trivial

theorem note {h : Happening} (hfits : P → ∀ e v, h = .value e v → v.Fits t.classes e.ty) :
    Yields t P σ (Recorded.note h) fun _ _ => True := by
  refine ⟨fun c => ⟨[⟨c.machine, h⟩], rfl⟩, fun hp σ₁ c hσ hc _ => ?_⟩
  exact ⟨σ₁, .refl _, ⟨hc.machine, List.forall_mem_cons.mpr ⟨hfits hp, hc.values⟩⟩, fun _ _ _ => trivial⟩

theorem giving {e : Expr} {x : Recorded Value} (h : Yields t P σ x fun σ v => v.Typed t σ e.ty) :
    Yields t P σ (Recorded.giving e x) fun σ v => v.Typed t σ e.ty := by
  refine h.bind fun v σ₁ _ => (note ?_).bind fun _ σ₂ hσ => pure ?_
  · rintro ⟨-, hv⟩ _ _ ⟨⟩
    exact hv.fits
  · exact fun ⟨⟨_, hv⟩, _⟩ σ₃ hσ' => hv.mono (hσ.trans hσ')

theorem bracket {before after : Machine → Machine} {x : Recorded α}
    (hbefore : ∀ σ m, Machine.Typed t σ m → (before m).Typed t σ)
    (hafter : ∀ σ m, Machine.Typed t σ m → (after m).Typed t σ) (hx : Yields t P σ x R) :
    Yields t P σ (Recorded.bracket before after x) R := by
  have hrun : ∀ c, finalState (Recorded.bracket before after x c) =
      { finalState (x { c with machine := before c.machine }) with
        machine := after (finalState (x { c with machine := before c.machine })).machine } := by
    intro c
    unfold Recorded.bracket
    cases x { c with machine := before c.machine } <;> rfl
  refine ⟨fun c => by rw [hrun]; exact hx.grows _, fun hp σ₁ c hσ hc htrust => ?_⟩
  rw [hrun] at htrust ⊢
  obtain ⟨σ₂, hgrows, htyped, hresult⟩ := hx.holds hp σ₁ { c with machine := before c.machine } hσ
    ⟨hbefore σ₁ _ hc.machine, hc.values⟩ htrust
  refine ⟨σ₂, hgrows, ⟨hafter σ₂ _ htyped.machine, htyped.values⟩, fun a c' ha => ?_⟩
  unfold Recorded.bracket at ha
  cases hxc : x { c with machine := before c.machine } with
  | ok a' c₁ =>
    simp only [hxc, EStateM.Result.ok.injEq] at ha
    exact ha.1 ▸ hresult a' c₁ hxc
  | error e c₁ => simp [hxc] at ha

theorem inScope {x : Recorded α} (hx : Yields t P σ x R) : Yields t P σ (Recorded.inScope x) R :=
  hx.bracket (fun _ _ => Machine.Typed.pushScope) fun _ _ => Machine.Typed.popScope

theorem inFrame {x : Recorded α} (hx : Yields t P σ x R) : Yields t P σ (Recorded.inFrame x) R :=
  hx.bracket (fun _ _ => Machine.Typed.pushFrame) fun _ _ => Machine.Typed.popFrame

theorem checkpoint (e : Event) (p : Position) : Yields t P σ (Recorded.checkpoint e p) fun _ _ => True :=
  (quietly fun _ => .checkpoint e p).bind fun _ _ _ => note (by simp)

theorem enterCall (p : Position) : Yields t P σ (Recorded.enterCall p) fun _ _ => True :=
  (quietly fun _ => .enterCall p).bind fun _ _ _ => note (by simp)

theorem declare {name : String} {origin : Origin} {ty : Ty} {v : Value} (hv : P → v.Typed t σ ty) :
    Yields t P σ (Recorded.declare name origin ty v) fun _ _ => True :=
  (note (by simp)).bind fun _ _ hσ => quietly fun h => .declare ((hv h.1).mono hσ)

end Yields

/-- A slot that holds values of a type, where the heap says so. -/
def Slot.Typed (t : HostTypes) (σ : HeapTyping) (ty : Ty) : Slot → Prop
  | .variable ref => ref.declared = ty
  | .item element a _ => element = ty ∧ σ a = some (.items element)
  | .entry key value a k => value = ty ∧ σ a = some (.entries key value) ∧ (k.coerce key).Typed t σ key

theorem Slot.Typed.mono {t : HostTypes} {σ τ : HeapTyping} {ty : Ty} {slot : Slot} (h : slot.Typed t σ ty)
    (hσ : σ.Grows τ) : slot.Typed t τ ty := by
  cases slot with
  | «variable» ref => exact h
  | item element a index => exact ⟨h.1, hσ _ _ h.2⟩
  | entry key value a k => exact ⟨h.1, hσ _ _ h.2.1, h.2.2.mono hσ⟩

namespace Yields

variable {t : HostTypes} {P : Prop} {σ : HeapTyping} {visible : Lexical} {ty : Ty} {slot : Slot} {v : Value}

/-- An action on a variable, where what is found under its name has the type that the access expects. -/
theorem accessing {α : Type} {ref : VariableRef} {x : Run α} {R : HeapTyping → α → Prop}
    (h : P → ∀ σ₁ m, σ.Grows σ₁ → m.Typed t σ₁ →
      (∀ site b, m.locate? ref.name = some (site, b) → b.ty = ref.declared) →
      (finalState (x m)).Typed t σ₁ ∧ ∀ a m', x m = .ok a m' → R σ₁ a) :
    Yields t P σ (do access visible (.variable ref); Recorded.quietly x) R := by
  have hrun : ∀ c, (do access visible (.variable ref); Recorded.quietly x : Recorded α) c =
      Recorded.quietly x ⟨c.machine, ⟨c.machine, .access ref (visible.lookup ref.name)⟩ :: c.moments⟩ := fun _ => rfl
  refine ⟨fun c => ?_, fun hp σ₁ c hσ hc htrust => ?_⟩
  · rw [hrun]
    exact ⟨[⟨c.machine, .access ref (visible.lookup ref.name)⟩], by
      unfold Recorded.quietly
      cases x c.machine <;> rfl⟩
  · rw [hrun] at htrust ⊢
    unfold Recorded.quietly at htrust ⊢
    have htrusted : ∀ site b, c.machine.locate? ref.name = some (site, b) → b.ty = ref.declared := by
      have hin : (⟨c.machine, .access ref (visible.lookup ref.name)⟩ : Moment).Trusted :=
        htrust _ (by cases x c.machine <;> exact List.mem_cons_self)
      exact hin ref _ rfl
    obtain ⟨htyped, hresult⟩ := h hp σ₁ c.machine hσ hc.machine htrusted
    have hvalues : ∀ moment ∈ (⟨c.machine, .access ref (visible.lookup ref.name)⟩ :: c.moments : List Moment),
        moment.Fits t.classes := List.forall_mem_cons.mpr ⟨by rintro e v ⟨⟩, hc.values⟩
    cases hx : x c.machine with
    | ok a m =>
      rw [hx] at htyped
      refine ⟨σ₁, .refl _, ⟨htyped, hvalues⟩, ?_⟩
      rintro _ _ ⟨⟩
      exact hresult a m hx
    | error e m =>
      rw [hx] at htyped
      refine ⟨σ₁, .refl _, ⟨htyped, hvalues⟩, ?_⟩
      rintro _ _ ⟨⟩

theorem read (p : Position) (h : P → slot.Typed t σ ty) :
    Yields t P σ (Recorded.read visible p slot) fun σ v => v.Typed t σ ty := by
  cases slot with
  | «variable» ref =>
    refine accessing fun hp σ₁ m hσ hm htrusted => ?_
    rw [Slot.read, ref.get_eq, Machine.lookup_eq]
    cases hl : m.locate? ref.name with
    | none => exact ⟨hm, by rintro _ _ ⟨⟩⟩
    | some found =>
      refine ⟨hm, ?_⟩
      rintro _ _ ⟨⟩
      have hty : found.2.ty = ty := (htrusted found.1 found.2 hl).trans (h hp)
      exact hty ▸ hm.locate hl
  | item element a index => exact quietly fun hp => (h hp).1 ▸ .item (h hp).2 p index
  | entry key value a k => exact quietly fun hp => (h hp).1 ▸ .entry (h hp).2.1 p k

theorem write (p : Position) (h : P → slot.Typed t σ ty) (hv : P → v.Located σ) :
    Yields t P σ (Recorded.write visible t.classes p slot v) fun σ v => v.Typed t σ ty := by
  cases slot with
  | «variable» ref =>
    refine accessing fun hp σ₁ m hσ hm htrusted => ?_
    rw [Slot.write_variable_eq]
    split
    · next haccepts =>
      have hw := Value.Typed.of_accepts haccepts (((hv hp).coerce ref.declared).mono hσ)
      rw [v.coerce_coerce] at hw
      cases hassign : m.assign? ref.name ((v.coerce ref.declared).coerce ref.declared) with
      | none => exact ⟨hm, by rintro _ _ ⟨⟩⟩
      | some m' =>
        rw [v.coerce_coerce] at hassign
        have hsome := m.assign?_isSome ref.name (v.coerce ref.declared)
        rw [hassign] at hsome
        obtain ⟨⟨site, b⟩, hl⟩ := Option.isSome_iff_exists.mp hsome.symm
        refine ⟨hm.assign hl ((htrusted site b hl).symm ▸ hw) hassign, ?_⟩
        rintro _ _ ⟨⟩
        exact h hp ▸ hw
    · exact ⟨hm, by rintro _ _ ⟨⟩⟩
  | item element a index =>
    refine quietly fun hp => ?_
    obtain ⟨rfl, ha⟩ := h hp
    refine (Sustains.stored (hv hp) p element).bind fun w σ₁ hσ₁ hw => Sustains.run_heap.bind fun _ σ₂ hσ₂ _ =>
      (Sustains.located (R := fun _ _ => True) p fun _ _ _ _ => trivial).bind fun place σ₃ hσ₃ _ => ?_
    have hgrows := hσ₂.trans hσ₃
    refine (Sustains.host (Sustains.updateItems ((hσ₁.trans hgrows) _ _ ha) fun σ₄ values hσ₄ hvalues x hx => ?_) p).bind
      fun _ σ₄ hσ₄ _ => .pure fun σ₅ hσ₅ => hw.mono (hgrows.trans (hσ₄.trans hσ₅))
    rcases Array.mem_or_eq_of_mem_setIfInBounds hx with hx | rfl
    · exact hvalues x hx
    · exact hw.mono (hgrows.trans hσ₄)
  | entry key value a k =>
    refine quietly fun hp => ?_
    obtain ⟨rfl, ha, hk⟩ := h hp
    refine (Sustains.stored (hv hp) p value).bind fun w σ₁ hσ₁ hw => (Sustains.dictionary (hσ₁ _ _ ha)).bind ?_
    rintro d σ₂ hσ₂ ⟨rfl, rfl, hd⟩
    have hset : Sustains (Machine.Typed t) σ₂ (Run.located p (d.set k w)) fun σ d' =>
        ∀ q ∈ d'.entries, q.1.Typed t σ d.key ∧ q.2.Typed t σ d.value :=
      .located p fun d' σ₃ hσ₃ hset => (hd.mono hσ₃).set (hk.mono (hσ₁.trans (hσ₂.trans hσ₃)))
        (hw.mono (hσ₂.trans hσ₃)).widened hset
    refine hset.bind fun d' σ₃ hσ₃ hentries => ?_
    have hgrows := hσ₂.trans hσ₃
    exact (Sustains.host (Sustains.setEntries ((hσ₁.trans hgrows) _ _ ha) hentries) p).bind
      fun _ σ₄ hσ₄ _ => .pure fun σ₅ hσ₅ => hw.mono (hgrows.trans (hσ₄.trans hσ₅))

end Yields

namespace Value.AllTyped

variable {t : HostTypes} {σ : HeapTyping}

theorem located {types : List Ty} {values : List Value} (h : AllTyped t σ types values) :
    ∀ v ∈ values, v.Located σ := by
  induction types generalizing values with
  | nil =>
    cases values with
    | nil => simp
    | cons => exact h.elim
  | cons ty types ih =>
    cases values with
    | nil => exact h.elim
    | cons v values => exact List.forall_mem_cons.mpr ⟨h.1.located, ih h.2⟩

theorem coerce (hwf : t.classes.WellFormed) {ty : Ty} {types : List Ty} {values : List Value}
    (h : AllTyped t σ types values) (haccepts : ∀ other ∈ types, t.classes.accepts ty other = true) :
    ∀ v ∈ values.map (·.coerce ty), v.Typed t σ ty := by
  induction types generalizing values with
  | nil =>
    cases values with
    | nil => simp
    | cons => exact h.elim
  | cons other types ih =>
    cases values with
    | nil => exact h.elim
    | cons v values =>
      obtain ⟨hother, htypes⟩ := List.forall_mem_cons.mp haccepts
      exact List.forall_mem_cons.mpr ⟨h.1.coerce hwf hother, ih h.2 htypes⟩

end Value.AllTyped

theorem Member.allTyped_of_takesFrom {t : HostTypes} {σ : HeapTyping} (hwf : t.classes.WellFormed) {m : Member}
    {types : List Ty} {values : List Value} {index : Nat} (hvalues : Value.AllTyped t σ types values)
    (htakes : m.takesFrom t.classes .loose index types = true)
    (hcount : m.parameters.length ≤ index + types.length) :
    ∃ further, (∀ ty ∈ further, m.variadic = some ty) ∧
      Value.AllTyped t σ (m.parameters.drop index ++ further) (m.coerceFrom index values) := by
  induction types generalizing values index with
  | nil =>
    cases values with
    | nil =>
      refine ⟨[], by simp, ?_⟩
      rw [List.drop_eq_nil_of_le (by simpa using hcount)]
      trivial
    | cons => exact hvalues.elim
  | cons ty types ih =>
    cases values with
    | nil => exact hvalues.elim
    | cons v values =>
      simp only [takesFrom, Bool.and_eq_true] at htakes
      obtain ⟨hfirst, hrest⟩ := htakes
      obtain ⟨further, hfurther, htyped⟩ := ih hvalues.2 hrest (by simp only [List.length_cons] at hcount; omega)
      cases hparameter : m.parameterType index with
      | none => simp [hparameter] at hfirst
      | some parameter =>
        rw [hparameter] at hfirst
        have hv : (v.coerce parameter).Typed t σ parameter := hvalues.1.coerce hwf hfirst
        rw [coerceFrom, hparameter]
        unfold parameterType at hparameter
        by_cases hindex : index < m.parameters.length
        · rw [List.getElem?_eq_getElem hindex, Option.some_or, Option.some.injEq] at hparameter
          refine ⟨further, hfurther, ?_⟩
          rw [List.drop_eq_getElem_cons hindex, hparameter]
          exact ⟨hv, htyped⟩
        · rw [List.getElem?_eq_none (by omega), Option.none_or] at hparameter
          refine ⟨parameter :: further, List.forall_mem_cons.mpr ⟨hparameter, hfurther⟩, ?_⟩
          rw [List.drop_eq_nil_of_le (by omega)] at htyped ⊢
          exact ⟨hv, htyped⟩

theorem Member.UsableWith.fed {t : HostTypes} {σ : HeapTyping} (hwf : t.classes.WellFormed) {m : Member}
    {arguments : List Expr} {values : List Value} (h : m.UsableWith t.classes arguments)
    (hvalues : Value.AllTyped t σ (arguments.map Expr.ty) values) : m.Fed t σ (m.coerceFrom 0 values) := by
  rcases h with ⟨hkind, rfl⟩ | htakes
  · cases values with
    | nil => exact .inl ⟨hkind, rfl⟩
    | cons => exact hvalues.elim
  · simp only [takes, Bool.and_eq_true] at htakes
    have hcount : m.parameters.length ≤ (arguments.map Expr.ty).length := by
      have hcount := htakes.1
      unfold takesCount at hcount
      split at hcount
      · exact of_decide_eq_true hcount
      · exact Nat.le_of_eq (of_decide_eq_true hcount).symm
    obtain ⟨further, hfurther, htyped⟩ := allTyped_of_takesFrom hwf hvalues htakes.2 (by simpa using hcount)
    exact .inr ⟨further, hfurther, htyped⟩

/-- What the types of expressions rest on: the host keeps types, its classes are in order, and calls of functions give
values of the types that the functions declare. -/
structure Checking.Sound (t : HostTypes) (s : Setting) (invoke : RecordedInvoke) (k : Checking) : Prop where
  setting : s.classes = t.classes
  host : k.registry.Sound t
  wellFormed : t.classes.WellFormed
  calls : ∀ function signature, k.signatures[function]? = some signature → ∀ σ arguments p,
    Yields t (∀ v ∈ arguments, v.Located σ) σ (invoke function arguments p) fun σ v =>
      v.Typed t σ signature.returns

theorem Checking.Sound.classes {t : HostTypes} {s : Setting} {invoke : RecordedInvoke} {k : Checking}
    (h : k.Sound t s invoke) : k.classes = t.classes :=
  h.host.classes.symm

section Evaluator

variable {t : HostTypes} {s : Setting} {invoke : RecordedInvoke} {k : Checking} {visible : Lexical}

theorem isSome_elementType? {ty key value : Ty} (h : Grammar.indexTypes? ty = some (key, value)) :
    (Grammar.elementType? ty).isSome = true := by
  unfold Grammar.indexTypes? at h
  split at h <;> first | rfl | cases h

theorem eq_of_indexTypes? {kind : SequenceKind} {element key value : Ty}
    (h : Grammar.indexTypes? (.sequence kind element) = some (key, value)) : value = element := by
  cases kind <;> cases h <;> rfl

mutual

theorem Expr.record_yields (hk : k.Sound t s invoke) {P : Prop} : ∀ (e : Expr) (σ : HeapTyping), e.Checked k visible →
    Yields t P σ (e.record s visible invoke) fun σ v => v.Typed t σ e.ty
  | .literal info v, σ, h => by
    rw [Expr.record]
    obtain ⟨hplain, hfits⟩ := h.here
    exact .giving (.pure fun _ _ _ => ⟨hk.classes ▸ hfits, .of_isPlain hplain⟩)
  | .variable info ref, σ, h => by
    rw [Expr.record]
    exact .giving (.read info.position fun _ => h.here.1)
  | .unary info op operand, σ, h => by
    rw [Expr.record]
    refine .giving <| (operand.record_yields hk σ (h.inside _ (by simp [Expr.children]))).bind fun v σ₁ _ =>
      .quietly fun hv => .located _ fun w σ₂ _ hw => ?_
    have htype := UnaryOp.runtimeType_apply hw
    cases op with
    | not => exact Value.Typed.of_eq (.of_runtimeType htype (by cases w <;> trivial)) h.here
    | negate =>
      obtain ⟨hty, hnumeric⟩ := h.here
      have hoperand : w.runtimeType = operand.ty := htype.trans (hv.2.fits.runtimeType_eq hnumeric)
      exact Value.Typed.of_eq (.of_runtimeType hoperand (Value.isPlain_of_isNumeric (hoperand ▸ hnumeric))) hty
  | .binary info left op right operandType, σ, h => by
    rw [Expr.record]
    have hoperation : Operation.infixed k.classes op left.ty right.ty = some ⟨info.ty, operandType⟩ := h.here
    rw [hk.classes] at hoperation
    refine .giving <| (left.record_yields hk σ (h.inside _ (by simp [Expr.children]))).bind fun l σ₁ _ =>
      (right.record_yields hk σ₁ (h.inside _ (by simp [Expr.children]))).bind fun r σ₂ hσ₂ => .quietly fun hv =>
        Sustains.run_heap.bind fun _ σ₃ hσ₃ _ => .located _ fun w σ₄ _ hw => ?_
    exact ⟨InfixOp.fits_apply hk.wellFormed hoperation hv.1.2.fits hw, .of_isPlain (InfixOp.isPlain_apply hw)⟩
  | .logical info left op right, σ, h => by
    rw [Expr.record]
    have hbool : ∀ (b : Bool) (σ : HeapTyping), (Value.bool b).Typed t σ info.ty := fun b σ =>
      .of_eq (.of_runtimeType rfl trivial) h.here
    refine .giving <| (left.record_yields hk σ (h.inside _ (by simp [Expr.children]))).bind fun l σ₁ _ =>
      (Yields.located _ _).bind fun decided σ₂ _ => ?_
    split
    · exact .pure fun _ σ₃ _ => hbool _ σ₃
    · exact .pure fun _ σ₃ _ => hbool _ σ₃
    · exact (right.record_yields hk σ₂ (h.inside _ (by simp [Expr.children]))).bind fun r σ₃ _ =>
        (Yields.located _ _).bind fun _ _ _ =>
          .pure fun _ σ₅ _ => hbool _ σ₅
  | .ternary info condition thenCase elseCase, σ, h => by
    rw [Expr.record]
    obtain ⟨hthen, helse⟩ := h.here
    rw [hk.classes] at hthen helse
    refine .giving <| (condition.record_yields hk σ (h.inside _ (by simp [Expr.children]))).bind fun b σ₁ _ =>
      (Yields.located _ _).bind fun decided σ₂ _ => ?_
    cases decided with
    | true =>
      exact (thenCase.record_yields hk σ₂ (h.inside _ (by simp [Expr.children]))).bind fun v σ₃ _ =>
        .pure fun hv σ₄ hσ => (hv.2.coerce hk.wellFormed hthen).mono hσ
    | false =>
      exact (elseCase.record_yields hk σ₂ (h.inside _ (by simp [Expr.children]))).bind fun v σ₃ _ =>
        .pure fun hv σ₄ hσ => (hv.2.coerce hk.wellFormed helse).mono hσ
  | .assign info target op value operandType, σ, h => by
    rw [Expr.record, hk.setting]
    refine .giving <| (target.recordSlot_yields hk σ h.here fun x hx => h.inside x (List.mem_append_left _ hx)).bind
      fun slot σ₁ _ => ?_
    cases op with
    | none =>
      exact (value.record_yields hk σ₁ (h.inside _ (by simp [Expr.children]))).bind fun v σ₂ hσ₂ =>
        .write _ (fun hv => hv.1.2.mono hσ₂) fun hv => hv.2.located
    | some op =>
      refine (Yields.read _ fun hslot => hslot.2).bind fun current σ₂ hσ₂ =>
        (value.record_yields hk σ₂ (h.inside _ (by simp [Expr.children]))).bind fun v σ₃ hσ₃ =>
          (Yields.quietly (R := fun _ w => w.IsPlain) fun _ => Sustains.run_heap.bind fun _ _ _ _ =>
            .located _ fun w _ _ hw => CompoundOp.isPlain_apply hw).bind fun w σ₄ hσ₄ => ?_
      exact .write _ (fun hw => hw.1.1.1.2.mono (hσ₂.trans (hσ₃.trans hσ₄))) fun hw => .of_isPlain hw.2
  | .increment info target decrement prefixed, σ, h => by
    rw [Expr.record, hk.setting]
    refine .giving <| (target.recordSlot_yields hk σ h.here fun x hx => h.inside x hx).bind fun slot σ₁ _ =>
      (Yields.read _ fun hslot => hslot.2).bind fun current σ₂ hσ₂ =>
        (Yields.quietly (R := fun _ w => w.IsPlain) fun _ => Sustains.run_heap.bind fun _ _ _ _ =>
          .located _ fun w _ _ hw => InfixOp.isPlain_apply hw).bind fun w σ₃ hσ₃ =>
            (Yields.write _ (fun hw => hw.1.1.2.mono (hσ₂.trans hσ₃)) fun hw => .of_isPlain hw.2).bind
              fun updated σ₄ hσ₄ => .pure fun hu σ₅ hσ₅ => ?_
    cases prefixed with
    | true => exact hu.2.mono hσ₅
    | false => exact hu.1.1.2.mono (hσ₃.trans (hσ₄.trans hσ₅))
  | .cast info operand, σ, h => by
    rw [Expr.record, hk.setting]
    refine .giving <| (operand.record_yields hk σ (h.inside _ (by simp [Expr.children]))).bind fun v σ₁ _ =>
      .quietly fun hv => .located _ fun w σ₂ hσ₂ hw => ⟨Value.fits_of_cast hw, ?_⟩
    rcases Value.cast_eq_or_isPlain hw with rfl | hplain
    · exact hv.2.located.mono hσ₂
    · exact .of_isPlain hplain
  | .call info function arguments, σ, h => by
    rw [Expr.record]
    obtain ⟨signature, hsignature, hty⟩ := h.here
    refine .giving <| (Expr.recordAll_yields hk arguments σ fun x hx => h.inside x hx).bind fun values σ₁ _ => ?_
    exact ((hk.calls function signature hsignature σ₁ values info.position).given fun hv => hv.2.located).imp
      fun _ _ _ _ hv => hv.of_eq hty
  | .staticMember info member arguments, σ, h => by
    rw [Expr.record]
    obtain ⟨husable, owner, howner, hty⟩ := h.here
    refine .giving <| (Expr.recordAll_yields hk arguments σ fun x hx => h.inside x hx).bind fun values σ₁ _ =>
      .quietly fun hv => .host ?_ _
    have hfed := (hk.classes ▸ husable : member.UsableWith t.classes arguments).fed hk.wellFormed hv.2
    refine (hk.host.statics owner member howner σ₁ _ hfed).imp fun σ₂ v _ hresult => ?_
    rcases hty with hty | ⟨hnew, htext⟩
    · exact hresult.1.of_eq hty
    · exact hresult.2 hnew info.ty htext
  | .instanceMember info member receiver arguments, σ, h => by
    rw [Expr.record]
    obtain ⟨husable, hty, name, hmember⟩ := h.here
    refine .giving <| (receiver.record_yields hk σ (h.inside _ List.mem_cons_self)).bind fun v σ₁ _ => ?_
    split
    · exact .quietly fun _ => .fail _ _
    · next hnull =>
      refine (Expr.recordAll_yields hk arguments σ₁ fun x hx => h.inside x (List.mem_cons_of_mem _ hx)).bind
        fun values σ₂ hσ₂ => .quietly fun hv => .host ?_ _
      have hfed := (hk.classes ▸ husable : member.UsableWith t.classes arguments).fed hk.wellFormed hv.2
      have hserves := hk.host.valueMembers hmember σ₂ v _ (hv.1.2.mono hσ₂) (by simpa using hnull) hfed
      exact hserves.imp fun _ _ _ hresult => hresult.of_eq hty
  | .index info collection key, σ, h => by
    rw [Expr.record]
    obtain ⟨keyType, htypes, -⟩ := h.here
    refine .giving <| (collection.record_yields hk σ (h.inside _ (by simp [Expr.children]))).bind fun v σ₁ _ =>
      (Yields.quietly fun hv => .collection hv.2 (isSome_elementType? htypes)).bind fun found σ₂ _ => ?_
    cases found with
    | sequence kind element a =>
      refine (key.record_yields hk σ₂ (h.inside _ (by simp [Expr.children]))).bind fun _ σ₃ hσ₃ =>
        (Yields.located _ _).bind fun index σ₄ hσ₄ =>
          .quietly fun hv => ?_
      obtain ⟨hty, ha⟩ := hv.1.1.2
      have helement : info.ty = element := eq_of_indexTypes? (hty ▸ htypes)
      exact (Sustains.item ((hσ₃.trans hσ₄) _ _ ha) _ _).imp fun _ _ _ hitem => hitem.of_eq helement
    | dictionary keys values a =>
      refine (key.record_yields hk σ₂ (h.inside _ (by simp [Expr.children]))).bind fun _ σ₃ hσ₃ =>
          .quietly fun hv => ?_
      obtain ⟨hty, ha⟩ := hv.1.2
      have hvalue : info.ty = values := by
        rw [hty] at htypes
        cases htypes
        rfl
      exact (Sustains.entry (hσ₃ _ _ ha) _ _).imp fun _ _ _ hentry => hentry.of_eq hvalue
  | .newSequence info kind element items, σ, h => by
    rw [Expr.record]
    obtain ⟨hty, haccepts⟩ := h.here
    rw [hk.classes] at haccepts
    refine .giving <| (Expr.recordAll_yields hk items σ fun x hx => h.inside x hx).bind fun values σ₁ _ =>
      .quietly fun hv => .host ?_ _
    refine (Sustains.newSequence fun v hin => ?_).imp fun _ _ _ hresult => hresult.of_eq hty
    refine hv.2.coerce hk.wellFormed (fun other hother => ?_) v (List.mem_toArray.mp hin)
    obtain ⟨e, he, rfl⟩ := List.mem_map.mp hother
    exact haccepts e he
  | .newArray info element length, σ, h => by
    rw [Expr.record]
    refine .giving <| (length.record_yields hk σ (h.inside _ (by simp [Expr.children]))).bind fun _ σ₁ _ =>
      (Yields.located _ _).bind fun n σ₂ _ =>
        .quietly fun _ => ?_
    exact (Sustains.newArray _ element n).imp fun _ _ _ hresult => hresult.of_eq h.here
  | .newDictionary info key value entries, σ, h => by
    rw [Expr.record]
    obtain ⟨hty, haccepts⟩ := h.here
    rw [hk.classes] at haccepts
    refine .giving <| (Expr.recordEntries_yields hk entries ⟨key, value, []⟩ σ (fun x hx => h.inside x hx) haccepts
      fun _ => ⟨rfl, rfl, fun p hp => (nomatch hp)⟩).bind fun d σ₁ _ => .quietly fun hd => .host ?_ _
    obtain ⟨-, rfl, rfl, htyped⟩ := hd
    exact (Sustains.newDictionary htyped).imp fun _ _ _ hresult => hresult.of_eq hty

theorem Expr.recordAll_yields (hk : k.Sound t s invoke) {P : Prop} : ∀ (es : List Expr) (σ : HeapTyping),
    (∀ e ∈ es, e.Checked k visible) →
    Yields t P σ (Expr.recordAll s visible invoke es) fun σ vs => Value.AllTyped t σ (es.map Expr.ty) vs
  | [], σ, _ => .pure fun _ _ _ => trivial
  | e :: rest, σ, h => by
    rw [Expr.recordAll]
    exact (e.record_yields hk σ (h e List.mem_cons_self)).bind fun v σ₁ _ =>
      (Expr.recordAll_yields hk rest σ₁ fun x hx => h x (List.mem_cons_of_mem _ hx)).bind fun vs σ₂ hσ₂ =>
        .pure fun hv σ₃ hσ₃ => ⟨hv.1.2.mono (hσ₂.trans hσ₃), hv.2.mono hσ₃⟩

theorem Expr.recordEntries_yields (hk : k.Sound t s invoke) {keyType valueType : Ty} :
    ∀ (entries : List (Expr × Expr)) (d : Dictionary) (σ : HeapTyping) {P : Prop},
    (∀ e ∈ entries.flatMap fun e => [e.1, e.2], e.Checked k visible) →
    (∀ e ∈ entries, t.classes.accepts keyType e.1.ty = true ∧ t.classes.accepts valueType e.2.ty = true) →
    (P → d.key = keyType ∧ d.value = valueType ∧ d.Typed t σ) →
    Yields t P σ (Expr.recordEntries s visible invoke d entries) fun σ d' =>
      d'.key = keyType ∧ d'.value = valueType ∧ d'.Typed t σ
  | [], d, σ, _, _, _, hd => .pure fun hp _ hσ => ⟨(hd hp).1, (hd hp).2.1, (hd hp).2.2.mono hσ⟩
  | (key, value) :: rest, d, σ, P, h, haccepts, hd => by
    rw [Expr.recordEntries]
    obtain ⟨⟨hkey, hvalue⟩, hrest⟩ := List.forall_mem_cons.mp haccepts
    refine (key.record_yields hk σ (h key (by simp))).bind fun k' σ₁ hσ₁ =>
      (value.record_yields hk σ₁ (h value (by simp))).bind fun v σ₂ hσ₂ => ?_
    refine (Yields.quietly (R := fun σ d' => d'.key = keyType ∧ d'.value = valueType ∧ d'.Typed t σ) fun hv =>
      Sustains.run_heap.bind fun _ σ₃ hσ₃ _ => .located _ fun d' σ₄ hσ₄ hadd => ?_).bind fun d' σ₃ _ => ?_
    · obtain ⟨⟨hp, hk'⟩, hv⟩ := hv
      obtain ⟨rfl, rfl, htyped⟩ := hd hp
      have hgrows := hσ₃.trans hσ₄
      have hentries := (htyped.mono (hσ₁.trans (hσ₂.trans hgrows))).add
        ((hk'.coerce hk.wellFormed hkey).mono (hσ₂.trans hgrows)) ((hv.coerce hk.wellFormed hvalue).mono hgrows) hadd
      cases Dictionary.eq_of_add hadd
      exact ⟨rfl, rfl, hentries⟩
    · exact Expr.recordEntries_yields hk rest d' σ₃ (fun x hx => h x (by
        simp only [List.flatMap_cons]
        exact List.mem_append_right _ hx)) hrest fun hd' => hd'.2

theorem Place.recordSlot_yields (hk : k.Sound t s invoke) {P : Prop} : ∀ (place : Place) (σ : HeapTyping) {ty : Ty},
    place.Holds k.classes visible ty → (∀ e ∈ place.children, e.Checked k visible) →
    Yields t P σ (place.recordSlot s visible invoke) fun σ slot => slot.Typed t σ ty
  | .variable ref, σ, ty, hholds, _ => .pure fun _ _ _ => hholds.1
  | .index collection key, σ, ty, hholds, h => by
    rw [Place.recordSlot]
    obtain ⟨keyType, htypes, haccepts⟩ := hk.classes ▸ hholds
    refine (collection.record_yields hk σ (h _ (by simp [Place.children]))).bind fun v σ₁ _ =>
      (Yields.quietly fun hv => .collection hv.2 (isSome_elementType? htypes)).bind fun found σ₂ _ => ?_
    cases found with
    | sequence kind element a =>
      refine (key.record_yields hk σ₂ (h _ (by simp [Place.children]))).bind fun _ σ₃ hσ₃ =>
        (Yields.located _ _).bind fun index σ₄ hσ₄ =>
          .pure fun hv σ₅ hσ₅ => ?_
      obtain ⟨hty, ha⟩ := hv.1.1.2
      have helement : ty = element := eq_of_indexTypes? (hty ▸ htypes)
      exact ⟨helement.symm, (hσ₃.trans (hσ₄.trans hσ₅)) _ _ ha⟩
    | dictionary keys values a =>
      refine (key.record_yields hk σ₂ (h _ (by simp [Place.children]))).bind fun w σ₃ hσ₃ =>
        .pure fun hv σ₄ hσ₄ => ?_
      obtain ⟨hty, ha⟩ := hv.1.2
      rw [hty] at htypes
      cases htypes
      exact ⟨rfl, (hσ₃.trans hσ₄) _ _ ha, (hv.2.coerce hk.wellFormed haccepts).mono hσ₄⟩

end

end Evaluator

end Scriptlet
