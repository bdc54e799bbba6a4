import Scriptlet.Proofs.Scoping.Preparation
import Scriptlet.Proofs.Soundness.Statements

/-!
# Preparations and calls keep types

Running the declarations at the top of a checked program leaves the state typed, and so does every call of one of its
functions by the host.
-/

namespace Scriptlet

open Recorded

variable {t : HostTypes} {σ : HeapTyping}

/-- A computation that at every state does what some computation does that keeps types. -/
theorem Yields.of_pointwise {P : Prop} {α : Type} {R : HeapTyping → α → Prop}
    {x : Recorded α} (h : ∀ c, ∃ y, Yields t P σ y R ∧ x c = y c) : Yields t P σ x R := by
  refine ⟨fun c => ?_, fun hp σ₁ c hσ hc htrust => ?_⟩
  · obtain ⟨y, hy, hxy⟩ := h c
    exact hxy ▸ hy.grows c
  · obtain ⟨y, hy, hxy⟩ := h c
    rw [hxy] at htrust ⊢
    exact hy.holds hp σ₁ c hσ hc htrust

/-- A global is defined only with a value that fits. -/
theorem Bindings.Typed.define {globals globals' : Bindings} {name : String} {ty : Ty}
    {v : Value} (h : globals.Typed t σ) (hv : v.Located σ)
    (hdefine : Bindings.define t.classes globals name ty v = .ok globals') : globals'.Typed t σ := by
  obtain ⟨kept, -, haccepts, rfl⟩ := put_of_define hdefine
  exact h.put (.of_accepts haccepts hv)

theorem Setting.recordEvaluate_yields {r : Registry} {top visible : Lexical} {s : Setting} {P : Prop} {e : Expr}
    (hs : s.Sound t r top) (rounds : Nat) (he : e.Checked (s.checking r .void) visible) :
    Yields t P σ (s.recordEvaluate top visible rounds e) fun σ v => v.Typed t σ e.ty := by
  refine .of_pointwise fun c => ⟨_, e.record_yields ?_ σ he, rfl⟩
  exact hs.recordInvoke rounds (c.machine.limits.maxCallDepth + 1) .void

namespace Declaration

variable {t : HostTypes} {r : Registry} {top visible : Lexical} {s : Setting} {P : Prop} {σ : HeapTyping}
  {d : Declaration}

theorem recordInitial_yields (hs : s.Sound t r top) (rounds : Nat)
    (hinitial : ∀ e ∈ d.initial, e.CheckedAs (s.checking r .void) visible d.ty) :
    Yields t P σ (d.recordInitial s top visible rounds) fun σ v => v.Typed t σ d.ty := by
  unfold recordInitial
  cases he : d.initial with
  | none => exact .pure fun _ _ _ => .default d.ty
  | some e =>
    obtain ⟨hchecked, haccepts⟩ := hinitial e (he ▸ rfl)
    have hclasses : (s.checking r .void).classes = t.classes := hs.host.classes.symm
    rw [hclasses] at haccepts
    exact (Setting.recordEvaluate_yields hs rounds hchecked).bind fun v σ₁ _ => .pure fun hv σ₂ hσ =>
      (hv.2.coerce hs.wellFormed haccepts).mono hσ

theorem recordGlobal_yields (hs : s.Sound t r top) (rounds : Nat)
    (hinitial : ∀ e ∈ d.initial, e.CheckedAs (s.checking r .void) visible d.ty) :
    Yields t P σ (d.recordGlobal s top visible rounds) fun _ _ => True := by
  refine (recordInitial_yields hs rounds hinitial).bind fun v σ₁ _ => .quietly fun hv =>
    .of_final fun σ₂ m hm hσ => ?_
  rw [Run.define_eq, hs.classes]
  cases hdefine : Bindings.define t.classes m.globals d.name d.ty v with
  | error fault => exact hm
  | ok globals => exact ⟨hm.heap, hm.globals.define (hv.2.located.mono hσ) hdefine, hm.members, hm.frames⟩

theorem record_yields (hs : s.Sound t r top) (rounds : Nat)
    (hinitial : ∀ e ∈ d.initial, e.CheckedAs (s.checking r .void) visible d.ty) :
    Yields t P σ (d.record s top visible rounds) fun _ _ => True := by
  have hfail : ∀ (fault : Fault), Yields t P σ (Recorded.quietly (Run.fail fault d.position)) fun _ (_ : Unit) => True :=
    fun fault => .quietly fun _ => .fail fault d.position
  have hgiven : ∀ existing, Yields t P σ (d.recordGiven s top visible rounds existing) fun _ _ => True := by
    intro existing
    unfold recordGiven
    cases d.storage with
    | member =>
      refine (recordInitial_yields hs rounds hinitial).bind fun v σ₁ _ => (Yields.note (by simp)).bind fun _ σ₂ hσ₂ =>
        .quietly fun hv => .of_final fun σ₃ m hm hσ₃ => ?_
      exact ⟨hm.heap, hm.globals, hm.members.put (hv.1.2.mono (hσ₂.trans hσ₃)), hm.frames⟩
    | shared =>
      cases existing with
      | none => exact recordGlobal_yields hs rounds hinitial
      | some ty =>
        dsimp only
        split
        · exact .pure fun _ _ _ => trivial
        · exact hfail _
    | required =>
      cases existing with
      | none =>
        dsimp only
        split
        · exact hfail _
        · exact recordGlobal_yields hs rounds hinitial
      | some ty =>
        dsimp only
        split
        · exact .pure fun _ _ _ => trivial
        · exact hfail _
  exact .of_pointwise fun c => ⟨_, hgiven _, rfl⟩

theorem recordAll_yields (hs : s.Sound t r top) (rounds : Nat) (declarations : List Declaration) {P : Prop}
    (σ : HeapTyping) (hchecked : AllChecked (s.checking r .void) visible declarations) :
    Yields t P σ (recordAll s top rounds visible declarations) fun _ _ => True := by
  induction declarations generalizing visible σ P with
  | nil => exact .pure fun _ _ _ => trivial
  | cons d rest ih =>
    obtain ⟨-, hinitial, hrest⟩ := hchecked
    exact (record_yields hs rounds hinitial).bind fun _ σ₁ _ => ih σ₁ hrest

end Declaration

namespace Script

variable {t : HostTypes} {s : Script} {P : Prop} {σ : HeapTyping}

theorem recordPrepare_yields (hs : s.setting.Sound t s.registry s.top) (hchecked : s.program.Checked s.registry)
    (rounds : Nat) : Yields t P σ (s.recordPrepare rounds) fun _ _ => True :=
  (Yields.quietly fun _ => .begin).bind fun _ σ₁ _ =>
    Declaration.recordAll_yields hs rounds s.program.declarations σ₁ hchecked.declarations

/-- A call by name keeps types, and the host gets a value that refers to what it should. -/
theorem recordCall_yields (hs : s.setting.Sound t s.registry s.top) (rounds : Nat) (name : String)
    (arguments : List Value) :
    Yields t (∀ v ∈ arguments, v.Located σ) σ (s.recordCall rounds name arguments) fun σ result =>
      ∀ v ∈ result, v.Located σ := by
  have hcall : ∀ (index : Nat) (p : Position) (σ : HeapTyping), Yields t (∀ v ∈ arguments, v.Located σ) σ
      (s.setting.recordCall s.top rounds index arguments p) fun σ v => v.Located σ := by
    intro index p σ
    refine .of_pointwise fun c =>
      ⟨s.setting.recordInvoke s.top rounds (c.machine.limits.maxCallDepth + 1) index arguments p, ?_, rfl⟩
    have hcalls := hs.recordInvoke rounds (c.machine.limits.maxCallDepth + 1) .void
    cases hf : s.setting.functions[index]? with
    | none =>
      simp only [Setting.recordInvoke, hf]
      exact .quietly fun _ => .fail _ _
    | some f =>
      have hsignature : (s.setting.checking s.registry .void).signatures[index]? = some f.signature := by
        simp [Setting.checking, hf]
      exact (hcalls.calls index f.signature hsignature σ arguments p).imp fun _ _ _ _ hv => hv.located
  unfold recordCall
  refine (Yields.located _ _).bind fun found σ₁ hσ₁ =>
    (Yields.quietly fun _ => .begin).bind fun _ σ₂ hσ₂ => ((hcall found.1 _ σ₂).given fun h v hv =>
      (h.1.1 v hv).mono (hσ₁.trans hσ₂)).bind fun v σ₃ _ => .pure fun hv σ₄ hσ₄ w hw => ?_
  split at hw
  · cases hw
  · cases hw
    exact hv.2.mono hσ₄

end Script

end Scriptlet
