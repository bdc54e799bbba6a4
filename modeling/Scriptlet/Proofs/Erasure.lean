import Scriptlet.Proofs.Lockstep

/-!
# Recorded runs are runs

Keeping a record changes nothing: the plain run of the same program ends in the same way and in the same state.
-/

namespace Scriptlet

namespace Lockstep

/-- Two runs that are at any time in the same state. -/
def exact : Lockstep where
  now c m := m = c.machine
  ended _ c m := m = c.machine
  cut _ _ _ := False
  grows _ _ := True
  rounds := 0
  depth := 0

theorem exact_quietly {α : Type} (x : Run α) : exact.Follows (Recorded.quietly x) x := by
  refine ⟨fun _ => trivial, ?_⟩
  rintro c m rfl
  unfold Recorded.quietly
  cases hx : x c.machine with
  | ok a m => exact .ok rfl
  | error e m => exact .error rfl

theorem exact_passed {x : Run Unit} (e : Event) :
    exact.Follows (do Recorded.quietly x; Recorded.note (.passed e)) x := by
  refine ⟨fun _ => trivial, ?_⟩
  rintro c m rfl
  change exact.Outcome (EStateM.bind (Recorded.quietly x) _ c) _
  unfold EStateM.bind Recorded.quietly
  cases hx : x c.machine with
  | ok a m => exact .ok rfl
  | error e m => exact .error rfl

theorem exact_lawful : exact.Lawful where
  grows_refl _ := trivial
  grows_trans _ _ := trivial
  grows_inner _ := trivial
  cut_grows h _ := h.elim
  now_inner {f} _ _ _ h := congrArg f h
  ended_inner {f} _ _ _ _ h := congrArg f h
  cut_inner _ h := h.elim
  now_note _ h := h
  plain {_ x} _ := exact_quietly x
  checkpoint e _ := exact_passed e
  enterCall _ := exact_passed .functionEntry
  exhausted {_ y} _ hy := by
    rw [hy rfl]
    refine ⟨fun _ => trivial, ?_⟩
    rintro c m rfl
    exact .error rfl
  now_eq h := by
    subst h
    rfl
  now_depth h := by
    subst h
    rfl
  deepest {_ y p} _ hy := by
    rw [hy rfl]
    exact exact_quietly _

theorem exact_admits (member : Member) : exact.Admits member :=
  fun _ _ => exact_quietly _

theorem exact_uses (e : Expr) : e.All (Expr.Uses exact.Admits) :=
  .of_forall (fun e => by cases e <;> first | trivial | exact exact_admits _) e

theorem exact_admitted (s : Setting) : s.Admitted exact :=
  fun _ _ e _ => exact_uses e

end Lockstep

namespace Recorded

/-- Without its record, the first computation is the second one. -/
def Erases {α : Type} (x : Recorded α) (y : Run α) : Prop :=
  ∀ c, mapState Chronicle.machine (x c) = y c.machine

theorem Erases.of_follows {α : Type} {x : Recorded α} {y : Run α} (h : Lockstep.exact.Follows x y) :
    Erases x y := by
  intro c
  have ho := h.outcome c c.machine rfl
  generalize x c = r, y c.machine = r' at ho
  cases ho with
  | ok h => exact congrArg (EStateM.Result.ok _) h.symm
  | error h => exact congrArg (EStateM.Result.error _) h.symm
  | cut h => exact h.elim

theorem Erases.finalState {α : Type} {x : Recorded α} {y : Run α} (h : Erases x y) (c : Chronicle) :
    (Scriptlet.finalState (x c)).machine = Scriptlet.finalState (y c.machine) := by
  rw [← h c]
  cases x c <;> rfl

end Recorded

open Lockstep Recorded

theorem Setting.recordExecute_erases (s : Setting) (top visible : Lexical) (rounds : Nat)
    (statement : Statement) : Erases (s.recordExecute top visible rounds statement) (s.execute rounds statement) :=
  .of_follows (Setting.recordExecute_follows exact_lawful (exact_admitted s) top visible rounds statement
    fun e _ => exact_uses e)

theorem Setting.recordEvaluate_erases (s : Setting) (top visible : Lexical) (rounds : Nat) (e : Expr) :
    Erases (s.recordEvaluate top visible rounds e) (s.evaluate rounds e) :=
  .of_follows (Setting.recordEvaluate_follows exact_lawful (exact_admitted s) top visible rounds e (exact_uses e))

theorem Setting.recordCall_erases (s : Setting) (top : Lexical) (rounds index : Nat) (arguments : List Value)
    (p : Position) : Erases (s.recordCall top rounds index arguments p) (s.call rounds index arguments p) :=
  .of_follows (Setting.recordCall_follows exact_lawful (exact_admitted s) top rounds index arguments p)

theorem Script.recordPrepare_erases (s : Script) (rounds : Nat) : Erases (s.recordPrepare rounds) (s.prepare rounds) :=
  .of_follows (.bind exact_lawful (exact_quietly _) fun _ =>
    Declaration.recordAll_follows exact_lawful (exact_admitted s.setting) s.top rounds _ [] fun e _ => exact_uses e)

theorem Script.recordCall_erases (s : Script) (rounds : Nat) (name : String) (arguments : List Value) :
    Erases (s.recordCall rounds name arguments) (s.call rounds name arguments) :=
  .of_follows (.bind exact_lawful (exact_quietly _) fun _ => .bind exact_lawful (exact_quietly _) fun _ =>
    .bind exact_lawful (Setting.recordCall_follows exact_lawful (exact_admitted s.setting) s.top rounds _ _ _)
      fun _ => .pure exact_lawful _)

theorem Formula.record_erases (f : Formula) (visible : Lexical) (rounds : Nat) :
    Erases (f.record visible rounds) (f.evaluate rounds) :=
  .of_follows (.bind exact_lawful (exact_quietly _) fun _ =>
    Setting.recordEvaluate_follows exact_lawful (exact_admitted _) [] visible rounds f.expr (exact_uses _))

end Scriptlet
