import Scriptlet.Proofs.Agreement
import Scriptlet.Proofs.LimitsAbort

/-!
# A budget ends every run, texts apart

Every round of a loop and every call passes a checkpoint, so under a budget the numbers of rounds and of calls that the
evaluator is given are only a matter of form: once there are more rounds than checkpoints and more calls than the
limits allow, they do not matter any more, and no run is broken off. Two things remain. The text of a collection that
contains itself has no end, and no checkpoint is passed on the way. And of a budget of the greatest size the count
starts over before it runs out.
-/

namespace Scriptlet

open Run Machine

section Budget

variable {n rounds rounds' : Nat} {m : Machine} {b : Budget} (hb : m.monitor.budget = some b) (hout : b.RunsOut)

theorem Setting.outlasts_spare (s : Setting) (hr : n ≤ rounds) : s.Outlasts (Spare n) rounds := by
  rintro f - - m ⟨b, hb, hout, hlt⟩
  exact ⟨b, hb, hout, by omega⟩

include hb hout

theorem Machine.spare_of_budget : m.Spare (b.limit.toNat + 2) :=
  ⟨b, hb, hout, Nat.lt_succ_of_le b.left_le⟩

/-- However much of a budget is used when a request begins, afterwards no more than the whole of it is left. -/
theorem Machine.begun_spare : m.begun.Spare (b.limit.toNat + 2) := by
  have hreset : m.resetMonitor.monitor.budget = some (.ofLimit b.limit) := by
    simp only [Machine.resetMonitor, Monitor.reset, Monitor.record, hb]
    cases m.monitor.deadline <;> rfl
  unfold Machine.begun
  split
  · exact spare_of_budget (b := .ofLimit b.limit) hreset hout
  · exact spare_of_budget hb hout

end Budget

/-- A script that calls itself from a loop without an end, and loops there again. -/
def Script.endless : String :=
  "void f(int n)\x7bwhile(true)if(n<1)f(n+1);\x7d"

/-- A script that puts a list into itself and asks for its text. -/
def Script.selfContained : String :=
  "int f()\x7bList<object> xs=new List<object>();xs.Add(xs);string s=\"\"+xs;return 1;\x7d"

def Setting.unlooped (s : Setting) : Bool :=
  s.functions.all fun f => !Statement.anyLoops f.body

/-- The text of the list has no end, under whatever limits the call can begin. -/
theorem Script.selfContained_endless :
    ∃ s, Script.compile .standard Script.selfContained = .ok s ∧ s.setting.unlooped = true ∧
      ∀ steps depth rounds, (∀ n ∈ steps, 1 ≤ n) → 1 ≤ depth →
        ∃ m, (Request.call s "f" []).run rounds (.fresh ⟨steps, none, depth⟩) = .error .endlessText m := by
  have hruns : ((Script.compile .standard Script.selfContained).toOption.any fun s => s.setting.unlooped &&
      Run.breaksOff .endlessText ((Request.call s "f" []).run 0 (.fresh ⟨some 1, none, 1⟩))) = true := by
    decide +kernel
  obtain ⟨s, hs, hruns⟩ := exists_ok_of_any hruns
  obtain ⟨hunlooped, hends⟩ := Bool.and_eq_true_iff.mp hruns
  refine ⟨s, hs, hunlooped, fun steps depth rounds hsteps hdepth => ?_⟩
  have hlooser : (Machine.fresh ⟨some 1, none, 1⟩).Looser (.fresh ⟨steps, none, depth⟩) := by
    refine ⟨rfl, fun b hb => ?_, rfl, rfl, hdepth⟩
    obtain ⟨n, hn, rfl⟩ := Option.map_eq_some_iff.mp hb
    exact ⟨_, rfl, hsteps n hn⟩
  obtain ⟨m, hrun⟩ := exists_error_of_breaksOff hends
  have huncut : ∀ e m₁, (Request.call s "f" []).run 0 (.fresh ⟨some 1, none, 1⟩) = .error e m₁ →
      ¬ e.CutsShort rounds := by
    intro e m₁ h
    cases hrun.symm.trans h
    exact id
  obtain ⟨monitor, limits, hsame⟩ := Request.run_looser _ hlooser rfl huncut
  rw [hrun, Nat.zero_add] at hsame
  exact ⟨_, hsame⟩

end Scriptlet
