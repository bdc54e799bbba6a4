import Scriptlet.Proofs.Termination

/-!
# The depth of calls ends every run without open loops

A loop over a collection visits the items that are there when it begins. So where no `while` and no `for` occurs, only
calls can keep a run going, and these are ended by the limit on their depth alone, without a budget: no loop asks for
rounds, and no call gets so deep that it matters what the evaluator would do there. Again the text of a collection that
contains itself is left out.
-/

namespace Scriptlet

open Run Machine

theorem Setting.outlasts_of_unlooped {s : Setting} (h : s.unlooped = true) (J : Machine → Prop) (rounds : Nat) :
    s.Outlasts J rounds := by
  intro f hf hloops
  have hnone := List.all_eq_true.mp h f hf
  simp [hloops] at hnone

theorem Machine.true_enduring : Enduring fun _ => True :=
  ⟨fun _ _ => trivial, fun _ _ => trivial⟩

/-- A script that adds to the list over which it loops, and calls itself there without an end. -/
def Script.growing : String :=
  "void f(List<int> xs)\x7bforeach(int x in xs)\x7bxs.Add(x);f(xs);\x7d\x7d"

/-- A machine without a budget, with a list of one number. -/
def Machine.withList : Machine :=
  { Machine.fresh ⟨none, none, 3⟩ with world := ⟨⟨#[.items #[.int 7]]⟩, ⟨"", none⟩, ⟨fun _ => 0, 0⟩⟩ }

end Scriptlet
