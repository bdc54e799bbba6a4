import Scriptlet.Proofs.Frames
import Scriptlet.Proofs.Compiled.Programs
import Scriptlet.Proofs.TighterLimits

/-!
# Limits abort and do nothing else

Whatever a host asks of a compiled script or formula in an idle context: if the limits do not stop it, looser ones
give the same, and if the budget stops it, it has been spent since the request began, and nothing was written that
would not have been written under looser limits.
-/

namespace Scriptlet

/-- A member that only adds to the output and does not report that a limit was exceeded. -/
structure Member.RespectsLimits (m : Member) : Prop where
  output : ∀ arguments (w : World), w.output.Extends (finalState (m.call arguments w)).output
  faults : ∀ arguments w fault w', m.call arguments w = .error fault w' → ¬ fault.IsLimit

theorem Member.Orderly.respectsLimits {m : Member} (h : m.Orderly) : m.RespectsLimits where
  output arguments := (h arguments).output
  faults arguments w fault w' hcall hlimit := by
    obtain ⟨rfl, -⟩ := (h arguments).faults w fault w' hcall hlimit.isAmbient
    exact hlimit

theorem Member.RespectsLimits.admitted {m : Member} (h : m.RespectsLimits) (tracks : Prop) (rounds depth : Nat) :
    (Lockstep.relaxed tracks rounds depth).Admits m :=
  fun p arguments => Lockstep.relaxed_host p _ (fun _ => h.output arguments)
    fun _ w w' fault => h.faults arguments w fault w'

namespace Request

/-- A request about something that was compiled for a host. -/
def Compiled (r : Registry) : Request → Prop
  | .prepare script | .call script _ _ => ∃ source, Script.compile r source = .ok script
  | .evaluate formula => ∃ source inputs, Formula.compile r source inputs = .ok formula

theorem Compiled.exprs {r : Registry} {request : Request} (h : request.Compiled r) :
    ∀ e ∈ request.exprs, e.CheckedFor r := by
  cases request with
  | prepare script =>
    obtain ⟨source, hsource⟩ := h
    exact (Script.checked_of_compile hsource).2.exprs
  | call script name arguments =>
    obtain ⟨source, hsource⟩ := h
    exact (Script.checked_of_compile hsource).2.exprs
  | evaluate formula =>
    obtain ⟨source, inputs, hsource⟩ := h
    obtain ⟨-, visible, hchecked⟩ := Formula.checked_of_compile hsource
    intro e he
    obtain rfl := List.mem_singleton.mp he
    exact ⟨_, rfl, visible, hchecked⟩

/-- What holds of the registered members and of all orderly ones holds of the members that a request uses. -/
theorem Compiled.uses {r : Registry} {request : Request} (h : request.Compiled r) {P : Member → Prop}
    (hr : r.AllMembers P) (horderly : ∀ m : Member, m.Orderly → P m) :
    ∀ e ∈ request.exprs, e.All (Expr.Uses P) :=
  fun e he => (h.exprs e he).uses hr.1 fun _ _ _ => hr.valueMembers horderly

variable {m m' : Machine}

theorem run_looser (request : Request) (h : m.Looser m') (hidle : m.isIdle = true) {rounds more : Nat}
    (hrun : ∀ e m₁, request.run rounds m = .error e m₁ → ¬ e.CutsShort more) :
    ∃ monitor limits, request.run (rounds + more) m' = mapState (·.watched monitor limits) (request.run rounds m) := by
  have hfollows : (Lockstep.relaxed False more (m'.limits.maxCallDepth - m.limits.maxCallDepth)).Outcome
      (request.record rounds ⟨m, []⟩) (request.run (rounds + more) m') :=
    request.record_follows h hidle rounds more fun e _ => .of_forall (fun e => by
      cases e <;> first | trivial | exact fun p arguments => Lockstep.relaxed_host p _ False.elim False.elim) e
  rw [← request.record_erases rounds ⟨m, []⟩] at hrun ⊢
  generalize request.record rounds ⟨m, []⟩ = x, request.run (rounds + more) m' = y at hfollows hrun ⊢
  cases hfollows with
  | ok hnow => exact ⟨_, _, congrArg _ hnow.1⟩
  | error hended => exact ⟨_, _, congrArg _ hended.1⟩
  | cut hcut => exact absurd hcut.1 (hrun _ _ rfl)

/-- A request that the budget stops has spent all of it since it began, and what it has written is written under
looser limits as well. -/
theorem record_stopped {r : Registry} {request : Request} (hrequest : request.Compiled r) (h : m.Looser m')
    (hidle : m.isIdle = true) (hr : r.AllMembers Member.RespectsLimits) (rounds more : Nat) {n : Nat} {p : Position}
    {c : Chronicle} (hrecord : request.record rounds ⟨m, []⟩ = .error (.fault ⟨.stepLimitExceeded n, p⟩) c) :
    c.passes = n ∧ c.machine.world.output.Extends (finalState (request.run (rounds + more) m')).world.output := by
  have hfollows : (Lockstep.relaxed True more (m'.limits.maxCallDepth - m.limits.maxCallDepth)).Outcome
      (request.record rounds ⟨m, []⟩) (request.run (rounds + more) m') :=
    request.record_follows h hidle rounds more fun e he =>
      (hrequest.uses hr (fun _ => Member.Orderly.respectsLimits) e he).mono
        (Expr.Uses.mono fun _ hm => hm.admitted _ _ _)
  rw [hrecord] at hfollows
  generalize request.run (rounds + more) m' = y at hfollows ⊢
  cases hfollows with
  | error hended => exact absurd trivial (hended.2 trivial _ rfl)
  | cut hcut =>
    obtain ⟨houtput, hpasses⟩ := hcut.2 trivial
    exact ⟨hpasses n p rfl, houtput⟩

end Request

/-- If a request in an idle context is not stopped by a limit, it gives the same result or fault, output, variables
and collections under looser limits. If it is stopped by a budget of `n`, then exactly `n` checkpoints were passed
since it began, and its output is a prefix of the output under looser limits. -/
theorem limits_only_abort {r : Registry} {request : Request} (hrequest : request.Compiled r) {m m' : Machine}
    (h : m.Looser m') (hidle : m.isIdle = true) (rounds more : Nat) :
    ((∀ e m₁, request.run rounds m = .error e m₁ → ¬ e.CutsShort more) → ∃ monitor limits,
      request.run (rounds + more) m' = mapState (·.watched monitor limits) (request.run rounds m)) ∧
    (r.AllMembers Member.RespectsLimits → ∀ n p m₁,
      request.run rounds m = .error (.fault ⟨.stepLimitExceeded n, p⟩) m₁ →
        mapState Chronicle.machine (request.record rounds ⟨m, []⟩) = request.run rounds m ∧
        (finalState (request.record rounds ⟨m, []⟩)).passes = n ∧
        m₁.world.output.Extends (finalState (request.run (rounds + more) m')).world.output) := by
  refine ⟨request.run_looser h hidle, fun hr n p m₁ hrun => ?_⟩
  have herases := request.record_erases rounds ⟨m, []⟩
  refine ⟨herases, ?_⟩
  rw [← herases] at hrun
  cases hrecord : request.record rounds ⟨m, []⟩ with
  | ok a c => simp [hrecord, mapState] at hrun
  | error e c =>
    simp only [hrecord, mapState, EStateM.Result.error.injEq] at hrun
    obtain ⟨rfl, rfl⟩ := hrun
    exact Request.record_stopped hrequest h hidle hr rounds more hrecord

/-- A script that writes four lines. -/
def Script.fourLines : String :=
  "void f()\x7bfor(int i=0;i<4;i++)Debug.Log(\"a\");\x7d"

theorem limits_only_abort_fourLines :
    ∃ s, Script.compile .standard Script.fourLines = .ok s ∧
      (∃ m, (Request.call s "f" []).run 9 (.fresh ⟨some 5, none, 1⟩) = .ok none m ∧ m.world.output.text = "a\na\na\na\n") ∧
      (∃ monitor limits, (Request.call s "f" []).run 9 (.fresh .standard) =
        mapState (·.watched monitor limits) ((Request.call s "f" []).run 9 (.fresh ⟨some 5, none, 1⟩))) ∧
      ∃ p m, (Request.call s "f" []).run 9 (.fresh ⟨some 3, none, 1⟩) = .error (.fault ⟨.stepLimitExceeded 3, p⟩) m ∧
        (finalState ((Request.call s "f" []).record 9 ⟨.fresh ⟨some 3, none, 1⟩, []⟩)).passes = 3 ∧
        m.world.output.text = "a\na\n" ∧
        m.world.output.Extends (finalState ((Request.call s "f" []).run 9 (.fresh ⟨some 5, none, 1⟩))).world.output := by
  have hrun : (Script.compile .standard Script.fourLines).toOption.any (fun s =>
      Run.endsWith (fun v m => v.isNone && m.world.output.text == "a\na\na\na\n")
        ((Request.call s "f" []).run 9 (.fresh ⟨some 5, none, 1⟩)) &&
      Run.stopsWith (.stepLimitExceeded 3) (fun m => m.world.output.text == "a\na\n")
        ((Request.call s "f" []).run 9 (.fresh ⟨some 3, none, 1⟩))) = true := by
    decide +kernel
  obtain ⟨s, hs, hrun⟩ := exists_ok_of_any hrun
  obtain ⟨hfive, hthree⟩ := Bool.and_eq_true_iff.mp hrun
  obtain ⟨v, m, hm, hfive⟩ := exists_ok_of_endsWith hfive
  obtain ⟨hnone, hfour⟩ := Bool.and_eq_true_iff.mp hfive
  obtain rfl := Option.isNone_iff_eq_none.mp hnone
  obtain ⟨p, m', hm', htwo⟩ := exists_error_of_stopsWith hthree
  have hcompiled : (Request.call s "f" []).Compiled .standard := ⟨_, hs⟩
  have hmembers := Registry.standard_orderly.mono fun _ => Member.Orderly.respectsLimits
  have hlooser : (Machine.fresh ⟨some 3, none, 1⟩).Looser (.fresh ⟨some 5, none, 1⟩) :=
    ⟨rfl, by rintro _ ⟨⟩; exact ⟨⟨3, 0⟩, rfl, by decide⟩, rfl, rfl, by decide⟩
  have hunbounded : (Machine.fresh ⟨some 5, none, 1⟩).Looser (.fresh .standard) :=
    ⟨rfl, by rintro _ ⟨⟩, rfl, rfl, by decide⟩
  obtain ⟨hsame, -⟩ := limits_only_abort hcompiled hunbounded rfl 9 0
  obtain ⟨-, hstopped⟩ := limits_only_abort hcompiled hlooser rfl 9 0
  obtain ⟨-, hpasses, houtput⟩ := hstopped hmembers 3 p m' hm'
  refine ⟨s, hs, ⟨m, hm, eq_of_beq hfour⟩, hsame ?_, p, m', hm', hpasses, eq_of_beq htwo, houtput⟩
  rw [hm]
  rintro e m₁ ⟨⟩

/-- A host with a member that itself reports a spent budget of three steps, and one that tells the time. -/
def Registry.meddling : Registry :=
  { Registry.standard with
    statics :=
      [("System", .property "Stop" .int fun _ => throw (.stepLimitExceeded 3)),
        ("System", .property "Now" .int fun _ => return .int (Int32.ofNat (← Host.now)))] }

/-- A machine whose clock shows one time. -/
def Machine.showing (time : Nat) (limits : Limits) : Machine :=
  { Machine.fresh limits with world := ⟨.empty, ⟨"", none⟩, ⟨fun _ => time, 0⟩⟩ }

/-- What is asked of members and clocks is needed: a member that reports a spent budget does so before the
budget is spent, and what a clock shows can change between a run under tight limits and one under looser ones. -/
theorem limits_not_only_abort_meddling :
    (∃ s, Script.compile .meddling "int Main()\x7breturn System.Stop;\x7d" = .ok s ∧
      ∃ p m, (Request.call s "Main" []).run 9 (.showing 0 ⟨some 3, none, 1⟩) =
          .error (.fault ⟨.stepLimitExceeded 3, p⟩) m ∧
        (finalState ((Request.call s "Main" []).record 9 ⟨.showing 0 ⟨some 3, none, 1⟩, []⟩)).passes = 1) ∧
    ∃ s, Script.compile .meddling "int Main()\x7breturn System.Now;\x7d" = .ok s ∧
      (∃ m, (Request.call s "Main" []).run 9 (.showing 0 ⟨some 10, none, 1⟩) = .ok (some (.int 0)) m) ∧
      ∃ m, (Request.call s "Main" []).run 9 (.showing 1 ⟨some 20, none, 1⟩) = .ok (some (.int 1)) m := by
  have hstop : (Script.compile .meddling "int Main()\x7breturn System.Stop;\x7d").toOption.any (fun s =>
      Run.stopsWith (.stepLimitExceeded 3) (fun _ => true)
        ((Request.call s "Main" []).run 9 (.showing 0 ⟨some 3, none, 1⟩)) &&
      (finalState ((Request.call s "Main" []).record 9 ⟨.showing 0 ⟨some 3, none, 1⟩, []⟩)).passes == 1) = true := by
    decide +kernel
  have hnow : (Script.compile .meddling "int Main()\x7breturn System.Now;\x7d").toOption.any (fun s =>
      Run.endsWith (fun v _ => Value.isInt 0 v)
        ((Request.call s "Main" []).run 9 (.showing 0 ⟨some 10, none, 1⟩)) &&
      Run.endsWith (fun v _ => Value.isInt 1 v)
        ((Request.call s "Main" []).run 9 (.showing 1 ⟨some 20, none, 1⟩))) = true := by
    decide +kernel
  refine ⟨?_, ?_⟩
  · obtain ⟨s, hs, hstop⟩ := exists_ok_of_any hstop
    obtain ⟨hstop, hpasses⟩ := Bool.and_eq_true_iff.mp hstop
    obtain ⟨p, m, hm, -⟩ := exists_error_of_stopsWith hstop
    exact ⟨s, hs, p, m, hm, eq_of_beq hpasses⟩
  · obtain ⟨s, hs, hnow⟩ := exists_ok_of_any hnow
    obtain ⟨hearly, hlate⟩ := Bool.and_eq_true_iff.mp hnow
    obtain ⟨v, m, hm, hv⟩ := exists_ok_of_endsWith hearly
    obtain ⟨v', m', hm', hv'⟩ := exists_ok_of_endsWith hlate
    exact ⟨s, hs, ⟨m, Value.eq_of_isInt hv ▸ hm⟩, m', Value.eq_of_isInt hv' ▸ hm'⟩

end Scriptlet
