import Scriptlet.Proofs.Erasure
import Scriptlet.Proofs.OrderlyMembers

/-!
# Runs under tighter limits

A run beside the same one under looser limits: more checkpoints may be passed, or any number of them, and calls
may be nested deeper. While the first run goes on the two do the same, and a fault that is not about a limit
ends both. Where a limit stops the first one, it has passed as many checkpoints as its budget allows, and what
it has written is a prefix of what the second one writes.
-/

namespace Scriptlet

def Moment.isPassed (t : Moment) : Bool :=
  match t.happening with
  | .passed _ => true
  | _ => false

def Chronicle.passes (c : Chronicle) : Nat :=
  c.moments.countP Moment.isPassed

theorem Chronicle.passes_passed (m m' : Machine) (e : Event) (moments : List Moment) :
    (⟨m, ⟨m', .passed e⟩ :: moments⟩ : Chronicle).passes = (⟨m, moments⟩ : Chronicle).passes + 1 :=
  List.countP_cons_of_pos rfl

theorem Chronicle.passes_of_ne {h : Happening} (hh : ∀ e, h ≠ .passed e) (m m' : Machine)
    (moments : List Moment) : (⟨m, ⟨m', h⟩ :: moments⟩ : Chronicle).passes = (⟨m, moments⟩ : Chronicle).passes := by
  refine List.countP_cons_of_neg ?_
  cases h with
  | passed e => exact absurd rfl (hh e)
  | _ => simp [Moment.isPassed]

/-- A budget that can run out, unlike one of the greatest size, of which the count starts over. -/
def Budget.RunsOut (b : Budget) : Prop :=
  b.limit.toNat < 18446744073709551615

/-- So many checkpoints were passed, and the budget allows them. -/
def Budget.Counts (used : Nat) (b : Budget) : Prop :=
  b.RunsOut → b.used.toNat = used ∧ used ≤ b.limit.toNat

/-- Two budgets of which the same is used, the second of which may be greater or without bound. -/
def Budget.Tighter (used : Nat) : Option Budget → Option Budget → Prop
  | none, none => True
  | none, some _ => False
  | some a, none => a.Counts used
  | some a, some b => a.Counts used ∧ b.used = a.used ∧ a.limit ≤ b.limit

/-- Two monitors that differ at most in that the budget of the second one is greater. -/
structure Monitor.Tighter (used : Nat) (a b : Monitor) : Prop where
  budget : Budget.Tighter used a.budget b.budget
  deadline : b.deadline = a.deadline
  journal : b.journal = a.journal

variable {used : Nat} {a b : Monitor} {f : Machine → Machine}

theorem Budget.spend_eq_none_iff (b : Budget) : b.spend.1 = none ↔ (b.used + 1).toNat ≤ b.limit.toNat := by
  simp only [Budget.spend, UInt64.lt_iff_toNat_lt, ite_eq_right_iff, reduceCtorEq, imp_false, Nat.not_lt]

theorem Budget.Counts.spend {b : Budget} (h : b.Counts used) :
    (b.spend.1 = none ∧ b.spend.2.Counts (used + 1)) ∨
    (b.spend.1 = some (.stepLimitExceeded b.limit.toNat) ∧ used = b.limit.toNat) := by
  have hsum := UInt64.toNat_add b.used 1
  have hlt := (b.used + 1).toNat_lt
  rw [UInt64.toNat_one] at hsum
  by_cases hout : b.RunsOut
  · obtain ⟨hused, hle⟩ := h hout
    have hroom : used + 1 < 18446744073709551616 := by
      unfold Budget.RunsOut at hout
      omega
    rw [hused, Nat.mod_eq_of_lt hroom] at hsum
    by_cases hlimit : used = b.limit.toNat
    · refine .inr ⟨?_, hlimit⟩
      have hover : b.limit < b.used + 1 := by
        rw [UInt64.lt_iff_toNat_lt]
        omega
      simp [Budget.spend, hover]
    · exact .inl ⟨b.spend_eq_none_iff.mpr (by omega), fun _ => ⟨hsum, by simp only [Budget.spend]; omega⟩⟩
  · refine .inl ⟨b.spend_eq_none_iff.mpr ?_, fun h => absurd h hout⟩
    unfold Budget.RunsOut at hout
    omega

/-- Spending from two such budgets: both are fine afterwards, or the first one is used up. -/
theorem Budget.Tighter.spend {a : Budget} {b : Option Budget} (h : Tighter used (some a) b) :
    (a.spend.1 = none ∧ Tighter (used + 1) (some a.spend.2) (b.map (·.spend.2)) ∧ ∀ b' ∈ b, b'.spend.1 = none) ∨
    (a.spend.1 = some (.stepLimitExceeded a.limit.toNat) ∧ used = a.limit.toNat) := by
  cases b with
  | none =>
    rcases Budget.Counts.spend h with ⟨hnone, hcounts⟩ | hspent
    · exact .inl ⟨hnone, hcounts, by rintro _ ⟨⟩⟩
    · exact .inr hspent
  | some b =>
    obtain ⟨hcounts, hused, hle⟩ := h
    rcases hcounts.spend with ⟨hnone, hcounts⟩ | hspent
    · have hsame : b.spend.2.used = a.spend.2.used := by simp only [Budget.spend, hused]
      refine .inl ⟨hnone, ⟨hcounts, hsame, hle⟩, ?_⟩
      rintro _ ⟨⟩
      rw [Budget.spend_eq_none_iff] at hnone ⊢
      rw [hused]
      exact hnone.trans (UInt64.le_iff_toNat_le.mp hle)
    · exact .inr hspent

theorem Monitor.checkDeadline_eq (m : Monitor) (c : Clock) :
    m.checkDeadline c = ((m.checkDeadline c).1, m, (m.checkDeadline c).2.2) := by
  unfold Monitor.checkDeadline
  cases m.deadline <;> rfl

theorem Monitor.checkDeadline_congr (h : b.deadline = a.deadline) (c : Clock) :
    (b.checkDeadline c).1 = (a.checkDeadline c).1 ∧ (b.checkDeadline c).2.2 = (a.checkDeadline c).2.2 := by
  unfold Monitor.checkDeadline
  rw [h]
  cases a.deadline <;> exact ⟨rfl, rfl⟩

theorem Monitor.checkDeadline_mild {c : Clock} {fault : Fault}
    (h : (a.checkDeadline c).1 = some fault) : ¬ fault.IsLimit := by
  unfold Monitor.checkDeadline at h
  cases hd : a.deadline with
  | none => simp [hd] at h
  | some d =>
    simp only [hd, Deadline.check] at h
    split at h
    · cases h
      exact id
    · cases h

/-- What a checkpoint gives under two monitors. -/
inductive Monitor.Checked (used : Nat) :
    Option Fault × Monitor × Clock → Option Fault × Monitor × Clock → Prop
  | passed {a b : Monitor} {c : Clock} (h : Monitor.Tighter (used + 1) a b) :
      Checked used (none, a, c) (none, b, c)
  | failed {a b : Monitor} {c : Clock} {fault : Fault} (h : ¬ fault.IsLimit) :
      Checked used (some fault, a, c) (some fault, b, c)
  | exceeded {a : Monitor} {c : Clock} {n : Nat} {r : Option Fault × Monitor × Clock} (h : used = n) :
      Checked used (some (.stepLimitExceeded n), a, c) r

theorem Monitor.checkDeadline_checked (h : Tighter (used + 1) a b) (c : Clock) :
    Checked used (a.checkDeadline c) (b.checkDeadline c) := by
  obtain ⟨hfault, hclock⟩ := Monitor.checkDeadline_congr h.deadline c
  rw [a.checkDeadline_eq, b.checkDeadline_eq, hfault, hclock]
  cases hf : (a.checkDeadline c).1 with
  | none => exact .passed h
  | some fault => exact .failed (Monitor.checkDeadline_mild hf)

theorem Monitor.Tighter.check (h : Monitor.Tighter used a b) (e : Event)
    (c : Clock) : Monitor.Checked used (a.check e c) (b.check e c) := by
  have hbudget := h.budget
  have hjournal : (b.record e).journal = (a.record e).journal := by simp [Monitor.record, h.journal]
  have hdeadline : (b.record e).deadline = (a.record e).deadline := h.deadline
  have ha : (a.record e).budget = a.budget := rfl
  have hb : (b.record e).budget = b.budget := rfl
  unfold Monitor.check
  simp only [ha, hb]
  cases hba : a.budget with
  | none =>
    cases hbb : b.budget with
    | none =>
      refine Monitor.checkDeadline_checked ⟨?_, hdeadline, hjournal⟩ c
      rw [ha, hb, hba, hbb]
      trivial
    | some => rw [hba, hbb] at hbudget; exact hbudget.elim
  | some budget =>
    rw [hba] at hbudget
    rcases hbudget.spend with ⟨hnone, htighter, hothers⟩ | ⟨hsome, hused⟩
    · simp only [hnone]
      cases hbb : b.budget with
      | none =>
        rw [hbb] at htighter
        refine Monitor.checkDeadline_checked (a := { a.record e with budget := some budget.spend.2 })
          (b := b.record e) ⟨?_, hdeadline, hjournal⟩ c
        rw [hb, hbb]
        exact htighter
      | some budget' =>
        rw [hbb] at htighter hothers
        simp only [hothers budget' rfl]
        exact Monitor.checkDeadline_checked (a := { a.record e with budget := some budget.spend.2 })
          (b := { b.record e with budget := some budget'.spend.2 }) ⟨htighter, hdeadline, hjournal⟩ c
    · simp only [hsome]
      exact .exceeded hused

/-- A run that is stopped by a limit, or by the number of rounds where the other run may take more of them. -/
def Interruption.CutsShort (rounds : Nat) : Interruption → Prop
  | .fault error => error.fault.IsLimit
  | .outOfRounds => rounds ≠ 0
  | .endlessText => False

/-- A run beside one under looser limits. If output and errors are to be told apart, `tracks` holds. -/
def Lockstep.relaxed (tracks : Prop) (rounds depth : Nat) : Lockstep where
  now c m := m = c.machine.watched m.monitor m.limits ∧
    Monitor.Tighter c.passes c.machine.monitor m.monitor ∧
    m.limits.maxCallDepth = c.machine.limits.maxCallDepth + depth
  ended e c m := m = c.machine.watched m.monitor m.limits ∧
    (tracks → ∀ error, e = .fault error → ¬ error.fault.IsLimit)
  cut e c m := e.CutsShort rounds ∧
    (tracks → c.machine.world.output.Extends m.world.output ∧
      ∀ n p, e = .fault ⟨.stepLimitExceeded n, p⟩ → c.passes = n)
  grows m m' := tracks → m.world.output.Extends m'.world.output
  rounds := rounds
  depth := depth

theorem Run.Plain.watch {α : Type} {x : Run α} (h : x.Plain Fault.IsLimit) (m : Machine) :
    finalState (x m) = (finalState (x m)).watched m.monitor m.limits := by
  have hblind := h.blind m m.monitor m.limits
  rw [Machine.watched_self] at hblind
  generalize x m = r at hblind
  cases r with
  | ok a m' => exact (EStateM.Result.ok.inj hblind).2
  | error e m' => exact (EStateM.Result.error.inj hblind).2

theorem Machine.Inner.monitor (h : Machine.Inner f) (m : Machine) : (f m).monitor = m.monitor := by
  have hf : f m = (f m).watched m.monitor m.limits := h.watched m m.monitor m.limits
  rw [hf]
  rfl

theorem Machine.Inner.limits (h : Machine.Inner f) (m : Machine) : (f m).limits = m.limits := by
  have hf : f m = (f m).watched m.monitor m.limits := h.watched m m.monitor m.limits
  rw [hf]
  rfl

theorem Machine.Inner.same (h : Machine.Inner f) {m m' : Machine}
    (hm : m' = m.watched m'.monitor m'.limits) : f m' = (f m).watched (f m').monitor (f m').limits := by
  rw [h.monitor, h.limits, ← h.watched, ← hm]

theorem Recorded.passed_eq (x : Run Unit) (e : Event) (c : Chronicle) :
    (do Recorded.quietly x; Recorded.note (.passed e) : Recorded Unit) c = match x c.machine with
      | .ok _ m => .ok () ⟨m, ⟨m, .passed e⟩ :: c.moments⟩
      | .error e m => .error e { c with machine := m } := by
  change EStateM.bind (Recorded.quietly x) _ c = _
  unfold EStateM.bind Recorded.quietly
  cases x c.machine <;> rfl

namespace Lockstep

variable {tracks : Prop} {rounds depth : Nat}

theorem relaxed_world {c : Chronicle} {m : Machine} (h : m = c.machine.watched m.monitor m.limits) :
    m.world = c.machine.world := by
  rw [h]
  rfl

variable {α : Type}

theorem relaxed_host (p : Position) (action : Host α)
    (hgrows : tracks → ∀ w : World, w.output.Extends (finalState (action w)).output)
    (hmild : tracks → ∀ (w w' : World) fault, action w = .error fault w' → ¬ fault.IsLimit) :
    (relaxed tracks rounds depth).Follows (Recorded.quietly (Run.host p action)) (Run.host p action) := by
  refine ⟨fun m ht => ?_, fun c m hnow => ?_⟩
  · have h := hgrows ht m.world
    unfold Run.host
    cases hm : action m.world <;> simpa [hm] using h
  · obtain ⟨hsame, hmonitor, hdepth⟩ := hnow
    have hworld : m.world = c.machine.world := by rw [hsame]; rfl
    unfold Recorded.quietly Run.host
    rw [hworld]
    cases hc : action c.machine.world with
    | ok a w =>
      refine .ok ⟨?_, hmonitor, hdepth⟩
      rw [hsame]
      rfl
    | error fault w =>
      refine .error ⟨?_, ?_⟩
      · rw [hsame]
        rfl
      · intro ht error herror
        rw [(Interruption.of_eq_fault_iff.mp herror).1]
        exact hmild ht _ _ _ hc

theorem relaxed_plain {x : Run α} (hx : x.Plain Fault.IsLimit) :
    (relaxed tracks rounds depth).Follows (Recorded.quietly x) x := by
  refine ⟨fun m _ => by rw [hx.mute m]; exact .refl _, fun c m hnow => ?_⟩
  obtain ⟨hsame, hmonitor, hdepth⟩ := hnow
  have hwatch := hx.watch c.machine
  have hmild := hx.mild c.machine
  have hx' : x m = mapState (·.watched m.monitor m.limits) (x c.machine) := by
    rw [← hx.blind, ← hsame]
  unfold Recorded.quietly
  rw [hx']
  cases hc : x c.machine with
  | ok a c' =>
    rw [hc, finalState_ok] at hwatch
    refine .ok ⟨rfl, ?_, ?_⟩
    · rw [hwatch]
      exact hmonitor
    · rw [hwatch]
      exact hdepth
  | error e c' =>
    refine .error ⟨rfl, ?_⟩
    rintro _ error rfl
    exact hmild _ _ hc

/-- A run that is stopped by a limit before the other one goes on. -/
theorem relaxed_cut {e : Interruption} {c : Chronicle} {m : Machine} {y : Run α}
    (hnow : (relaxed tracks rounds depth).now c m) (hy : (relaxed tracks rounds depth).Grows y)
    (he : e.CutsShort rounds) (hpasses : ∀ n p, e = .fault ⟨.stepLimitExceeded n, p⟩ → c.passes = n) :
    (relaxed tracks rounds depth).Outcome (.error e c) (y m) := by
  refine .cut ⟨he, fun ht => ⟨?_, hpasses⟩⟩
  have h := hy m ht
  rwa [relaxed_world hnow.1] at h

theorem relaxed_checkpoint_grows (e : Event) (p : Position) :
    (relaxed tracks rounds depth).Grows (Run.checkpoint e p) := by
  intro m _
  rw [Run.checkpoint_eq]
  cases (m.check e).1 <;> exact .refl _

/-- A machine, and the fault that a check of its monitor found. -/
def checkedBy (m : Machine) (found : Option Fault × Monitor × Clock) : Option Fault × Machine :=
  (found.1, { m with monitor := found.2.1, world := { m.world with clock := found.2.2 } })

theorem relaxed_checkpoint (e : Event) (p : Position) :
    (relaxed tracks rounds depth).Follows (Recorded.checkpoint e p) (Run.checkpoint e p) := by
  refine ⟨relaxed_checkpoint_grows e p, fun c m hnow => ?_⟩
  obtain ⟨hsame, hmonitor, hdepth⟩ := hnow
  have hchecked := hmonitor.check e c.machine.world.clock
  generalize m.monitor = monitor, m.limits = limits at hsame hdepth hchecked
  subst hsame
  rw [Recorded.checkpoint, Recorded.passed_eq, Run.checkpoint_eq, Run.checkpoint_eq]
  have hc : c.machine.check e = checkedBy c.machine (c.machine.monitor.check e c.machine.world.clock) := rfl
  have hm : (c.machine.watched monitor limits).check e =
      checkedBy (c.machine.watched monitor limits) (monitor.check e c.machine.world.clock) := rfl
  rw [hc, hm]
  generalize c.machine.monitor.check e c.machine.world.clock = r,
    monitor.check e c.machine.world.clock = r' at hchecked
  cases hchecked with
  | passed h =>
    refine .ok ⟨rfl, ?_, hdepth⟩
    rwa [Chronicle.passes_passed]
  | failed h =>
    refine .error ⟨rfl, ?_⟩
    rintro _ _ ⟨⟩
    exact h
  | exceeded h =>
    refine .cut ⟨trivial, fun _ => ⟨?_, ?_⟩⟩
    · obtain ⟨fault, monitor', clock⟩ := r'
      cases fault <;> exact .refl _
    · rintro n p ⟨⟩
      exact h

theorem relaxed_enterCall_grows (p : Position) :
    (relaxed tracks rounds depth).Grows (Run.enterCall p) := by
  intro m ht
  rw [Run.enterCall_eq]
  split
  · exact .refl _
  · have hgrows : (relaxed tracks rounds depth).Grows (Run.checkpoint .functionEntry p) :=
      relaxed_checkpoint_grows _ p
    exact hgrows m ht

theorem relaxed_enterCall (p : Position) :
    (relaxed tracks rounds depth).Follows (Recorded.enterCall p) (Run.enterCall p) := by
  refine ⟨relaxed_enterCall_grows p, fun c m hnow => ?_⟩
  have hframes : m.frames = c.machine.frames := by rw [hnow.1]; rfl
  by_cases hfull : c.machine.limits.maxCallDepth ≤ c.machine.frames.length
  · rw [Recorded.enterCall, Recorded.passed_eq, Run.enterCall_eq p c.machine, if_pos hfull]
    exact relaxed_cut hnow (relaxed_enterCall_grows p) trivial (by rintro n p ⟨⟩)
  · have h := (relaxed_checkpoint .functionEntry p).outcome c m hnow
    have hdepth := hnow.2.2
    rw [Recorded.checkpoint, Recorded.passed_eq] at h
    rw [Recorded.enterCall, Recorded.passed_eq, Run.enterCall_eq, Run.enterCall_eq, if_neg hfull,
      if_neg (by rw [hframes]; omega)]
    exact h

theorem relaxed_lawful : (relaxed tracks rounds depth).Lawful where
  grows_refl _ _ := .refl _
  grows_trans h h' ht := (h ht).trans (h' ht)
  grows_inner {f m} hf _ := by
    rw [hf.world]
    exact .refl _
  cut_grows h hgrows := ⟨h.1, fun ht => ⟨(h.2 ht).1.trans (hgrows ht), (h.2 ht).2⟩⟩
  now_inner {f c m} hf h := by
    refine ⟨hf.same h.1, ?_, ?_⟩
    · rw [hf.monitor, hf.monitor]
      exact h.2.1
    · rw [hf.limits, hf.limits]
      exact h.2.2
  ended_inner hf h := ⟨hf.same h.1, h.2⟩
  cut_inner {f e c m} hf h := by
    refine ⟨h.1, fun ht => ⟨?_, (h.2 ht).2⟩⟩
    rw [hf.world, hf.world]
    exact (h.2 ht).1
  now_note {c m h} hh hnow := ⟨hnow.1, by rw [Chronicle.passes_of_ne hh]; exact hnow.2.1, hnow.2.2⟩
  plain := relaxed_plain
  checkpoint := relaxed_checkpoint
  enterCall := relaxed_enterCall
  exhausted {_ y} hgrows hy := by
    refine ⟨hgrows, fun c m hnow => ?_⟩
    by_cases hr : rounds = 0
    · rw [hy hr]
      exact .error ⟨hnow.1, by rintro _ _ ⟨⟩⟩
    · exact relaxed_cut hnow hgrows hr (by rintro n p ⟨⟩)
  now_eq h := h.1
  now_depth h := h.2.2
  deepest {_ y p} hgrows _ := by
    refine ⟨hgrows, fun c m hnow => ?_⟩
    exact relaxed_cut hnow hgrows trivial (by rintro n p ⟨⟩)

end Lockstep

/-- What a host asks for: that a script be prepared, a function be called or a formula be evaluated. -/
inductive Request
  | prepare (script : Script)
  | call (script : Script) (name : String) (arguments : List Value)
  | evaluate (formula : Formula)

namespace Request

def run (rounds : Nat) : Request → Run (Option Value)
  | .prepare script => do
    script.prepare rounds
    return none
  | .call script name arguments => script.call rounds name arguments
  | .evaluate formula => do return some (← formula.evaluate rounds)

def record (rounds : Nat) : Request → Recorded (Option Value)
  | .prepare script => do
    script.recordPrepare rounds
    return none
  | .call script name arguments => script.recordCall rounds name arguments
  | .evaluate formula => do return some (← formula.record [] rounds)

def exprs : Request → List Expr
  | .prepare script => script.program.exprs
  | .call script _ _ => script.program.exprs
  | .evaluate formula => [formula.expr]

theorem record_erases (request : Request) (rounds : Nat) : (request.record rounds).Erases (request.run rounds) := by
  have hpure : ∀ {α : Type} {x : Recorded α} {y : Run α} (g : α → Option Value), x.Erases y →
      Recorded.Erases (do return g (← x)) (do return g (← y)) := by
    intro α x y g h c
    change mapState _ (EStateM.bind x _ c) = EStateM.bind y _ c.machine
    unfold EStateM.bind
    rw [← h c]
    cases x c <;> rfl
  cases request with
  | prepare script => exact hpure (fun _ => none) (script.recordPrepare_erases rounds)
  | call script name arguments => exact script.recordCall_erases rounds name arguments
  | evaluate formula => exact hpure some (formula.record_erases [] rounds)

end Request

/-- The second state is the first one under looser limits: its budget and its depth of calls are greater or the
same. What is used of the budgets does not matter. -/
structure Machine.Looser (m m' : Machine) : Prop where
  same : m' = m.watched m'.monitor m'.limits
  budget : ∀ b' ∈ m'.monitor.budget, ∃ b ∈ m.monitor.budget, b.limit ≤ b'.limit
  deadline : m'.monitor.deadline = m.monitor.deadline
  journal : m'.monitor.journal = m.monitor.journal
  depth : m.limits.maxCallDepth ≤ m'.limits.maxCallDepth

theorem Monitor.reset_tighter
    (hbudget : ∀ b' ∈ b.budget, ∃ a' ∈ a.budget, a'.limit ≤ b'.limit) (hdeadline : b.deadline = a.deadline)
    (hjournal : b.journal = a.journal) (c : Clock) :
    Monitor.Tighter 0 (a.reset c).1 (b.reset c).1 ∧ (b.reset c).2 = (a.reset c).2 := by
  have htighter : Budget.Tighter 0 (a.budget.map fun b => .ofLimit b.limit)
      (b.budget.map fun b => .ofLimit b.limit) := by
    cases hb : b.budget with
    | none =>
      cases a.budget with
      | none => trivial
      | some a' => exact fun _ => ⟨rfl, Nat.zero_le _⟩
    | some b' =>
      obtain ⟨a', ha', hle⟩ := hbudget b' hb
      rw [show a.budget = some a' from ha']
      exact ⟨fun _ => ⟨rfl, Nat.zero_le _⟩, rfl, hle⟩
  unfold Monitor.reset Monitor.record
  simp only [hdeadline, hjournal]
  cases a.deadline with
  | none => exact ⟨⟨htighter, rfl, rfl⟩, rfl⟩
  | some d => exact ⟨⟨htighter, rfl, rfl⟩, rfl⟩

namespace Lockstep

variable {tracks : Prop} {rounds : Nat}

/-- When a request begins in an idle context, nothing of the budgets is used. -/
theorem relaxed_begin {m m' : Machine} (h : m.Looser m') :
    (relaxed tracks rounds (m'.limits.maxCallDepth - m.limits.maxCallDepth)).now
      ⟨m.resetMonitor, []⟩ m'.resetMonitor := by
  obtain ⟨hsame, hbudget, hdeadline, hjournal, hdepth⟩ := h
  generalize m'.monitor = monitor, m'.limits = limits at hsame hbudget hdeadline hjournal hdepth ⊢
  subst hsame
  obtain ⟨htighter, hclock⟩ := Monitor.reset_tighter hbudget hdeadline hjournal m.world.clock
  have hreset : (m.watched monitor limits).resetMonitor = { m with
      monitor := (monitor.reset m.world.clock).1, limits := limits,
      world := { m.world with clock := (monitor.reset m.world.clock).2 } } := rfl
  refine ⟨?_, htighter, ?_⟩
  · rw [hreset, hclock]
    rfl
  · rw [hreset]
    change limits.maxCallDepth = m.limits.maxCallDepth + _
    omega

theorem relaxed_begun {α : Type} {m m' : Machine} (h : m.Looser m') (hidle : m.isIdle = true) {x : Recorded α}
    {y : Run α}
    (hxy : (relaxed tracks rounds (m'.limits.maxCallDepth - m.limits.maxCallDepth)).Follows x y) :
    (relaxed tracks rounds (m'.limits.maxCallDepth - m.limits.maxCallDepth)).Outcome
      ((do Recorded.quietly Run.begin; x : Recorded α) ⟨m, []⟩) ((do Run.begin; y : Run α) m') := by
  have hidle' : m'.isIdle = true := by
    rw [h.same]
    exact hidle
  have hbegin : ∀ m : Machine, m.isIdle = true → Run.begin m = .ok () m.resetMonitor := by
    intro m hm
    change EStateM.Result.ok () (if m.isIdle then m.resetMonitor else m) = _
    rw [if_pos hm]
  change Outcome _ (EStateM.bind (Recorded.quietly Run.begin) _ _) (EStateM.bind Run.begin _ m')
  unfold EStateM.bind Recorded.quietly
  simp only [hbegin m hidle, hbegin m' hidle']
  exact hxy.outcome _ _ (relaxed_begin h)

end Lockstep

theorem Script.admitted {L : Lockstep} {s : Script}
    (h : ∀ e ∈ s.program.exprs, e.All (Expr.Uses L.Admits)) : s.setting.Admitted L :=
  fun f hf e he => h e (List.mem_append_right _ (List.mem_flatMap.mpr ⟨f, hf, he⟩))

open Lockstep Lockstep.Follows in
/-- A request in an idle context, beside the same one under looser limits. -/
theorem Request.record_follows {tracks : Prop} {m m' : Machine} (h : m.Looser m') (hidle : m.isIdle = true)
    (request : Request) (rounds more : Nat)
    (hr : ∀ e ∈ request.exprs,
      e.All (Expr.Uses (relaxed tracks more (m'.limits.maxCallDepth - m.limits.maxCallDepth)).Admits)) :
    (relaxed tracks more (m'.limits.maxCallDepth - m.limits.maxCallDepth)).Outcome
      (request.record rounds ⟨m, []⟩) (request.run (rounds + more) m') := by
  have hL : (relaxed tracks more (m'.limits.maxCallDepth - m.limits.maxCallDepth)).Lawful := relaxed_lawful
  cases request with
  | prepare script =>
    simp only [Request.record, Request.run, Script.recordPrepare, Script.prepare, bind_assoc]
    exact relaxed_begun h hidle (bind hL (Declaration.recordAll_follows hL (Script.admitted hr) script.top rounds
      _ [] fun e he => hr e (List.mem_append_left _ he)) fun _ => pure hL _)
  | call script name arguments =>
    simp only [Request.record, Request.run, Script.recordCall, Script.call]
    cases hresolve : script.resolve name arguments with
    | error fault =>
      have hmild : (Interruption.of .start fault).Spares Fault.IsLimit m.world.heap :=
        (Fault.Proper.spares (script.resolve_mild name arguments fault hresolve) .start).limits
      refine .error ⟨h.same, fun _ error herror => ?_⟩
      rwa [herror] at hmild
    | ok found =>
      exact relaxed_begun h hidle (bind hL (Setting.recordCall_follows hL (Script.admitted hr) script.top rounds
        _ _ _) fun _ => pure hL _)
  | evaluate formula =>
    simp only [Request.record, Request.run, Formula.record, Formula.evaluate, bind_assoc]
    exact relaxed_begun h hidle (bind hL (Setting.recordEvaluate_follows hL (by rintro f ⟨⟩) [] [] rounds
      formula.expr (hr _ List.mem_cons_self)) fun _ => pure hL _)

end Scriptlet
