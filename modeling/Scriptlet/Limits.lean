import Scriptlet.World

/-!
# Limits

Bounds on how long a script may run. The evaluator passes a checkpoint when it enters a function and when it
begins a round of a loop; a monitor counts the checkpoints, compares the clock with a deadline, and may keep a
journal of what it saw.
-/

namespace Scriptlet

/-- What a monitor sees. -/
inductive Event
  | functionEntry
  | loopIteration
  | reset
deriving DecidableEq, Repr

/-- Checkpoints that may be passed, and those passed since the last reset. The count starts over behind the
greatest number of 64 bits, so a budget of that size never runs out. -/
structure Budget where
  limit : UInt64
  used : UInt64
deriving DecidableEq, Repr

/-- A time that the clock must not reach, and how far from each reset it is, both in nanoseconds. -/
structure Deadline where
  time : Nat
  timeout : Nat
deriving DecidableEq, Repr

/-- What watches over a run. A journal has the newest event first. -/
structure Monitor where
  budget : Option Budget
  deadline : Option Deadline
  journal : Option (List Event)
deriving DecidableEq, Repr

/-- The bounds that a host sets; the timeout is in nanoseconds. -/
structure Limits where
  maxSteps : Option UInt64
  timeout : Option Nat
  maxCallDepth : Nat
deriving DecidableEq, Repr

/-- The time that a clock shows now, and the clock after the look. -/
def Clock.look (c : Clock) : Nat × Clock :=
  (c.reading c.looks, { c with looks := c.looks + 1 })

def Budget.ofLimit (limit : UInt64) : Budget := ⟨limit, 0⟩

/-- Passes a checkpoint; fails once more than the limit have been passed. -/
def Budget.spend (b : Budget) : Option Fault × Budget :=
  let b := { b with used := b.used + 1 }
  (if b.limit < b.used then some (.stepLimitExceeded b.limit.toNat) else none, b)

/-- Fails once the clock has reached the deadline. -/
def Deadline.check (d : Deadline) (c : Clock) : Option Fault × Clock :=
  let (now, c) := c.look
  (if d.time ≤ now then some .deadlineExceeded else none, c)

def Deadline.start (timeout : Nat) (c : Clock) : Deadline × Clock :=
  let (now, c) := c.look
  (⟨now + timeout, timeout⟩, c)

namespace Monitor

/-- Writes an event into the journal, if there is one. -/
def record (m : Monitor) (e : Event) : Monitor :=
  { m with journal := m.journal.map (e :: ·) }

def checkDeadline (m : Monitor) (c : Clock) : Option Fault × Monitor × Clock :=
  match m.deadline with
  | none => (none, m, c)
  | some d =>
    let (fault, c) := d.check c
    (fault, m, c)

/-- Passes a checkpoint. The budget is checked before the deadline. -/
def check (m : Monitor) (e : Event) (c : Clock) : Option Fault × Monitor × Clock :=
  let m := m.record e
  match m.budget with
  | none => m.checkDeadline c
  | some b =>
    let (fault, b) := b.spend
    let m := { m with budget := some b }
    match fault with
    | some fault => (some fault, m, c)
    | none => m.checkDeadline c

/-- Starts anew: the budget is unused and the deadline counts from now. -/
def reset (m : Monitor) (c : Clock) : Monitor × Clock :=
  let m := m.record .reset
  let m := { m with budget := m.budget.map fun (b : Budget) => .ofLimit b.limit }
  match m.deadline with
  | none => (m, c)
  | some d =>
    let (d, c) := Deadline.start d.timeout c
    ({ m with deadline := some d }, c)

end Monitor

namespace Limits

/-- No bound but that on nested calls. -/
def standard : Limits := ⟨none, none, 64⟩

def monitor (l : Limits) (c : Clock) : Monitor × Clock :=
  let budget := l.maxSteps.map Budget.ofLimit
  match l.timeout with
  | none => (⟨budget, none, none⟩, c)
  | some timeout =>
    let (d, c) := Deadline.start timeout c
    (⟨budget, some d, none⟩, c)

end Limits

end Scriptlet
