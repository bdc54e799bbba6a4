import Scriptlet.Formula

/-!
# Sessions

Several contexts over one heap. A context has its own members, frames, output and monitor, and takes its
globals from a store, which it may share with others: what one context writes there, the others see.
-/

namespace Scriptlet

/-- A context, apart from what it shares with others. -/
structure Context where
  store : Nat
  members : Bindings
  frames : List Frame
  output : Output
  monitor : Monitor
  limits : Limits

/-- The contexts of a host and what they share. -/
structure Session where
  heap : Heap
  clock : Clock
  stores : List Bindings
  contexts : List Context

namespace Session

def start (clock : Clock) : Session := ⟨.empty, clock, [], []⟩

/-- Opens a store with no globals, and gives its number. -/
def openStore (s : Session) : Nat × Session :=
  (s.stores.length, { s with stores := s.stores ++ [[]] })

def store (s : Session) (id : Nat) : Bindings :=
  s.stores.getD id []

def define (s : Session) (classes : Hierarchy) (id : Nat) (name : String) (ty : Ty) (v : Value) :
    Except Fault Session := do
  let globals ← Bindings.define classes (s.store id) name ty v
  return { s with stores := s.stores.set id globals }

/-- Defines globals of a store one after the other; the session keeps those before the first fault. -/
def defineAll (s : Session) (classes : Hierarchy) (id : Nat) :
    List (String × Ty × Value) → Option Fault × Session
  | [] => (none, s)
  | (name, ty, v) :: rest =>
    match s.define classes id name ty v with
    | .ok s => s.defineAll classes id rest
    | .error fault => (some fault, s)

/-- Opens a context over a store, and gives its number. -/
def openContext (s : Session) (store : Nat) (limits : Limits) (output : Output) (traced : Bool) :
    Nat × Session :=
  let (monitor, clock) := limits.monitor s.clock
  let monitor := { monitor with journal := if traced then some [] else none }
  (s.contexts.length,
    { s with clock := clock, contexts := s.contexts ++ [⟨store, [], [], output, monitor, limits⟩] })

/-- The state of a run in a context. -/
def machine (s : Session) (c : Context) : Machine where
  world := ⟨s.heap, c.output, s.clock⟩
  globals := s.store c.store
  members := c.members
  frames := c.frames
  monitor := c.monitor
  limits := c.limits

/-- Takes over the state at the end of a run in a context. -/
def settle (s : Session) (id : Nat) (c : Context) (m : Machine) : Session where
  heap := m.world.heap
  clock := m.world.clock
  stores := s.stores.set c.store m.globals
  contexts := s.contexts.set id ⟨c.store, m.members, m.frames, m.world.output, m.monitor, m.limits⟩

/-- Runs something in a context; what it changed stays, however it ends. -/
def run {α : Type} (s : Session) (id : Nat) (action : Run α) : Option (Except Interruption α × Session) :=
  match s.contexts[id]? with
  | none => none
  | some c =>
    match action (s.machine c) with
    | .ok a m => some (.ok a, s.settle id c m)
    | .error e m => some (.error e, s.settle id c m)

/-- Takes the output and the journal of a context, the oldest event first, and empties both. -/
def collect (s : Session) (id : Nat) : (String × Option (List Event)) × Session :=
  match s.contexts[id]? with
  | none => (("", none), s)
  | some c =>
    let emptied := { c with
      output := { c.output with text := "" }
      monitor := { c.monitor with journal := c.monitor.journal.map fun _ => [] } }
    ((c.output.text, c.monitor.journal.map List.reverse),
      { s with contexts := s.contexts.set id emptied })

end Session

end Scriptlet
