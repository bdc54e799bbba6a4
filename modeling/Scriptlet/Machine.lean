import Scriptlet.Bindings
import Scriptlet.Limits
import Scriptlet.Program

/-!
# The state of a run

The world, the globals, the members of the script at work, and a frame of scopes for every function call that
is open. Names are looked for in the scopes of the innermost frame, then among the members, then among the
globals; a frame never sees the one below it. Computations on this state may be interrupted by a fault, because
a loop used up the rounds it was given, or by a text that has no end.
-/

namespace Scriptlet

/-- The scopes of a function call, the innermost first. -/
abbrev Frame := List Bindings

/-- The state of a run. The innermost frame comes first. -/
structure Machine where
  world : World
  globals : Bindings
  members : Bindings
  frames : List Frame
  monitor : Monitor
  limits : Limits

/-- Why a run ends early: a fault at a place, a loop that used up the rounds given to it, or a text without end,
which no script and no host ever gets to see. -/
inductive Interruption
  | fault (error : RuntimeError)
  | outOfRounds
  | endlessText
deriving DecidableEq, Repr

/-- What a fault of an operation on values is for the run, at a place. -/
def Interruption.of (p : Position) : Fault → Interruption
  | .endlessText => .endlessText
  | cause => .fault ⟨cause, p⟩

/-- A computation on the state of a run. -/
abbrev Run := EStateM Interruption Machine

namespace Machine

def isIdle (m : Machine) : Bool :=
  m.frames.isEmpty

/-- The scopes of the innermost frame, and the members behind them. -/
def localScopes (m : Machine) : List Bindings :=
  m.frames.headD [] ++ [m.members]

def lookup (m : Machine) (name : String) : Option Value :=
  (Bindings.find? name (m.localScopes ++ [m.globals])).map (·.value)

/-- Overwrites the value of a name; nothing if it is not visible. -/
def assign? (m : Machine) (name : String) (v : Value) : Option Machine :=
  match Bindings.assignFirst? name v (m.frames.headD []) with
  | some frame => some { m with frames := frame :: m.frames.tail }
  | none =>
    match Bindings.assign? name v m.members with
    | some members => some { m with members := members }
    | none => (Bindings.assign? name v m.globals).map fun globals => { m with globals := globals }

/-- Binds a name in the innermost scope, or as a member if no function is at work. -/
def declare (m : Machine) (name : String) (b : Binding) : Machine :=
  match m.frames with
  | (scope :: scopes) :: rest => { m with frames := (Bindings.put name b scope :: scopes) :: rest }
  | _ => { m with members := Bindings.put name b m.members }

def pushScope (m : Machine) : Machine :=
  match m.frames with
  | frame :: rest => { m with frames := ([] :: frame) :: rest }
  | [] => m

def popScope (m : Machine) : Machine :=
  match m.frames with
  | frame :: rest => { m with frames := frame.tail :: rest }
  | [] => m

/-- Opens a frame with one empty scope. -/
def pushFrame (m : Machine) : Machine :=
  { m with frames := [[]] :: m.frames }

def popFrame (m : Machine) : Machine :=
  { m with frames := m.frames.tail }

def check (m : Machine) (e : Event) : Option Fault × Machine :=
  let (fault, monitor, clock) := m.monitor.check e m.world.clock
  (fault, { m with monitor := monitor, world := { m.world with clock := clock } })

def resetMonitor (m : Machine) : Machine :=
  let (monitor, clock) := m.monitor.reset m.world.clock
  { m with monitor := monitor, world := { m.world with clock := clock } }

end Machine

namespace Run

def fail {α : Type} (fault : Fault) (p : Position) : Run α :=
  throw (.fault ⟨fault, p⟩)

/-- A plain result, whose fault is given a place. -/
def located {α : Type} (p : Position) : Except Fault α → Run α
  | .ok a => pure a
  | .error fault => throw (.of p fault)

/-- Work of the host, whose fault is given a place. -/
def host {α : Type} (p : Position) (action : Host α) : Run α := fun m =>
  match action m.world with
  | .ok a w => .ok a { m with world := w }
  | .error fault w => .error (.of p fault) { m with world := w }

def heap : Run Heap := do
  return (← get).world.heap

def checkpoint (e : Event) (p : Position) : Run Unit := do
  let (fault, m) := (← get).check e
  set m
  match fault with
  | some fault => fail fault p
  | none => return

/-- Runs between two changes of the state, the second of which is made however the run ends. -/
def bracket {α : Type} (before after : Machine → Machine) (action : Run α) : Run α := fun m =>
  match action (before m) with
  | .ok a m => .ok a (after m)
  | .error e m => .error e (after m)

def inScope {α : Type} (action : Run α) : Run α :=
  bracket Machine.pushScope Machine.popScope action

def inFrame {α : Type} (action : Run α) : Run α :=
  bracket Machine.pushFrame Machine.popFrame action

def declare (name : String) (ty : Ty) (v : Value) : Run Unit :=
  modify (·.declare name ⟨ty, v⟩)

/-- Starts the monitor anew, unless a function is at work. -/
def begin : Run Unit :=
  modify fun m => if m.isIdle then m.resetMonitor else m

end Run

namespace VariableRef

def get (ref : VariableRef) : Run Value := do
  match (← MonadState.get).lookup ref.name with
  | some v => return v
  | none => Run.fail (.undefinedVariable ref.name) ref.position

/-- Gives a variable a new value, which has to fit its declared type. -/
def set (classes : Hierarchy) (ref : VariableRef) (v : Value) : Run Unit := do
  if classes.accepts ref.declared v.runtimeType then
    match (← MonadState.get).assign? ref.name (v.coerce ref.declared) with
    | some m => MonadState.set m
    | none => Run.fail (.undefinedVariable ref.name) ref.position
  else Run.fail (.typeMismatch ref.name ref.declared v.runtimeType .write) ref.position

def read (classes : Hierarchy) (ref : VariableRef) (r : Reading) : Run Value := do
  Run.located ref.position
    (Bindings.readAs classes ref.name ref.declared ((← MonadState.get).lookup ref.name) r)

end VariableRef

end Scriptlet
