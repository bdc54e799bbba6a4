import Scriptlet.Dictionary

/-!
# What host code can reach

A host member works on the world: the heap, the output of the script and the clock. That it looks at nothing
else of a run, neither at variables and frames nor at the limits and how much of them is used, is an assumption
about hosts, and so is that it changes nothing else. The clock is a sequence of readings, one for each look at
it; a run is then a function of its program, its state and these readings.
-/

namespace Scriptlet

/-- Where a script writes. `failure` is set when every write fails, and says why. -/
structure Output where
  text : String
  failure : Option String

/-- The times a clock shows, in nanoseconds, and how often it has been looked at. -/
structure Clock where
  reading : Nat → Nat
  looks : Nat

/-- The state that host members work on. -/
structure World where
  heap : Heap
  output : Output
  clock : Clock

/-- A computation of the host: it changes the world and may fail with a fault. -/
abbrev Host := EStateM Fault World

namespace Host

/-- A plain result as a computation that leaves the world as it is. -/
def ofExcept {α : Type} : Except Fault α → Host α
  | .ok a => pure a
  | .error fault => throw fault

def heap : Host Heap := do
  return (← get).heap

def modifyHeap (f : Heap → Heap) : Host Unit :=
  modify fun w => { w with heap := f w.heap }

def allocate (c : Cell) : Host Address :=
  modifyGet fun w =>
    let (address, h) := w.heap.allocate c
    (address, { w with heap := h })

def newSequence (kind : SequenceKind) (element : Ty) (items : Array Value) : Host Value := do
  return .sequence kind element (← allocate (.items items))

def newDictionary (key value : Ty) (entries : List (Value × Value)) : Host Value := do
  return .dictionary key value (← allocate (.entries entries))

def newObject (className : String) (fields : List (String × Value)) : Host Value := do
  return .host className (← allocate (.fields fields))

def now : Host Nat := do
  let w ← get
  set { w with clock := { w.clock with looks := w.clock.looks + 1 } }
  return w.clock.reading w.clock.looks

/-- The text of a value as scripts show it. -/
def scriptText (v : Value) : Host String := do
  ofExcept (finite ((← heap).scriptText v))

def writeLine (line : String) : Host Unit := do
  let w ← get
  match w.output.failure with
  | some reason => throw (.output reason)
  | none => set { w with output := { w.output with text := w.output.text ++ line ++ "\n" } }

end Host

end Scriptlet
