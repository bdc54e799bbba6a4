import Scriptlet.Arithmetic
import Scriptlet.Machine

/-!
# Slots

What an assignment or an increment reads and then writes: a variable, an item of a sequence, or the entry of a
key. A slot is found once and used for both, so the expressions in it are evaluated once.
-/

namespace Scriptlet

/-- A collection that an index applies to. -/
inductive Collection
  | sequence (kind : SequenceKind) (element : Ty) (address : Address)
  | dictionary (key value : Ty) (address : Address)

/-- Something that can be read and written. -/
inductive Slot
  | variable (ref : VariableRef)
  | item (element : Ty) (address : Address) (index : Int32)
  | entry (key value : Ty) (address : Address) (k : Value)

namespace Run

def collection (e : Expr) (v : Value) : Run Collection :=
  match v with
  | .sequence kind element address => return .sequence kind element address
  | .dictionary key value address => return .dictionary key value address
  | .null => fail (.nullValue e.text) e.position
  | v => fail (.unexpectedValue e.ty v.runtimeType) e.position

def item (p : Position) (address : Address) (index : Int32) : Run Value := do
  located p ((← heap).item address index)

def dictionary (key value : Ty) (address : Address) : Run Dictionary := do
  return ⟨key, value, (← heap).entries address⟩

def entry (p : Position) (key value : Ty) (address : Address) (k : Value) : Run Value := do
  located p (Dictionary.get (← heap) (← dictionary key value address) k)

/-- A value as a place of the given type stores it. -/
def stored (classes : Hierarchy) (p : Position) (ty : Ty) (v : Value) : Run Value :=
  if classes.accepts ty v.runtimeType then return v.coerce ty
  else fail (.unexpectedValue ty v.runtimeType) p

end Run

namespace Slot

def read (p : Position) : Slot → Run Value
  | .variable ref => ref.get
  | .item _ address index => Run.item p address index
  | .entry key value address k => Run.entry p key value address k

/-- Gives a slot a new value, and gives that value back as it was stored. -/
def write (classes : Hierarchy) (p : Position) (slot : Slot) (v : Value) : Run Value := do
  match slot with
  | .variable ref =>
    let v := v.coerce ref.declared
    ref.set classes v
    return v
  | .item element address index =>
    let v ← Run.stored classes p element v
    let place ← Run.located p ((← Run.heap).place address index)
    Run.host p (Host.modifyHeap (·.putItem address place v))
    return v
  | .entry key value address k =>
    let v ← Run.stored classes p value v
    let d ← Run.located p ((← Run.dictionary key value address).set k v)
    Run.host p (Host.modifyHeap (·.setEntries address d.entries))
    return v

end Slot

end Scriptlet
