import Scriptlet.Fault
import Scriptlet.Heap

/-!
# Sequences and dictionaries

A sequence is addressed by index, and an index outside it is a fault. A dictionary is a list of entries in the
order of their first insertion; keys are widened to the key type, compared as scripts compare, and never
`null`. An operation that fails gives back a fault and no new dictionary.
-/

namespace Scriptlet

/-- An index into `length` places. -/
def checkedIndex (index : Int32) (length : Nat) : Except Fault Nat :=
  if 0 ≤ index.toInt ∧ index.toInt < length then .ok index.toInt.toNat
  else .error (.indexOutOfRange index.toInt length)

/-- The place that an index has in the sequence at an address. -/
def Heap.place (h : Heap) (address : Address) (index : Int32) : Except Fault Nat :=
  checkedIndex index (h.items address).size

def Heap.item (h : Heap) (address : Address) (index : Int32) : Except Fault Value := do
  return (h.items address).getD (← h.place address index) .null

/-- Puts an item at a place of the sequence at an address. -/
def Heap.putItem (h : Heap) (address : Address) (place : Nat) (v : Value) : Heap :=
  h.updateItems address (·.setIfInBounds place v)

def Heap.setItem (h : Heap) (address : Address) (index : Int32) (v : Value) : Except Fault Heap := do
  return h.putItem address (← h.place address index) v

/-- The items of a sequence in the order in which a loop visits them: a stack gives its top first. -/
def SequenceKind.order (kind : SequenceKind) (items : List Value) : List Value :=
  match kind with
  | .stack => items.reverse
  | _ => items

/-- The types of a dictionary and its entries in the order of insertion. -/
structure Dictionary where
  key : Ty
  value : Ty
  entries : List (Value × Value)

namespace Dictionary

def lookup (key : Value) (entries : List (Value × Value)) : Option Value :=
  (entries.find? fun e => e.1.scriptEquals key).map (·.2)

/-- Overwrites the value under a key, or adds the entry behind all others. -/
def put (key value : Value) : List (Value × Value) → List (Value × Value)
  | [] => [(key, value)]
  | e :: rest => if e.1.scriptEquals key then (e.1, value) :: rest else e :: put key value rest

def drop (key : Value) : List (Value × Value) → List (Value × Value)
  | [] => []
  | e :: rest => if e.1.scriptEquals key then rest else e :: drop key rest

/-- A key as the dictionary compares it. -/
def prepareKey (d : Dictionary) (key : Value) : Except Fault Value :=
  if (key.coerce d.key).isNull then .error (.nullValue "dictionary key") else .ok (key.coerce d.key)

def contains (d : Dictionary) (key : Value) : Except Fault Bool := do
  let key ← d.prepareKey key
  return (lookup key d.entries).isSome

/-- The value under a key; a key that is absent is a fault. -/
def get (h : Heap) (d : Dictionary) (key : Value) : Except Fault Value := do
  let key ← d.prepareKey key
  match lookup key d.entries with
  | some value => return value
  | none => throw (.keyNotFound (← finite (h.text key)))

def set (d : Dictionary) (key value : Value) : Except Fault Dictionary := do
  let key ← d.prepareKey key
  return { d with entries := put key (value.coerce d.value) d.entries }

/-- Inserts a new key; a key that is present is a fault. -/
def add (h : Heap) (d : Dictionary) (key value : Value) : Except Fault Dictionary := do
  let key ← d.prepareKey key
  match lookup key d.entries with
  | some _ => throw (.duplicateKey (← finite (h.text key)))
  | none => return { d with entries := d.entries ++ [(key, value.coerce d.value)] }

def remove (d : Dictionary) (key : Value) : Except Fault (Bool × Dictionary) := do
  let key ← d.prepareKey key
  return ((lookup key d.entries).isSome, { d with entries := drop key d.entries })

end Dictionary

end Scriptlet
