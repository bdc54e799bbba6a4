import Scriptlet.Value
import Scriptlet.Number.Integer
import Scriptlet.Number.Shortest

/-!
# The heap and the text of values

The heap holds the contents that values share: the items of sequences, the entries of dictionaries and the
fields of host objects. A cell is never freed and never changes its nature. The text of a value follows
addresses into the heap. A collection may contain itself, directly or through others, and then the text has no
end. Any other nesting is no deeper than there are cells, so a walk that goes deeper has no result.
-/

namespace Scriptlet

inductive Cell
  | items (values : Array Value)
  | entries (pairs : List (Value × Value))
  | fields (values : List (String × Value))
deriving Inhabited

/-- The contents that values share. -/
structure Heap where
  cells : Array Cell

namespace Heap

def empty : Heap := ⟨#[]⟩

/-- Adds a cell; its address is the first one that was free. -/
def allocate (h : Heap) (c : Cell) : Address × Heap :=
  (h.cells.size, ⟨h.cells.push c⟩)

def items (h : Heap) (a : Address) : Array Value :=
  match h.cells[a]? with
  | some (.items values) => values
  | _ => #[]

def entries (h : Heap) (a : Address) : List (Value × Value) :=
  match h.cells[a]? with
  | some (.entries pairs) => pairs
  | _ => []

def field? (h : Heap) (a : Address) (name : String) : Option Value :=
  match h.cells[a]? with
  | some (.fields values) => values.lookup name
  | _ => none

def updateItems (h : Heap) (a : Address) (f : Array Value → Array Value) : Heap :=
  ⟨h.cells.modify a fun
    | .items values => .items (f values)
    | c => c⟩

/-- Replaces the entries of the dictionary at an address. -/
def setEntries (h : Heap) (a : Address) (pairs : List (Value × Value)) : Heap :=
  ⟨h.cells.modify a fun
    | .entries _ => .entries pairs
    | c => c⟩

def setField (h : Heap) (a : Address) (name : String) (v : Value) : Heap :=
  ⟨h.cells.modify a fun
    | .fields values => .fields (values.map fun f => if f.1 = name then (name, v) else f)
    | c => c⟩

/-- The text of a value that nests at most `depth` levels of collections; nothing if it nests deeper. -/
def textWithin (h : Heap) : Nat → Value → Option String
  | _, .null => some "null"
  | _, .bool b => some (if b then "true" else "false")
  | _, .int i => some (Number.intText i.toInt)
  | _, .long l => some (Number.intText l.toInt)
  | _, .float x => some (Number.singleText x)
  | _, .double x => some (Number.doubleText x)
  | _, .string s => some s
  | _, .host className _ => some className
  | depth + 1, .sequence _ _ a =>
    ((h.items a).toList.mapM (h.textWithin depth)).map fun items =>
      "[" ++ String.intercalate ", " items ++ "]"
  | depth + 1, .dictionary _ _ a =>
    ((h.entries a).mapM fun e =>
      (h.textWithin depth e.1).bind fun key => (h.textWithin depth e.2).map (key ++ ": " ++ ·)).map fun entries =>
        "\x7b" ++ String.intercalate ", " entries ++ "\x7d"
  | 0, _ => none

/-- The text of a value, unless it has no end. -/
def text (h : Heap) (v : Value) : Option String :=
  h.textWithin (h.cells.size + 1) v

/-- The text of a value in concatenations and templates, where `null` is empty. -/
def scriptText (h : Heap) (v : Value) : Option String :=
  if v.isNull then some "" else h.text v

end Heap

end Scriptlet
