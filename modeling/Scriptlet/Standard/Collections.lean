import Scriptlet.Member

/-!
# Members of the collections

What lists, arrays, queues, stacks and dictionaries offer. A queue keeps its front at the first place and a
stack its top at the last one. Every member checks its arguments before it changes anything, so a call that
fails leaves the heap as it was.
-/

namespace Scriptlet.Standard

/-- The element type and the address of a sequence. -/
def sequenceArgument (member : String) (v : Value) : Host (Ty × Address) :=
  match v with
  | .sequence _ element address => pure (element, address)
  | .null => throw (.nullValue member)
  | v => throw (unexpectedArguments member [v])

/-- A dictionary with its entries, and its address. -/
def dictionaryArgument (member : String) (v : Value) : Host (Dictionary × Address) :=
  match v with
  | .dictionary key value address => do
    return (⟨key, value, (← Host.heap).entries address⟩, address)
  | .null => throw (.nullValue member)
  | v => throw (unexpectedArguments member [v])

def append (member : String) : List Value → Host Value
  | [receiver, item] => do
    let (element, address) ← sequenceArgument member receiver
    Host.modifyHeap (·.updateItems address (·.push (item.coerce element)))
    return .null
  | arguments => throw (unexpectedArguments member arguments)

/-- Puts an item in front of the one at an index. -/
def insertAt : List Value → Host Value
  | [receiver, .int index, item] => do
    let (element, address) ← sequenceArgument "Insert" receiver
    let place ← Host.ofExcept (checkedIndex index (((← Host.heap).items address).size + 1))
    Host.modifyHeap (·.updateItems address (·.insertIdxIfInBounds place (item.coerce element)))
    return .null
  | arguments => throw (unexpectedArguments "Insert" arguments)

/-- The index of the first item equal to the argument, or minus one. -/
def indexOf : List Value → Host Value
  | [receiver, item] => do
    let (element, address) ← sequenceArgument "IndexOf" receiver
    let items := (← Host.heap).items address
    match items.toList.findIdx? (·.scriptEquals (item.coerce element)) with
    | some index => countValue index
    | none => return .int (-1)
  | arguments => throw (unexpectedArguments "IndexOf" arguments)

/-- Removes the item at an index. -/
def removeAt : List Value → Host Value
  | [receiver, .int index] => do
    let (_, address) ← sequenceArgument "RemoveAt" receiver
    let place ← Host.ofExcept ((← Host.heap).place address index)
    Host.modifyHeap (·.updateItems address (·.eraseIdxIfInBounds place))
    return .null
  | arguments => throw (unexpectedArguments "RemoveAt" arguments)

def count (member : String) : List Value → Host Value
  | [receiver] => do
    let (_, address) ← sequenceArgument member receiver
    countValue ((← Host.heap).items address).size
  | arguments => throw (unexpectedArguments member arguments)

def clear : List Value → Host Value
  | [receiver] => do
    let (_, address) ← sequenceArgument "Clear" receiver
    Host.modifyHeap (·.updateItems address fun _ => #[])
    return .null
  | arguments => throw (unexpectedArguments "Clear" arguments)

def contains : List Value → Host Value
  | [receiver, item] => do
    let (element, address) ← sequenceArgument "Contains" receiver
    let items := (← Host.heap).items address
    return .bool (items.toList.any (·.scriptEquals (item.coerce element)))
  | arguments => throw (unexpectedArguments "Contains" arguments)

/-- The item that a sequence gives out next: a stack its last one, a queue its first one. -/
def nextItem? (kind : SequenceKind) (items : Array Value) : Option Value :=
  match kind with
  | .stack => items.back?
  | _ => items[0]?

/-- The item that the sequence at an address gives out next. -/
def nextAt (kind : SequenceKind) (address : Address) : Host (Option Value) := do
  return nextItem? kind ((← Host.heap).items address)

/-- Takes the first item out. -/
def dequeue : List Value → Host Value
  | [receiver] => do
    let (_, address) ← sequenceArgument "Dequeue" receiver
    match ← nextAt .queue address with
    | none => throw (.emptyCollection "Dequeue")
    | some first =>
      Host.modifyHeap (·.updateItems address (·.eraseIdxIfInBounds 0))
      return first
  | arguments => throw (unexpectedArguments "Dequeue" arguments)

/-- Takes the last item out. -/
def pop : List Value → Host Value
  | [receiver] => do
    let (_, address) ← sequenceArgument "Pop" receiver
    match ← nextAt .stack address with
    | none => throw (.emptyCollection "Pop")
    | some last =>
      Host.modifyHeap (·.updateItems address (·.pop))
      return last
  | arguments => throw (unexpectedArguments "Pop" arguments)

/-- Shows the item that a queue or a stack gives out next. -/
def peek (kind : SequenceKind) : List Value → Host Value
  | [receiver] => do
    let (_, address) ← sequenceArgument "Peek" receiver
    match ← nextAt kind address with
    | none => throw (.emptyCollection "Peek")
    | some next => return next
  | arguments => throw (unexpectedArguments "Peek" arguments)

/-- What every sequence that can grow offers. -/
def growableMembers (element : Ty) : List Member :=
  [.property "Count" .int (count "Count"),
    .method "Clear" [] .void clear,
    .method "Contains" [element] .bool contains]

def sequenceMembers (kind : SequenceKind) (element : Ty) : List Member :=
  match kind with
  | .list =>
    [.method "Add" [element] .void (append "Add"),
      .method "Insert" [.int, element] .void insertAt,
      .method "IndexOf" [element] .int indexOf,
      .method "RemoveAt" [.int] .void removeAt] ++ growableMembers element
  | .array => [.property "Length" .int (count "Length")]
  | .queue =>
    [.method "Enqueue" [element] .void (append "Enqueue"),
      .method "Dequeue" [] element dequeue,
      .method "Peek" [] element (peek .queue)] ++ growableMembers element
  | .stack =>
    [.method "Push" [element] .void (append "Push"),
      .method "Pop" [] element pop,
      .method "Peek" [] element (peek .stack)] ++ growableMembers element

def entryCount : List Value → Host Value
  | [receiver] => do
    let (d, _) ← dictionaryArgument "Count" receiver
    countValue d.entries.length
  | arguments => throw (unexpectedArguments "Count" arguments)

def addEntry : List Value → Host Value
  | [receiver, key, value] => do
    let (d, address) ← dictionaryArgument "Add" receiver
    let d ← Host.ofExcept (Dictionary.add (← Host.heap) d key value)
    Host.modifyHeap (·.setEntries address d.entries)
    return .null
  | arguments => throw (unexpectedArguments "Add" arguments)

def containsKey : List Value → Host Value
  | [receiver, key] => do
    let (d, _) ← dictionaryArgument "ContainsKey" receiver
    return .bool (← Host.ofExcept (d.contains key))
  | arguments => throw (unexpectedArguments "ContainsKey" arguments)

/-- Whether some entry has a value equal to the argument. -/
def containsValue : List Value → Host Value
  | [receiver, value] => do
    let (d, _) ← dictionaryArgument "ContainsValue" receiver
    return .bool (d.entries.any fun e => e.2.scriptEquals (value.coerce d.value))
  | arguments => throw (unexpectedArguments "ContainsValue" arguments)

/-- Removes the entry of a key, and tells whether it was there. -/
def removeEntry : List Value → Host Value
  | [receiver, key] => do
    let (d, address) ← dictionaryArgument "Remove" receiver
    let (found, d) ← Host.ofExcept (d.remove key)
    Host.modifyHeap (·.setEntries address d.entries)
    return .bool found
  | arguments => throw (unexpectedArguments "Remove" arguments)

def clearEntries : List Value → Host Value
  | [receiver] => do
    let (_, address) ← dictionaryArgument "Clear" receiver
    Host.modifyHeap (·.setEntries address [])
    return .null
  | arguments => throw (unexpectedArguments "Clear" arguments)

def keys : List Value → Host Value
  | [receiver] => do
    let (d, _) ← dictionaryArgument "Keys" receiver
    Host.newSequence .list d.key (d.entries.map (·.1)).toArray
  | arguments => throw (unexpectedArguments "Keys" arguments)

def values : List Value → Host Value
  | [receiver] => do
    let (d, _) ← dictionaryArgument "Values" receiver
    Host.newSequence .list d.value (d.entries.map (·.2)).toArray
  | arguments => throw (unexpectedArguments "Values" arguments)

def dictionaryMembers (key value : Ty) : List Member :=
  [.property "Count" .int entryCount,
    .method "Add" [key, value] .void addEntry,
    .method "ContainsKey" [key] .bool containsKey,
    .method "ContainsValue" [value] .bool containsValue,
    .method "Remove" [key] .bool removeEntry,
    .method "Clear" [] .void clearEntries,
    .property "Keys" (.sequence .list key) keys,
    .property "Values" (.sequence .list value) values]

/-- What the values of a collection type offer; nothing for other types. -/
def collectionMembers : Ty → List Member
  | .sequence kind element => sequenceMembers kind element
  | .dictionary key value => dictionaryMembers key value
  | _ => []

def toText : List Value → Host Value
  | [v] => do return .string (← Host.scriptText v)
  | arguments => throw (unexpectedArguments "ToString" arguments)

def universalMembers : List Member :=
  [.method "ToString" [] .string toText]

end Scriptlet.Standard
