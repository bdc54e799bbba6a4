/-!
# Types of the script language

The types a script can name, the type of the `null` literal, and `void` for functions that give nothing back.
Lists, arrays, queues and stacks are the sequences; they differ in what may be done with them and share one
representation. A host class is known by its name. A type name in a source text stands for a whole type or
for a generic one that still needs arguments.
-/

namespace Scriptlet

inductive SequenceKind
  | list
  | array
  | queue
  | stack
deriving DecidableEq, Repr

/-- A type of the script language. -/
inductive Ty
  | void
  | null
  | bool
  | int
  | long
  | float
  | double
  | string
  | object
  | sequence (kind : SequenceKind) (element : Ty)
  | dictionary (key value : Ty)
  | host (name : String)
deriving DecidableEq, Repr, Inhabited

/-- A type that needs arguments. -/
inductive Generic
  | list
  | queue
  | stack
  | dictionary
deriving DecidableEq, Repr

/-- What a type name stands for. -/
inductive TypeName
  | complete (ty : Ty)
  | generic (constructor : Generic)
deriving DecidableEq, Repr

namespace Ty

def text : Ty → String
  | .void => "void"
  | .null => "null"
  | .bool => "bool"
  | .int => "int"
  | .long => "long"
  | .float => "float"
  | .double => "double"
  | .string => "string"
  | .object => "object"
  | .sequence .list element => "List<" ++ element.text ++ ">"
  | .sequence .array element => element.text ++ "[]"
  | .sequence .queue element => "Queue<" ++ element.text ++ ">"
  | .sequence .stack element => "Stack<" ++ element.text ++ ">"
  | .dictionary key value => "Dictionary<" ++ key.text ++ ", " ++ value.text ++ ">"
  | .host name => name

/-- Types written one after the other, with commas between them. -/
def listText (types : List Ty) : String :=
  String.intercalate ", " (types.map text)

/-- Whether `null` is a value of the type. -/
def isReference : Ty → Bool
  | .null | .string | .object | .sequence _ _ | .dictionary _ _ | .host _ => true
  | .void | .bool | .int | .long | .float | .double => false

/-- The place of a numeric type in the order of widening. -/
def numericRank : Ty → Option Nat
  | .int => some 0
  | .long => some 1
  | .float => some 2
  | .double => some 3
  | _ => none

def isNumeric (t : Ty) : Bool :=
  t.numericRank.isSome

def isIntegral : Ty → Bool
  | .int | .long => true
  | _ => false

def promote (left right : Ty) : Option Ty :=
  match left.numericRank, right.numericRank with
  | some l, some r => some (if r ≤ l then left else right)
  | _, _ => none

/-- Whether values of the first type turn into the second by themselves, with no loss of magnitude. -/
def widens (source target : Ty) : Bool :=
  match source.numericRank, target.numericRank with
  | some s, some t => s < t
  | _, _ => false

def sequence? : Ty → Option (SequenceKind × Ty)
  | .sequence kind element => some (kind, element)
  | _ => none

end Ty

namespace Generic

def arity : Generic → Nat
  | .list | .queue | .stack => 1
  | .dictionary => 2

/-- The type that a generic type and its arguments make, if their number is right. -/
def apply : Generic → List Ty → Option Ty
  | .list, [element] => some (.sequence .list element)
  | .queue, [element] => some (.sequence .queue element)
  | .stack, [element] => some (.sequence .stack element)
  | .dictionary, [key, value] => some (.dictionary key value)
  | _, _ => none

/-- The generic type with the places of its arguments left empty. -/
def text : Generic → String
  | .list => "List<>"
  | .queue => "Queue<>"
  | .stack => "Stack<>"
  | .dictionary => "Dictionary<,>"

end Generic

def TypeName.text : TypeName → String
  | .complete ty => ty.text
  | .generic constructor => constructor.text

end Scriptlet
