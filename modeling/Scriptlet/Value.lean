import Scriptlet.Ty

/-!
# Values

What expressions evaluate to. Numbers, texts and truth values are whole in themselves. A collection or a host
object is an address in the heap together with its type, so copies of the value share one content and two of
them are the same when their addresses are.
-/

namespace Scriptlet

/-- A place in the heap. -/
abbrev Address := Nat

/-- A value of a running script. -/
inductive Value
  | null
  | bool (b : Bool)
  | int (i : Int32)
  | long (l : Int64)
  | float (x : Float32)
  | double (x : Float)
  | string (s : String)
  | sequence (kind : SequenceKind) (element : Ty) (address : Address)
  | dictionary (key value : Ty) (address : Address)
  | host (className : String) (address : Address)
deriving Inhabited

namespace Value

/-- The type a value has by itself. -/
def runtimeType : Value → Ty
  | .null => .null
  | .bool _ => .bool
  | .int _ => .int
  | .long _ => .long
  | .float _ => .float
  | .double _ => .double
  | .string _ => .string
  | .sequence kind element _ => .sequence kind element
  | .dictionary key value _ => .dictionary key value
  | .host className _ => .host className

/-- The value of a variable that is declared without one. -/
def default : Ty → Value
  | .bool => .bool false
  | .int => .int 0
  | .long => .long 0
  | .float => .float 0
  | .double => .double 0
  | _ => .null

def isNull : Value → Bool
  | .null => true
  | _ => false

/-- Widens a number to the numeric type asked for; every other value stays as it is. -/
def coerce : Value → Ty → Value
  | .int i, .long => .long i.toInt64
  | .int i, .float => .float i.toFloat32
  | .int i, .double => .double i.toFloat
  | .long l, .float => .float l.toFloat32
  | .long l, .double => .double l.toFloat
  | .float x, .double => .double x.toFloat
  | v, _ => v

def toDouble? : Value → Option Float
  | .int i => some i.toFloat
  | .long l => some l.toFloat
  | .float x => some x.toFloat
  | .double x => some x
  | _ => none

def toInteger? : Value → Option Int
  | .int i => some i.toInt
  | .long l => some l.toInt
  | _ => none

def toText? : Value → Option String
  | .string s => some s
  | _ => none

/-- Whether two numbers are equal as doubles. -/
def numericEquals (a b : Value) : Bool :=
  match a.toDouble?, b.toDouble? with
  | some x, some y => x == y
  | _, _ => false

/-- Equality as scripts see it: plain values by content, collections and host objects by identity, numbers of
different types as doubles. -/
def scriptEquals : Value → Value → Bool
  | .null, .null => true
  | .bool a, .bool b => a == b
  | .int a, .int b => a == b
  | .long a, .long b => a == b
  | .float a, .float b => a == b
  | .double a, .double b => a == b
  | .string a, .string b => a == b
  | .sequence _ _ a, .sequence _ _ b => a == b
  | .dictionary _ _ a, .dictionary _ _ b => a == b
  | .host _ a, .host _ b => a == b
  | a, b => numericEquals a b

end Value

/-- A plain type a host program reads a value as. -/
inductive PlainType
  | bool
  | int
  | long
  | float
  | double
  | string
  | object
deriving DecidableEq, Repr

/-- How a host program reads a value: as a plain type, which may or may not admit `null`. -/
structure Reading where
  plain : PlainType
  optional : Bool
deriving DecidableEq, Repr

namespace Reading

def ty (r : Reading) : Ty :=
  match r.plain with
  | .bool => .bool
  | .int => .int
  | .long => .long
  | .float => .float
  | .double => .double
  | .string => .string
  | .object => .object

def take? (r : Reading) (v : Value) : Option Value :=
  match r.plain, v with
  | .object, v => some v
  | .bool, .bool b => some (.bool b)
  | .int, .int i => some (.int i)
  | .long, .long l => some (.long l)
  | .float, .float x => some (.float x)
  | .double, .double x => some (.double x)
  | .string, .string s => some (.string s)
  | _, .null => if r.optional then some .null else none
  | _, _ => none

end Reading

end Scriptlet
