import Scriptlet.Member
import Scriptlet.Value.Conversion

/-!
# The facilities `Math`, `Debug` and `System`

Arithmetic functions on whole numbers and doubles, lines of output, and the clock.
-/

namespace Scriptlet.Standard

def doubleArgument (member : String) (v : Value) : Host Float :=
  match v.toDouble? with
  | some x => pure x
  | none => throw (unexpectedArguments member [v])

/-- The larger of two doubles. A value that is not a number gives way to the other; of two that compare as
equal, such as the two zeros, it is the second. -/
def maxDouble (a b : Float) : Float :=
  if a.isNaN then b else if b.isNaN then a else if b < a then a else b

/-- The smaller of two doubles. A value that is not a number gives way to the other; of two that compare as
equal, such as the two zeros, it is the second. -/
def minDouble (a b : Float) : Float :=
  if a.isNaN then b else if b.isNaN then a else if a < b then a else b

/-- Rounds to the nearest whole number, a half to the even neighbour. -/
def roundHalfEven (x : Float) : Float :=
  let rounded := x.round
  if (x - Value.truncate x).abs == 0.5 && (rounded / 2).floor * 2 != rounded then
    if x < 0 then rounded + 1 else rounded - 1
  else rounded

def clampDouble (x low high : Float) : Float :=
  let x := if x < low then low else x
  if high < x then high else x

def unaryDouble (name : String) (f : Float → Float) : Member :=
  .method name [.double] .double fun
    | [x] => do return .double (f (← doubleArgument name x))
    | arguments => throw (unexpectedArguments name arguments)

def binaryDouble (name : String) (f : Float → Float → Float) : Member :=
  .method name [.double, .double] .double fun
    | [x, y] => do
      let x ← doubleArgument name x
      let y ← doubleArgument name y
      return .double (f x y)
    | arguments => throw (unexpectedArguments name arguments)

def binaryInt (name : String) (f : Int32 → Int32 → Int32) : Member :=
  .method name [.int, .int] .int fun
    | [.int a, .int b] => return .int (f a b)
    | arguments => throw (unexpectedArguments name arguments)

/-- The absolute value of a whole number, unless it is out of range. -/
def absInt : List Value → Host Value
  | [.int i] =>
    match Number.fit32 i.toInt.natAbs with
    | some a => return .int a
    | none => throw (.overflow "Abs")
  | arguments => throw (unexpectedArguments "Abs" arguments)

/-- A whole number brought between two bounds, which must be in order. -/
def clampInt : List Value → Host Value
  | [.int i, .int low, .int high] =>
    if low ≤ high then return .int (if i < low then low else if high < i then high else i)
    else throw (unexpectedArguments "Clamp" [.int i, .int low, .int high])
  | arguments => throw (unexpectedArguments "Clamp" arguments)

/-- A double brought between two bounds, which must be in order. -/
def clampNumbers : List Value → Host Value
  | [x, low, high] => do
    let a ← doubleArgument "Clamp" x
    let b ← doubleArgument "Clamp" low
    let c ← doubleArgument "Clamp" high
    if b ≤ c then return .double (clampDouble a b c)
    else throw (unexpectedArguments "Clamp" [x, low, high])
  | arguments => throw (unexpectedArguments "Clamp" arguments)

/-- The ratio of a circle's circumference to its diameter. -/
def pi : Float := 3.141592653589793

def euler : Float := 2.718281828459045

def mathMembers : List Member :=
  [.property "PI" .double fun _ => return .double pi,
    .property "E" .double fun _ => return .double euler,
    .method "Abs" [.int] .int absInt,
    unaryDouble "Abs" Float.abs,
    binaryInt "Max" fun a b => if a < b then b else a,
    binaryDouble "Max" maxDouble,
    binaryInt "Min" fun a b => if b < a then b else a,
    binaryDouble "Min" minDouble,
    binaryDouble "Pow" Float.pow,
    unaryDouble "Sqrt" Float.sqrt,
    unaryDouble "Floor" Float.floor,
    unaryDouble "Ceiling" Float.ceil,
    unaryDouble "Round" roundHalfEven,
    .method "Clamp" [.int, .int, .int] .int clampInt,
    .method "Clamp" [.double, .double, .double] .double clampNumbers]

/-- Writes the text of a value as a line of output. -/
def log (name : String) : Member :=
  .method name [.object] .void fun
    | [message] => do
      Host.writeLine (← Host.scriptText message)
      return .null
    | arguments => throw (unexpectedArguments name arguments)

def debugMembers : List Member :=
  [log "Log", log "LogWarning", log "LogError"]

/-- The time in seconds. -/
def clockSeconds (_ : List Value) : Host Value := do
  return .double ((← Host.now).toFloat / 1000000000)

def systemMembers : List Member :=
  [.method "Clock" [] .double clockSeconds]

end Scriptlet.Standard
