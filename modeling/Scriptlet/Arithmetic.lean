import Scriptlet.Number.Binary
import Scriptlet.Typing
import Scriptlet.Value.Conversion

/-!
# Operations on values

Operators at work. Whole numbers are computed exactly and must then be in range; doubles and floats follow the
usual rounding. Both operands are first widened to the common type that the compiler found.
-/

namespace Scriptlet

namespace Arithmetic

/-- A power of whole numbers, unless it is out of every range: a base beyond minus one and one makes it so
from the exponent sixty-five on. -/
def power? (a : Int) (b : Nat) : Option Int :=
  if a = 0 then some (if b = 0 then 1 else 0)
  else if a = 1 then some 1
  else if a = -1 then some (if b % 2 = 0 then 1 else -1)
  else if b ≤ 64 then some (Int.pow a b)
  else none

/-- The greatest exponent that a power of longs takes. -/
def greatestExponent : Nat := 4294967295

/-- Compares by size, for the operators that do. -/
def compare? (op : InfixOp) (less lessEqual greater greaterEqual : Bool) : Option Bool :=
  match op with
  | .less => some less
  | .lessEqual => some lessEqual
  | .greater => some greater
  | .greaterEqual => some greaterEqual
  | _ => none

def notArithmetic (op : InfixOp) : Fault :=
  .host ("operator " ++ op.text ++ " is not arithmetic")

/-- The exact result of an operation on whole numbers, or nothing if the machine reports it as out of range.
The remainder of the least number by minus one is reported so. -/
def exact (least : Int) (op : InfixOp) (a b : Int) : Except Fault (Option Int) :=
  match op with
  | .plus => .ok (some (a + b))
  | .minus => .ok (some (a - b))
  | .times => .ok (some (a * b))
  | .divide => if b = 0 then .error .divideByZero else .ok (some (a.tdiv b))
  | .remainder =>
    if b = 0 then .error .divideByZero
    else if a = least ∧ b = -1 then .ok none
    else .ok (some (a.tmod b))
  | .power =>
    if b < 0 then .error (.negativeExponent b)
    else if greatestExponent < b.toNat then .ok none
    else .ok (power? a b.toNat)
  | op => .error (notArithmetic op)

def outOfRange (op : InfixOp) (a b : Int) : Fault :=
  .overflow (Number.intText a ++ " " ++ op.text ++ " " ++ Number.intText b)

/-- An operation on whole numbers, whose results are made values by `fit`. -/
def integers (least : Int) (fit : Int → Option Value) (op : InfixOp) (a b : Int) : Except Fault Value :=
  match compare? op (a < b) (a ≤ b) (b < a) (b ≤ a) with
  | some truth => .ok (.bool truth)
  | none => do
    match (← exact least op a b).bind fit with
    | some v => return v
    | none => throw (outOfRange op a b)

def ints (op : InfixOp) (a b : Int32) : Except Fault Value :=
  integers (-2147483648) (fun i => (Number.fit32 i).map .int) op a.toInt b.toInt

def longs (op : InfixOp) (a b : Int64) : Except Fault Value :=
  integers (-9223372036854775808) (fun i => (Number.fit64 i).map .long) op a.toInt b.toInt

/-- The remainder of a division of doubles, with the sign of the dividend. -/
def doubleRemainder (a b : Float) : Float :=
  let bits := Number.Layout.double.remainder a.toBits.toNat b.toBits.toNat
  Float.ofBits (UInt64.ofNat (bits.getD Number.Layout.double.nanBits))

/-- The remainder of a division of floats, with the sign of the dividend. -/
def singleRemainder (a b : Float32) : Float32 :=
  let bits := Number.Layout.single.remainder a.toBits.toNat b.toBits.toNat
  Float32.ofBits (UInt32.ofNat (bits.getD Number.Layout.single.nanBits))

def doubles (op : InfixOp) (a b : Float) : Except Fault Value :=
  match compare? op (a < b) (a ≤ b) (b < a) (b ≤ a) with
  | some truth => .ok (.bool truth)
  | none =>
    match op with
    | .plus => .ok (.double (a + b))
    | .minus => .ok (.double (a - b))
    | .times => .ok (.double (a * b))
    | .divide => .ok (.double (a / b))
    | .remainder => .ok (.double (doubleRemainder a b))
    | .power => .ok (.double (a.pow b))
    | op => .error (notArithmetic op)

def floats (op : InfixOp) (a b : Float32) : Except Fault Value :=
  match compare? op (a < b) (a ≤ b) (b < a) (b ≤ a) with
  | some truth => .ok (.bool truth)
  | none =>
    match op with
    | .plus => .ok (.float (a + b))
    | .minus => .ok (.float (a - b))
    | .times => .ok (.float (a * b))
    | .divide => .ok (.float (a / b))
    | .remainder => .ok (.float (singleRemainder a b))
    | .power => .ok (.float (a.pow b))
    | op => .error (notArithmetic op)

def numbers (op : InfixOp) (operand : Ty) (left right : Value) : Except Fault Value :=
  match left, right with
  | .int a, .int b => ints op a b
  | .long a, .long b => longs op a b
  | .float a, .float b => floats op a b
  | .double a, .double b => doubles op a b
  | .null, _ => .error (.nullValue ("operand of " ++ op.text))
  | _, .null => .error (.nullValue ("operand of " ++ op.text))
  | left, _ => .error (.unexpectedValue operand left.runtimeType)

/-- The texts of two values, one behind the other. -/
def join (h : Heap) (left right : Value) : Except Fault Value := do
  let first ← finite (h.scriptText left)
  let second ← finite (h.scriptText right)
  return .string (first ++ second)

end Arithmetic

/-- An operation with two operands, both widened to `operand` first. -/
def InfixOp.apply (op : InfixOp) (h : Heap) (operand : Ty) (left right : Value) : Except Fault Value :=
  let left := left.coerce operand
  let right := right.coerce operand
  if op.isEquality then .ok (.bool (left.scriptEquals right == decide (op = .equal)))
  else if operand = .string then Arithmetic.join h left right
  else Arithmetic.numbers op operand left right

def UnaryOp.apply (op : UnaryOp) (v : Value) : Except Fault Value :=
  match op with
  | .not => do return .bool (!(← v.asBool))
  | .negate =>
    match v, v.negated? with
    | _, some w => .ok w
    | .int i, none => .error (.overflow ("-(" ++ Number.intText i.toInt ++ ")"))
    | .long l, none => .error (.overflow ("-(" ++ Number.intText l.toInt ++ ")"))
    | v, none => .error (.unexpectedValue .double v.runtimeType)

def CompoundOp.apply (op : CompoundOp) (h : Heap) (operand : Ty) (current value : Value) :
    Except Fault Value :=
  match op with
  | .arithmetic op => op.apply h operand current value
  | .and => do
    let a ← current.asBool
    let b ← value.asBool
    return .bool (a && b)
  | .or => do
    let a ← current.asBool
    let b ← value.asBool
    return .bool (a || b)

end Scriptlet
