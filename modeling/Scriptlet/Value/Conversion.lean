import Scriptlet.Fault
import Scriptlet.Value

/-!
# Explicit conversions

Casts change the type of a number or check that a value already has the type asked for. A number cast to a
whole number loses its fraction and must then be in range; a value that is no number keeps its content.
-/

namespace Scriptlet.Value

/-- A double without its fraction. -/
def truncate (x : Float) : Float :=
  if x < 0 then x.ceil else x.floor

/-- A double truncated to 32 bits, if it is in range. -/
def truncate32? (x : Float) : Option Int32 :=
  let t := truncate x
  if -2147483648 ≤ t && t ≤ 2147483647 then some t.toInt32 else none

/-- A double truncated to 64 bits, if it is in range. -/
def truncate64? (x : Float) : Option Int64 :=
  let t := truncate x
  if -9223372036854775808 ≤ t && t < 9223372036854775808 then some t.toInt64 else none

/-- A number as another numeric type, if it is in range. -/
def castNumber (v : Value) (target : Ty) : Option Value :=
  match v, target with
  | .int i, .int => some (.int i)
  | .long l, .int => (Number.fit32 l.toInt).map .int
  | v, .int => (v.toDouble?.bind truncate32?).map .int
  | .int i, .long => some (.long i.toInt64)
  | .long l, .long => some (.long l)
  | v, .long => (v.toDouble?.bind truncate64?).map .long
  | .long l, .float => some (.float l.toFloat32)
  | v, .float => v.toDouble?.map fun x => .float x.toFloat32
  | v, .double => v.toDouble?.map .double
  | _, _ => none

def cast (classes : Hierarchy) (v : Value) (target : Ty) : Except Fault Value :=
  let invalid : Fault := .invalidCast v.runtimeType target
  if target.isNumeric then
    match v.castNumber target with
    | some w => .ok w
    | none => .error invalid
  else if v.isNull then
    if target.isReference then .ok .null else .error invalid
  else if classes.accepts target v.runtimeType then .ok (v.coerce target)
  else .error invalid

def asBool (v : Value) : Except Fault Bool :=
  match v with
  | .bool b => .ok b
  | v => .error (.unexpectedValue .bool v.runtimeType)

def asInt (v : Value) : Except Fault Int32 :=
  match v with
  | .int i => .ok i
  | v => .error (.unexpectedValue .int v.runtimeType)

end Scriptlet.Value
