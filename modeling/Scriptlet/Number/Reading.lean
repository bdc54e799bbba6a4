import Scriptlet.Number.Binary
import Scriptlet.Number.Integer

/-!
# Reading decimal floating point

A decimal text, digits with an optional point and an optional power of ten, stands for a rational number; it
reads as the floating-point number nearest to it. Powers of ten so large that the answer is infinite, or so
small that it is zero, are settled without computing them.
-/

namespace Scriptlet.Number

/-- The parts of a decimal text: the digits without the point, and the power of ten they are scaled by. -/
structure Scientific where
  digits : Nat
  exponent : Int

/-- The bits of the number nearest to a decimal. -/
def Scientific.bits (s : Scientific) (l : Layout) : Nat :=
  if s.digits = 0 then 0
  else
    let size : Int := (Nat.log2 s.digits : Int) * 30103 / 100000 + s.exponent
    if size > 400 then l.infinityBits
    else if size < -400 then 0
    else l.encodeQuotient (s.digits * tenTo s.exponent.toNat) (tenTo (-s.exponent).toNat)

/-- Splits digits, an optional point with digits and an optional exponent. -/
def readScientific (cs : List Char) : Option Scientific := do
  let mantissa := cs.takeWhile fun c => c != 'e' && c != 'E'
  let whole := mantissa.takeWhile (· != '.')
  let fraction := (mantissa.dropWhile (· != '.')).drop 1
  let digits ← readDigits (whole ++ fraction)
  let exponent ← match cs.dropWhile fun c => c != 'e' && c != 'E' with
    | [] => some 0
    | _ :: rest => readInt rest
  return ⟨digits, exponent - fraction.length⟩

def readDouble (cs : List Char) : Option Float :=
  (readScientific cs).map fun s => Float.ofBits (UInt64.ofNat (s.bits .double))

def readSingle (cs : List Char) : Option Float32 :=
  (readScientific cs).map fun s => Float32.ofBits (UInt32.ofNat (s.bits .single))

end Scriptlet.Number
