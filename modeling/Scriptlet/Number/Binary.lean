import Scriptlet.Number.Power

/-!
# Binary floating point

A finite floating-point number is a sign, a mantissa and a power of two. This module reads these parts out of
the bits of a single or double number and finds the bits of the number nearest to a given quotient, where a
quotient half way between two neighbours goes to the one with the even mantissa. Everything is exact
arithmetic on natural numbers.
-/

namespace Scriptlet.Number

/-- How a floating-point number is laid out in bits: below the sign stands the exponent, below that the
fraction. -/
structure Layout where
  fractionBits : Nat
  exponentBits : Nat

namespace Layout

def single : Layout := ⟨23, 8⟩

def double : Layout := ⟨52, 11⟩

/-- The exponent of the smallest mantissa step, shared by all numbers near zero. -/
def leastExponent (l : Layout) : Int :=
  2 - twoTo (l.exponentBits - 1) - l.fractionBits

/-- The bits of infinity. -/
def infinityBits (l : Layout) : Nat :=
  (twoTo l.exponentBits - 1) * twoTo l.fractionBits

/-- The bit of the sign. -/
def signBit (l : Layout) : Nat :=
  twoTo (l.exponentBits + l.fractionBits)

end Layout

/-- A finite number without its sign: `mantissa * 2 ^ exponent`. `lowest` holds where the mantissa is the
least one of its exponent, so that the next number below is nearer than the next one above. -/
structure Magnitude where
  mantissa : Nat
  exponent : Int
  lowest : Bool

/-- What the bits of a floating-point number stand for. -/
inductive Decoded
  | nan
  | infinite (negative : Bool)
  | finite (negative : Bool) (magnitude : Magnitude)

def Layout.decode (l : Layout) (bits : Nat) : Decoded :=
  let negative := bits / l.signBit % 2 == 1
  let exponent := bits / twoTo l.fractionBits % twoTo l.exponentBits
  let fraction := bits % twoTo l.fractionBits
  if exponent = twoTo l.exponentBits - 1 then
    if fraction = 0 then .infinite negative else .nan
  else if exponent = 0 then
    .finite negative ⟨fraction, l.leastExponent, false⟩
  else
    .finite negative
      ⟨twoTo l.fractionBits + fraction, l.leastExponent + (exponent - 1 : Nat),
        fraction == 0 && exponent > 1⟩

/-- The quotient of two numbers rounded to the nearest whole number, a half going to the even one. -/
def divideHalfEven (numerator denominator : Nat) : Nat :=
  let quotient := numerator / denominator
  let twice := 2 * (numerator % denominator)
  if twice > denominator ∨ (twice = denominator ∧ quotient % 2 = 1) then quotient + 1 else quotient

/-- The number `a * 2 ^ e` as a numerator and a denominator. -/
def scaled (a : Nat) (e : Int) : Nat × Nat :=
  (a * twoTo e.toNat, twoTo (-e).toNat)

/-- The bits of the number nearest to `numerator / denominator`; past the largest one, those of infinity. -/
def Layout.encodeQuotient (l : Layout) (numerator denominator : Nat) : Nat :=
  if numerator = 0 ∨ denominator = 0 then 0
  else
    let guess : Int := (Nat.log2 numerator : Int) - Nat.log2 denominator - l.fractionBits
    let fits (e : Int) : Bool :=
      numerator * twoTo (-e).toNat < denominator * twoTo e.toNat * twoTo (l.fractionBits + 1)
    let exponent := max l.leastExponent (if fits (guess - 1) then guess - 1 else guess)
    let mantissa :=
      divideHalfEven (numerator * twoTo (-exponent).toNat) (denominator * twoTo exponent.toNat)
    min l.infinityBits ((exponent - l.leastExponent).toNat * twoTo l.fractionBits + mantissa)

/-- The bits of a sign and a magnitude given by its bits. -/
def Layout.withSign (l : Layout) (negative : Bool) (bits : Nat) : Nat :=
  if negative then l.signBit + bits else bits

/-- The remainder of the division truncated toward zero: it has the sign of the dividend. `none` where it is
not a number. -/
def Layout.remainder (l : Layout) (a b : Nat) : Option Nat :=
  match l.decode a, l.decode b with
  | .finite negative x, .finite _ y =>
    if y.mantissa = 0 then none
    else
      let e := min x.exponent y.exponent
      let r := x.mantissa * twoTo (x.exponent - e).toNat % (y.mantissa * twoTo (y.exponent - e).toNat)
      let (numerator, denominator) := scaled r e
      some (l.withSign negative (l.encodeQuotient numerator denominator))
  | .finite _ _, .infinite _ => some a
  | _, _ => none

/-- The bits of a quiet value that is not a number. -/
def Layout.nanBits (l : Layout) : Nat :=
  l.infinityBits + twoTo (l.fractionBits - 1)

end Scriptlet.Number
