import Scriptlet.Number.Binary
import Scriptlet.Number.Integer

/-!
# The shortest decimal text of a floating-point number

Every floating-point number stands for an interval of reals: those that are nearer to it than to its
neighbours. Its text is the decimal with the fewest digits in that interval. Of several it is the one nearest
to the number itself, and of two equally near ones the larger. The text is positional, without an exponent,
and shows no point when the number is whole.
-/

namespace Scriptlet.Number

/-- A decimal number `digits * 10 ^ exponent`. -/
structure Decimal where
  digits : Nat
  exponent : Int
deriving Repr, DecidableEq

/-- The interval of reals that round to a magnitude, in quarters of its mantissa step: the number itself is
`4 * mantissa`, the lower end `low` and the upper end `high`; both ends belong to it iff `closed`. -/
structure Neighbourhood where
  centre : Nat
  low : Nat
  high : Nat
  closed : Bool
  exponent : Int

/-- The reals that round to a magnitude. -/
def Magnitude.neighbourhood (m : Magnitude) : Neighbourhood where
  centre := 4 * m.mantissa
  low := 4 * m.mantissa - (if m.lowest then 1 else 2)
  high := 4 * m.mantissa + 2
  closed := m.mantissa % 2 == 0
  exponent := m.exponent - 2

namespace Neighbourhood

/-- Whether `candidate * 10 ^ place` lies in the interval. -/
def holds (n : Neighbourhood) (place : Int) (candidate : Nat) : Bool :=
  let x := candidate * tenTo place.toNat * twoTo (-n.exponent).toNat
  let unit := twoTo n.exponent.toNat * tenTo (-place).toNat
  if n.closed then n.low * unit ≤ x && x ≤ n.high * unit
  else n.low * unit < x && x < n.high * unit

/-- The multiple of `10 ^ place` that represents the number, if one does: of the two next to the number, the
nearer of those in the interval, the upper one when both are equally near. -/
def onGrid (n : Neighbourhood) (place : Int) : Option Nat :=
  let numerator := n.centre * twoTo n.exponent.toNat * tenTo (-place).toNat
  let denominator := tenTo place.toNat * twoTo (-n.exponent).toNat
  let below := numerator / denominator
  let above := below + 1
  match n.holds place below, n.holds place above with
  | true, true => if 2 * (numerator % denominator) < denominator then some below else some above
  | true, false => some below
  | false, true => some above
  | false, false => none

/-- Tries ever finer grids, from `place` downwards. -/
def search (n : Neighbourhood) : Nat → Int → Option Decimal
  | 0, _ => none
  | fuel + 1, place =>
    match n.onGrid place with
    | some digits => some ⟨digits, place⟩
    | none => n.search fuel (place - 1)

end Neighbourhood

/-- The shortest decimal that represents a magnitude. The first grid tried is coarser than the number, and
every double has a decimal of at most seventeen digits. -/
def Magnitude.shortest (m : Magnitude) : Decimal :=
  if m.mantissa = 0 then ⟨0, 0⟩
  else
    let top : Int := ((Nat.log2 m.mantissa + 1 : Int) + m.exponent) * 30103 / 100000 + 2
    (m.neighbourhood.search 24 top).getD ⟨0, 0⟩

/-- A decimal in positional notation, without trailing zeros behind a point. -/
def Decimal.text (d : Decimal) : String :=
  if 0 ≤ d.exponent then
    natText (d.digits * tenTo d.exponent.toNat)
  else
    let places := (-d.exponent).toNat
    natText (d.digits / tenTo places) ++ "." ++ padZeros places (natText (d.digits % tenTo places))

/-- The text of a floating-point number given by its bits. -/
def Layout.text (l : Layout) (bits : Nat) : String :=
  match l.decode bits with
  | .nan => "NaN"
  | .infinite negative => if negative then "-inf" else "inf"
  | .finite negative m => (if negative then "-" else "") ++ m.shortest.text

def doubleText (x : Float) : String :=
  Layout.double.text x.toBits.toNat

def singleText (x : Float32) : String :=
  Layout.single.text x.toBits.toNat

end Scriptlet.Number
