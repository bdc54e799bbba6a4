import Scriptlet.Number.Binary
import Scriptlet.Number.Integer

/-!
# Fixed places and digit groups

A number written with a fixed number of places behind the point is its exact value rounded to that place, a
half going to the even neighbour; the sign stays even where only zeros remain. Grouping puts a comma between
each three digits of the whole part, counted from its end.
-/

namespace Scriptlet.Number

/-- A whole number of units of `10 ^ -places`, with a point in front of the last `places` digits. -/
def placedText (places units : Nat) : String :=
  if places = 0 then natText units
  else natText (units / tenTo places) ++ "." ++ padZeros places (natText (units % tenTo places))

def Magnitude.units (m : Magnitude) (places : Nat) : Nat :=
  let (numerator, denominator) := scaled m.mantissa m.exponent
  divideHalfEven (numerator * tenTo places) denominator

def fixedText (places : Nat) (x : Float) : String :=
  match Layout.double.decode x.toBits.toNat with
  | .nan => "NaN"
  | .infinite negative => if negative then "-inf" else "inf"
  | .finite negative m => (if negative then "-" else "") ++ placedText places (m.units places)

/-- Puts a comma wherever a multiple of three characters follows, but not in front. -/
def groupDigits : List Char → List Char
  | [] => []
  | [c] => [c]
  | c :: d :: cs =>
    if (cs.length + 1) % 3 = 0 then c :: ',' :: groupDigits (d :: cs) else c :: groupDigits (d :: cs)

/-- Groups the digits between the sign and the point. -/
def groupThousands (cs : List Char) : List Char :=
  let (sign, unsigned) := match cs with
    | '-' :: rest => (['-'], rest)
    | _ => ([], cs)
  sign ++ groupDigits (unsigned.takeWhile (· != '.')) ++ unsigned.dropWhile (· != '.')

end Scriptlet.Number
