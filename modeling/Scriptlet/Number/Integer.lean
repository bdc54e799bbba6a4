/-!
# Decimal integers

Reading and writing whole numbers in decimal, and the two ranges of the language: 32 bits and 64 bits, in
two's complement. A number is read from a sign, which may be missing, and a non-empty run of digits.
-/

namespace Scriptlet.Number

def digit? (c : Char) : Option Nat :=
  if '0' ≤ c ∧ c ≤ '9' then some (c.toNat - '0'.toNat) else none

/-- Reads decimal digits after a number that is already known. -/
def readDigitsFrom (known : Nat) : List Char → Option Nat
  | [] => some known
  | c :: cs =>
    match digit? c with
    | some d => readDigitsFrom (10 * known + d) cs
    | none => none

/-- The number that a non-empty run of decimal digits writes. -/
def readDigits (cs : List Char) : Option Nat :=
  if cs.isEmpty then none else readDigitsFrom 0 cs

/-- The number that an optional plus sign and decimal digits write, if it is below `bound`. -/
def readNat (bound : Nat) (cs : List Char) : Option Nat :=
  let digits := match cs with
    | '+' :: rest => rest
    | _ => cs
  (readDigits digits).filter (· < bound)

/-- The number that an optional sign and decimal digits write. -/
def readInt (cs : List Char) : Option Int :=
  match cs with
  | '-' :: rest => (readDigits rest).map fun n => -(n : Int)
  | '+' :: rest => (readDigits rest).map fun n => (n : Int)
  | _ => (readDigits cs).map fun n => (n : Int)

/-- A whole number as 32 bits, if it fits. -/
def fit32 (i : Int) : Option Int32 :=
  if -2147483648 ≤ i ∧ i ≤ 2147483647 then some (Int32.ofInt i) else none

/-- A whole number as 64 bits, if it fits. -/
def fit64 (i : Int) : Option Int64 :=
  if -9223372036854775808 ≤ i ∧ i ≤ 9223372036854775807 then some (Int64.ofInt i) else none

/-- A 32-bit number from an optional sign and decimal digits. -/
def readInt32 (cs : List Char) : Option Int32 :=
  (readInt cs).bind fit32

/-- A 64-bit number from an optional sign and decimal digits. -/
def readInt64 (cs : List Char) : Option Int64 :=
  (readInt cs).bind fit64

def natText (n : Nat) : String :=
  String.ofList (Nat.toDigits 10 n)

/-- A whole number in decimal, with a minus sign when it is negative. -/
def intText (i : Int) : String :=
  if i < 0 then "-" ++ natText i.natAbs else natText i.natAbs

/-- A text brought to at least `width` characters by zeros in front. -/
def padZeros (width : Nat) (s : String) : String :=
  String.ofList (List.replicate (width - s.length) '0') ++ s

end Scriptlet.Number
