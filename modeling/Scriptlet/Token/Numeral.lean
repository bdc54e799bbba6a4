import Scriptlet.Number.Reading
import Scriptlet.Token.LexError
import Scriptlet.Token.Lexeme

/-!
# Numeric constants

Digits, then perhaps a fraction, an exponent and a letter that fixes the type. A constant without fraction,
exponent and letter is an int if it is in range and a long if not. Letters or digits that follow directly make
the constant malformed.
-/

namespace Scriptlet.Numeral

def isDigit (c : Char) : Bool :=
  (Number.digit? c).isSome

/-- Whether a character is a letter of the Latin alphabet. -/
def isLetter (c : Char) : Bool :=
  ('a' ≤ c && c ≤ 'z') || ('A' ≤ c && c ≤ 'Z')

/-- Whether a character can continue a word. -/
def isWordChar (c : Char) : Bool :=
  isLetter c || isDigit c || c = '_'

/-- The fraction at the start of a text, a point with digits after it, and the text behind it. Nothing is
taken if there is none. -/
def splitFraction : List Char → List Char × List Char
  | '.' :: d :: rest =>
    if isDigit d then ('.' :: d :: rest.takeWhile isDigit, rest.dropWhile isDigit)
    else ([], '.' :: d :: rest)
  | source => ([], source)

/-- The sign at the start of a text, and the text behind it. -/
def splitSign : List Char → List Char × List Char
  | '+' :: rest => (['+'], rest)
  | '-' :: rest => (['-'], rest)
  | source => ([], source)

/-- The exponent at the start of a text, and the text behind it. Nothing is taken if there is none. An
exponent without digits is malformed, and the error is its letter and sign. -/
def splitExponent : List Char → Except (List Char) (List Char × List Char)
  | c :: rest =>
    if c = 'e' ∨ c = 'E' then
      let (sign, digits) := splitSign rest
      if (digits.takeWhile isDigit).isEmpty then .error (c :: sign)
      else .ok (c :: sign ++ digits.takeWhile isDigit, digits.dropWhile isDigit)
    else .ok ([], c :: rest)
  | [] => .ok ([], [])

/-- The letters that fix the type of a number. -/
inductive Mark
  | float
  | double
  | long
deriving DecidableEq, Repr

def mark? : List Char → Option Mark
  | c :: _ =>
    if c = 'f' ∨ c = 'F' then some .float
    else if c = 'd' ∨ c = 'D' then some .double
    else if c = 'l' ∨ c = 'L' then some .long
    else none
  | [] => none

/-- A whole number without a mark: an int if it is in range and a long if not. -/
def plainInteger (body : List Char) : Option Literal := do
  let n ← Number.readDigits body
  if n = 2147483648 then return .intMinMagnitude
  match Number.fit32 n with
  | some i => return .int i
  | none => return .long (← Number.fit64 n)

def constant (body : List Char) (fractional : Bool) : Option Mark → Option Literal
  | some .float => (Number.readSingle body).map .float
  | some .double => (Number.readDouble body).map .double
  | some .long => if fractional then none else (Number.readInt64 body).map .long
  | none => if fractional then (Number.readDouble body).map .double else plainInteger body

/-- Reads a number at the start of a text that begins with a digit. -/
def read (source : List Char) : Except LexFault (Lexeme Literal) := do
  let malformed (taken : List Char) : LexFault := ⟨.malformedNumber (String.ofList taken), source⟩
  let (fraction, afterFraction) := splitFraction (source.dropWhile isDigit)
  let whole := source.takeWhile isDigit ++ fraction
  let (exponent, afterBody) ← (splitExponent afterFraction).mapError fun taken => malformed (whole ++ taken)
  let mark := mark? afterBody
  let (letter, rest) := if mark.isSome then afterBody.splitAt 1 else ([], afterBody)
  let taken := whole ++ exponent ++ letter
  if (rest.takeWhile isWordChar).isEmpty then
    match constant (whole ++ exponent) (!fraction.isEmpty || !exponent.isEmpty) mark with
    | some l => return ⟨l, taken, rest⟩
    | none => throw (malformed taken)
  else throw (malformed (taken ++ rest.takeWhile fun c => isWordChar c || c = '.'))

end Scriptlet.Numeral
