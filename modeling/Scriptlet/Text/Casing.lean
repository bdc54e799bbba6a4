import Scriptlet.Text.Blank
import Scriptlet.Text.CaseData
import Scriptlet.Text.Hidden

/-!
# Upper and lower case

Case mapping of whole texts by the full Unicode mappings, in which one character may become several. The
only mapping that looks at its surroundings is that of the capital sigma: at the end of a word, that is after
a cased character and not before one, its lower case is the final sigma.
-/

namespace Scriptlet.Text

/-- Capitals `stride` apart, from the first one up to `reach` further on, whose small letters are `distance` away. -/
structure CaseRun where
  first : Nat
  reach : Nat
  stride : Nat
  distance : Int

/-- The runs of a table whose first entry counts from a code point. -/
def caseRuns (start : Nat) : List (Nat × Nat × Nat × Int) → List CaseRun
  | [] => []
  | (skipped, reach, stride, distance) :: rest =>
    ⟨start + skipped, reach, stride, distance⟩ :: caseRuns (start + skipped + reach + 1) rest

def letterRuns : List CaseRun :=
  caseRuns 0 casePairs

def CaseRun.covers (run : CaseRun) (code : Int) : Bool :=
  let place := code - run.first
  0 ≤ place && place ≤ run.reach && place % run.stride == 0

def small? (code : Int) : Option Int :=
  (letterRuns.find? (·.covers code)).map (code + ·.distance)

def capital? (code : Int) : Option Int :=
  (letterRuns.find? fun run => run.covers (code - run.distance)).map (code - ·.distance)

/-- The characters that one character maps to: what is special wins, then the other letter of its pair. -/
def mapCase (specials : List (Nat × List Nat)) (other? : Int → Option Int) (c : Char) : List Char :=
  match specials.lookup c.toNat with
  | some codes => codes.map Char.ofNat
  | none =>
    match other? c.toNat with
    | some code => [Char.ofNat code.toNat]
    | none => [c]

def upperChar (c : Char) : List Char :=
  if c.toNat < 128 then [c.toUpper] else mapCase upperSpecials capital? c

def lowerChar (c : Char) : List Char :=
  if c.toNat < 128 then [c.toLower] else mapCase lowerSpecials small? c

/-- Whether the first character that is not ignorable has case. -/
def startsCased (cs : List Char) : Bool :=
  match cs.dropWhile fun c => inTurns markTurns c.toNat || inTurns caseIgnorableTurns c.toNat with
  | [] => false
  | c :: _ => inTurns casedTurns c.toNat

def capitalSigma : Char := Char.ofNat 0x3A3

/-- The lower case of the capital sigma between the text before it, read backwards, and the text after. -/
def lowerSigma (before after : List Char) : Char :=
  if startsCased before && !startsCased after then Char.ofNat 0x3C2 else Char.ofNat 0x3C3

/-- Lower case of a text, where `before` is what precedes it, read backwards. -/
def lowerFrom (before : List Char) : List Char → List Char
  | [] => []
  | c :: cs =>
    (if c = capitalSigma then [lowerSigma before cs] else lowerChar c) ++ lowerFrom (c :: before) cs

def toUpper (s : String) : String :=
  String.ofList (s.toList.flatMap upperChar)

def toLower (s : String) : String :=
  String.ofList (lowerFrom [] s.toList)

end Scriptlet.Text
