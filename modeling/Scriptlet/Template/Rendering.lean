import Scriptlet.Fault
import Scriptlet.Heap
import Scriptlet.Number.Fixed
import Scriptlet.Text.Quoted

/-!
# Filling in templates

A placeholder becomes the text of its argument. A specifier changes how numbers are written: `F` with fixed
places, `N` with grouped digits, `P` as a percentage, `D` with at least so many digits and `X` in hexadecimal;
it says nothing about other values. The alignment then pads the text with spaces.
-/

namespace Scriptlet.Template

/-- Pads a text with spaces up to the width of the alignment. -/
def pad (alignment : Int32) (text : String) : String :=
  let fill := String.ofList (List.replicate (alignment.toInt.natAbs - text.length) ' ')
  if 0 < alignment.toInt then fill ++ text else text ++ fill

/-- One more than the largest precision a specifier may name. -/
def precisionBound : Nat := Number.twoTo 64

/-- The number after the letter of a specifier: `none` when there is none, no answer when it is no number. -/
def readPrecision (digits : List Char) : Option (Option Nat) :=
  if digits.isEmpty then some none else (Number.readNat precisionBound digits).map some

/-- A whole number in decimal with at least `width` digits. -/
def decimalText (width : Nat) (i : Int) : String :=
  let digits := Number.padZeros width (Number.natText i.natAbs)
  if i < 0 then "-" ++ digits else digits

/-- The residue of a number modulo `2 ^ bits` in hexadecimal with at least `width` digits. -/
def hexText (bits width : Nat) (i : Int) : String :=
  Number.padZeros width (Text.hexadecimal (i % Number.twoTo bits).toNat)

/-- How many bits a whole number has. -/
def bitWidth? : Value → Option Nat
  | .int _ => some 32
  | .long _ => some 64
  | _ => none

def specify (v : Value) (x : Float) (letter : Char) (precision : Option Nat) : Option String :=
  match letter.toUpper with
  | 'F' => some (Number.fixedText (precision.getD 2) x)
  | 'N' =>
    some (String.ofList (Number.groupThousands (Number.fixedText (precision.getD 2) x).toList))
  | 'P' => some (Number.fixedText (precision.getD 2) (x * 100) ++ "%")
  | 'D' => v.toInteger?.map (decimalText (precision.getD 0))
  | 'X' => do
    let i ← v.toInteger?
    let bits ← bitWidth? v
    let text := hexText bits (precision.getD 0) i
    return if letter = 'x' then text else text.map Char.toUpper
  | _ => none

def argumentText (h : Heap) (v : Value) (specifier : List Char) : Except Fault String :=
  match v.toDouble?, specifier with
  | none, _ | _, [] => finite (h.scriptText v)
  | some x, letter :: digits =>
    match (readPrecision digits).bind (specify v x letter) with
    | some text => .ok text
    | none => do throw (.template (.invalidSpecifier (String.ofList specifier) (← finite (h.text v))))

def pieceText (h : Heap) (arguments : List Value) : Piece → Except Fault String
  | .literal c => .ok c.toString
  | .placeholder p =>
    match arguments[p.index]? with
    | some v => (argumentText h v p.specifier).map (pad p.alignment)
    | none => .error (.template (.missingArgument p.index arguments.length))

/-- The texts of all pieces, joined; the first piece that fails decides. -/
def render (h : Heap) (arguments : List Value) : List Piece → Except Fault String
  | [] => .ok ""
  | piece :: rest => do
    let text ← pieceText h arguments piece
    let others ← render h arguments rest
    return text ++ others

def format (h : Heap) (template : String) (arguments : List Value) : Except Fault String := do
  render h arguments (← (pieces template).mapError .template)

end Scriptlet.Template
