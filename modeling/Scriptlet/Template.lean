import Scriptlet.Number.Integer
import Scriptlet.Number.Power
import Scriptlet.Text.Blank

/-!
# Format templates

A template is a text with placeholders between braces: the index of an argument, an optional alignment after a
comma and an optional specifier after a colon. A brace that is text is written twice. This module reads a
template into its pieces; the first brace or placeholder that is wrong is reported.
-/

namespace Scriptlet

inductive TemplateError
  | unbalancedBrace (offset : Nat)
  | invalidPlaceholder (body : String)
  | missingArgument (index count : Nat)
  | invalidSpecifier (specifier value : String)
deriving DecidableEq, Repr

def TemplateError.message : TemplateError → String
  | .unbalancedBrace offset => "unbalanced brace at offset " ++ toString offset
  | .invalidPlaceholder body => "invalid placeholder \"" ++ body ++ "\""
  | .missingArgument index count =>
    "placeholder " ++ toString index ++ " has no matching argument (" ++ toString count ++ " supplied)"
  | .invalidSpecifier specifier value =>
    "format specifier \"" ++ specifier ++ "\" does not apply to " ++ value

namespace Template

/-- A place for an argument. A positive alignment is the least width of a text pushed to the right, a negative
one that of a text pushed to the left. -/
structure Placeholder where
  index : Nat
  alignment : Int32
  specifier : List Char
deriving DecidableEq, Repr

/-- A character of the text itself, or a place for an argument. -/
inductive Piece
  | literal (c : Char)
  | placeholder (p : Placeholder)
deriving DecidableEq, Repr

/-- A text before and after the first occurrence of a character; all of it and `none` if there is none. -/
def cutAt (mark : Char) (cs : List Char) : List Char × Option (List Char) :=
  match cs.dropWhile (· != mark) with
  | [] => (cs, none)
  | _ :: rest => (cs.takeWhile (· != mark), some rest)

/-- One more than the largest index of an argument. -/
def indexBound : Nat := Number.twoTo 64

/-- Reads what stands between the braces of a placeholder. -/
def readPlaceholder (body : List Char) : Option Placeholder := do
  let (head, specifier) := cutAt ':' body
  let (index, alignment) := cutAt ',' head
  let alignment ← match alignment with
    | some text => Number.readInt32 (Text.trim text)
    | none => some 0
  let index ← Number.readNat indexBound (Text.trim index)
  return ⟨index, alignment, specifier.getD []⟩

mutual

/-- Reads a template from a byte offset on. -/
def readPieces (offset : Nat) : List Char → Except TemplateError (List Piece)
  | [] => .ok []
  | '{' :: '{' :: rest => do return .literal '{' :: (← readPieces (offset + 2) rest)
  | '}' :: '}' :: rest => do return .literal '}' :: (← readPieces (offset + 2) rest)
  | '}' :: _ => .error (.unbalancedBrace offset)
  | '{' :: rest => readBody offset (offset + 1) [] rest
  | c :: rest => do return .literal c :: (← readPieces (offset + c.utf8Size) rest)

/-- Reads on inside the placeholder that opened at `opened`; `body` holds its characters read so far, the last
one in front. -/
def readBody (opened offset : Nat) (body : List Char) :
    List Char → Except TemplateError (List Piece)
  | [] => .error (.unbalancedBrace opened)
  | '}' :: rest =>
    match readPlaceholder body.reverse with
    | some p => do return .placeholder p :: (← readPieces (offset + 1) rest)
    | none => .error (.invalidPlaceholder (String.ofList body.reverse))
  | c :: rest => readBody opened (offset + c.utf8Size) (c :: body) rest

end

/-- The pieces of a template. -/
def pieces (template : String) : Except TemplateError (List Piece) :=
  readPieces 0 template.toList

def Piece.index? : Piece → Option Nat
  | .literal _ => none
  | .placeholder p => some p.index

/-- The argument indices of a template, in the order of its placeholders. -/
def indices (template : String) : Except TemplateError (List Nat) :=
  (pieces template).map (·.filterMap Piece.index?)

end Template

end Scriptlet
