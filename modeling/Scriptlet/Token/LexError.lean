import Scriptlet.Token

/-!
# Errors of the lexer

Why a source text has no tokens. A fault found inside a lexeme names the text that remains from the offending
character on; the place of the error follows from how much was read before it.
-/

namespace Scriptlet

inductive LexCause
  | unexpectedCharacter (c : Char)
  | singleLogicalOperator (c : Char)
  | unterminatedString
  | unterminatedInterpolation
  | unterminatedComment
  | invalidEscape (c : Char)
  | malformedNumber (text : String)
  | emptyInterpolation
  | unmatchedInterpolationBrace (c : Char)
  | unmatchedSeparator (found : Separator)
  | mismatchedSeparator (expected found : Separator)
  | unclosedSeparator (opened : Separator)
deriving DecidableEq, Repr

def LexCause.message : LexCause → String
  | .unexpectedCharacter c => "Unexpected character '" ++ c.toString ++ "'"
  | .singleLogicalOperator c =>
    "Single '" ++ c.toString ++ "' is not an operator, did you mean '" ++ c.toString ++ c.toString ++ "'?"
  | .unterminatedString => "Unterminated string literal"
  | .unterminatedInterpolation => "Unterminated interpolated string"
  | .unterminatedComment => "Unterminated block comment"
  | .invalidEscape c => "Invalid escape sequence '\\" ++ c.toString ++ "'"
  | .malformedNumber text => "Malformed numeric literal \"" ++ text ++ "\""
  | .emptyInterpolation => "Empty interpolation argument"
  | .unmatchedInterpolationBrace c =>
    "Unmatched '" ++ c.toString ++ "' in interpolated string, use '" ++ c.toString ++ c.toString ++
      "' for a literal brace"
  | .unmatchedSeparator found => "Unmatched \"" ++ found.text ++ "\""
  | .mismatchedSeparator expected found =>
    "Expected \"" ++ expected.text ++ "\" but found \"" ++ found.text ++ "\""
  | .unclosedSeparator opened => "Unclosed \"" ++ opened.text ++ "\""

structure LexError where
  cause : LexCause
  position : Position
deriving DecidableEq, Repr

def LexError.message (e : LexError) : String :=
  e.cause.message ++ " at " ++ e.position.text

/-- A cause and the text from the offending character on. -/
structure LexFault where
  cause : LexCause
  remaining : List Char
deriving DecidableEq, Repr

/-- What of a text was read when a suffix of it remains. -/
def Text.consumed (source remaining : List Char) : List Char :=
  source.take (source.length - remaining.length)

/-- Gives a fault its place, for a lexeme that begins at the given place. -/
def LexFault.locate {α : Type} (p : Position) (source : List Char) : Except LexFault α → Except LexError α
  | .ok a => .ok a
  | .error fault => .error ⟨fault.cause, p.advance (Text.consumed source fault.remaining)⟩

end Scriptlet
