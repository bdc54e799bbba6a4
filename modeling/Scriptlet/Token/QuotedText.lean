import Scriptlet.Token.LexError
import Scriptlet.Token.Lexeme

/-!
# String constants

A text between two equal quotes, on one line. A backslash and the character after it stand for one character.
-/

namespace Scriptlet.QuotedText

def isQuote (c : Char) : Bool :=
  c = '"' || c = '\''

/-- The character that a backslash and a character stand for. -/
def escape? : Char → Option Char
  | '\\' => some '\\'
  | '\'' => some '\''
  | '"' => some '"'
  | 'n' => some '\n'
  | 'r' => some '\r'
  | 't' => some '\t'
  | _ => none

/-- The content of a text up to its closing quote, which is taken too. `whole` is the text from the opening
quote on. -/
def readContent (quote : Char) (whole : List Char) : List Char → Except LexFault (Lexeme (List Char))
  | [] => .error ⟨.unterminatedString, whole⟩
  | '\\' :: rest =>
    match rest with
    | [] => .error ⟨.unterminatedString, whole⟩
    | e :: after =>
      match escape? e with
      | some c => (readContent quote whole after).map fun l => (l.map (c :: ·)).after ['\\', e]
      | none => .error ⟨.invalidEscape e, '\\' :: rest⟩
  | c :: rest =>
    if c = quote then .ok ⟨[], [c], rest⟩
    else if c = '\n' then .error ⟨.unterminatedString, whole⟩
    else (readContent quote whole rest).map fun l => (l.map (c :: ·)).after [c]

/-- Reads a string constant at the start of a text that begins with a quote. -/
def read (quote : Char) (rest : List Char) : Except LexFault (Lexeme String) :=
  (readContent quote (quote :: rest) rest).map fun l => (l.map String.ofList).after [quote]

end Scriptlet.QuotedText
