import Scriptlet.Token.QuotedText
import Scriptlet.Text.Blank

/-!
# Interpolated strings

A text in quotes with a dollar sign before it, in which expressions stand in braces. The walk cuts it into
chunks: characters, doubled braces, and arguments with the alignment and specifier behind them. The template
of the string is put together from the chunks, with the number of each argument in place of its text.
-/

namespace Scriptlet.Interpolation

/-- A piece of an interpolated string. A character may be written as itself or with a backslash. An argument
has its text and the tail from there through its closing brace. -/
inductive Chunk
  | character (c : Char) (written : List Char)
  | doubledBrace (c : Char)
  | argument (text tail : List Char)

def Chunk.written : Chunk → List Char
  | .character _ written => written
  | .doubledBrace c => [c, c]
  | .argument text tail => '\x7b' :: text ++ tail

/-- The chunks of an interpolated string, and the text behind its closing quote or the fault that ends it. -/
structure Reading where
  chunks : List Chunk
  ending : Except LexFault (List Char)

def Reading.after (r : Reading) (c : Chunk) : Reading :=
  { r with chunks := c :: r.chunks }

/-- A text split in two, with characters in front of the first part. -/
def prepend (cs : List Char) (parts : List Char × List Char) : List Char × List Char :=
  (cs ++ parts.1, parts.2)

/-- The text through the closing quote of a quoted text that stands inside an argument and is already open,
and the text behind it. -/
def splitQuoted (quote : Char) : List Char → Option (List Char × List Char)
  | [] => none
  | '\\' :: rest =>
    match rest with
    | [] => none
    | e :: after => if e = '\n' then none else (splitQuoted quote after).map (prepend ['\\', e])
  | c :: rest =>
    if c = '\n' then none
    else if c = quote then some ([c], rest)
    else (splitQuoted quote rest).map (prepend [c])

/-- An argument, and the text from its end on: from a closing brace, a comma or a colon outside all brackets.
A line feed or the quote of the whole string does not occur in an argument. Each step takes at least one
character, so the text itself has steps enough. -/
def splitArgument (quote : Char) : List Char → Nat → List Char → Option (List Char × List Char)
  | [], _, _ => none
  | _ :: _, _, [] => none
  | _ :: steps, depth, c :: rest =>
    if c = '\n' ∨ c = quote then none
    else if QuotedText.isQuote c then
      match splitQuoted c rest with
      | some (quoted, after) => (splitArgument quote steps depth after).map (prepend (c :: quoted))
      | none => none
    else if c = '(' ∨ c = '[' ∨ c = '\x7b' then (splitArgument quote steps (depth + 1) rest).map (prepend [c])
    else if c = ')' ∨ c = ']' then (splitArgument quote steps (depth - 1) rest).map (prepend [c])
    else if depth = 0 ∧ (c = '\x7d' ∨ c = ',' ∨ c = ':') then some ([], c :: rest)
    else if c = '\x7d' then (splitArgument quote steps (depth - 1) rest).map (prepend [c])
    else (splitArgument quote steps depth rest).map (prepend [c])

/-- The tail of an argument through its closing brace, and the text behind it. -/
def splitTail (quote : Char) : List Char → Option (List Char × List Char)
  | [] => none
  | c :: rest =>
    if c = '\x7d' then some ([c], rest)
    else if c = quote ∨ c = '\n' then none
    else (splitTail quote rest).map (prepend [c])

/-- Reads chunks up to the closing quote. `whole` is the text from the dollar sign on. Each chunk takes at
least one character, so the text itself has steps enough. -/
def readChunks (quote : Char) (whole : List Char) : List Char → List Char → Reading
  | [], _ => ⟨[], .error ⟨.unterminatedInterpolation, whole⟩⟩
  | _ :: steps, source =>
    let unterminated : Reading := ⟨[], .error ⟨.unterminatedInterpolation, whole⟩⟩
    match source with
    | [] => unterminated
    | '\\' :: e :: rest =>
      match QuotedText.escape? e with
      | some c => (readChunks quote whole steps rest).after (.character c ['\\', e])
      | none => ⟨[], .error ⟨.invalidEscape e, source⟩⟩
    | '\\' :: [] => unterminated
    | '\x7b' :: '\x7b' :: rest => (readChunks quote whole steps rest).after (.doubledBrace '\x7b')
    | '\x7d' :: '\x7d' :: rest => (readChunks quote whole steps rest).after (.doubledBrace '\x7d')
    | '\x7d' :: _ => ⟨[], .error ⟨.unmatchedInterpolationBrace '\x7d', source⟩⟩
    | '\x7b' :: rest =>
      match splitArgument quote rest 0 rest with
      | none => unterminated
      | some (text, afterText) =>
        if (Text.trim text).isEmpty then ⟨[], .error ⟨.emptyInterpolation, source⟩⟩
        else
          match splitTail quote afterText with
          | some (tail, after) => (readChunks quote whole steps after).after (.argument text tail)
          | none => unterminated.after (.argument text [])
    | c :: rest =>
      if c = quote then ⟨[], .ok rest⟩
      else if c = '\n' then unterminated
      else (readChunks quote whole steps rest).after (.character c [c])

/-- The template that chunks make, when so many arguments came before them. -/
def template (count : Nat) : List Chunk → List Char
  | [] => []
  | .character c _ :: rest => c :: template count rest
  | .doubledBrace c :: rest => c :: c :: template count rest
  | .argument _ tail :: rest =>
    '\x7b' :: (Number.natText count).toList ++ tail ++ template (count + 1) rest

/-- The arguments among chunks that begin at the given place, each with its own place. -/
def arguments (p : Position) : List Chunk → List (Position × List Char)
  | [] => []
  | .argument text tail :: rest =>
    (p.step '\x7b', text) :: arguments (p.advance (Chunk.argument text tail).written) rest
  | chunk :: rest => arguments (p.advance chunk.written) rest

end Scriptlet.Interpolation
