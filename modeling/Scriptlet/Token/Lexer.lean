import Scriptlet.Token.Brackets
import Scriptlet.Token.Interpolation
import Scriptlet.Token.Numeral
import Scriptlet.Token.Trivia

/-!
# From source text to tokens

A source text is trivia and lexemes in turn. Every lexeme is the longest one that the text allows, and gives
one token at the place of its first character; the end of the text gives the last token. Afterwards the words
`else` and `if` are joined and the brackets are checked.
-/

namespace Scriptlet.Lexer

/-- What a type name stands for, if the word is one. -/
abbrev TypeNames := String → Option TypeName

/-- The token that a word is. -/
def wordKind (types : TypeNames) (word : String) : TokenKind :=
  match Keyword.ofWord? word with
  | some k => .keyword k
  | none =>
    match word with
    | "true" => .literal (.bool true)
    | "false" => .literal (.bool false)
    | "null" => .literal .null
    | "void" => .type "void" (.complete .void)
    | _ =>
      match types word with
      | some target => .type word target
      | none => .identifier word

def signs : List (List Char × TokenKind) :=
  Separator.all.map (fun s => (s.text.toList, .separator s)) ++
    Operator.all.map fun o => (o.text.toList, .operator o)

/-- The longer of two signs, the first if they are equally long. -/
def longerSign (a b : List Char × TokenKind) : List Char × TokenKind :=
  if a.1.length < b.1.length then b else a

/-- The longest sign at the start of a text. -/
def sign? (source : List Char) : Option (List Char × TokenKind) :=
  match signs.filter fun s => s.1.isPrefixOf source with
  | [] => none
  | first :: others => some (others.foldl longerSign first)

/-- Reads a lexeme, other than an interpolated string, at the start of a text. -/
def readLexeme (types : TypeNames) (source : List Char) : Except LexFault (Lexeme TokenKind) :=
  match source with
  | [] => .ok ⟨.endOfInput, [], []⟩
  | c :: rest =>
    if Numeral.isDigit c then (Numeral.read source).map (·.map .literal)
    else if Numeral.isLetter c || c = '_' then
      .ok ((Lexeme.span Numeral.isWordChar source).map fun word => wordKind types (String.ofList word))
    else if QuotedText.isQuote c then
      (QuotedText.read c rest).map (·.map fun content => .literal (.string content))
    else
      match sign? source with
      | some (text, kind) => .ok ⟨kind, text, source.drop text.length⟩
      | none =>
        if c = '&' ∨ c = '|' then .error ⟨.singleLogicalOperator c, source⟩
        else .error ⟨.unexpectedCharacter c, source⟩

/-- The quote and the content of an interpolated string that begins here. -/
def interpolated? : List Char → Option (Char × List Char)
  | '$' :: quote :: rest => if QuotedText.isQuote quote then some (quote, rest) else none
  | _ => none

/-- The tokens of the arguments of an interpolated string, each without the mark of its end. -/
def argumentTokens (scan : Position → List Char → Except LexError (List Token)) :
    List (Position × List Char) → Except LexError (List (List Token))
  | [] => .ok []
  | (p, text) :: rest => do
    let tokens ← scan p text
    Brackets.check tokens.dropLast
    return tokens.dropLast :: (← argumentTokens scan rest)

/-- The tokens of a text that begins at the given place. Each step takes a lexeme of at least one character,
and the arguments of an interpolated string are shorter than the string, so as many steps as there are
characters are enough. -/
def scan (types : TypeNames) : Nat → Position → List Char → Except LexError (List Token)
  | 0, p, _ => .ok [⟨.endOfInput, p⟩]
  | steps + 1, start, text => do
    let trivia := Trivia.split text
    let p := start.advance trivia.taken
    let source := trivia.rest
    if trivia.closed then
      match interpolated? source with
      | some (quote, content) =>
        let reading := Interpolation.readChunks quote source content content
        let inside := p.advance ['$', quote]
        let arguments ← argumentTokens (scan types steps) (Interpolation.arguments inside reading.chunks)
        let rest ← LexFault.locate p source reading.ending
        let behind := (inside.advance (reading.chunks.flatMap (·.written))).step quote
        let kind := .interpolated (String.ofList (Interpolation.template 0 reading.chunks)) arguments
        return ⟨kind, p⟩ :: (← scan types steps behind rest)
      | none =>
        let lexeme ← LexFault.locate p source (readLexeme types source)
        if lexeme.value.isEnd then return [⟨lexeme.value, p⟩]
        return ⟨lexeme.value, p⟩ :: (← scan types steps (p.advance lexeme.taken) lexeme.rest)
    else throw ⟨.unterminatedComment, p⟩

/-- The tokens of a source text as they stand there. -/
def rawTokens (types : TypeNames) (source : String) : Except LexError (List Token) :=
  scan types source.toList.length .start source.toList

/-- Joins every `else` with an `if` directly behind it. -/
def joinElseIf : List Token → List Token
  | [] => []
  | [token] => [token]
  | token :: next :: rest =>
    if token.kind.isKeyword .elseWord && next.kind.isKeyword .ifWord then
      ⟨.keyword .elseIfWord, token.position⟩ :: joinElseIf rest
    else token :: joinElseIf (next :: rest)

/-- The tokens of a source text, with `else if` joined and the brackets checked. -/
def tokenize (types : TypeNames) (source : String) : Except LexError (List Token) := do
  let tokens := joinElseIf (← rawTokens types source)
  Brackets.check tokens
  return tokens

end Scriptlet.Lexer
