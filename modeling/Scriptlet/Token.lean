import Scriptlet.Position
import Scriptlet.Number.Integer
import Scriptlet.Number.Shortest
import Scriptlet.Text.Quoted
import Scriptlet.Value

/-!
# Tokens

The words and signs of a source text, each with the place where it begins. A name that the host registered as
a type name is a token of its own kind. An interpolated string is one token: its template, and the tokens of
every expression that stands in it.
-/

namespace Scriptlet

/-- Reserved words. The pair `else if` is one word that stands for two. -/
inductive Keyword
  | ifWord
  | elseIfWord
  | elseWord
  | switchWord
  | whileWord
  | forWord
  | forEachWord
  | inWord
  | continueWord
  | breakWord
  | returnWord
  | caseWord
  | defaultWord
  | globalWord
  | externWord
  | constWord
  | systemWord
  | debugWord
  | mathWord
  | newWord
deriving DecidableEq, Repr

/-- Signs that act on operands. -/
inductive Operator
  | assign
  | plusAssign
  | minusAssign
  | starAssign
  | slashAssign
  | percentAssign
  | caretAssign
  | andAssign
  | orAssign
  | equal
  | notEqual
  | less
  | lessEqual
  | greater
  | greaterEqual
  | not
  | plus
  | minus
  | star
  | slash
  | percent
  | caret
  | increment
  | decrement
  | and
  | or
  | question
  | dot
deriving DecidableEq, Repr

inductive Separator
  | openParen
  | closeParen
  | openBrace
  | closeBrace
  | openBracket
  | closeBracket
  | semicolon
  | colon
  | comma
deriving DecidableEq, Repr

/-- Constants of a source text. The number `2147483648` is one of its own: it is a long, but with a minus sign
before it the two are the least int. -/
inductive Literal
  | bool (b : Bool)
  | int (i : Int32)
  | long (l : Int64)
  | intMinMagnitude
  | float (x : Float32)
  | double (x : Float)
  | string (s : String)
  | null

mutual

inductive TokenKind
  | keyword (word : Keyword)
  | type (word : String) (target : TypeName)
  | identifier (name : String)
  | operator (sign : Operator)
  | separator (sign : Separator)
  | literal (constant : Literal)
  | interpolated (template : String) (arguments : List (List Token))
  | endOfInput

/-- A word or sign of a source text and the place where it begins. -/
structure Token where
  kind : TokenKind
  position : Position

end

namespace Keyword

def text : Keyword → String
  | .ifWord => "if"
  | .elseIfWord => "else if"
  | .elseWord => "else"
  | .switchWord => "switch"
  | .whileWord => "while"
  | .forWord => "for"
  | .forEachWord => "foreach"
  | .inWord => "in"
  | .continueWord => "continue"
  | .breakWord => "break"
  | .returnWord => "return"
  | .caseWord => "case"
  | .defaultWord => "default"
  | .globalWord => "global"
  | .externWord => "extern"
  | .constWord => "const"
  | .systemWord => "System"
  | .debugWord => "Debug"
  | .mathWord => "Math"
  | .newWord => "new"

/-- The keywords that are single words. -/
def words : List Keyword :=
  [.ifWord, .elseWord, .switchWord, .whileWord, .forWord, .forEachWord, .inWord, .continueWord, .breakWord,
    .returnWord, .caseWord, .defaultWord, .globalWord, .externWord, .constWord, .systemWord, .debugWord,
    .mathWord, .newWord]

def ofWord? (word : String) : Option Keyword :=
  words.find? fun k => k.text = word

def isFacility : Keyword → Bool
  | .systemWord | .debugWord | .mathWord => true
  | _ => false

end Keyword

namespace Operator

def text : Operator → String
  | .assign => "="
  | .plusAssign => "+="
  | .minusAssign => "-="
  | .starAssign => "*="
  | .slashAssign => "/="
  | .percentAssign => "%="
  | .caretAssign => "^="
  | .andAssign => "&="
  | .orAssign => "|="
  | .equal => "=="
  | .notEqual => "!="
  | .less => "<"
  | .lessEqual => "<="
  | .greater => ">"
  | .greaterEqual => ">="
  | .not => "!"
  | .plus => "+"
  | .minus => "-"
  | .star => "*"
  | .slash => "/"
  | .percent => "%"
  | .caret => "^"
  | .increment => "++"
  | .decrement => "--"
  | .and => "&&"
  | .or => "||"
  | .question => "?"
  | .dot => "."

def all : List Operator :=
  [.assign, .plusAssign, .minusAssign, .starAssign, .slashAssign, .percentAssign, .caretAssign, .andAssign,
    .orAssign, .equal, .notEqual, .less, .lessEqual, .greater, .greaterEqual, .not, .plus, .minus, .star,
    .slash, .percent, .caret, .increment, .decrement, .and, .or, .question, .dot]

end Operator

namespace Separator

/-- The spelling of a separator. -/
def text : Separator → String
  | .openParen => "("
  | .closeParen => ")"
  | .openBrace => "\x7b"
  | .closeBrace => "\x7d"
  | .openBracket => "["
  | .closeBracket => "]"
  | .semicolon => ";"
  | .colon => ":"
  | .comma => ","

def all : List Separator :=
  [.openParen, .closeParen, .openBrace, .closeBrace, .openBracket, .closeBracket, .semicolon, .colon,
    .comma]

/-- The bracket that closes an opening one. -/
def closing? : Separator → Option Separator
  | .openParen => some .closeParen
  | .openBrace => some .closeBrace
  | .openBracket => some .closeBracket
  | _ => none

def isClosing : Separator → Bool
  | .closeParen | .closeBrace | .closeBracket => true
  | _ => false

end Separator

namespace Literal

def value : Literal → Value
  | .bool b => .bool b
  | .int i => .int i
  | .long l => .long l
  | .intMinMagnitude => .long 2147483648
  | .float x => .float x
  | .double x => .double x
  | .string s => .string s
  | .null => .null

def ty (l : Literal) : Ty :=
  l.value.runtimeType

/-- A constant as messages show it. -/
def text : Literal → String
  | .bool b => if b then "true" else "false"
  | .int i => Number.intText i.toInt
  | .long l => Number.intText l.toInt ++ "L"
  | .intMinMagnitude => "2147483648"
  | .float x => Number.singleText x ++ "f"
  | .double x => Number.doubleText x
  | .string s => Text.quote s
  | .null => "null"

end Literal

namespace TokenKind

/-- A token as messages show it. -/
def text : TokenKind → String
  | .keyword word => word.text
  | .type word _ => word
  | .identifier name => name
  | .operator sign => sign.text
  | .separator sign => sign.text
  | .literal constant => constant.text
  | .interpolated template _ => "$\"" ++ template ++ "\""
  | .endOfInput => "end of input"

def isKeyword (kind : TokenKind) (word : Keyword) : Bool :=
  match kind with
  | .keyword k => k = word
  | _ => false

def isOperator (kind : TokenKind) (sign : Operator) : Bool :=
  match kind with
  | .operator o => o = sign
  | _ => false

def isSeparator (kind : TokenKind) (sign : Separator) : Bool :=
  match kind with
  | .separator s => s = sign
  | _ => false

def isEnd : TokenKind → Bool
  | .endOfInput => true
  | _ => false

end TokenKind

end Scriptlet
