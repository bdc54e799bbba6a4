import Scriptlet.Text.Blank
import Scriptlet.Text.Hidden

/-!
# Quoted texts

How messages and printed programs show a text: between double quotes, with backslash escapes for the quote,
the backslash and the common controls, and with the code point in hexadecimal for every other character that
would not be seen or would merge with the one before it.
-/

namespace Scriptlet.Text

/-- The digits of a number in base sixteen, in lower case. -/
def hexadecimal (n : Nat) : String :=
  String.ofList (Nat.toDigits 16 n)

def isHidden (c : Char) : Bool :=
  inTurns markTurns c.toNat || inTurns hiddenTurns c.toNat

def quoteChar (c : Char) : String :=
  match c with
  | '"' => "\\\""
  | '\\' => "\\\\"
  | '\n' => "\\n"
  | '\r' => "\\r"
  | '\t' => "\\t"
  | c =>
    if c.toNat = 0 then "\\0"
    else if isHidden c then "\\u\x7b" ++ hexadecimal c.toNat ++ "\x7d"
    else c.toString

def quote (s : String) : String :=
  "\"" ++ String.join (s.toList.map quoteChar) ++ "\""

end Scriptlet.Text
