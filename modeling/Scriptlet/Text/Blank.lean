/-!
# Blank characters

The blank characters are those of the Unicode property White_Space: the ASCII controls from tab to carriage
return, the space, and the wider and narrower spaces and separators outside ASCII. The lexer skips them and
trimming removes them from both ends of a text.
-/

namespace Scriptlet.Text

/-- The ranges of the Unicode property White_Space. -/
def blankRanges : List (Nat × Nat) :=
  [(0x9, 0xD), (0x20, 0x20), (0x85, 0x85), (0xA0, 0xA0), (0x1680, 0x1680), (0x2000, 0x200A),
    (0x2028, 0x2029), (0x202F, 0x202F), (0x205F, 0x205F), (0x3000, 0x3000)]

/-- Whether a code point lies in one of the given closed ranges. -/
def inRanges (ranges : List (Nat × Nat)) (code : Nat) : Bool :=
  ranges.any fun r => r.1 ≤ code && code ≤ r.2

/-- Whether a code point lies in the second, the fourth and so on of some stretches that follow on one another from
zero, given by their lengths. -/
def inTurns : List Nat → Nat → Bool
  | skipped :: taken :: rest, code =>
    if code < skipped + taken then skipped ≤ code else inTurns rest (code - (skipped + taken))
  | _, _ => false

/-- Whether a character is white space. -/
def isBlank (c : Char) : Bool :=
  inRanges blankRanges c.toNat

def trim (cs : List Char) : List Char :=
  ((cs.dropWhile isBlank).reverse.dropWhile isBlank).reverse

def trimString (s : String) : String :=
  String.ofList (trim s.toList)

end Scriptlet.Text
