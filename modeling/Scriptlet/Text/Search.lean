/-!
# Searching texts

Search and replacement on character lists. A match is an occurrence of the pattern as a run of neighbouring
characters; the empty pattern occurs before every character and at the end. Places are counted in characters.
-/

namespace Scriptlet.Text

/-- How many characters precede the first occurrence of `pattern` in `text`. -/
def indexOf? (pattern : List Char) : List Char → Option Nat
  | [] => if pattern.isEmpty then some 0 else none
  | c :: cs =>
    if pattern.isPrefixOf (c :: cs) then some 0 else (indexOf? pattern cs).map (· + 1)

/-- Whether `pattern` occurs in `text`. -/
def contains (pattern text : List Char) : Bool :=
  (indexOf? pattern text).isSome

/-- Writes `replacement` for every occurrence of a pattern. `skip` characters still belong to the occurrence
found last and are dropped. -/
def replaceFrom (pattern replacement : List Char) (skip : Nat) : List Char → List Char
  | [] => []
  | c :: cs =>
    match skip with
    | n + 1 => replaceFrom pattern replacement n cs
    | 0 =>
      if pattern.isPrefixOf (c :: cs) then
        replacement ++ replaceFrom pattern replacement (pattern.length - 1) cs
      else
        c :: replaceFrom pattern replacement 0 cs

/-- Replaces the occurrences of `pattern`, found from left to right without overlap. The empty pattern puts
`replacement` around every character. -/
def replace (pattern replacement text : List Char) : List Char :=
  if pattern.isEmpty then
    replacement ++ text.flatMap fun c => c :: replacement
  else
    replaceFrom pattern replacement 0 text

end Scriptlet.Text
