import Scriptlet.Text.Blank

/-!
# Trivia

What stands between lexemes and means nothing: blanks, comments to the end of the line, and comments between
`/*` and `*/`. Trivia is taken as far as it goes. A block comment that is never closed is no trivia; it stops
the walk and is reported.
-/

namespace Scriptlet.Trivia

/-- A text split into the trivia at its start and the rest. `closed` is false if the rest begins with a block
comment that has no end. -/
structure Split where
  taken : List Char
  rest : List Char
  closed : Bool

/-- Puts characters in front of what was taken. -/
def Split.after (s : Split) (cs : List Char) : Split :=
  { s with taken := cs ++ s.taken }

mutual

def split : List Char → Split
  | [] => ⟨[], [], true⟩
  | '/' :: '/' :: rest => (splitLine rest).after ['/', '/']
  | '/' :: '*' :: rest =>
    match splitBlock rest with
    | some s => s.after ['/', '*']
    | none => ⟨[], '/' :: '*' :: rest, false⟩
  | c :: rest => if Text.isBlank c then (split rest).after [c] else ⟨[], c :: rest, true⟩

/-- Splits off a comment to the end of the line, and the trivia after it. -/
def splitLine : List Char → Split
  | [] => ⟨[], [], true⟩
  | c :: rest => if c = '\n' then (split rest).after [c] else (splitLine rest).after [c]

/-- Splits off a block comment that is already open, and the trivia after it. -/
def splitBlock : List Char → Option Split
  | [] => none
  | '*' :: '/' :: rest => some ((split rest).after ['*', '/'])
  | c :: rest => (splitBlock rest).map (·.after [c])

end

end Scriptlet.Trivia
