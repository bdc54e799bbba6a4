/-!
# Lexemes

What a reader finds at the start of a text: the value that is written there, the text it is written with, and
the text behind it. The two texts together are the one that was read, so the place behind a lexeme follows
from the place where it begins.
-/

namespace Scriptlet

/-- A value read from the start of a text, the text it took and the text that is left. -/
structure Lexeme (α : Type) where
  value : α
  taken : List Char
  rest : List Char

namespace Lexeme

def map {α β : Type} (f : α → β) (l : Lexeme α) : Lexeme β :=
  ⟨f l.value, l.taken, l.rest⟩

def after {α : Type} (l : Lexeme α) (cs : List Char) : Lexeme α :=
  { l with taken := cs ++ l.taken }

/-- The characters that have a property, as far as they go. -/
def span (p : Char → Bool) (source : List Char) : Lexeme (List Char) :=
  ⟨source.takeWhile p, source.takeWhile p, source.dropWhile p⟩

end Lexeme

end Scriptlet
