import Scriptlet.Ty

/-!
# Class hierarchies and the relations between types

Host classes form a hierarchy: a class may have a parent and any number of capabilities, which are classes
too. Classes are kept newest first and a class can only build on older ones, so following its relations ends.
From the hierarchy follow the two relations that typing rests on: which types a variable accepts, and which
casts may be written.
-/

namespace Scriptlet

structure ClassDef where
  name : String
  parent : Option String
  capabilities : List String
deriving DecidableEq, Repr

/-- The classes a class names directly, the parent in front. -/
def ClassDef.related (c : ClassDef) : List String :=
  c.parent.toList ++ c.capabilities

/-- The known classes, newest first. -/
abbrev Hierarchy := List ClassDef

namespace Hierarchy

def knows (classes : Hierarchy) (name : String) : Bool :=
  classes.any (·.name = name)

/-- Adds a class and everything it builds on to the classes found so far, the class itself before its parent
and the parent before the capabilities. A class already found is not visited again. -/
def visit : Hierarchy → List String → String → List String
  | [], found, _ => found
  | c :: older, found, name =>
    if c.name = name then
      if name ∈ found then found else c.related.foldl (visit older) (found ++ [name])
    else visit older found name

/-- A class followed by all that it builds on; empty for an unknown class. -/
def ancestors (classes : Hierarchy) (name : String) : List String :=
  classes.visit [] name

/-- Whether the first type is a class that is, or builds on, the second. -/
def isSubtype (classes : Hierarchy) (child ancestor : Ty) : Bool :=
  match child, ancestor with
  | .host child, .host ancestor => ancestor ∈ classes.ancestors child
  | _, _ => false

/-- Whether a value of type `source` may be stored where `target` is declared: the same type, `null` where the
target is a reference type, anything but `void` as an `object`, a class where it or one of the classes it
builds on is asked for, and a number that widens. -/
def accepts (classes : Hierarchy) (target source : Ty) : Bool :=
  if target = source then true
  else if source = .null then target.isReference
  else if target = .object ∧ source ≠ .void then true
  else classes.isSubtype source target || source.widens target

/-- Whether a cast of a `source` to `target` may be written. Nothing is cast to `void`. What the target accepts
can be cast, and so can a number to any number, an `object` to anything and a class to one that builds on
it; the value itself is checked when the cast runs. -/
def castable (classes : Hierarchy) (target source : Ty) : Bool :=
  if target = .void then false
  else
    classes.accepts target source
      || (target.isNumeric && source.isNumeric)
      || source = .object
      || classes.isSubtype target source

end Hierarchy

end Scriptlet
