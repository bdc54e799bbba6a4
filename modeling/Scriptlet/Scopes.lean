import Scriptlet.CompileError

/-!
# What is declared where

The scopes of the unit at work: names and what they stand for, the innermost scope first, together with the
loops and switches around the place at work and the return type of the function around it. A name that is
visible cannot be declared again.
-/

namespace Scriptlet

/-- What a name stands for. A constant is put in place of its name; a function has one index for each
overload. -/
inductive Symbol
  | variable (ty : Ty)
  | constant (value : Value) (ty : Ty)
  | function (overloads : List Nat)

/-- What `break` can leave. -/
inductive Breakable
  | loop
  | switch
deriving DecidableEq, Repr

/-- The names that one scope declares, the newest first. -/
abbrev Scope := List (String × Symbol)

/-- The scopes around a place, and what statements may do there. -/
structure Scopes where
  inner : Scope
  outer : List Scope
  breakables : List Breakable
  returns : Option Ty

namespace Scopes

/-- One empty scope, outside of every loop and function. -/
def empty : Scopes := ⟨[], [], [], none⟩

/-- What the innermost of some scopes says about a name. -/
def lookupIn (name : String) : List Scope → Option Symbol
  | [] => none
  | scope :: rest => (scope.lookup name).or (lookupIn name rest)

def lookup (s : Scopes) (name : String) : Option Symbol :=
  lookupIn name (s.inner :: s.outer)

def insert (s : Scopes) (name : String) (symbol : Symbol) : Scopes :=
  { s with inner := (name, symbol) :: s.inner }

/-- Declares a name in the innermost scope, unless it is visible already. -/
def declare (s : Scopes) (name : String) (symbol : Symbol) : Except CompileCause Scopes :=
  match s.lookup name with
  | some _ => .error (.duplicateDeclaration name)
  | none => .ok (s.insert name symbol)

def outermost (s : Scopes) : Scope :=
  s.outer.getLastD s.inner

def setOutermost (s : Scopes) (scope : Scope) : Scopes :=
  if s.outer.isEmpty then { s with inner := scope } else { s with outer := s.outer.dropLast ++ [scope] }

/-- Adds an overload to the function of the given name in a scope. -/
def addOverload (name : String) (index : Nat) (scope : Scope) : Scope :=
  scope.map fun entry =>
    match entry with
    | (n, .function overloads) => (n, .function (if n = name then overloads ++ [index] else overloads))
    | _ => entry

/-- Adds an overload to a function of the outermost scope, or declares the function with its first one. -/
def declareFunction (s : Scopes) (name : String) (index : Nat) : Except CompileCause Scopes :=
  match s.outermost.lookup name with
  | some (.function _) => .ok (s.setOutermost (addOverload name index s.outermost))
  | _ => s.declare name (.function [index])

/-- The declared type of a variable or a constant. -/
def valueType (s : Scopes) (name : String) : Except CompileCause Ty :=
  match s.lookup name with
  | some (.variable ty) => .ok ty
  | some (.constant _ ty) => .ok ty
  | some (.function _) => .error (.functionAsValue name)
  | none => .error (.undeclaredIdentifier name)

def beginScope (s : Scopes) : Scopes :=
  { s with inner := [], outer := s.inner :: s.outer }

/-- Closes the innermost scope; the outermost one stays. -/
def endScope (s : Scopes) : Scopes :=
  match s.outer with
  | [] => s
  | scope :: rest => { s with inner := scope, outer := rest }

def depth (s : Scopes) : Nat :=
  s.outer.length + 1

def beginBreakable (s : Scopes) (b : Breakable) : Scopes :=
  { s with breakables := b :: s.breakables }

def endBreakable (s : Scopes) : Scopes :=
  { s with breakables := s.breakables.tail }

/-- Whether `break` may stand here. -/
def canBreak (s : Scopes) : Bool :=
  !s.breakables.isEmpty

/-- Whether `continue` may stand here. -/
def canContinue (s : Scopes) : Bool :=
  s.breakables.contains .loop

/-- Enters or leaves a function: `returns` is the return type that counts from here on. -/
def withReturns (s : Scopes) (returns : Option Ty) : Scopes :=
  { s with returns := returns }

end Scopes

end Scriptlet
