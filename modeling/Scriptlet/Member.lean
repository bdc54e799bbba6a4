import Scriptlet.World

/-!
# Host members

A member is what the host lets scripts call: a property or a method with parameter types, a result type and
the function that does the work. Instance members get their receiver as the first argument. A method may take
any number of further arguments of one type, and may look at the literals among the arguments of a call when
it is compiled.
-/

namespace Scriptlet

inductive MemberKind
  | property
  | method
deriving DecidableEq, Repr

/-- A look at the arguments of a call when it is compiled: the values of those that are literals. The error is
the reason why the call is refused. -/
abbrev ArgumentCheck := List (Option Value) → Except String Unit

structure Member where
  name : String
  kind : MemberKind
  parameters : List Ty
  variadic : Option Ty
  returns : Ty
  call : List Value → Host Value
  check : Option ArgumentCheck

namespace Member

def method (name : String) (parameters : List Ty) (returns : Ty) (call : List Value → Host Value) :
    Member :=
  { name, kind := .method, parameters, variadic := none, returns, call, check := none }

def property (name : String) (returns : Ty) (call : List Value → Host Value) : Member :=
  { name, kind := .property, parameters := [], variadic := none, returns, call, check := none }

/-- The declared type of the argument at an index. -/
def parameterType (m : Member) (index : Nat) : Option Ty :=
  m.parameters[index]?.or m.variadic

def takesCount (m : Member) (count : Nat) : Bool :=
  match m.variadic with
  | some _ => m.parameters.length ≤ count
  | none => count = m.parameters.length

/-- Whether the arguments from an index on fit their parameters. -/
def takesFrom (m : Member) (classes : Hierarchy) (fit : Fit) : Nat → List Ty → Bool
  | _, [] => true
  | index, argument :: rest =>
    (match m.parameterType index with
      | some parameter => classes.fits fit parameter argument
      | none => false)
      && m.takesFrom classes fit (index + 1) rest

/-- Whether the member can be called with arguments of these types. -/
def takes (m : Member) (classes : Hierarchy) (arguments : List Ty) (fit : Fit) : Bool :=
  m.takesCount arguments.length && m.takesFrom classes fit 0 arguments

def signature (m : Member) : String :=
  match m.kind with
  | .property => m.name ++ ": " ++ m.returns.text
  | .method =>
    let variadic := m.variadic.toList.map fun ty => "params " ++ ty.text ++ "[]"
    m.name ++ "(" ++ String.intercalate ", " (m.parameters.map Ty.text ++ variadic) ++ ") -> " ++
      m.returns.text

end Member

/-- Where a member is looked for: in a facility such as `Math`, among what a type offers by itself, or among
what its values offer. -/
inductive Owner
  | facility (name : String)
  | type (ty : Ty)
  | value (ty : Ty)
deriving DecidableEq, Repr

def Owner.text : Owner → String
  | .facility name => name
  | .type ty | .value ty => ty.text

/-- The fault of a member that is given arguments it cannot work with. -/
def unexpectedArguments (member : String) (arguments : List Value) : Fault :=
  .host (member ++ " received unexpected arguments (" ++
    Ty.listText (arguments.map Value.runtimeType) ++ ")")

def countValue (n : Nat) : Host Value :=
  match Number.fit32 n with
  | some i => pure (.int i)
  | none => throw (.overflow "count")

end Scriptlet
