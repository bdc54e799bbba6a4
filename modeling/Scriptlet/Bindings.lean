import Scriptlet.Fault
import Scriptlet.Value

/-!
# Bindings

Names with their types and values, as a running script sees them. A host may define globals and read them as
plain types; an existing global keeps its type.
-/

namespace Scriptlet

structure Binding where
  ty : Ty
  value : Value

/-- Names and what is bound to them; each name occurs once. -/
abbrev Bindings := List (String × Binding)

namespace Bindings

def put (name : String) (b : Binding) : Bindings → Bindings
  | [] => [(name, b)]
  | entry :: rest => if entry.1 = name then (name, b) :: rest else entry :: put name b rest

/-- Overwrites the value of a name; nothing if the name is not bound. -/
def assign? (name : String) (v : Value) : Bindings → Option Bindings
  | [] => none
  | entry :: rest =>
    if entry.1 = name then some ((name, { entry.2 with value := v }) :: rest)
    else (assign? name v rest).map (entry :: ·)

/-- The binding of a name in the first of some scopes that has it. -/
def find? (name : String) : List Bindings → Option Binding
  | [] => none
  | scope :: rest => (scope.lookup name).or (find? name rest)

/-- Overwrites the value of a name in the first of some scopes that has it. -/
def assignFirst? (name : String) (v : Value) : List Bindings → Option (List Bindings)
  | [] => none
  | scope :: rest =>
    match assign? name v scope with
    | some scope => some (scope :: rest)
    | none => (assignFirst? name v rest).map (scope :: ·)

/-- Defines a global for the host. An existing one keeps its type, which has to accept the type given; in any
case the value has to fit. -/
def define (classes : Hierarchy) (globals : Bindings) (name : String) (ty : Ty) (v : Value) :
    Except Fault Bindings := do
  let ty ← match globals.lookup name with
    | none => pure ty
    | some existing =>
      if classes.accepts existing.ty ty then pure existing.ty
      else throw (.globalTypeConflict name existing.ty ty)
  if classes.accepts ty v.runtimeType then return put name ⟨ty, v.coerce ty⟩ globals
  else throw (.typeMismatch name ty v.runtimeType .write)

def readAs (classes : Hierarchy) (name : String) (declared : Ty) (value : Option Value) (r : Reading) :
    Except Fault Value :=
  if classes.accepts r.ty declared then
    match value with
    | none => .error (.undefinedVariable name)
    | some v =>
      match r.take? (v.coerce r.ty) with
      | some w => .ok w
      | none =>
        if v.isNull then .error (.nullValue name)
        else .error (.typeMismatch name declared v.runtimeType .read)
  else .error (.typeMismatch name declared r.ty .read)

def read (classes : Hierarchy) (globals : Bindings) (name : String) (r : Reading) : Except Fault Value :=
  match globals.lookup name with
  | none => .error (.undefinedVariable name)
  | some b => readAs classes name b.ty (some b.value) r

end Bindings

end Scriptlet
