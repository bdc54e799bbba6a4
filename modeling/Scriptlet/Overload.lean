import Scriptlet.Hierarchy

/-!
# Choosing between overloads

Several members or functions of one name are told apart by the types of the arguments. A candidate that takes
exactly these types is chosen first; otherwise the arguments must fit exactly one candidate.
-/

namespace Scriptlet

inductive MemberError
  | unknown
  | noMatchingOverload (arguments : List Ty)
  | ambiguous (count : Nat)
  | notAMethod
  | notAProperty
deriving DecidableEq, Repr

def MemberError.message : MemberError → String
  | .unknown => "no member with that name"
  | .noMatchingOverload arguments => "no overload accepts (" ++ Ty.listText arguments ++ ")"
  | .ambiguous count => "call is ambiguous between " ++ toString count ++ " overloads"
  | .notAMethod => "member is a property, not a method"
  | .notAProperty => "member is a method, not a property"

/-- How closely the arguments have to match the parameters. -/
inductive Fit
  | exact
  | loose
deriving DecidableEq, Repr

def Hierarchy.fits (classes : Hierarchy) : Fit → Ty → Ty → Bool
  | .exact, parameter, argument => parameter = argument
  | .loose, parameter, argument => classes.accepts parameter argument

/-- Chooses among candidates: the first that takes the arguments exactly, or else the only one they fit. -/
def selectOverload {α : Type} (takes : Fit → α → Bool) (candidates : List α) (arguments : List Ty) :
    Except MemberError α :=
  match candidates.find? (takes .exact) with
  | some candidate => .ok candidate
  | none =>
    match candidates.filter (takes .loose) with
    | [only] => .ok only
    | [] => .error (.noMatchingOverload arguments)
    | many => .error (.ambiguous many.length)

end Scriptlet
