import Scriptlet.Overload
import Scriptlet.Position
import Scriptlet.Template

/-!
# Faults

The reasons why a running script stops, with their wording. A fault raised by an operation on values has no
place of its own; the evaluator adds the place of the expression at work.
-/

namespace Scriptlet

inductive Access
  | read
  | write
deriving DecidableEq, Repr

/-- Why a running script stops. -/
inductive Fault
  | typeMismatch (name : String) (declared attempted : Ty) (access : Access)
  | undefinedVariable (name : String)
  | divideByZero
  | overflow (operation : String)
  | negativeExponent (exponent : Int)
  | indexOutOfRange (index : Int) (length : Nat)
  | invalidCast (source target : Ty)
  | nullValue (what : String)
  | unexpectedValue (expected found : Ty)
  | externMissing (name : String) (ty : Ty)
  | externTypeMismatch (name : String) (expected found : Ty)
  | globalTypeConflict (name : String) (existing declared : Ty)
  | unknownFunction (name : String)
  | argumentCount (name : String) (expected found : Nat)
  | argumentType (name : String) (index : Nat) (expected found : Ty)
  | missingReturn (name : String)
  | stepLimitExceeded (limit : Nat)
  | deadlineExceeded
  | callDepthExceeded (limit : Nat)
  | keyNotFound (key : String)
  | duplicateKey (key : String)
  | emptyCollection (member : String)
  | negativeLength (length : Int)
  | overload (name : String) (error : MemberError)
  | host (reason : String)
  | template (error : TemplateError)
  | output (reason : String)
  | endlessText
deriving DecidableEq, Repr

def Access.text : Access → String
  | .read => "read"
  | .write => "write"

def Fault.message : Fault → String
  | .typeMismatch name declared attempted access =>
    "Cannot " ++ access.text ++ " \"" ++ name ++ "\" (declared " ++ declared.text ++ ") as " ++
      attempted.text
  | .undefinedVariable name => "Undefined variable: " ++ name
  | .divideByZero => "Division by zero"
  | .overflow operation => "Arithmetic overflow: " ++ operation
  | .negativeExponent exponent => "Negative integer exponent: " ++ Number.intText exponent
  | .indexOutOfRange index length =>
    "Index " ++ Number.intText index ++ " out of range for length " ++ toString length
  | .invalidCast source target => "Cannot cast " ++ source.text ++ " to " ++ target.text
  | .nullValue what => "Null value: " ++ what
  | .unexpectedValue expected found =>
    "Expected a value of type " ++ expected.text ++ ", found " ++ found.text
  | .externMissing name ty => "Extern \"" ++ name ++ "\" of type " ++ ty.text ++ " was not provided"
  | .externTypeMismatch name expected found =>
    "Extern \"" ++ name ++ "\" is declared " ++ expected.text ++ " but the host provided " ++ found.text
  | .globalTypeConflict name existing declared =>
    "Global \"" ++ name ++ "\" already exists as " ++ existing.text ++ ", cannot redeclare as " ++
      declared.text
  | .unknownFunction name => "Unknown function: " ++ name
  | .argumentCount name expected found =>
    "Function \"" ++ name ++ "\" takes " ++ toString expected ++ " argument(s), " ++ toString found ++
      " given"
  | .argumentType name index expected found =>
    "Argument " ++ toString index ++ " of \"" ++ name ++ "\" expects " ++ expected.text ++ ", found " ++
      found.text
  | .missingReturn name => "Function \"" ++ name ++ "\" ended without returning a value"
  | .stepLimitExceeded limit => "Step limit of " ++ toString limit ++ " exceeded"
  | .deadlineExceeded => "Execution deadline exceeded"
  | .callDepthExceeded limit => "Call depth limit of " ++ toString limit ++ " exceeded"
  | .keyNotFound key => "Key not found: " ++ key
  | .duplicateKey key => "An entry with key " ++ key ++ " already exists"
  | .emptyCollection member => member ++ " called on an empty collection"
  | .negativeLength length => "Array length cannot be negative: " ++ Number.intText length
  | .overload name error => name ++ ": " ++ error.message
  | .host reason => reason
  | .template error => "Format error: " ++ error.message
  | .output reason => "IO error: " ++ reason
  | .endlessText => "The text of a value has no end"

/-- What is written out, unless it has no end. -/
def finite {α : Type} : Option α → Except Fault α
  | some a => .ok a
  | none => .error .endlessText

/-- A fault and the place in the source where it arose. -/
structure RuntimeError where
  fault : Fault
  position : Position
deriving DecidableEq, Repr

def RuntimeError.message (e : RuntimeError) : String :=
  e.fault.message ++ " at " ++ e.position.text

end Scriptlet
