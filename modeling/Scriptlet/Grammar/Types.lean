import Scriptlet.Grammar.Rule

/-!
# Types in a source text

A type name, with its arguments if it is generic, and any number of bracket pairs, each of which makes an
array of what stands before it.
-/

namespace Scriptlet.Grammar

open Rule

def arraysOver (ty : Ty) : List Token → Ty × List Token
  | first :: second :: rest =>
    if first.kind.isSeparator .openBracket && second.kind.isSeparator .closeBracket then
      arraysOver (.sequence .array ty) rest
    else (ty, first :: second :: rest)
  | tokens => (ty, tokens)

def arraySuffixes (ty : Ty) : Rule Ty := fun _ tokens => .ok (arraysOver ty tokens)

def namedType (argument : Rule Ty) : Rule Ty := do
  let position ← here
  match ← peek with
  | .type _ (.complete ty) =>
    skip
    return ty
  | .type word (.generic constructor) =>
    skip
    if (← peek).isOperator .less then
      skip
      let arguments ← withSteps (commaList argument (·.isOperator .greater) "\",\" or \">\"")
      match constructor.apply arguments with
      | some ty => return ty
      | none => fail (.genericArity word constructor.arity arguments.length) position
    else fail (.unappliedGeneric word) position
  | .identifier name => fail (.unknownType name) position
  | _ => expected "a type"

/-- A type, when so many rules may still be entered. -/
def typeRule : Nat → Rule Ty
  | 0 => tooDeep
  | depth + 1 => named .type do arraySuffixes (← namedType (typeRule depth))

end Scriptlet.Grammar
