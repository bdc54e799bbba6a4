import Scriptlet.Program
import Scriptlet.Program.Printer

/-!
# Types of operations

Which types an operator takes, what it gives, and the common type in which it works.
-/

namespace Scriptlet

def InfixOp.isEquality : InfixOp → Bool
  | .equal | .notEqual => true
  | _ => false

def InfixOp.isComparison : InfixOp → Bool
  | .less | .lessEqual | .greater | .greaterEqual => true
  | _ => false

/-- The type of a result and the common type of the operands. -/
structure Operation where
  result : Ty
  operand : Ty
deriving DecidableEq, Repr

namespace Operation

/-- An arithmetic operation or a comparison by size, if the operator applies. -/
def arithmetic (op : InfixOp) (left right : Ty) : Option Operation :=
  if left = .void ∨ right = .void then none
  else if op.isEquality then none
  else if op.isComparison then (Ty.promote left right).map fun operand => ⟨.bool, operand⟩
  else if op = .plus ∧ (left = .string ∨ right = .string) then some ⟨.string, .string⟩
  else (Ty.promote left right).map fun operand => ⟨operand, operand⟩

/-- A test for equality, if it applies: numbers in their wider type, and other values if one of the types
accepts the other. -/
def equality (classes : Hierarchy) (left right : Ty) : Option Operation :=
  if left = .void ∨ right = .void then none
  else
    match Ty.promote left right with
    | some operand => some ⟨.bool, operand⟩
    | none =>
      if classes.accepts left right then some ⟨.bool, left⟩
      else if classes.accepts right left then some ⟨.bool, right⟩
      else none

/-- Any operation with two operands, if the operator applies. -/
def infixed (classes : Hierarchy) (op : InfixOp) (left right : Ty) : Option Operation :=
  if op.isEquality then equality classes left right else arithmetic op left right

end Operation

/-- The negative of a constant, if it is a number and in range. -/
def Value.negated? : Value → Option Value
  | .int i => (Number.fit32 (-i.toInt)).map .int
  | .long l => (Number.fit64 (-l.toInt)).map .long
  | .float x => some (.float (-x))
  | .double x => some (.double (-x))
  | _ => none

end Scriptlet
