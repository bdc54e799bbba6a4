import Scriptlet.Slot

/-!
# Evaluating expressions

Expressions are evaluated from left to right by recursion on their structure. Calls of script functions are
left to a handler, so that the recursion through functions is separate from the recursion through expressions.
-/

namespace Scriptlet

/-- What a run takes from its script and its host: the classes and the functions. -/
structure Setting where
  classes : Hierarchy
  functions : List Function

/-- How the script function of an index is called with some arguments, from a place. -/
abbrev Invoke := Nat → List Value → Position → Run Value

def Run.truth (p : Position) (v : Value) : Run Bool :=
  located p v.asBool

/-- Arguments as the parameters of a member store them, from an index on. -/
def Member.coerceFrom (m : Member) : Nat → List Value → List Value
  | _, [] => []
  | index, v :: rest => (match m.parameterType index with
      | some ty => v.coerce ty
      | none => v) :: m.coerceFrom (index + 1) rest

/-- An array of default values. -/
def Run.newArray (p : Position) (element : Ty) (length : Int32) : Run Value :=
  if length.toInt < 0 then fail (.negativeLength length.toInt) p
  else host p (Host.newSequence .array element (Array.replicate length.toInt.toNat (Value.default element)))

mutual

def Expr.evaluate (s : Setting) (invoke : Invoke) : Expr → Run Value
  | .literal _ v => return v
  | .variable _ ref => ref.get
  | .unary info op operand => do
    let v ← operand.evaluate s invoke
    Run.located info.position (op.apply v)
  | .binary info left op right operandType => do
    let l ← left.evaluate s invoke
    let r ← right.evaluate s invoke
    Run.located info.position (op.apply (← Run.heap) operandType l r)
  | .logical _ left op right => do
    let decided ← Run.truth left.position (← left.evaluate s invoke)
    match op, decided with
    | .and, false => return .bool false
    | .or, true => return .bool true
    | _, _ => return .bool (← Run.truth right.position (← right.evaluate s invoke))
  | .ternary info condition thenCase elseCase => do
    let decided ← Run.truth condition.position (← condition.evaluate s invoke)
    let v ← if decided then thenCase.evaluate s invoke else elseCase.evaluate s invoke
    return v.coerce info.ty
  | .assign info target op value operandType => do
    let slot ← target.find s invoke
    match op with
    | none =>
      let v ← value.evaluate s invoke
      slot.write s.classes info.position v
    | some op =>
      let current ← slot.read info.position
      let v ← value.evaluate s invoke
      let v ← Run.located info.position (op.apply (← Run.heap) operandType current v)
      slot.write s.classes info.position v
  | .increment info target decrement prefixed => do
    let slot ← target.find s invoke
    let current ← slot.read info.position
    let op : InfixOp := if decrement then .minus else .plus
    let v ← Run.located info.position (op.apply (← Run.heap) info.ty current (.int 1))
    let updated ← slot.write s.classes info.position v
    return if prefixed then updated else current
  | .cast info operand => do
    let v ← operand.evaluate s invoke
    Run.located info.position (v.cast s.classes info.ty)
  | .call info function arguments => do
    let values ← Expr.evaluateAll s invoke arguments
    invoke function values info.position
  | .staticMember info member arguments => do
    let values ← Expr.evaluateAll s invoke arguments
    Run.host info.position (member.call (member.coerceFrom 0 values))
  | .instanceMember info member receiver arguments => do
    let v ← receiver.evaluate s invoke
    if v.isNull then Run.fail (.nullValue (receiver.text ++ "." ++ member.name)) receiver.position
    else
      let values ← Expr.evaluateAll s invoke arguments
      Run.host info.position (member.call (v :: member.coerceFrom 0 values))
  | .index info collection key => do
    match ← Run.collection collection (← collection.evaluate s invoke) with
    | .sequence _ _ address =>
      let index ← Run.located key.position (← key.evaluate s invoke).asInt
      Run.item info.position address index
    | .dictionary keyType valueType address =>
      let k ← key.evaluate s invoke
      Run.entry info.position keyType valueType address k
  | .newSequence info kind element items => do
    let values ← Expr.evaluateAll s invoke items
    Run.host info.position (Host.newSequence kind element (values.map (·.coerce element)).toArray)
  | .newArray info element length => do
    let n ← Run.located length.position (← length.evaluate s invoke).asInt
    Run.newArray info.position element n
  | .newDictionary info key value entries => do
    let d ← Expr.evaluateEntries s invoke ⟨key, value, []⟩ entries
    Run.host info.position (Host.newDictionary key value d.entries)

/-- The values of expressions, from left to right. -/
def Expr.evaluateAll (s : Setting) (invoke : Invoke) : List Expr → Run (List Value)
  | [] => return []
  | e :: rest => do
    let v ← e.evaluate s invoke
    let vs ← Expr.evaluateAll s invoke rest
    return v :: vs

def Expr.evaluateEntries (s : Setting) (invoke : Invoke) (d : Dictionary) :
    List (Expr × Expr) → Run Dictionary
  | [] => return d
  | (key, value) :: rest => do
    let k ← key.evaluate s invoke
    let v ← value.evaluate s invoke
    let d ← Run.located key.position (Dictionary.add (← Run.heap) d k v)
    Expr.evaluateEntries s invoke d rest

def Place.find (s : Setting) (invoke : Invoke) : Place → Run Slot
  | .variable ref => return .variable ref
  | .index collection key => do
    match ← Run.collection collection (← collection.evaluate s invoke) with
    | .sequence _ element address =>
      let index ← Run.located key.position (← key.evaluate s invoke).asInt
      return .item element address index
    | .dictionary keyType valueType address =>
      let k ← key.evaluate s invoke
      return .entry keyType valueType address k

end

end Scriptlet
