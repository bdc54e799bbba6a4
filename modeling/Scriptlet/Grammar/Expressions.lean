import Scriptlet.Grammar.Types

/-!
# Expressions in a source text

The operators in the order of their strength, from assignment, the weakest, to the suffixes of a primary
expression. Each level is a rule of its own that reads its operands by the next one; a parenthesis leads back
to the first. All of them are built from the same rules with one entry less to spend.
-/

namespace Scriptlet.Grammar

open Rule

/-- The rules for expressions. -/
structure ExprRules where
  expression : Rule Expr
  assignment : Rule Expr
  ternary : Rule Expr
  logicalOr : Rule Expr
  logicalAnd : Rule Expr
  equality : Rule Expr
  comparison : Rule Expr
  term : Rule Expr
  factor : Rule Expr
  power : Rule Expr
  unary : Rule Expr
  suffixed : Rule Expr
  primary : Rule Expr
  arguments : Rule (List Expr)
  call : String → Position → Rule Expr
  construction : Position → Rule Expr

def placeOf (e : Expr) : Rule Place :=
  match e with
  | .variable _ ref => return .variable ref
  | .index _ collection key => return .index collection key
  | _ => fail .notAssignable e.position

/-- The assignment that an operator makes, if it is one: plain or compound. -/
def assignment? : TokenKind → Option (Option CompoundOp)
  | .operator .assign => some none
  | .operator .plusAssign => some (some (.arithmetic .plus))
  | .operator .minusAssign => some (some (.arithmetic .minus))
  | .operator .starAssign => some (some (.arithmetic .times))
  | .operator .slashAssign => some (some (.arithmetic .divide))
  | .operator .percentAssign => some (some (.arithmetic .remainder))
  | .operator .caretAssign => some (some (.arithmetic .power))
  | .operator .andAssign => some (some .and)
  | .operator .orAssign => some (some .or)
  | _ => none

/-- The type in which an assignment is computed, if its two sides fit. -/
def assignmentOperand (op : Option CompoundOp) (target : Ty) (position : Position) (value : Expr) :
    Rule Ty := do
  match op with
  | none =>
    expectAssignable target value .assignment
    return target
  | some (.arithmetic op) =>
    match Operation.arithmetic op target value.ty with
    | none => fail (.invalidOperands op.text target value.ty) position
    | some operation =>
      if (← ask).accepts target operation.result then return operation.operand
      else fail (.typeMismatch target operation.result .compoundAssignment) value.position
  | some op =>
    if target = .bool ∧ value.ty = .bool then return .bool
    else fail (.invalidOperands op.text target value.ty) position

/-- An assignment, or an expression without one. -/
def assignmentRule (rules : ExprRules) : Rule Expr := do
  let left ← rules.ternary
  match assignment? (← peek) with
  | none => return left
  | some op =>
    let target ← placeOf left
    skip
    let value ← rules.assignment
    let operand ← assignmentOperand op left.ty left.position value
    return .assign (.over left.ty left.position (target.children ++ [value])) target op value operand

/-- The common type of the two cases of a conditional expression. -/
def caseType (thenCase elseCase : Expr) : Rule Ty := do
  let env ← ask
  if env.accepts thenCase.ty elseCase.ty then return thenCase.ty
  else if env.accepts elseCase.ty thenCase.ty then return elseCase.ty
  else fail (.typeMismatch thenCase.ty elseCase.ty .conditionalExpression) elseCase.position

/-- A conditional expression, or an expression without a condition. -/
def ternaryRule (rules : ExprRules) : Rule Expr := do
  let condition ← rules.logicalOr
  if (← peek).isOperator .question then
    expectAssignable .bool condition .condition
    skip
    let thenCase ← rules.expression
    separator .colon
    let elseCase ← rules.ternary
    let ty ← caseType thenCase elseCase
    return .ternary (.over ty condition.position [condition, thenCase, elseCase]) condition thenCase
      elseCase
  else return condition

/-- Operands of one level with operators between them, from left to right. -/
def chain {α : Type} (operand : Rule Expr) (operator? : TokenKind → Option α)
    (combine : Expr → α → Expr → Rule Expr) : Steps → Expr → Rule Expr
  | [], left => return left
  | _ :: steps, left => do
    match operator? (← peek) with
    | none => return left
    | some op =>
      skip
      let right ← operand
      chain operand operator? combine steps (← bounded (← combine left op right))

/-- A level of operators that are read from left to right. -/
def leftToRight {α : Type} (operand : Rule Expr) (operator? : TokenKind → Option α)
    (combine : Expr → α → Expr → Rule Expr) : Rule Expr := do
  let left ← operand
  withSteps fun steps => chain operand operator? combine steps left

def combineLogical (left : Expr) (op : LogicalOp) (right : Expr) : Rule Expr :=
  if left.ty = .bool ∧ right.ty = .bool then
    return .logical (.over .bool left.position [left, right]) left op right
  else fail (.invalidOperands op.text left.ty right.ty) left.position

def combineInfix (left : Expr) (op : InfixOp) (right : Expr) : Rule Expr := do
  match Operation.infixed (← ask).registry.classes op left.ty right.ty with
  | some operation =>
    return .binary (.over operation.result left.position [left, right]) left op right operation.operand
  | none => fail (.invalidOperands op.text left.ty right.ty) left.position

def orOp? : TokenKind → Option LogicalOp
  | .operator .or => some .or
  | _ => none

def andOp? : TokenKind → Option LogicalOp
  | .operator .and => some .and
  | _ => none

/-- The operators that test for equality. -/
def equalityOp? : TokenKind → Option InfixOp
  | .operator .equal => some .equal
  | .operator .notEqual => some .notEqual
  | _ => none

/-- The operators that compare by size. -/
def comparisonOp? : TokenKind → Option InfixOp
  | .operator .less => some .less
  | .operator .lessEqual => some .lessEqual
  | .operator .greater => some .greater
  | .operator .greaterEqual => some .greaterEqual
  | _ => none

def termOp? : TokenKind → Option InfixOp
  | .operator .plus => some .plus
  | .operator .minus => some .minus
  | _ => none

def factorOp? : TokenKind → Option InfixOp
  | .operator .star => some .times
  | .operator .slash => some .divide
  | .operator .percent => some .remainder
  | _ => none

/-- A power, which is read from right to left. -/
def powerRule (rules : ExprRules) : Rule Expr := do
  let base ← rules.unary
  if (← peek).isOperator .caret then
    skip
    combineInfix base .power (← rules.power)
  else return base

def incrementOf (operand : Expr) (decrement prefixed : Bool) : Rule Expr := do
  if operand.ty.isNumeric then
    let target ← placeOf operand
    return .increment (.over operand.ty operand.position target.children) target decrement prefixed
  else fail (.invalidOperand (if decrement then "--" else "++") operand.ty) operand.position

/-- The type of a cast that begins here, which is taken; nothing is taken if there is none. -/
def castType? (type : Rule Ty) : Rule (Option Ty) := fun env tokens =>
  if (firstKind tokens).isSeparator .openParen &&
      startsDeclaration (firstKind tokens.tail) (firstKind tokens.tail.tail) then
    match type env tokens.tail with
    | .ok (ty, rest) =>
      if (firstKind rest).isSeparator .closeParen then .ok (some ty, rest.tail) else .ok (none, tokens)
    | .error _ => .ok (none, tokens)
  else .ok (none, tokens)

/-- Whether the next token is the magnitude of the least int and no suffix binds to it. -/
def startsLeastInt (first second : TokenKind) : Bool :=
  match first with
  | .literal .intMinMagnitude =>
    !(second.isOperator .dot || second.isOperator .increment || second.isOperator .decrement ||
      second.isSeparator .openBracket)
  | _ => false

/-- A negation; a constant is negated on the spot. -/
def negationOf (operand : Expr) (position : Position) : Rule Expr :=
  if operand.ty.isNumeric then
    match operand.literal?.bind Value.negated? with
    | some value => return .literal (.over operand.ty position []) value
    | none => return .unary (.over operand.ty position [operand]) .negate operand
  else fail (.invalidOperand "-" operand.ty) position

/-- An expression with casts, signs and increments in front. -/
def unaryRule (type : Rule Ty) (rules : ExprRules) : Rule Expr := do
  let position ← here
  match ← castType? type with
  | some target =>
    let operand ← rules.unary
    if (← ask).registry.classes.castable target operand.ty then
      return .cast (.over target position [operand]) operand
    else fail (.invalidCast operand.ty target) position
  | none =>
    match ← peek with
    | .operator .increment =>
      skip
      incrementOf (← rules.unary) false true
    | .operator .decrement =>
      skip
      incrementOf (← rules.unary) true true
    | .operator .minus =>
      skip
      if startsLeastInt (← peek) (← peekSecond) then
        skip
        return .literal (.over .int position []) (.int (-2147483648))
      else negationOf (← rules.unary) position
    | .operator .not =>
      skip
      let operand ← rules.unary
      if operand.ty = .bool then return .unary (.over .bool position [operand]) .not operand
      else fail (.invalidOperand "!" operand.ty) position
    | _ => rules.suffixed

/-- Looks a member up, and lets it check the arguments of a call. -/
def memberFor (owner : Owner) (name : String) (arguments : Option (List Expr)) (position : Position) :
    Rule Member := do
  match (← ask).registry.resolveMember owner name (arguments.map (·.map Expr.ty)) with
  | .error e => fail (.member owner.text name e) position
  | .ok member =>
    match member.check, arguments with
    | some check, some arguments =>
      match check (arguments.map Expr.literal?) with
      | .error reason => fail (.invalidArguments (owner.text ++ "." ++ member.name) reason) position
      | .ok () => return member
    | _, _ => return member

/-- A member and the arguments behind it; a property has none. -/
def memberAccess (rules : ExprRules) (owner : Owner) (name : String) (position : Position) :
    Rule (Member × List Expr) := do
  if (← peek).isSeparator .openParen then
    skip
    let arguments ← rules.arguments
    return (← memberFor owner name (some arguments) position, arguments)
  else return (← memberFor owner name none position, [])

/-- A member of a facility or of a type, from the dot on. -/
def staticAccess (rules : ExprRules) (owner : Owner) (position : Position) : Rule Expr := do
  operator .dot
  let namePosition ← here
  let name ← identifier
  let (member, arguments) ← memberAccess rules owner name namePosition
  return .staticMember (.over member.returns position arguments) member arguments

/-- The types of the keys and of the items of a collection that can be indexed. -/
def indexTypes? : Ty → Option (Ty × Ty)
  | .sequence .list element => some (.int, element)
  | .sequence .array element => some (.int, element)
  | .dictionary key value => some (key, value)
  | _ => none

/-- A member of an expression, from the dot on. -/
def instanceAccess (rules : ExprRules) (receiver : Expr) : Rule Expr := do
  skip
  let position ← here
  let name ← identifier
  let (member, arguments) ← memberAccess rules (.value receiver.ty) name position
  return .instanceMember (.over member.returns receiver.position (receiver :: arguments)) member
    receiver arguments

/-- An item of a collection, from the opening bracket on. -/
def indexAccess (rules : ExprRules) (collection : Expr) : Rule Expr := do
  match indexTypes? collection.ty with
  | none => fail (.notIndexable collection.ty) (← here)
  | some (key, element) =>
    skip
    let index ← rules.expression
    expectAssignable key index .index
    separator .closeBracket
    return .index (.over element collection.position [collection, index]) collection index

def suffixes (rules : ExprRules) : Steps → Expr → Rule Expr
  | [], e => return e
  | _ :: steps, e => do
    let e ← bounded e
    match ← peek with
    | .operator .dot => suffixes rules steps (← instanceAccess rules e)
    | .separator .openBracket => suffixes rules steps (← indexAccess rules e)
    | .operator .increment =>
      let e ← incrementOf e false false
      skip
      suffixes rules steps e
    | .operator .decrement =>
      let e ← incrementOf e true false
      skip
      suffixes rules steps e
    | _ => return e

def suffixedRule (rules : ExprRules) : Rule Expr := do
  let e ← rules.primary
  withSteps fun steps => suffixes rules steps e

/-- The arguments of a call, behind the opening parenthesis. -/
def argumentsRule (rules : ExprRules) : Rule (List Expr) := do
  if (← peek).isSeparator .closeParen then
    skip
    return []
  else withSteps (commaList rules.expression (·.isSeparator .closeParen) "\",\" or \")\"")

/-- Checks arguments against the parameters of the only function of a name. -/
def checkArguments : List Parameter → List Expr → Rule Unit
  | p :: ps, a :: rest => do
    expectAssignable p.ty a .argument
    checkArguments ps rest
  | _, _ => return

def functionFor (name : String) (overloads : List Nat) (arguments : List Expr) (position : Position) :
    Rule (Nat × Signature) := do
  let env ← ask
  let candidates := overloads.filterMap fun index => env.signatures[index]?.map fun s => (index, s)
  match candidates with
  | [(index, signature)] =>
    if arguments.length = signature.parameters.length then
      checkArguments signature.parameters arguments
      return (index, signature)
    else fail (.argumentCount name signature.parameters.length arguments.length) position
  | _ =>
    let types := arguments.map Expr.ty
    match selectOverload (fun fit c => c.2.takes env.registry.classes types fit) candidates types with
    | .ok chosen => return chosen
    | .error e => fail (.overload name e) position

/-- A call of a function of the script, behind the opening parenthesis. -/
def callRule (rules : ExprRules) (name : String) (position : Position) : Rule Expr := do
  match (← ask).scopes.lookup name with
  | some (.function overloads) =>
    let arguments ← rules.arguments
    let (index, signature) ← functionFor name overloads arguments position
    return .call (.over signature.returns position arguments) index arguments
  | some _ => fail (.notCallable name) position
  | none => fail (.unknownFunction name) position

/-- An expression that may stand where a type is asked for. -/
def typedExpression (rules : ExprRules) (ty : Ty) (use : Use) : Rule Expr := do
  let e ← rules.expression
  expectAssignable ty e use
  return e

/-- An array of a given length, from the opening bracket on. -/
def newArray (rules : ExprRules) (ty : Ty) (position : Position) : Rule Expr := do
  if ty = .void then fail (.voidDeclaration "array") position
  else
    skip
    let length ← typedExpression rules .int .arrayLength
    separator .closeBracket
    let element ← arraySuffixes ty
    return .newArray (.over (.sequence .array element) position [length]) element length

/-- A pair of parentheses that may stand behind a collection type. -/
def emptyArguments : Rule Unit := do
  if (← peek).isSeparator .openParen then
    skip
    separator .closeParen

def entryRule (rules : ExprRules) (key value : Ty) : Rule (Expr × Expr) := do
  separator .openBrace
  let k ← typedExpression rules key .dictionaryKey
  separator .comma
  let v ← typedExpression rules value .dictionaryValue
  separator .closeBrace
  return (k, v)

def newDictionary (rules : ExprRules) (key value : Ty) (position : Position) : Rule Expr := do
  emptyArguments
  let entries ← do
    if (← peek).isSeparator .openBrace then
      skip
      withSteps (bracedList (entryRule rules key value))
    else pure []
  return .newDictionary (.over (.dictionary key value) position (entries.flatMap fun e => [e.1, e.2]))
    key value entries

/-- The items of a sequence, behind the opening brace. -/
def itemsRule (rules : ExprRules) (element : Ty) : Rule (List Expr) :=
  withSteps (bracedList (typedExpression rules element .collectionItem))

def newSequence (rules : ExprRules) (kind : SequenceKind) (element : Ty) (position : Position) :
    Rule Expr := do
  let items ← match kind with
    | .array => do
      if (← peek).isSeparator .openBrace then
        skip
        itemsRule rules element
      else expected "\"[\" or \"\x7b\""
    | .list => do
      emptyArguments
      if (← peek).isSeparator .openBrace then
        skip
        itemsRule rules element
      else pure []
    | .queue | .stack => do
      emptyArguments
      pure []
  return .newSequence (.over (.sequence kind element) position items) kind element items

/-- What `new` makes, behind the word itself. -/
def constructionRule (type : Rule Ty) (rules : ExprRules) (position : Position) : Rule Expr := do
  let ty ← type
  if (← peek).isSeparator .openBracket then newArray rules ty position
  else
    match ty with
    | .sequence kind element => newSequence rules kind element position
    | .dictionary key value => newDictionary rules key value position
    | ty =>
      separator .openParen
      let arguments ← rules.arguments
      let member ← memberFor (.type ty) "new" (some arguments) position
      return .staticMember (.over ty position arguments) member arguments

/-- A name that is not called: a constant is put in its place. -/
def nameRule (name : String) (position : Position) : Rule Expr := do
  match (← ask).scopes.lookup name with
  | some (.constant value ty) => return .literal (.over ty position []) value
  | some (.variable ty) => return .variable (.over ty position []) ⟨name, ty, position⟩
  | some (.function _) => fail (.functionAsValue name) position
  | none => fail (.undeclaredIdentifier name) position

/-- A constant, a name, a call, a member, a construction, or an expression in parentheses. -/
def primaryRule (rules : ExprRules) : Rule Expr := do
  let position ← here
  match ← peek with
  | .literal constant =>
    skip
    return .literal (.over constant.ty position []) constant.value
  | .identifier name =>
    skip
    if (← peek).isSeparator .openParen then
      skip
      rules.call name position
    else nameRule name position
  | .type _ (.complete ty) =>
    skip
    staticAccess rules (.type ty) position
  | .type word (.generic _) => fail (.unappliedGeneric word) position
  | .keyword .newWord =>
    skip
    rules.construction position
  | .keyword word =>
    if word.isFacility then
      skip
      staticAccess rules (.facility word.text) position
    else unexpected
  | .separator .openParen =>
    skip
    let e ← rules.expression
    separator .closeParen
    return e
  | _ => unexpected

def ExprRules.stuck : ExprRules where
  expression := tooDeep
  assignment := tooDeep
  ternary := tooDeep
  logicalOr := tooDeep
  logicalAnd := tooDeep
  equality := tooDeep
  comparison := tooDeep
  term := tooDeep
  factor := tooDeep
  power := tooDeep
  unary := tooDeep
  suffixed := tooDeep
  primary := tooDeep
  arguments := tooDeep
  call := fun _ _ => tooDeep
  construction := fun _ => tooDeep

/-- The rules with one more entry to spend than those inside them. -/
def ExprRules.around (type : Rule Ty) (rules : ExprRules) : ExprRules where
  expression := named .expression do bounded (← rules.assignment)
  assignment := named .assignment (assignmentRule rules)
  ternary := named .ternary (ternaryRule rules)
  logicalOr := named .logicalOr (leftToRight rules.logicalAnd orOp? combineLogical)
  logicalAnd := named .logicalAnd (leftToRight rules.equality andOp? combineLogical)
  equality := named .equality (leftToRight rules.comparison equalityOp? combineInfix)
  comparison := named .comparison (leftToRight rules.term comparisonOp? combineInfix)
  term := named .term (leftToRight rules.factor termOp? combineInfix)
  factor := named .factor (leftToRight rules.power factorOp? combineInfix)
  power := named .power (powerRule rules)
  unary := named .unary (unaryRule type rules)
  suffixed := named .suffixed (suffixedRule rules)
  primary := named .primary (primaryRule rules)
  arguments := named .arguments (argumentsRule rules)
  call := fun name position => named .call (callRule rules name position)
  construction := fun position => named .construction (constructionRule type rules position)

/-- The rules for expressions, when so many rules may still be entered. -/
def exprRules : Nat → ExprRules
  | 0 => .stuck
  | depth + 1 => .around (typeRule depth) (exprRules depth)

end Scriptlet.Grammar
