import Scriptlet.Grammar.Expressions

/-!
# Statements in a source text

A statement may declare one name, which is visible to the statements behind it in the same scope. The body of
a loop or of a branch has a scope of its own.
-/

namespace Scriptlet.Grammar

open Rule

/-- The name that a statement declares in the scope around it. -/
abbrev Declared := Option (String × Symbol)

/-- Scopes with what a statement declared. -/
def addDeclared (declared : Declared) (s : Scopes) : Scopes :=
  match declared with
  | some (name, symbol) => s.insert name symbol
  | none => s

/-- The rules for statements, and those for the expressions in them. -/
structure StatementRules where
  exprs : ExprRules
  variableDeclaration : Rule (String × Ty × Option Expr)
  constantDeclaration : Rule (String × Symbol)
  statement : Rule (Statement × Declared)
  block : Rule (List Statement)
  ifStatement : Position → Rule Statement
  whileStatement : Position → Rule Statement
  forStatement : Position → Rule Statement
  forEachStatement : Position → Rule Statement
  switchStatement : Position → Rule Statement
  returnStatement : Position → Rule Statement
  expressionStatement : Rule Statement

def initialRule (rules : ExprRules) (ty : Ty) : Rule (Option Expr) := do
  if (← peek).isOperator .assign then
    skip
    return some (← typedExpression rules ty .initializer)
  else return none

/-- A variable with its type and perhaps its first value. -/
def variableRule (type : Rule Ty) (rules : ExprRules) : Rule (String × Ty × Option Expr) := do
  let position ← here
  let ty ← type
  let name ← identifier
  if ty = .void then fail (.voidDeclaration name) position
  else
    let initial ← initialRule rules ty
    separator .semicolon
    expectFresh name position
    return (name, ty, initial)

/-- A constant, behind the word `const`. -/
def constantRule (type : Rule Ty) (rules : ExprRules) : Rule (String × Symbol) := do
  let position ← here
  let ty ← type
  let name ← identifier
  operator .assign
  let initial ← rules.expression
  separator .semicolon
  match initial.literal? with
  | none => fail (.constantNotLiteral name) initial.position
  | some value =>
    expectAssignable ty initial .constant
    expectFresh name position
    return (name, .constant (value.coerce ty) ty)

/-- Statements through the closing brace. -/
def statementsToBrace (statement : Rule (Statement × Declared)) : Steps → Rule (List Statement)
  | [] => expected "\"\x7d\""
  | _ :: steps => do
    match ← peek with
    | .separator .closeBrace =>
      skip
      return []
    | .endOfInput => expected "\"\x7d\""
    | _ =>
      let (s, declared) ← statement
      return s :: (← inScopes (addDeclared declared) (statementsToBrace statement steps))

/-- A loop or branch body, in a scope of its own. -/
def bodyRule (rules : StatementRules) : Rule Statement :=
  inScopes Scopes.beginScope do return (← rules.statement).1

def loopBodyRule (rules : StatementRules) : Rule Statement :=
  inScopes (·.beginBreakable .loop) (bodyRule rules)

def conditionRule (rules : ExprRules) : Rule Expr := do
  separator .openParen
  let condition ← typedExpression rules .bool .condition
  separator .closeParen
  return condition

/-- What stands behind the first branch of an `if`: further conditions and perhaps a last branch. -/
def elseRule (rules : StatementRules) : Steps → Rule (Option Statement)
  | [] => return none
  | _ :: steps => do
    match ← peek with
    | .keyword .elseIfWord =>
      let position ← here
      skip
      let condition ← conditionRule rules.exprs
      let thenBranch ← bodyRule rules
      let elseBranch ← elseRule rules steps
      return some (.conditional position condition thenBranch elseBranch)
    | .keyword .elseWord =>
      skip
      return some (← bodyRule rules)
    | _ => return none

/-- An `if`, behind the word itself. -/
def ifRule (rules : StatementRules) (position : Position) : Rule Statement := do
  let condition ← conditionRule rules.exprs
  let thenBranch ← bodyRule rules
  let elseBranch ← withSteps (elseRule rules)
  return .conditional position condition thenBranch elseBranch

/-- A `while`, behind the word itself. -/
def whileRule (rules : StatementRules) (position : Position) : Rule Statement := do
  let condition ← conditionRule rules.exprs
  let body ← loopBodyRule rules
  return .whileLoop position condition body

def executable (rules : ExprRules) : Rule Expr := do
  let e ← rules.expression
  if e.isExecutable then return e else fail .notAStatement e.position

/-- Expressions that may stand as statements, through the separator that ends them. -/
def executables (rules : ExprRules) (terminator : Separator) : Rule (List Expr) := do
  if (← peek).isSeparator terminator then
    skip
    return []
  else
    withSteps (commaList (executable rules) (·.isSeparator terminator)
      ("\",\" or \"" ++ terminator.text ++ "\""))

/-- What a `for` does first: a declaration, or expressions. -/
def forInitialRule (rules : StatementRules) : Rule (List Statement × Declared) := do
  let position ← here
  if startsDeclaration (← peek) (← peekSecond) then
    let (name, ty, initial) ← rules.variableDeclaration
    return ([.declaration position name ty initial], some (name, .variable ty))
  else
    let expressions ← executables rules.exprs .semicolon
    return (expressions.map fun e => .expression e.position e, none)

/-- The condition of a `for`, which may be left out. -/
def forConditionRule (rules : ExprRules) : Rule (Option Expr) := do
  if (← peek).isSeparator .semicolon then return none
  else return some (← typedExpression rules .bool .condition)

/-- A `for`, behind the word itself. -/
def forRule (rules : StatementRules) (position : Position) : Rule Statement :=
  inScopes Scopes.beginScope do
    separator .openParen
    let (initial, declared) ← forInitialRule rules
    inScopes (addDeclared declared) do
      let condition ← forConditionRule rules.exprs
      separator .semicolon
      let increments ← executables rules.exprs .closeParen
      let body ← loopBodyRule rules
      return .forLoop position initial condition increments body

/-- The type of what a `foreach` visits; a dictionary gives its keys. -/
def elementType? : Ty → Option Ty
  | .dictionary key _ => some key
  | .sequence _ element => some element
  | _ => none

/-- A `foreach`, behind the word itself. -/
def forEachRule (type : Rule Ty) (rules : StatementRules) (position : Position) : Rule Statement :=
  inScopes Scopes.beginScope do
    separator .openParen
    let variablePosition ← here
    let ty ← type
    let name ← identifier
    keyword .inWord
    let collection ← rules.exprs.expression
    separator .closeParen
    match elementType? collection.ty with
    | none => fail (.notIterable collection.ty) collection.position
    | some element =>
      if (← ask).accepts ty element then
        expectFresh name variablePosition
        let body ← inScopes (·.insert name (.variable ty)) (loopBodyRule rules)
        return .forEachLoop position name ty collection body
      else fail (.typeMismatch ty element .forEachVariable) variablePosition

/-- The label behind the word `case`, through its colon. `seen` has the labels before it. -/
def labelRule (rules : ExprRules) (value : Ty) (seen : List Value) : Rule Value := do
  let kind ← peek
  let position ← here
  let label ← rules.expression
  match label.literal? with
  | none => fail (.expected "a literal case label" kind.text) position
  | some v =>
    expectAssignable value label .caseLabel
    let v := v.coerce value
    if seen.any (·.scriptEquals v) then fail (.duplicateCase label.text) label.position
    else
      separator .colon
      return v

/-- The labels of a section, and whether the default is among them. `seen` has the labels of the sections
before, `labels` those read already. -/
def labelsRule (rules : ExprRules) (value : Ty) (seen : List Value) (hasDefault : Bool) :
    Steps → List Value → Bool → Rule (List Value × Bool)
  | [], labels, isDefault => return (labels, isDefault)
  | _ :: steps, labels, isDefault => do
    match ← peek with
    | .keyword .caseWord =>
      skip
      let label ← labelRule rules value (seen ++ labels)
      labelsRule rules value seen hasDefault steps (labels ++ [label]) isDefault
    | .keyword .defaultWord =>
      if hasDefault || isDefault then fail .multipleDefaults (← here)
      else
        skip
        separator .colon
        labelsRule rules value seen hasDefault steps labels true
    | _ =>
      if labels.isEmpty && !isDefault then expected "\"case\" or \"default\""
      else return (labels, isDefault)

/-- The statements of a section, up to the next label or the end of the switch. -/
def sectionBody (statement : Rule (Statement × Declared)) : Steps → Rule (List Statement)
  | [] => return []
  | _ :: steps => do
    match ← peek with
    | .keyword .caseWord | .keyword .defaultWord | .separator .closeBrace | .endOfInput => return []
    | _ =>
      let (s, declared) ← statement
      return s :: (← inScopes (addDeclared declared) (sectionBody statement steps))

/-- The sections of a switch through its closing brace, and the default among them. -/
def sectionsRule (rules : StatementRules) (value : Ty) :
    Steps → List Value → Bool → Rule (List Section × Option (List Statement))
  | [], _, _ => expected "\"case\" or \"default\""
  | _ :: steps, seen, hasDefault => do
    if (← peek).isSeparator .closeBrace then
      skip
      return ([], none)
    else
      let (labels, isDefault) ← withSteps fun steps =>
        labelsRule rules.exprs value seen hasDefault steps [] false
      let body ← inScopes Scopes.beginScope (withSteps (sectionBody rules.statement))
      let (sections, otherwise) ← sectionsRule rules value steps (seen ++ labels) (hasDefault || isDefault)
      return (if labels.isEmpty then sections else ⟨labels, body⟩ :: sections,
        if isDefault then some body else otherwise)

/-- A `switch`, behind the word itself. -/
def switchRule (rules : StatementRules) (position : Position) : Rule Statement := do
  separator .openParen
  let value ← rules.exprs.expression
  separator .closeParen
  separator .openBrace
  let (sections, otherwise) ← inScopes (·.beginBreakable .switch)
    (withSteps fun steps => sectionsRule rules value.ty steps [] false)
  return .switchOn position value sections otherwise

/-- A `return`, behind the word itself. -/
def returnRule (rules : ExprRules) (position : Position) : Rule Statement := do
  let returns := (← ask).scopes.returns.getD .void
  if (← peek).isSeparator .semicolon then
    if returns = .void then
      skip
      return .returnStatement position none
    else fail (.missingReturnValue returns) position
  else
    let value ← rules.expression
    if returns = .void then fail .unexpectedReturnValue value.position
    else
      expectAssignable returns value .returned
      separator .semicolon
      return .returnStatement position (some value)

def expressionStatementRule (rules : ExprRules) : Rule Statement := do
  let e ← executable rules
  separator .semicolon
  return .expression e.position e

def plainStatement (rules : StatementRules) (position : Position) : Rule (Statement × Declared) := do
  if startsDeclaration (← peek) (← peekSecond) then
    let (name, ty, initial) ← rules.variableDeclaration
    return (.declaration position name ty initial, some (name, .variable ty))
  else return (← rules.expressionStatement, none)

def statementRule (rules : StatementRules) : Rule (Statement × Declared) := do
  let position ← here
  match ← peek with
  | .separator .openBrace =>
    skip
    let body ← inScopes Scopes.beginScope rules.block
    return (.block position body, none)
  | .separator .semicolon =>
    skip
    return (.block position [], none)
  | .keyword .ifWord =>
    skip
    return (← rules.ifStatement position, none)
  | .keyword .whileWord =>
    skip
    return (← rules.whileStatement position, none)
  | .keyword .forWord =>
    skip
    return (← rules.forStatement position, none)
  | .keyword .forEachWord =>
    skip
    return (← rules.forEachStatement position, none)
  | .keyword .switchWord =>
    skip
    return (← rules.switchStatement position, none)
  | .keyword .breakWord =>
    if (← ask).scopes.canBreak then
      skip
      separator .semicolon
      return (.breakStatement position, none)
    else fail .breakOutsideLoop position
  | .keyword .continueWord =>
    if (← ask).scopes.canContinue then
      skip
      separator .semicolon
      return (.continueStatement position, none)
    else fail .continueOutsideLoop position
  | .keyword .returnWord =>
    skip
    return (← rules.returnStatement position, none)
  | .keyword .constWord =>
    skip
    return (.block position [], some (← rules.constantDeclaration))
  | .identifier name =>
    match ← peekSecond with
    | .identifier _ => fail (.unknownType name) position
    | _ => plainStatement rules position
  | _ => plainStatement rules position

def StatementRules.stuck : StatementRules where
  exprs := .stuck
  variableDeclaration := tooDeep
  constantDeclaration := tooDeep
  statement := tooDeep
  block := tooDeep
  ifStatement := fun _ => tooDeep
  whileStatement := fun _ => tooDeep
  forStatement := fun _ => tooDeep
  forEachStatement := fun _ => tooDeep
  switchStatement := fun _ => tooDeep
  returnStatement := fun _ => tooDeep
  expressionStatement := tooDeep

/-- The rules with one more entry to spend than those inside them. -/
def StatementRules.around (type : Rule Ty) (rules : StatementRules) : StatementRules where
  exprs := .around type rules.exprs
  variableDeclaration := named .variable (variableRule type rules.exprs)
  constantDeclaration := named .constant (constantRule type rules.exprs)
  statement := named .statement (statementRule rules)
  block := named .block (withSteps (statementsToBrace rules.statement))
  ifStatement := fun position => named .ifStatement (ifRule rules position)
  whileStatement := fun position => named .whileStatement (whileRule rules position)
  forStatement := fun position => named .forStatement (forRule rules position)
  forEachStatement := fun position => named .forEachStatement (forEachRule type rules position)
  switchStatement := fun position => named .switchStatement (switchRule rules position)
  returnStatement := fun position => named .returnStatement (returnRule rules.exprs position)
  expressionStatement := named .expressionStatement (expressionStatementRule rules.exprs)

/-- The rules for statements, when so many rules may still be entered. -/
def statementRules : Nat → StatementRules
  | 0 => .stuck
  | depth + 1 => .around (typeRule depth) (statementRules depth)

theorem statementRules_exprs (depth : Nat) : (statementRules depth).exprs = exprRules depth := by
  induction depth with
  | zero => rfl
  | succ depth ih => simp [statementRules, StatementRules.around, exprRules, ih]

end Scriptlet.Grammar
