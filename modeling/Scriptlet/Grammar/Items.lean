import Scriptlet.Grammar.Statements
import Scriptlet.Token.Expansion

/-!
# Whole programs

A program is a row of items: declarations and functions. The items are found first, by skipping over the
bodies of functions, so that a body may call functions that stand behind it. Then the declarations are
compiled in their order, and last the bodies, which see all declarations.
-/

namespace Scriptlet.Grammar

open Rule

/-- An item at the top of a program. The tokens of a function body begin with its opening brace; those of a
declaration begin with its first word. -/
inductive Item
  | function (signature : Signature) (body : List Token) (position : Position)
  | declaration (tokens : List Token)

/-- The tokens behind the next semicolon outside of brackets. -/
def skipPastSemicolon (depth : Nat) : List Token → List Token
  | [] => []
  | token :: rest =>
    match token.kind with
    | .endOfInput => token :: rest
    | .separator sign =>
      if sign = .semicolon ∧ depth = 0 then rest
      else if sign.closing?.isSome then skipPastSemicolon (depth + 1) rest
      else if sign.isClosing then skipPastSemicolon (depth - 1) rest
      else skipPastSemicolon depth rest
    | _ => skipPastSemicolon depth rest

/-- The tokens behind a group in brackets that begins here. -/
def skipGroup (depth : Nat) : List Token → List Token
  | [] => []
  | token :: rest =>
    match token.kind with
    | .endOfInput => token :: rest
    | .separator sign =>
      if sign.closing?.isSome then skipGroup (depth + 1) rest
      else if sign.isClosing then if depth ≤ 1 then rest else skipGroup (depth - 1) rest
      else skipGroup depth rest
    | _ => skipGroup depth rest

def parameterRule (type : Rule Ty) : Rule Parameter := do
  let position ← here
  let ty ← type
  let name ← identifier
  if ty = .void then fail (.voidDeclaration name) position else return ⟨name, ty⟩

/-- The parameters of a function, behind the opening parenthesis. -/
def parametersRule (type : Rule Ty) : Rule (List Parameter) := do
  if (← peek).isSeparator .closeParen then
    skip
    return []
  else withSteps (commaList (parameterRule type) (·.isSeparator .closeParen) "\",\" or \")\"")

/-- The parameters of a function through the place where its body has to begin. -/
def headRule (depth : Nat) : Rule (List Parameter) := do
  skip
  let parameters ← enter .parameters (fun depth => parametersRule (typeRule depth)) depth
  if (← peek).isSeparator .openBrace then return parameters else expected "\"\x7b\""

/-- Takes the tokens of a declaration. -/
def takeDeclaration : Rule Item := fun _ tokens =>
  .ok (.declaration tokens, skipPastSemicolon 0 tokens)

/-- Takes the tokens of a function body, as a function with the given signature. -/
def takeBody (signature : Signature) (position : Position) : Rule Item := fun _ tokens =>
  .ok (.function signature tokens position, skipGroup 0 tokens)

/-- An item that begins with a type: a function if a parenthesis follows the name. -/
def typedItem (depth : Nat) : Rule Item := fun env tokens => do
  let ((returns, name), rest) ← (do return (← typeRule depth, ← identifier) : Rule (Ty × String)) env tokens
  if (firstKind rest).isSeparator .openParen then
    let (parameters, body) ← enter .function headRule depth env rest
    takeBody ⟨name, returns, parameters⟩ (firstPosition tokens) env body
  else takeDeclaration env tokens

/-- The items of a program, when so many rules may still be entered. -/
def itemsFrom (depth : Nat) : Steps → Rule (List Item)
  | [] => return []
  | _ :: steps => do
    match ← peek with
    | .endOfInput => return []
    | .keyword .globalWord | .keyword .externWord | .keyword .constWord =>
      return (← takeDeclaration) :: (← itemsFrom depth steps)
    | .type _ _ => return (← typedItem depth) :: (← itemsFrom depth steps)
    | .identifier name =>
      match ← peekSecond with
      | .identifier _ => fail (.unknownType name) (← here)
      | _ => expected "a declaration or function"
    | _ => expected "a declaration or function"

def items (env : Env) (tokens : List Token) : Except CompileError (List Item) := do
  let (found, _) ← enter .program (fun depth => withSteps (itemsFrom depth)) maxDepth env tokens
  return found

/-- Makes a function known to the whole program. -/
def declareFunction (env : Env) (signature : Signature) (position : Position) : Except CompileError Env :=
  if env.signatures.any fun s => s.name = signature.name && s.sameParameters signature then
    .error (env.error (.duplicateDeclaration signature.name) position)
  else
    match env.scopes.declareFunction signature.name env.signatures.length with
    | .ok scopes => .ok { env with scopes := scopes, signatures := env.signatures ++ [signature] }
    | .error cause => .error (env.error cause position)

def declareFunctions (env : Env) : List Item → Except CompileError Env
  | [] => .ok env
  | .function signature _ position :: rest => do
    declareFunctions (← declareFunction env signature position) rest
  | .declaration _ :: rest => declareFunctions env rest

/-- A variable at the top of a program, and the name that it declares. -/
def topVariable (rules : StatementRules) (storage : Storage) (position : Position) :
    Rule (Option Declaration × Declared) := do
  let (name, ty, initial) ← rules.variableDeclaration
  return (some ⟨storage, name, ty, initial, position⟩, some (name, .variable ty))

/-- A declaration at the top of a program, and the name that it declares; a constant leaves no trace in the
program. -/
def declarationRule (rules : StatementRules) : Rule (Option Declaration × Declared) := do
  let position ← here
  match ← peek with
  | .keyword .globalWord =>
    skip
    topVariable rules .shared position
  | .keyword .externWord =>
    skip
    topVariable rules .required position
  | .keyword .constWord =>
    skip
    return (none, some (← rules.constantDeclaration))
  | _ => topVariable rules .member position

def compileDeclaration (env : Env) (tokens : List Token) :
    Except CompileError (Option Declaration × Declared) := do
  let (result, _) ← enter .program (enter .declaration fun depth => declarationRule (statementRules depth))
    maxDepth env tokens
  return result

/-- Compiles the declarations among the items, each of which sees those before it. -/
def compileDeclarations (env : Env) : List Item → Except CompileError (List Declaration × Env)
  | [] => .ok ([], env)
  | .function _ _ _ :: rest => compileDeclarations env rest
  | .declaration tokens :: rest => do
    let (declaration, declared) ← compileDeclaration env tokens
    let (others, env) ← compileDeclarations (env.withScopes (addDeclared declared)) rest
    return (declaration.toList ++ others, env)

/-- Declares the parameters of a function for the rule that reads its body. -/
def withParameters {α : Type} (rule : Rule α) : List Parameter → Rule α
  | [] => rule
  | p :: rest => do
    expectFresh p.name (← here)
    inScopes (·.insert p.name (.variable p.ty)) (withParameters rule rest)

/-- The body of a function, from its opening brace on. -/
def functionBody (rules : StatementRules) (signature : Signature) : Rule (List Statement) :=
  inScopes (fun s => s.beginScope.withReturns (some signature.returns)) do
    separator .openBrace
    withParameters rules.block signature.parameters

def compileFunction (env : Env) (signature : Signature) (body : List Token) (position : Position) :
    Except CompileError Function := do
  let (body, _) ← enter .function (fun depth => functionBody (statementRules depth) signature) maxDepth env
    body
  return ⟨signature, body, position⟩

def compileFunctions (env : Env) : List Item → Except CompileError (List Function)
  | [] => .ok []
  | .function signature body position :: rest => do
    let function ← compileFunction env signature body position
    return function :: (← compileFunctions env rest)
  | .declaration _ :: rest => compileFunctions env rest

def program (registry : Registry) (tokens : List Token) : Except CompileError Program := do
  let tokens := Expansion.expand tokens
  let found ← items (.initial registry) tokens
  let env ← declareFunctions (.initial registry) found
  let (declarations, env) ← compileDeclarations env found
  let functions ← compileFunctions env found
  return ⟨declarations, functions⟩

/-- An expression through the end of the source, with a semicolon behind it or without. -/
def wholeExpression (rules : ExprRules) : Rule Expr := do
  let e ← rules.expression
  if (← peek).isSeparator .semicolon then skip
  if (← peek).isEnd then return e else expected "end of expression"

/-- Declares the variables of an expression for the rule that reads it. -/
def withVariables {α : Type} (rule : Rule α) : List Parameter → Rule α
  | [] => rule
  | p :: rest => do
    expectFresh p.name .start
    inScopes (·.insert p.name (.variable p.ty)) (withVariables rule rest)

/-- Compiles the tokens of an expression with the given inputs. -/
def expression (registry : Registry) (tokens : List Token) (inputs : List Parameter) :
    Except CompileError Expr := do
  let tokens := Expansion.expand tokens
  let (e, _) ← enter .expressionScript (fun depth => withVariables (wholeExpression (exprRules depth)) inputs)
    maxDepth (.initial registry) tokens
  return e

end Scriptlet.Grammar
