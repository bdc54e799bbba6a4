import Scriptlet.Registry
import Scriptlet.Scopes
import Scriptlet.Typing

/-!
# Grammar rules

A rule reads something from the front of a token list, in surroundings that tell it what is declared, and
gives back what it read and the tokens that remain, or an error. Entering a named rule adds it to the trail,
which errors show. How many rules may be at work at once is limited, so the grammar is a family of rules
indexed by the number of rules that may still be entered.
-/

namespace Scriptlet.Grammar

def maxDepth : Nat := 256

def maxHeight : Nat := 256

/-- What a rule knows: the host, the functions of the script, what is declared, and the rules at work, the
innermost first. -/
structure Env where
  registry : Registry
  signatures : List Signature
  scopes : Scopes
  trail : List RuleName

namespace Env

def initial (registry : Registry) : Env :=
  ⟨registry, [], .empty, []⟩

def error (env : Env) (cause : CompileCause) (position : Position) : CompileError :=
  ⟨cause, position, env.trail.reverse⟩

def enter (env : Env) (name : RuleName) : Env :=
  { env with trail := name :: env.trail }

def withScopes (env : Env) (f : Scopes → Scopes) : Env :=
  { env with scopes := f env.scopes }

/-- Whether a value of the second type may stand where the first is asked for. -/
def accepts (env : Env) (target source : Ty) : Bool :=
  env.registry.classes.accepts target source

end Env

/-- Reads something from the front of a token list. -/
def Rule (α : Type) := Env → List Token → Except CompileError (α × List Token)

namespace Rule

instance : Monad Rule where
  pure a := fun _ tokens => .ok (a, tokens)
  bind rule next := fun env tokens =>
    match rule env tokens with
    | .ok (a, rest) => next a env rest
    | .error e => .error e

/-- The kind of the first token; a list that is over counts as the end of the source. -/
def firstKind (tokens : List Token) : TokenKind :=
  (tokens.head?.map (·.kind)).getD .endOfInput

def firstPosition (tokens : List Token) : Position :=
  (tokens.head?.map (·.position)).getD .start

def ask : Rule Env := fun env tokens => .ok (env, tokens)

/-- The next token, which stays. -/
def peek : Rule TokenKind := fun _ tokens => .ok (firstKind tokens, tokens)

/-- The token behind the next one; both stay. -/
def peekSecond : Rule TokenKind := fun _ tokens => .ok (firstKind tokens.tail, tokens)

def here : Rule Position := fun _ tokens => .ok (firstPosition tokens, tokens)

def skip : Rule Unit := fun _ tokens => .ok ((), tokens.tail)

/-- Fails with a cause at a place. -/
def fail {α : Type} (cause : CompileCause) (position : Position) : Rule α := fun env _ =>
  .error (env.error cause position)

def expected {α : Type} (what : String) : Rule α := fun env tokens =>
  .error (env.error (.expected what (firstKind tokens).text) (firstPosition tokens))

/-- Fails because nothing can begin with the next token. -/
def unexpected {α : Type} : Rule α := fun env tokens =>
  .error (env.error (.unexpected (firstKind tokens).text) (firstPosition tokens))

/-- Runs a rule in other surroundings. -/
def within {α : Type} (f : Env → Env) (rule : Rule α) : Rule α := fun env => rule (f env)

def named {α : Type} (name : RuleName) (rule : Rule α) : Rule α := rule.within (·.enter name)

def inScopes {α : Type} (f : Scopes → Scopes) (rule : Rule α) : Rule α := rule.within (·.withScopes f)

def tooDeep {α : Type} : Rule α := fail (.nestingTooDeep maxDepth) .start

/-- Enters a rule, when so many may still be entered. -/
def enter {α : Type} (name : RuleName) (rule : Nat → Rule α) : Nat → Rule α
  | 0 => tooDeep
  | depth + 1 => named name (rule depth)

/-- The steps that a rule which repeats itself may take, one for each element. The tokens at hand are such a
bound, and counting them is not needed. -/
abbrev Steps := List Token

/-- Runs a rule with as many steps as there are tokens, and one more. -/
def withSteps {α : Type} (rule : Steps → Rule α) : Rule α := fun env tokens =>
  rule (⟨.endOfInput, .start⟩ :: tokens) env tokens

def separator (sign : Separator) : Rule Unit := do
  if (← peek).isSeparator sign then skip else expected ("\"" ++ sign.text ++ "\"")

def operator (sign : Operator) : Rule Unit := do
  if (← peek).isOperator sign then skip else expected ("\"" ++ sign.text ++ "\"")

def keyword (word : Keyword) : Rule Unit := do
  if (← peek).isKeyword word then skip else expected ("\"" ++ word.text ++ "\"")

def identifier : Rule String := do
  match ← peek with
  | .identifier name =>
    skip
    return name
  | _ => expected "an identifier"

/-- Items with commas between them, through the token that closes them. -/
def commaList {α : Type} (item : Rule α) (closes : TokenKind → Bool) (closing : String) :
    Steps → Rule (List α)
  | [] => expected closing
  | _ :: steps => do
    let a ← item
    let next ← peek
    if next.isSeparator .comma then
      skip
      return a :: (← commaList item closes closing steps)
    else if closes next then
      skip
      return [a]
    else expected closing

/-- Items with commas between them, and perhaps one behind the last, through the closing brace. -/
def bracedList {α : Type} (item : Rule α) : Steps → Rule (List α)
  | [] => expected "\",\" or \"\x7d\""
  | _ :: steps => do
    if (← peek).isSeparator .closeBrace then
      skip
      return []
    let a ← item
    let next ← peek
    if next.isSeparator .comma then
      skip
      return a :: (← bracedList item steps)
    else if next.isSeparator .closeBrace then return a :: (← bracedList item steps)
    else expected "\",\" or \"\x7d\""

/-- Checks that an expression may stand where a type is asked for. -/
def expectAssignable (target : Ty) (e : Expr) (use : Use) : Rule Unit := do
  if (← ask).accepts target e.ty then return
  else fail (.typeMismatch target e.ty use) e.position

def bounded (e : Expr) : Rule Expr :=
  if maxHeight < e.height then fail (.nestingTooDeep maxHeight) e.position else return e

def expectFresh (name : String) (position : Position) : Rule Unit := do
  if ((← ask).scopes.lookup name).isSome then fail (.duplicateDeclaration name) position

end Rule

/-- Whether a declaration begins with these tokens: a type that no member is asked of. -/
def startsDeclaration (first second : TokenKind) : Bool :=
  match first with
  | .type _ _ => !second.isOperator .dot
  | _ => false

end Scriptlet.Grammar
