import Scriptlet.Script

/-!
# Formulas

A single expression over named inputs, which are read from the globals of a context.
-/

namespace Scriptlet

structure Formula where
  registry : Registry
  expr : Expr

namespace Formula

/-- Compiles the text of an expression with the given inputs. -/
def compile (registry : Registry) (source : String) (inputs : List Parameter) : Except CompileError Formula :=
  match Lexer.tokenize registry.resolveAlias source with
  | .error e => .error (.ofLexError e)
  | .ok tokens => (Grammar.expression registry tokens inputs).map fun expr => ⟨registry, expr⟩

def ty (f : Formula) : Ty := f.expr.ty

def evaluate (f : Formula) (rounds : Nat) : Run Value := do
  Run.begin
  Setting.evaluate ⟨f.registry.classes, []⟩ rounds f.expr

def evaluateAs (f : Formula) (rounds : Nat) (r : Reading) : Run Value := do
  if f.registry.classes.accepts r.ty f.ty then Run.convert f.expr.position r (← f.evaluate rounds)
  else Run.fail (.unexpectedValue r.ty f.ty) f.expr.position

end Formula

end Scriptlet
