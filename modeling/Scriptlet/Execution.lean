import Scriptlet.Evaluation

/-!
# Executing statements and functions

Statements are executed by recursion on their structure. Two things bound a run: a loop has a number of rounds
that it may take, and functions can be entered only so many deep. Calls are resolved by recursion on the
number of calls that may still be open at once.
-/

namespace Scriptlet

/-- How control leaves a statement. -/
inductive Flow
  | normal
  | broken
  | continued
  | returned (value : Option Value)

namespace Run

/-- Repeats a body, with a checkpoint before every round and something to do after it, while a condition holds.
At most the given number of rounds is begun. -/
def repeatWhile (condition : Run Bool) (check : Run Unit) (body : Run Flow) (after : Run Unit) :
    Nat → Run Flow
  | 0 => throw .outOfRounds
  | rounds + 1 => do
    if ← condition then
      check
      match ← body with
      | .broken => return .normal
      | .returned v => return .returned v
      | .normal | .continued => do
        after
        repeatWhile condition check body after rounds
    else return .normal

/-- Does the same for every item, with a checkpoint before each. -/
def forEach (check : Run Unit) (body : Value → Run Flow) : List Value → Run Flow
  | [] => return .normal
  | v :: rest => do
    check
    match ← body v with
    | .broken => return .normal
    | .returned v => return .returned v
    | .normal | .continued => forEach check body rest

/-- The items that a loop over a collection visits: those present when it begins. -/
def visited : Collection → Run (List Value)
  | .sequence kind _ address => do return kind.order ((← heap).items address).toList
  | .dictionary _ _ address => do return ((← heap).entries address).map (·.1)

end Run

def Expr.evaluateOption (s : Setting) (invoke : Invoke) : Option Expr → Run (Option Value)
  | none => return none
  | some e => do return some (← e.evaluate s invoke)

def Expr.holds (s : Setting) (invoke : Invoke) (e : Expr) : Run Bool := do
  Run.truth e.position (← e.evaluate s invoke)

/-- The truth value of a condition that may be left out. -/
def Expr.holdsOption (s : Setting) (invoke : Invoke) : Option Expr → Run Bool
  | none => return true
  | some e => e.holds s invoke

mutual

/-- Executes a statement; a loop in it may take the given number of rounds. -/
def Statement.execute (s : Setting) (invoke : Invoke) (rounds : Nat) : Statement → Run Flow
  | .expression _ e => do
    let _ ← e.evaluate s invoke
    return .normal
  | .declaration _ name ty initial => do
    let v ← Expr.evaluateOption s invoke initial
    Run.declare name ty ((v.map (·.coerce ty)).getD (Value.default ty))
    return .normal
  | .block _ body => Run.inScope (Statement.executeAll s invoke rounds body)
  | .conditional _ condition thenBranch elseBranch => do
    if ← condition.holds s invoke then thenBranch.execute s invoke rounds
    else
      match elseBranch with
      | some branch => branch.execute s invoke rounds
      | none => return .normal
  | .whileLoop p condition body =>
    Run.repeatWhile (condition.holds s invoke) (Run.checkpoint .loopIteration p)
      (body.execute s invoke rounds) (pure ()) rounds
  | .forLoop p initial condition increments body => Run.inScope do
    let _ ← Statement.executeAll s invoke rounds initial
    Run.repeatWhile (Expr.holdsOption s invoke condition) (Run.checkpoint .loopIteration p)
      (body.execute s invoke rounds) (do let _ ← Expr.evaluateAll s invoke increments) rounds
  | .forEachLoop p name ty collection body => do
    let items ← Run.visited (← Run.collection collection (← collection.evaluate s invoke))
    Run.forEach (Run.checkpoint .loopIteration p)
      (fun v => Run.inScope do
        Run.declare name ty (v.coerce ty)
        body.execute s invoke rounds)
      items
  | .switchOn _ value sections otherwise => do
    let v ← value.evaluate s invoke
    let flow ← match ← Section.executeMatching s invoke rounds v sections with
      | some flow => pure flow
      | none =>
        match otherwise with
        | some body => Run.inScope (Statement.executeAll s invoke rounds body)
        | none => pure .normal
    match flow with
    | .broken => return .normal
    | flow => return flow
  | .breakStatement _ => return .broken
  | .continueStatement _ => return .continued
  | .returnStatement _ value => do
    return .returned (← Expr.evaluateOption s invoke value)

/-- Executes statements in their order until one leaves in another way than by its end. -/
def Statement.executeAll (s : Setting) (invoke : Invoke) (rounds : Nat) : List Statement → Run Flow
  | [] => return .normal
  | statement :: rest => do
    match ← statement.execute s invoke rounds with
    | .normal => Statement.executeAll s invoke rounds rest
    | flow => return flow

/-- Executes the first section that has a label equal to a value, if there is one. -/
def Section.executeMatching (s : Setting) (invoke : Invoke) (rounds : Nat) (v : Value) :
    List Section → Run (Option Flow)
  | [] => return none
  | ⟨labels, body⟩ :: rest => do
    if labels.any (·.scriptEquals v) then
      return some (← Run.inScope (Statement.executeAll s invoke rounds body))
    else Section.executeMatching s invoke rounds v rest

end

/-- Binds the parameters of a function, which have to fit, from an index on. -/
def bindParameters (s : Setting) (name : String) (p : Position) :
    Nat → List Parameter → List Value → Run Unit
  | index, parameter :: ps, v :: vs => do
    if s.classes.accepts parameter.ty v.runtimeType then
      Run.declare parameter.name parameter.ty (v.coerce parameter.ty)
      bindParameters s name p (index + 1) ps vs
    else Run.fail (.argumentType name index parameter.ty v.runtimeType) p
  | _, _, _ => return

/-- Checks that one more function may be entered, and passes the checkpoint. -/
def Run.enterCall (p : Position) : Run Unit := do
  let m ← get
  if m.limits.maxCallDepth ≤ m.frames.length then fail (.callDepthExceeded m.limits.maxCallDepth) p
  else checkpoint .functionEntry p

/-- The result of a function whose body was left in the given way. -/
def Function.result (f : Function) (flow : Flow) : Run Value :=
  match flow with
  | .returned (some v) => return v.coerce f.signature.returns
  | _ =>
    if f.signature.returns = .void then return .null
    else Run.fail (.missingReturn f.signature.name) f.position

/-- Calls a function in a frame of its own, where `execute` executes its body. -/
def Function.call (s : Setting) (execute : List Statement → Run Flow) (f : Function) (arguments : List Value)
    (p : Position) : Run Value := do
  let parameters := f.signature.parameters
  if arguments.length = parameters.length then
    Run.enterCall p
    Run.inFrame do
      bindParameters s f.signature.name p 0 parameters arguments
      f.result (← execute f.body)
  else Run.fail (.argumentCount f.signature.name parameters.length arguments.length) p

/-- Calls the function of an index, when so many calls may be opened inside one another. -/
def Setting.invoke (s : Setting) (rounds : Nat) : Nat → Invoke
  | 0 => fun _ _ p => do Run.fail (.callDepthExceeded (← get).limits.maxCallDepth) p
  | depth + 1 => fun index arguments p =>
    match s.functions[index]? with
    | none => Run.fail (.unknownFunction ("#" ++ toString index)) p
    | some f => f.call s (Statement.executeAll s (s.invoke rounds depth) rounds) arguments p

/-- Calls the function of an index, as deep as the limits allow. -/
def Setting.call (s : Setting) (rounds : Nat) (index : Nat) (arguments : List Value) (p : Position) :
    Run Value := do
  s.invoke rounds ((← get).limits.maxCallDepth + 1) index arguments p

/-- The value of an expression, with calls as deep as the limits allow. -/
def Setting.evaluate (s : Setting) (rounds : Nat) (e : Expr) : Run Value := do
  e.evaluate s (s.invoke rounds ((← get).limits.maxCallDepth + 1))

/-- Executes a statement, with calls as deep as the limits allow. -/
def Setting.execute (s : Setting) (rounds : Nat) (statement : Statement) : Run Flow := do
  statement.execute s (s.invoke rounds ((← get).limits.maxCallDepth + 1)) rounds

end Scriptlet
