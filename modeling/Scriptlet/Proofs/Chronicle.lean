import Scriptlet.Formula

/-!
# Runs that keep a record

A second account of a run. It does what the evaluator does, and besides knows at every place which declarations
are visible there, by the nesting of the source alone, and writes down what happens: the value of every
expression, every access to a variable, every declaration, every function that is entered and every checkpoint
that is passed, each with the state at that moment. Nothing in the run depends on the record.
-/

namespace Scriptlet

/-- The declaration that a variable comes from: a member at the top of the program, a global known by its name,
a parameter of a function, or a statement. -/
inductive Origin
  | member (position : Position)
  | shared (name : String)
  | parameter (function index : Nat)
  | statement (position : Position)
deriving DecidableEq, Repr

/-- A variable as a place in the source sees it. -/
structure Variable where
  ty : Ty
  origin : Origin
deriving DecidableEq, Repr

/-- The variables that are visible at a place, the newest first. -/
abbrev Lexical := List (String × Variable)

/-- What a record speaks of. -/
inductive Happening
  | value (e : Expr) (v : Value)
  | access (ref : VariableRef) (visible : Option Variable)
  | declaration (name : String) (origin : Origin)
  | entry (function : Nat)
  | passed (event : Event)

/-- Something that happened, and the state at that moment. -/
structure Moment where
  machine : Machine
  happening : Happening

/-- The state of a run with its record, the newest moment first. -/
structure Chronicle where
  machine : Machine
  moments : List Moment

/-- A computation that keeps a record. -/
abbrev Recorded := EStateM Interruption Chronicle

/-- How a function is called when a record is kept. -/
abbrev RecordedInvoke := Nat → List Value → Position → Recorded Value

namespace Recorded

/-- A computation of which nothing is written down. -/
def quietly {α : Type} (x : Run α) : Recorded α := fun c =>
  match x c.machine with
  | .ok a m => .ok a { c with machine := m }
  | .error e m => .error e { c with machine := m }

/-- Writes down what happens now. -/
def note (h : Happening) : Recorded Unit :=
  modify fun c => { c with moments := ⟨c.machine, h⟩ :: c.moments }

/-- Writes down the value that a computation gives for an expression. -/
def giving (e : Expr) (x : Recorded Value) : Recorded Value := do
  let v ← x
  note (.value e v)
  return v

/-- Runs between two changes of the state, the second of which is made however the run ends. -/
def bracket {α : Type} (before after : Machine → Machine) (x : Recorded α) : Recorded α := fun c =>
  match x { c with machine := before c.machine } with
  | .ok a c => .ok a { c with machine := after c.machine }
  | .error e c => .error e { c with machine := after c.machine }

def inScope {α : Type} (x : Recorded α) : Recorded α :=
  bracket Machine.pushScope Machine.popScope x

def inFrame {α : Type} (x : Recorded α) : Recorded α :=
  bracket Machine.pushFrame Machine.popFrame x

def checkpoint (e : Event) (p : Position) : Recorded Unit := do
  quietly (Run.checkpoint e p)
  note (.passed e)

/-- Binds a name in the innermost scope, on behalf of a declaration. -/
def declare (name : String) (origin : Origin) (ty : Ty) (v : Value) : Recorded Unit := do
  note (.declaration name origin)
  quietly (Run.declare name ty v)

/-- Goes to a slot: an access to a variable is written down with what is visible under its name. -/
def access (visible : Lexical) : Slot → Recorded Unit
  | .variable ref => note (.access ref (visible.lookup ref.name))
  | _ => pure ()

def read (visible : Lexical) (p : Position) (slot : Slot) : Recorded Value := do
  access visible slot
  quietly (slot.read p)

def write (visible : Lexical) (classes : Hierarchy) (p : Position) (slot : Slot) (v : Value) :
    Recorded Value := do
  access visible slot
  quietly (slot.write classes p v)

end Recorded

open Recorded

mutual

def Expr.record (s : Setting) (visible : Lexical) (invoke : RecordedInvoke) (e : Expr) : Recorded Value :=
  giving e <| match e with
  | .literal _ v => pure v
  | .variable info ref => read visible info.position (.variable ref)
  | .unary info op operand => do
    let v ← operand.record s visible invoke
    quietly (Run.located info.position (op.apply v))
  | .binary info left op right operandType => do
    let l ← left.record s visible invoke
    let r ← right.record s visible invoke
    quietly (do Run.located info.position (op.apply (← Run.heap) operandType l r))
  | .logical _ left op right => do
    let l ← left.record s visible invoke
    let decided ← quietly (Run.truth left.position l)
    match op, decided with
    | .and, false => return .bool false
    | .or, true => return .bool true
    | _, _ =>
      let r ← right.record s visible invoke
      return .bool (← quietly (Run.truth right.position r))
  | .ternary info condition thenCase elseCase => do
    let b ← condition.record s visible invoke
    let decided ← quietly (Run.truth condition.position b)
    let v ← if decided then thenCase.record s visible invoke else elseCase.record s visible invoke
    return v.coerce info.ty
  | .assign info target op value operandType => do
    let slot ← target.recordSlot s visible invoke
    match op with
    | none =>
      let v ← value.record s visible invoke
      write visible s.classes info.position slot v
    | some op =>
      let current ← read visible info.position slot
      let v ← value.record s visible invoke
      let v ← quietly (do Run.located info.position (op.apply (← Run.heap) operandType current v))
      write visible s.classes info.position slot v
  | .increment info target decrement prefixed => do
    let slot ← target.recordSlot s visible invoke
    let current ← read visible info.position slot
    let op : InfixOp := if decrement then .minus else .plus
    let v ← quietly (do Run.located info.position (op.apply (← Run.heap) info.ty current (.int 1)))
    let updated ← write visible s.classes info.position slot v
    return if prefixed then updated else current
  | .cast info operand => do
    let v ← operand.record s visible invoke
    quietly (Run.located info.position (v.cast s.classes info.ty))
  | .call info function arguments => do
    let values ← Expr.recordAll s visible invoke arguments
    invoke function values info.position
  | .staticMember info member arguments => do
    let values ← Expr.recordAll s visible invoke arguments
    quietly (Run.host info.position (member.call (member.coerceFrom 0 values)))
  | .instanceMember info member receiver arguments => do
    let v ← receiver.record s visible invoke
    if v.isNull then
      quietly (Run.fail (.nullValue (receiver.text ++ "." ++ member.name)) receiver.position)
    else
      let values ← Expr.recordAll s visible invoke arguments
      quietly (Run.host info.position (member.call (v :: member.coerceFrom 0 values)))
  | .index info collection key => do
    let v ← collection.record s visible invoke
    match ← quietly (Run.collection collection v) with
    | .sequence _ _ address =>
      let k ← key.record s visible invoke
      let index ← quietly (Run.located key.position k.asInt)
      quietly (Run.item info.position address index)
    | .dictionary keyType valueType address =>
      let k ← key.record s visible invoke
      quietly (Run.entry info.position keyType valueType address k)
  | .newSequence info kind element items => do
    let values ← Expr.recordAll s visible invoke items
    quietly (Run.host info.position
      (Host.newSequence kind element (values.map (·.coerce element)).toArray))
  | .newArray info element length => do
    let n ← length.record s visible invoke
    let n ← quietly (Run.located length.position n.asInt)
    quietly (Run.newArray info.position element n)
  | .newDictionary info key value entries => do
    let d ← Expr.recordEntries s visible invoke ⟨key, value, []⟩ entries
    quietly (Run.host info.position (Host.newDictionary key value d.entries))

def Expr.recordAll (s : Setting) (visible : Lexical) (invoke : RecordedInvoke) :
    List Expr → Recorded (List Value)
  | [] => pure []
  | e :: rest => do
    let v ← e.record s visible invoke
    let vs ← Expr.recordAll s visible invoke rest
    return v :: vs

/-- A dictionary with further entries added. -/
def Expr.recordEntries (s : Setting) (visible : Lexical) (invoke : RecordedInvoke) (d : Dictionary) :
    List (Expr × Expr) → Recorded Dictionary
  | [] => pure d
  | (key, value) :: rest => do
    let k ← key.record s visible invoke
    let v ← value.record s visible invoke
    let d ← quietly (do Run.located key.position (Dictionary.add (← Run.heap) d k v))
    Expr.recordEntries s visible invoke d rest

def Place.recordSlot (s : Setting) (visible : Lexical) (invoke : RecordedInvoke) : Place → Recorded Slot
  | .variable ref => pure (.variable ref)
  | .index collection key => do
    let v ← collection.record s visible invoke
    match ← quietly (Run.collection collection v) with
    | .sequence _ element address =>
      let k ← key.record s visible invoke
      let index ← quietly (Run.located key.position k.asInt)
      return .item element address index
    | .dictionary keyType valueType address =>
      let k ← key.record s visible invoke
      return .entry keyType valueType address k

end

namespace Recorded

def repeatWhile (condition : Recorded Bool) (check : Recorded Unit) (body : Recorded Flow)
    (after : Recorded Unit) : Nat → Recorded Flow
  | 0 => throw .outOfRounds
  | rounds + 1 => do
    if ← condition then
      check
      match ← body with
      | .broken => return .normal
      | .returned v => return .returned v
      | .normal | .continued => do
        after
        repeatWhile condition check body after rounds
    else return .normal

/-- A property of computations that is kept when they are put together holds of loops, by induction on the rounds. -/
theorem repeatWhile_of {R : {α : Type} → Recorded α → Prop} (hpure : ∀ {α : Type} (a : α), R (Pure.pure a))
    (hbind : ∀ {α β : Type} {x : Recorded α} {f : α → Recorded β}, R x → (∀ a, R (f a)) → R (x >>= f))
    {condition : Recorded Bool} {check after : Recorded Unit} {body : Recorded Flow}
    (hend : R (MonadExcept.throw .outOfRounds : Recorded Flow)) (hcondition : R condition) (hcheck : R check)
    (hbody : R body) (hafter : R after) (rounds : Nat) : R (repeatWhile condition check body after rounds) := by
  induction rounds with
  | zero => exact hend
  | succ rounds ih =>
    refine hbind hcondition fun b => ?_
    split
    · refine hbind hcheck fun _ => hbind hbody fun flow => ?_
      cases flow with
      | broken => exact hpure _
      | returned v => exact hpure _
      | normal => exact hbind hafter fun _ => ih
      | continued => exact hbind hafter fun _ => ih
    · exact hpure _

def forEach (check : Recorded Unit) (body : Value → Recorded Flow) : List Value → Recorded Flow
  | [] => return .normal
  | v :: rest => do
    check
    match ← body v with
    | .broken => return .normal
    | .returned v => return .returned v
    | .normal | .continued => forEach check body rest

end Recorded

def Expr.recordOption (s : Setting) (visible : Lexical) (invoke : RecordedInvoke) :
    Option Expr → Recorded (Option Value)
  | none => return none
  | some e => do return some (← e.record s visible invoke)

def Expr.recordHolds (s : Setting) (visible : Lexical) (invoke : RecordedInvoke) (e : Expr) :
    Recorded Bool := do
  let v ← e.record s visible invoke
  quietly (Run.truth e.position v)

def Expr.recordHoldsOption (s : Setting) (visible : Lexical) (invoke : RecordedInvoke) :
    Option Expr → Recorded Bool
  | none => return true
  | some e => e.recordHolds s visible invoke

/-- The variable that a statement makes visible to those behind it. A declaration that is the body of a branch
or of a loop makes nothing visible outside of it. -/
def Statement.declares : Statement → Lexical
  | .declaration position name ty _ => [(name, ⟨ty, .statement position⟩)]
  | _ => []

def Statement.visibleAfter (visible : Lexical) : List Statement → Lexical
  | [] => visible
  | statement :: rest => Statement.visibleAfter (statement.declares ++ visible) rest

mutual

/-- Executes a statement. -/
def Statement.record (s : Setting) (invoke : RecordedInvoke) (rounds : Nat) (visible : Lexical) :
    Statement → Recorded Flow
  | .expression _ e => do
    let _ ← e.record s visible invoke
    return .normal
  | .declaration position name ty initial => do
    let v ← Expr.recordOption s visible invoke initial
    declare name (.statement position) ty ((v.map (·.coerce ty)).getD (Value.default ty))
    return .normal
  | .block _ body => inScope (Statement.recordAll s invoke rounds visible body)
  | .conditional _ condition thenBranch elseBranch => do
    if ← condition.recordHolds s visible invoke then thenBranch.record s invoke rounds visible
    else
      match elseBranch with
      | some branch => branch.record s invoke rounds visible
      | none => return .normal
  | .whileLoop p condition body =>
    repeatWhile (condition.recordHolds s visible invoke) (checkpoint .loopIteration p)
      (body.record s invoke rounds visible) (pure ()) rounds
  | .forLoop p initial condition increments body => inScope do
    let _ ← Statement.recordAll s invoke rounds visible initial
    let visible := Statement.visibleAfter visible initial
    repeatWhile (Expr.recordHoldsOption s visible invoke condition) (checkpoint .loopIteration p)
      (body.record s invoke rounds visible)
      (do let _ ← Expr.recordAll s visible invoke increments) rounds
  | .forEachLoop p name ty collection body => do
    let v ← collection.record s visible invoke
    let items ← quietly (do Run.visited (← Run.collection collection v))
    forEach (checkpoint .loopIteration p)
      (fun v => inScope do
        declare name (.statement p) ty (v.coerce ty)
        body.record s invoke rounds ((name, ⟨ty, .statement p⟩) :: visible))
      items
  | .switchOn _ value sections otherwise => do
    let v ← value.record s visible invoke
    let flow ← match ← Section.recordMatching s invoke rounds visible v sections with
      | some flow => pure flow
      | none =>
        match otherwise with
        | some body => inScope (Statement.recordAll s invoke rounds visible body)
        | none => pure .normal
    match flow with
    | .broken => return .normal
    | flow => return flow
  | .breakStatement _ => return .broken
  | .continueStatement _ => return .continued
  | .returnStatement _ value => do
    return .returned (← Expr.recordOption s visible invoke value)

def Statement.recordAll (s : Setting) (invoke : RecordedInvoke) (rounds : Nat) (visible : Lexical) :
    List Statement → Recorded Flow
  | [] => return .normal
  | statement :: rest => do
    match ← statement.record s invoke rounds visible with
    | .normal => Statement.recordAll s invoke rounds (statement.declares ++ visible) rest
    | flow => return flow

def Section.recordMatching (s : Setting) (invoke : RecordedInvoke) (rounds : Nat) (visible : Lexical)
    (v : Value) : List Section → Recorded (Option Flow)
  | [] => return none
  | ⟨labels, body⟩ :: rest => do
    if labels.any (·.scriptEquals v) then
      return some (← inScope (Statement.recordAll s invoke rounds visible body))
    else Section.recordMatching s invoke rounds visible v rest

end

/-- The parameters of a function as its body sees them, from an index on. -/
def Parameter.visible (function : Nat) : Nat → List Parameter → Lexical → Lexical
  | _, [], visible => visible
  | index, p :: rest, visible =>
    Parameter.visible function (index + 1) rest ((p.name, ⟨p.ty, .parameter function index⟩) :: visible)

/-- Binds the parameters of a function, which have to fit, from an index on. -/
def recordParameters (s : Setting) (function : Nat) (name : String) (p : Position) :
    Nat → List Parameter → List Value → Recorded Unit
  | index, parameter :: ps, v :: vs => do
    if s.classes.accepts parameter.ty v.runtimeType then
      declare parameter.name (.parameter function index) parameter.ty (v.coerce parameter.ty)
      recordParameters s function name p (index + 1) ps vs
    else quietly (Run.fail (.argumentType name index parameter.ty v.runtimeType) p)
  | _, _, _ => return

/-- Checks that one more function may be entered, and passes the checkpoint. -/
def Recorded.enterCall (p : Position) : Recorded Unit := do
  quietly (Run.enterCall p)
  note (.passed .functionEntry)

/-- Calls a function in a frame of its own. -/
def Function.record (s : Setting) (function : Nat) (execute : List Statement → Recorded Flow) (f : Function)
    (arguments : List Value) (p : Position) : Recorded Value := do
  let parameters := f.signature.parameters
  if arguments.length = parameters.length then
    Recorded.enterCall p
    inFrame do
      note (.entry function)
      recordParameters s function f.signature.name p 0 parameters arguments
      let flow ← execute f.body
      quietly (f.result flow)
  else
    quietly (Run.fail (.argumentCount f.signature.name parameters.length arguments.length) p)

/-- Calls the function of an index, when so many calls may be opened inside one another. The body sees the
parameters and what is declared at the top. -/
def Setting.recordInvoke (s : Setting) (top : Lexical) (rounds : Nat) : Nat → RecordedInvoke
  | 0 => fun _ _ p => quietly (do Run.fail (.callDepthExceeded (← get).limits.maxCallDepth) p)
  | depth + 1 => fun index arguments p =>
    match s.functions[index]? with
    | none => quietly (Run.fail (.unknownFunction ("#" ++ toString index)) p)
    | some f =>
      f.record s index
        (Statement.recordAll s (s.recordInvoke top rounds depth) rounds
          (Parameter.visible index 0 f.signature.parameters top))
        arguments p

def Setting.recordCall (s : Setting) (top : Lexical) (rounds index : Nat) (arguments : List Value)
    (p : Position) : Recorded Value := do
  s.recordInvoke top rounds ((← get).machine.limits.maxCallDepth + 1) index arguments p

def Setting.recordEvaluate (s : Setting) (top visible : Lexical) (rounds : Nat) (e : Expr) :
    Recorded Value := do
  e.record s visible (s.recordInvoke top rounds ((← get).machine.limits.maxCallDepth + 1))

def Setting.recordExecute (s : Setting) (top visible : Lexical) (rounds : Nat) (statement : Statement) :
    Recorded Flow := do
  statement.record s (s.recordInvoke top rounds ((← get).machine.limits.maxCallDepth + 1)) rounds visible

namespace Declaration

/-- The variable that a declaration at the top makes visible. -/
def toVariable (d : Declaration) : Variable :=
  ⟨d.ty, match d.storage with
    | .member => .member d.position
    | .shared | .required => .shared d.name⟩

def visibleAfter (visible : Lexical) : List Declaration → Lexical
  | [] => visible
  | d :: rest => visibleAfter ((d.name, d.toVariable) :: visible) rest

def recordInitial (s : Setting) (top visible : Lexical) (rounds : Nat) (d : Declaration) :
    Recorded Value := do
  match d.initial with
  | some e => return (← s.recordEvaluate top visible rounds e).coerce d.ty
  | none => return Value.default d.ty

/-- Defines the global of a declaration. -/
def recordGlobal (s : Setting) (top visible : Lexical) (rounds : Nat) (d : Declaration) :
    Recorded Unit := do
  let v ← d.recordInitial s top visible rounds
  quietly do
    let globals ← Run.located d.position (Bindings.define s.classes (← get).globals d.name d.ty v)
    modify ({ · with globals := globals })

/-- Runs a declaration, where a global of its name exists with the given type or not at all. -/
def recordGiven (s : Setting) (top visible : Lexical) (rounds : Nat) (d : Declaration) (existing : Option Ty) :
    Recorded Unit :=
  match d.storage, existing with
  | .member, _ => do
    let v ← d.recordInitial s top visible rounds
    note (.declaration d.name (.member d.position))
    quietly (modify fun m => { m with members := Bindings.put d.name ⟨d.ty, v⟩ m.members })
  | .shared, some existing =>
    if existing = d.ty then return
    else quietly (Run.fail (.globalTypeConflict d.name existing d.ty) d.position)
  | .required, some existing =>
    if existing = d.ty then return
    else quietly (Run.fail (.externTypeMismatch d.name d.ty existing) d.position)
  | .shared, none => d.recordGlobal s top visible rounds
  | .required, none =>
    if d.initial.isNone then quietly (Run.fail (.externMissing d.name d.ty) d.position)
    else d.recordGlobal s top visible rounds

def record (s : Setting) (top visible : Lexical) (rounds : Nat) (d : Declaration) : Recorded Unit := do
  d.recordGiven s top visible rounds (((← get).machine.globals.lookup d.name).map (·.ty))

def recordAll (s : Setting) (top : Lexical) (rounds : Nat) : Lexical → List Declaration → Recorded Unit
  | _, [] => return
  | visible, d :: rest => do
    d.record s top visible rounds
    recordAll s top rounds ((d.name, d.toVariable) :: visible) rest

end Declaration

namespace Script

/-- What the bodies of all functions see. -/
def top (s : Script) : Lexical :=
  Declaration.visibleAfter [] s.program.declarations

def recordPrepare (s : Script) (rounds : Nat) : Recorded Unit := do
  quietly Run.begin
  Declaration.recordAll s.setting s.top rounds [] s.program.declarations

def recordCall (s : Script) (rounds : Nat) (name : String) (arguments : List Value) :
    Recorded (Option Value) := do
  let (index, f) ← quietly (Run.located .start (s.resolve name arguments))
  quietly Run.begin
  let v ← s.setting.recordCall s.top rounds index arguments f.position
  return if f.signature.returns = .void then none else some v

end Script

def Formula.record (f : Formula) (visible : Lexical) (rounds : Nat) : Recorded Value := do
  quietly Run.begin
  Setting.recordEvaluate ⟨f.registry.classes, []⟩ [] visible rounds f.expr

end Scriptlet
