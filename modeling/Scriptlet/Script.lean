import Scriptlet.Execution
import Scriptlet.Grammar.Items
import Scriptlet.Token.Lexer

/-!
# Scripts

A compiled script with the host it was compiled for. It can be prepared and called in any number of contexts:
preparing runs the declarations at its top, and a call finds a function by its name and its arguments.
-/

namespace Scriptlet

structure Script where
  registry : Registry
  program : Program

def Run.convert (p : Position) (r : Reading) (v : Value) : Run Value :=
  match r.take? (v.coerce r.ty) with
  | some w => return w
  | none =>
    if v.isNull then fail (.nullValue "result") p
    else fail (.unexpectedValue r.ty v.runtimeType) p

def Declaration.initialValue (s : Setting) (rounds : Nat) (d : Declaration) : Run Value := do
  match d.initial with
  | some e => return (← s.evaluate rounds e).coerce d.ty
  | none => return Value.default d.ty

def Declaration.defineGlobal (s : Setting) (rounds : Nat) (d : Declaration) : Run Unit := do
  let v ← d.initialValue s rounds
  let globals ← Run.located d.position (Bindings.define s.classes (← get).globals d.name d.ty v)
  modify ({ · with globals := globals })

/-- Runs a declaration, where a global of its name exists with the given type or not at all. A global that exists with
the same type keeps its value; one that the host has to supply may have a value of its own only if the host has none. -/
def Declaration.prepareGiven (s : Setting) (rounds : Nat) (d : Declaration) (existing : Option Ty) : Run Unit :=
  match d.storage, existing with
  | .member, _ => do
    let v ← d.initialValue s rounds
    modify fun m => { m with members := Bindings.put d.name ⟨d.ty, v⟩ m.members }
  | .shared, some existing =>
    if existing = d.ty then return else Run.fail (.globalTypeConflict d.name existing d.ty) d.position
  | .required, some existing =>
    if existing = d.ty then return else Run.fail (.externTypeMismatch d.name d.ty existing) d.position
  | .shared, none => d.defineGlobal s rounds
  | .required, none =>
    if d.initial.isNone then Run.fail (.externMissing d.name d.ty) d.position
    else d.defineGlobal s rounds

def Declaration.prepare (s : Setting) (rounds : Nat) (d : Declaration) : Run Unit := do
  d.prepareGiven s rounds (((← get).globals.lookup d.name).map (·.ty))

def Declaration.prepareAll (s : Setting) (rounds : Nat) : List Declaration → Run Unit
  | [] => return
  | d :: rest => do
    d.prepare s rounds
    Declaration.prepareAll s rounds rest

namespace Script

def compile (registry : Registry) (source : String) : Except CompileError Script :=
  match Lexer.tokenize registry.resolveAlias source with
  | .error e => .error (.ofLexError e)
  | .ok tokens => (Grammar.program registry tokens).map fun program => ⟨registry, program⟩

def signatures (s : Script) : List Signature :=
  s.program.functions.map (·.signature)

/-- Compiles a source text that has to have certain functions. -/
def compileWithEntryPoints (registry : Registry) (source : String) (entries : List Signature) :
    Except CompileError Script := do
  let script ← compile registry source
  match entries.find? fun entry => !script.signatures.any (·.agrees entry) with
  | some missing => throw ⟨.missingFunction missing.text, .start, []⟩
  | none => return script

def function? (s : Script) (name : String) : Option Signature :=
  s.signatures.find? (·.name = name)

def overloads (s : Script) (name : String) : List Signature :=
  s.signatures.filter (·.name = name)

/-- The names and types of the declarations with a storage. -/
def declared (s : Script) (storage : Storage) : List Parameter :=
  (s.program.declarations.filter (·.storage = storage)).map fun d => ⟨d.name, d.ty⟩

/-- What a run takes from the script. -/
def setting (s : Script) : Setting :=
  ⟨s.registry.classes, s.program.functions⟩

def prepare (s : Script) (rounds : Nat) : Run Unit := do
  Run.begin
  Declaration.prepareAll s.setting rounds s.program.declarations

def candidates (s : Script) (name : String) : List (Nat × Function) :=
  (s.program.functions.zipIdx.filter fun f => f.1.signature.name = name).map fun f => (f.2, f.1)

def resolve (s : Script) (name : String) (arguments : List Value) : Except Fault (Nat × Function) :=
  match s.candidates name with
  | [] => .error (.unknownFunction name)
  | [only] => .ok only
  | many =>
    let types := arguments.map Value.runtimeType
    match selectOverload (fun fit c => c.2.signature.takes s.registry.classes types fit) many types with
    | .ok chosen => .ok chosen
    | .error e => .error (.overload name e)

/-- Calls a function by its name; one that returns nothing gives nothing. -/
def call (s : Script) (rounds : Nat) (name : String) (arguments : List Value) : Run (Option Value) := do
  let (index, f) ← Run.located .start (s.resolve name arguments)
  Run.begin
  let v ← s.setting.call rounds index arguments f.position
  return if f.signature.returns = .void then none else some v

/-- Calls a function by its name and reads its result for the host. -/
def callAs (s : Script) (rounds : Nat) (name : String) (arguments : List Value) (r : Reading) :
    Run Value := do
  Run.convert .start r ((← s.call rounds name arguments).getD .null)

end Script

end Scriptlet
