import Scriptlet.Standard.Collections
import Scriptlet.Standard.Facilities
import Scriptlet.Standard.Strings

/-!
# Registries

A registry is what the host tells the compiler and the evaluator about itself: names of types, classes and
their relations, and the members of facilities, types and values. Members are looked up by the text of their
owner; a value of a class also has the members of the classes it builds on, the nearest first.
-/

namespace Scriptlet

inductive RegistryError
  | aliasTaken (name : String)
  | unknownClass (name missing : String)
deriving DecidableEq, Repr

def RegistryError.message : RegistryError → String
  | .aliasTaken name => "Type alias \"" ++ name ++ "\" is already registered"
  | .unknownClass name missing =>
    "Class \"" ++ name ++ "\" refers to unregistered class \"" ++ missing ++ "\""

/-- Members with the text of their owner, in the order of registration. -/
abbrev MemberTable := List (String × Member)

def MemberTable.named (table : MemberTable) (owner name : String) : List Member :=
  (table.filter fun entry => entry.1 = owner && entry.2.name = name).map (·.2)

/-- What the host tells about itself. -/
structure Registry where
  aliases : List (String × TypeName)
  classes : Hierarchy
  statics : MemberTable
  instances : MemberTable

namespace Registry

def builtInAliases : List (String × TypeName) :=
  [("bool", .complete .bool), ("int", .complete .int), ("long", .complete .long),
    ("float", .complete .float), ("double", .complete .double), ("string", .complete .string),
    ("object", .complete .object), ("List", .generic .list), ("Queue", .generic .queue),
    ("Stack", .generic .stack), ("Dictionary", .generic .dictionary)]

/-- The registry of a host that adds nothing of its own. -/
def standard : Registry where
  aliases := builtInAliases
  classes := []
  statics :=
    Standard.mathMembers.map ("Math", ·) ++ Standard.debugMembers.map ("Debug", ·) ++
      Standard.systemMembers.map ("System", ·) ++ Standard.stringStatics.map ("string", ·)
  instances := Standard.stringMembers.map ("string", ·)

def resolveAlias (r : Registry) (name : String) : Option TypeName :=
  r.aliases.lookup name

def registerAlias (r : Registry) (name : String) (target : TypeName) : Except RegistryError Registry :=
  if (r.resolveAlias name).isSome then .error (.aliasTaken name)
  else .ok { r with aliases := r.aliases ++ [(name, target)] }

/-- Registers a class, which builds on registered classes only, and its name as a type name. -/
def registerClass (r : Registry) (c : ClassDef) : Except RegistryError Registry :=
  match c.related.find? fun name => !r.classes.knows name with
  | some missing => .error (.unknownClass c.name missing)
  | none => do
    let r ← r.registerAlias c.name (.complete (.host c.name))
    return { r with classes := c :: r.classes }

def registerStatic (r : Registry) (owner : String) (m : Member) : Registry :=
  { r with statics := r.statics ++ [(owner, m)] }

def registerInstance (r : Registry) (owner : Ty) (m : Member) : Registry :=
  { r with instances := r.instances ++ [(owner.text, m)] }

def registerConstructor (r : Registry) (className : String) (parameters : List Ty)
    (call : List Value → Host Value) : Registry :=
  r.registerStatic className (.method "new" parameters (.host className) call)

/-- The owners whose instance members a value of a type has. -/
def instanceOwners (r : Registry) : Ty → List String
  | .host name => r.classes.ancestors name
  | ty => [ty.text]

/-- The members of the first owner that has one of that name. -/
def firstNamed (table : MemberTable) (name : String) : List String → List Member
  | [] => []
  | owner :: rest =>
    match table.named owner name with
    | [] => firstNamed table name rest
    | found => found

/-- The members of one name that a value of a type has: those of a collection come before those the host
registered, and these before those of every value. -/
def valueMembers (r : Registry) (ty : Ty) (name : String) : List Member :=
  match (Standard.collectionMembers ty).filter (·.name = name) with
  | [] =>
    match firstNamed r.instances name (r.instanceOwners ty) with
    | [] => Standard.universalMembers.filter (·.name = name)
    | found => found
  | found => found

def candidates (r : Registry) (owner : Owner) (name : String) : List Member :=
  match owner with
  | .facility facility => r.statics.named facility name
  | .type ty => r.statics.named ty.text name
  | .value ty => r.valueMembers ty name

/-- Picks a property when there are no arguments, and otherwise the method that takes them. -/
def select (r : Registry) (members : List Member) (arguments : Option (List Ty)) :
    Except MemberError Member :=
  match arguments with
  | none =>
    match members.filter (·.kind = .property) with
    | [] => .error .notAProperty
    | first :: _ => .ok first
  | some arguments =>
    match members.filter (·.kind = .method) with
    | [] => .error .notAMethod
    | methods => selectOverload (fun fit m => m.takes r.classes arguments fit) methods arguments

/-- The member that a property access, or a call with arguments of the given types, means. -/
def resolveMember (r : Registry) (owner : Owner) (name : String) (arguments : Option (List Ty)) :
    Except MemberError Member :=
  match r.candidates owner name with
  | [] => .error .unknown
  | members => r.select members arguments

end Registry

end Scriptlet
