import Scriptlet.Registry
import Scriptlet.Value.Conversion

/-!
# A sample host: the menagerie

A host with a small hierarchy of animals. It shows how classes, capabilities, constructors, overloads and
members with a varying number of arguments are registered. A few properties of its facility give values that
do not fit their declared types, as a careless host would.
-/

namespace Scriptlet.Menagerie

/-- The fault of a receiver that is no animal. -/
def notAnAnimal : Fault := .host "not an animal"

/-- The class, the name and the age of an animal, with its address. -/
structure Animal where
  className : String
  name : Value
  age : Value
  address : Address

/-- The animal that the first argument is. -/
def animal (arguments : List Value) : Host Animal := do
  match arguments with
  | .host className address :: _ =>
    let h ← Host.heap
    return ⟨className, (h.field? address "name").getD .null, (h.field? address "age").getD .null, address⟩
  | _ => throw notAnAnimal

def newAnimal (className : String) (name : Value) (age : Value) : Host Value :=
  Host.newObject className [("name", name), ("age", age)]

/-- The name that an argument is; every animal needs one. -/
def nameArgument (v : Option Value) : Host Value :=
  match v with
  | some (.string s) => return .string s
  | _ => throw (.nullValue "name")

/-- The whole number that an argument is. -/
def intArgument (v : Option Value) : Host Int32 :=
  Host.ofExcept (v.getD .null).asInt

def born (className : String) (age : Int32) (arguments : List Value) : Host Value := do
  newAnimal className (← nameArgument arguments[0]?) (.int age)

def bornAt (className : String) (arguments : List Value) : Host Value := do
  let age ← intArgument arguments[1]?
  let name ← nameArgument arguments[0]?
  newAnimal className name (.int age)

/-- Makes an animal of the class named by the first argument. -/
def make (arguments : List Value) : Host Value := do
  let className := (arguments[0]?.bind Value.toText?).getD "Animal"
  newAnimal className (← nameArgument arguments[1]?) (.int 4)

def grow (arguments : List Value) : Host Value := do
  let a ← animal arguments
  let years ← intArgument arguments[1]?
  let age ← Host.ofExcept a.age.asInt
  match Number.fit32 (age.toInt + years.toInt) with
  | some age =>
    Host.modifyHeap (·.setField a.address "age" (.int age))
    return .null
  | none => throw (.overflow "Grow")

def twin (arguments : List Value) : Host Value := do
  let a ← animal arguments
  newAnimal a.className a.name a.age

/-- The types and texts of the arguments behind the receiver. -/
def tag (arguments : List Value) : Host Value := do
  let h ← Host.heap
  let texts ← Host.ofExcept (finite ((arguments.drop 1).mapM fun v =>
    (h.text v).map (v.runtimeType.text ++ ":" ++ ·)))
  return .string (String.intercalate "|" texts)

def livesLeft (arguments : List Value) : Host Value := do
  return .int (9 - (← intArgument arguments[1]?))

/-- A member that gives the same value for all arguments. -/
def always (v : Value) (_ : List Value) : Host Value :=
  return v

def classes : List ClassDef :=
  [⟨"INamed", none, []⟩, ⟨"IAged", none, []⟩, ⟨"Animal", none, ["INamed"]⟩,
    ⟨"Dog", some "Animal", ["IAged"]⟩, ⟨"Cat", some "Animal", []⟩]

def members : List (String × Member) :=
  [("INamed", .property "Name" .string fun arguments => do return (← animal arguments).name),
    ("IAged", .property "Age" .int fun arguments => do return (← animal arguments).age),
    ("Animal", .method "Sound" [] .string (always (.string "..."))),
    ("Dog", .method "Sound" [] .string (always (.string "woof"))),
    ("Animal", .method "Grow" [.int] .void grow),
    ("Animal", .method "Twin" [] (.host "Animal") twin),
    ("Animal", { Member.method "Tag" [.string] .string tag with variadic := some .double }),
    ("Dog", .method "Fail" [] .void fun _ => throw (.host "boom")),
    ("Cat", .property "Lives" .int (always (.int 9))),
    ("Cat", .method "Lives" [.int] .int livesLeft)]

/-- The members of the classes themselves and of the facility. -/
def statics : List (String × Member) :=
  [("Animal", .method "Make" [.string, .string] (.host "Animal") make),
    ("Dog", .property "Legs" .int (always (.int 4))),
    ("System", .method "Pick" [.long] .string (always (.string "long"))),
    ("System", .method "Pick" [.float] .string (always (.string "float"))),
    ("System", .property "BadBool" .bool (always (.int 1))),
    ("System", .property "NullBool" .bool (always .null)),
    ("System", .property "BadInt" .int (always (.string "x"))),
    ("System", .property "NullInt" .int (always .null)),
    ("System", .property "LongInt" .int (always (.long 5))),
    ("System", .property "BadString" .string (always (.int 3))),
    ("System", .property "NullString" .string (always .null)),
    ("System", .property "BadList" (.sequence .list .int) (always (.int 5))),
    ("System", .property "NullList" (.sequence .list .int) (always .null)),
    ("System", .property "BadDict" (.dictionary .string .int) (always (.bool true))),
    ("System", .property "NullDict" (.dictionary .string .int) (always .null)),
    ("System", .property "NullDog" (.host "Dog") (always .null)),
    ("System", .property "NullObject" .object (always .null))]

def withClasses (r : Registry) : Except RegistryError Registry := do
  let r ← classes.foldlM Registry.registerClass r
  let r ← r.registerAlias "Pet" (.complete (.host "Dog"))
  r.registerAlias "Bag" (.generic .list)

def withMembers (r : Registry) : Registry :=
  let r := members.foldl (fun r m => r.registerInstance (.host m.1) m.2) r
  let r := statics.foldl (fun r m => r.registerStatic m.1 m.2) r
  let r := r.registerConstructor "Animal" [.string] (born "Animal" 1)
  let r := r.registerConstructor "Cat" [.string] (born "Cat" 2)
  let r := r.registerConstructor "Dog" [.string] (born "Dog" 3)
  r.registerConstructor "Dog" [.string, .int] (bornAt "Dog")

def registry : Registry :=
  withMembers ((withClasses .standard).toOption.getD .standard)

end Scriptlet.Menagerie
