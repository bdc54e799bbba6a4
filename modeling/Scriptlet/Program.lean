import Scriptlet.Member

/-!
# Programs

What a source text is compiled to: expressions that know their types, statements, functions and the
declarations at the top. Every expression also has its place and its height, the number of expressions on the
longest way down to a leaf.
-/

namespace Scriptlet

/-- A variable as a place in the source refers to it: reads and writes are checked against its declared
type. -/
structure VariableRef where
  name : String
  declared : Ty
  position : Position
deriving DecidableEq, Repr

inductive UnaryOp
  | negate
  | not
deriving DecidableEq, Repr

/-- Operators with two operands that are both evaluated. -/
inductive InfixOp
  | equal
  | notEqual
  | less
  | lessEqual
  | greater
  | greaterEqual
  | plus
  | minus
  | times
  | divide
  | remainder
  | power
deriving DecidableEq, Repr

/-- Operators that may leave out their second operand. -/
inductive LogicalOp
  | and
  | or
deriving DecidableEq, Repr

/-- Assignments that combine the old value with a new one. The logical ones evaluate both sides. -/
inductive CompoundOp
  | arithmetic (op : InfixOp)
  | and
  | or
deriving DecidableEq, Repr

/-- What every expression knows about itself. -/
structure ExprInfo where
  ty : Ty
  position : Position
  height : Nat
deriving DecidableEq, Repr

mutual

/-- An expression with its types worked out. A binary operation knows the common type of its operands, a
compound assignment the type it is computed in, and a call the index of its function. -/
inductive Expr
  | literal (info : ExprInfo) (value : Value)
  | variable (info : ExprInfo) (ref : VariableRef)
  | unary (info : ExprInfo) (op : UnaryOp) (operand : Expr)
  | binary (info : ExprInfo) (left : Expr) (op : InfixOp) (right : Expr) (operandType : Ty)
  | logical (info : ExprInfo) (left : Expr) (op : LogicalOp) (right : Expr)
  | ternary (info : ExprInfo) (condition thenCase elseCase : Expr)
  | assign (info : ExprInfo) (target : Place) (op : Option CompoundOp) (value : Expr) (operandType : Ty)
  | increment (info : ExprInfo) (target : Place) (decrement prefixed : Bool)
  | cast (info : ExprInfo) (operand : Expr)
  | call (info : ExprInfo) (function : Nat) (arguments : List Expr)
  | staticMember (info : ExprInfo) (member : Member) (arguments : List Expr)
  | instanceMember (info : ExprInfo) (member : Member) (receiver : Expr) (arguments : List Expr)
  | index (info : ExprInfo) (collection key : Expr)
  | newSequence (info : ExprInfo) (kind : SequenceKind) (element : Ty) (items : List Expr)
  | newArray (info : ExprInfo) (element : Ty) (length : Expr)
  | newDictionary (info : ExprInfo) (key value : Ty) (entries : List (Expr × Expr))

/-- What can be assigned to: a variable or an item of a collection. -/
inductive Place
  | variable (ref : VariableRef)
  | index (collection key : Expr)

end

mutual

/-- A statement and its place. -/
inductive Statement
  | expression (position : Position) (e : Expr)
  | declaration (position : Position) (name : String) (ty : Ty) (initial : Option Expr)
  | block (position : Position) (body : List Statement)
  | conditional (position : Position) (condition : Expr) (thenBranch : Statement)
      (elseBranch : Option Statement)
  | whileLoop (position : Position) (condition : Expr) (body : Statement)
  | forLoop (position : Position) (initial : List Statement) (condition : Option Expr)
      (increments : List Expr) (body : Statement)
  | forEachLoop (position : Position) (name : String) (ty : Ty) (collection : Expr) (body : Statement)
  | switchOn (position : Position) (value : Expr) (sections : List Section)
      (otherwise : Option (List Statement))
  | breakStatement (position : Position)
  | continueStatement (position : Position)
  | returnStatement (position : Position) (value : Option Expr)

/-- A part of a switch and the values that lead to it. -/
structure Section where
  labels : List Value
  body : List Statement

end

/-- Where the variable of a top declaration lives: with the host, which may have it already; with the host,
which must have it; or in one context. -/
inductive Storage
  | shared
  | required
  | member
deriving DecidableEq, Repr

structure Declaration where
  storage : Storage
  name : String
  ty : Ty
  initial : Option Expr
  position : Position

structure Parameter where
  name : String
  ty : Ty
deriving DecidableEq, Repr

/-- What callers know of a function. -/
structure Signature where
  name : String
  returns : Ty
  parameters : List Parameter
deriving DecidableEq, Repr

structure Function where
  signature : Signature
  body : List Statement
  position : Position

/-- A compiled script: the declarations at its top in their order, and its functions. -/
structure Program where
  declarations : List Declaration
  functions : List Function

namespace Signature

def parameterTypes (s : Signature) : List Ty :=
  s.parameters.map (·.ty)

/-- Whether two functions of one name cannot be told apart by a call. -/
def sameParameters (s t : Signature) : Bool :=
  s.parameterTypes = t.parameterTypes

/-- Whether a function is what an entry point asks for; the names of parameters do not matter. -/
def agrees (s t : Signature) : Bool :=
  s.name = t.name && s.returns = t.returns && s.sameParameters t

/-- Whether the function can be called with arguments of these types. -/
def takes (s : Signature) (classes : Hierarchy) (arguments : List Ty) (fit : Fit) : Bool :=
  arguments.length = s.parameters.length &&
    (s.parameterTypes.zip arguments).all fun pair => classes.fits fit pair.1 pair.2

def text (s : Signature) : String :=
  s.returns.text ++ " " ++ s.name ++ "(" ++
    String.intercalate ", " (s.parameters.map fun p => p.ty.text ++ " " ++ p.name) ++ ")"

end Signature

namespace Expr

def info : Expr → ExprInfo
  | .literal i _ | .variable i _ | .unary i _ _ | .binary i _ _ _ _ | .logical i _ _ _ | .ternary i _ _ _
  | .assign i _ _ _ _ | .increment i _ _ _ | .cast i _ | .call i _ _ | .staticMember i _ _
  | .instanceMember i _ _ _ | .index i _ _ | .newSequence i _ _ _ | .newArray i _ _
  | .newDictionary i _ _ _ => i

def ty (e : Expr) : Ty := e.info.ty

def position (e : Expr) : Position := e.info.position

/-- The stored height of an expression. -/
def height (e : Expr) : Nat := e.info.height

def literal? : Expr → Option Value
  | .literal _ v => some v
  | _ => none

def isExecutable : Expr → Bool
  | .assign .. | .increment .. | .call .. => true
  | .staticMember _ m _ => m.kind = .method
  | .instanceMember _ m _ _ => m.kind = .method
  | _ => false

end Expr

/-- What an expression over the given parts knows about itself. -/
def ExprInfo.over (ty : Ty) (position : Position) (parts : List Expr) : ExprInfo :=
  ⟨ty, position, 1 + (parts.map Expr.height).foldl max 0⟩

def Place.children : Place → List Expr
  | .variable _ => []
  | .index collection key => [collection, key]

/-- The expressions that stand directly in an expression. -/
def Expr.children : Expr → List Expr
  | .literal _ _ | .variable _ _ => []
  | .unary _ _ operand | .cast _ operand => [operand]
  | .binary _ left _ right _ => [left, right]
  | .logical _ left _ right => [left, right]
  | .ternary _ condition thenCase elseCase => [condition, thenCase, elseCase]
  | .assign _ target _ value _ => target.children ++ [value]
  | .increment _ target _ _ => target.children
  | .call _ _ arguments => arguments
  | .staticMember _ _ arguments => arguments
  | .instanceMember _ _ receiver arguments => receiver :: arguments
  | .index _ collection key => [collection, key]
  | .newSequence _ _ _ items => items
  | .newArray _ _ length => [length]
  | .newDictionary _ _ _ entries => entries.flatMap fun e => [e.1, e.2]

namespace Statement

/-- The place of a statement. -/
def position : Statement → Position
  | .expression p _ | .declaration p _ _ _ | .block p _ | .conditional p _ _ _ | .whileLoop p _ _
  | .forLoop p _ _ _ _ | .forEachLoop p _ _ _ _ | .switchOn p _ _ _ | .breakStatement p
  | .continueStatement p | .returnStatement p _ => p

end Statement

end Scriptlet
