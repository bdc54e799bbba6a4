import Scriptlet.Overload
import Scriptlet.Token.LexError

/-!
# Compile errors

Why a source text is no program. An error has a cause, a place, and the grammar rules that were at work when
it was found, the outermost first.
-/

namespace Scriptlet

inductive RuleName
  | program
  | expressionScript
  | function
  | type
  | parameters
  | declaration
  | variable
  | constant
  | statement
  | block
  | ifStatement
  | whileStatement
  | forStatement
  | forEachStatement
  | switchStatement
  | returnStatement
  | expressionStatement
  | expression
  | assignment
  | ternary
  | logicalOr
  | logicalAnd
  | equality
  | comparison
  | term
  | factor
  | power
  | unary
  | suffixed
  | primary
  | arguments
  | call
  | construction
deriving DecidableEq, Repr

def RuleName.text : RuleName → String
  | .program => "program"
  | .expressionScript => "expression script"
  | .function => "function"
  | .type => "type"
  | .parameters => "parameters"
  | .declaration => "declaration"
  | .variable => "variable"
  | .constant => "constant"
  | .statement => "statement"
  | .block => "block"
  | .ifStatement => "if_statement"
  | .whileStatement => "while_statement"
  | .forStatement => "for_statement"
  | .forEachStatement => "foreach_statement"
  | .switchStatement => "switch_statement"
  | .returnStatement => "return_statement"
  | .expressionStatement => "expression_statement"
  | .expression => "expression"
  | .assignment => "assignment"
  | .ternary => "ternary"
  | .logicalOr => "logical_or"
  | .logicalAnd => "logical_and"
  | .equality => "equality"
  | .comparison => "comparison"
  | .term => "term"
  | .factor => "factor"
  | .power => "power"
  | .unary => "unary"
  | .suffixed => "postfix"
  | .primary => "primary"
  | .arguments => "arguments"
  | .call => "call"
  | .construction => "new"

/-- What an expression of a certain type was needed for. -/
inductive Use
  | initializer
  | constant
  | condition
  | assignment
  | compoundAssignment
  | conditionalExpression
  | index
  | argument
  | arrayLength
  | collectionItem
  | dictionaryKey
  | dictionaryValue
  | caseLabel
  | returned
  | forEachVariable
deriving DecidableEq, Repr

def Use.text : Use → String
  | .initializer => "initializer"
  | .constant => "constant"
  | .condition => "condition"
  | .assignment => "assignment"
  | .compoundAssignment => "compound assignment"
  | .conditionalExpression => "conditional expression"
  | .index => "index"
  | .argument => "argument"
  | .arrayLength => "array length"
  | .collectionItem => "collection item"
  | .dictionaryKey => "dictionary key"
  | .dictionaryValue => "dictionary value"
  | .caseLabel => "case label"
  | .returned => "return"
  | .forEachVariable => "foreach variable"

inductive CompileCause
  | lexical (cause : LexCause)
  | expected (what found : String)
  | unexpected (found : String)
  | duplicateDeclaration (name : String)
  | undeclaredIdentifier (name : String)
  | unknownType (name : String)
  | unappliedGeneric (name : String)
  | genericArity (name : String) (arity found : Nat)
  | voidDeclaration (name : String)
  | typeMismatch (wanted found : Ty) (use : Use)
  | invalidOperands (operator : String) (left right : Ty)
  | invalidOperand (operator : String) (operand : Ty)
  | invalidCast (source target : Ty)
  | notAssignable
  | notAStatement
  | breakOutsideLoop
  | continueOutsideLoop
  | missingReturnValue (ty : Ty)
  | unexpectedReturnValue
  | duplicateCase (label : String)
  | multipleDefaults
  | member (owner name : String) (error : MemberError)
  | invalidArguments (callee reason : String)
  | unknownFunction (name : String)
  | argumentCount (name : String) (arity found : Nat)
  | constantNotLiteral (name : String)
  | functionAsValue (name : String)
  | missingFunction (signature : String)
  | notIndexable (ty : Ty)
  | notIterable (ty : Ty)
  | notCallable (name : String)
  | nestingTooDeep (limit : Nat)
  | overload (name : String) (error : MemberError)
deriving DecidableEq, Repr

def CompileCause.message : CompileCause → String
  | .lexical cause => cause.message
  | .expected what found => "Expected " ++ what ++ " but found \"" ++ found ++ "\""
  | .unexpected found => "Unexpected \"" ++ found ++ "\""
  | .duplicateDeclaration name => "\"" ++ name ++ "\" is already declared"
  | .undeclaredIdentifier name => "\"" ++ name ++ "\" used without declaring"
  | .unknownType name => "Unknown type \"" ++ name ++ "\""
  | .unappliedGeneric name => "Generic type \"" ++ name ++ "\" needs type arguments"
  | .genericArity name arity found =>
    "\"" ++ name ++ "\" takes " ++ toString arity ++ " type argument(s), found " ++ toString found
  | .voidDeclaration name => "Cannot declare \"" ++ name ++ "\" as void"
  | .typeMismatch wanted found use =>
    "Expected " ++ wanted.text ++ " but found " ++ found.text ++ " in " ++ use.text
  | .invalidOperands operator left right =>
    "Operator \"" ++ operator ++ "\" cannot be applied to " ++ left.text ++ " and " ++ right.text
  | .invalidOperand operator operand =>
    "Operator \"" ++ operator ++ "\" cannot be applied to " ++ operand.text
  | .invalidCast source target => "Cannot cast " ++ source.text ++ " to " ++ target.text
  | .notAssignable => "Left side of assignment is not assignable"
  | .notAStatement =>
    "Only assignments, increments, calls and constructions may be used as statements"
  | .breakOutsideLoop => "\"break\" outside of a loop or switch"
  | .continueOutsideLoop => "\"continue\" outside of a loop"
  | .missingReturnValue ty => "Function returning " ++ ty.text ++ " must return a value"
  | .unexpectedReturnValue => "Void function cannot return a value"
  | .duplicateCase label => "Duplicate case label " ++ label
  | .multipleDefaults => "Switch has more than one default section"
  | .member owner name error => owner ++ "." ++ name ++ ": " ++ error.message
  | .invalidArguments callee reason => "Invalid arguments to " ++ callee ++ ": " ++ reason
  | .unknownFunction name => "Unknown function \"" ++ name ++ "\""
  | .argumentCount name arity found =>
    "Function \"" ++ name ++ "\" takes " ++ toString arity ++ " argument(s), found " ++ toString found
  | .constantNotLiteral name => "Constant \"" ++ name ++ "\" must be initialized with a literal"
  | .functionAsValue name => "Function \"" ++ name ++ "\" is not a value"
  | .missingFunction signature => "Entry point \"" ++ signature ++ "\" is not defined"
  | .notIndexable ty => ty.text ++ " cannot be indexed"
  | .notIterable ty => ty.text ++ " cannot be iterated"
  | .notCallable name => name ++ " is not callable"
  | .nestingTooDeep limit => "Source nests too deeply (limit " ++ toString limit ++ ")"
  | .overload name error => name ++ ": " ++ error.message

/-- A cause, its place, and the rules at work, the outermost first. -/
structure CompileError where
  cause : CompileCause
  position : Position
  trail : List RuleName
deriving DecidableEq, Repr

namespace CompileError

def ofLexError (e : LexError) : CompileError :=
  ⟨.lexical e.cause, e.position, []⟩

def trailText (trail : List RuleName) : String :=
  if trail.isEmpty then ""
  else " (while parsing " ++ String.intercalate " > " (trail.map RuleName.text) ++ ")"

def message (e : CompileError) : String :=
  e.cause.message ++ " at " ++ e.position.text ++ trailText e.trail

end CompileError

end Scriptlet
