import Scriptlet.Program
import Scriptlet.Text.Quoted

/-!
# Programs as text

Expressions and statements in one line, with parentheses around every operation and with functions shown by
their index.
-/

namespace Scriptlet

def UnaryOp.text : UnaryOp → String
  | .negate => "-"
  | .not => "!"

def InfixOp.text : InfixOp → String
  | .equal => "=="
  | .notEqual => "!="
  | .less => "<"
  | .lessEqual => "<="
  | .greater => ">"
  | .greaterEqual => ">="
  | .plus => "+"
  | .minus => "-"
  | .times => "*"
  | .divide => "/"
  | .remainder => "%"
  | .power => "^"

def LogicalOp.text : LogicalOp → String
  | .and => "&&"
  | .or => "||"

def CompoundOp.text : CompoundOp → String
  | .arithmetic op => op.text ++ "="
  | .and => "&="
  | .or => "|="

/-- The text of a constant, which is no collection and so has an end. -/
def Value.literalText : Value → String
  | .string s => Text.quote s
  | v => (Heap.empty.text v).getD ""

mutual

def Expr.text : Expr → String
  | .literal _ value => value.literalText
  | .variable _ ref => ref.name
  | .unary _ op operand => op.text ++ operand.text
  | .binary _ left op right _ => "(" ++ left.text ++ " " ++ op.text ++ " " ++ right.text ++ ")"
  | .logical _ left op right => "(" ++ left.text ++ " " ++ op.text ++ " " ++ right.text ++ ")"
  | .ternary _ condition thenCase elseCase =>
    "(" ++ condition.text ++ " ? " ++ thenCase.text ++ " : " ++ elseCase.text ++ ")"
  | .assign _ target op value _ =>
    target.text ++ " " ++ (op.map CompoundOp.text).getD "=" ++ " " ++ value.text
  | .increment _ target decrement prefixed =>
    let sign := if decrement then "--" else "++"
    if prefixed then sign ++ target.text else target.text ++ sign
  | .cast info operand => "(" ++ info.ty.text ++ ")" ++ operand.text
  | .call _ function arguments =>
    "<function " ++ toString function ++ ">(" ++ String.intercalate ", " (Expr.texts arguments) ++ ")"
  | .staticMember _ member arguments =>
    member.name ++
      (if member.kind = .method then "(" ++ String.intercalate ", " (Expr.texts arguments) ++ ")" else "")
  | .instanceMember _ member receiver arguments =>
    receiver.text ++ "." ++ member.name ++
      (if member.kind = .method then "(" ++ String.intercalate ", " (Expr.texts arguments) ++ ")" else "")
  | .index _ collection key => collection.text ++ "[" ++ key.text ++ "]"
  | .newSequence info _ _ items =>
    "new " ++ info.ty.text ++ " \x7b " ++ String.intercalate ", " (Expr.texts items) ++ " \x7d"
  | .newArray _ element length => "new " ++ element.text ++ "[" ++ length.text ++ "]"
  | .newDictionary info _ _ entries =>
    "new " ++ info.ty.text ++ " \x7b " ++ String.intercalate ", " (Expr.entryTexts entries) ++ " \x7d"

def Expr.texts : List Expr → List String
  | [] => []
  | e :: rest => e.text :: Expr.texts rest

def Expr.entryTexts : List (Expr × Expr) → List String
  | [] => []
  | (key, value) :: rest => ("\x7b" ++ key.text ++ ", " ++ value.text ++ "\x7d") :: Expr.entryTexts rest

def Place.text : Place → String
  | .variable ref => ref.name
  | .index collection key => collection.text ++ "[" ++ key.text ++ "]"

end

mutual

def Statement.text : Statement → String
  | .expression _ e => e.text ++ ";"
  | .declaration _ name ty initial =>
    ty.text ++ " " ++ name ++ (match initial with
      | some e => " = " ++ e.text
      | none => "") ++ ";"
  | .block _ body => "\x7b " ++ Statement.texts body ++ "\x7d"
  | .conditional _ condition thenBranch elseBranch =>
    "if (" ++ condition.text ++ ") " ++ thenBranch.text ++ (match elseBranch with
      | some s => " else " ++ s.text
      | none => "")
  | .whileLoop _ condition body => "while (" ++ condition.text ++ ") " ++ body.text
  | .forLoop _ _ condition _ body =>
    "for (...; " ++ (match condition with
      | some e => e.text
      | none => "") ++ "; ...) " ++ body.text
  | .forEachLoop _ name ty collection body =>
    "foreach (" ++ ty.text ++ " " ++ name ++ " in " ++ collection.text ++ ") " ++ body.text
  | .switchOn _ value sections _ =>
    "switch (" ++ value.text ++ ") \x7b " ++ toString sections.length ++ " case(s) \x7d"
  | .breakStatement _ => "break;"
  | .continueStatement _ => "continue;"
  | .returnStatement _ value =>
    "return" ++ (match value with
      | some e => " " ++ e.text
      | none => "") ++ ";"

/-- Statements as text, each with a space behind it. -/
def Statement.texts : List Statement → String
  | [] => ""
  | s :: rest => s.text ++ " " ++ Statement.texts rest

end

end Scriptlet
