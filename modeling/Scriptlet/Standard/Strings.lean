import Scriptlet.Member
import Scriptlet.Template.Rendering
import Scriptlet.Text.Casing
import Scriptlet.Text.Search

/-!
# Members of strings

Formatting and joining, which belong to the type `string`, and what every string offers. Places and lengths
count characters.
-/

namespace Scriptlet.Standard

def textArgument (member : String) (v : Value) : Host String :=
  match v with
  | .string s => pure s
  | .null => throw (.nullValue member)
  | v => throw (unexpectedArguments member [v])

def formatText : List Value → Host Value
  | template :: arguments => do
    let template ← textArgument "Format" template
    return .string (← Host.ofExcept (Template.format (← Host.heap) template arguments))
  | [] => throw (unexpectedArguments "Format" [])

/-- Compares the placeholders of a literal template with the number of arguments. -/
def checkFormat : ArgumentCheck
  | some (.string template) :: arguments =>
    match Template.indices template with
    | .error e => .error e.message
    | .ok indices =>
      let supplied := arguments.length
      let distinct := (indices.mergeSort (· ≤ ·)).eraseDups
      match distinct.find? fun index => supplied ≤ index with
      | some missing =>
        .error ("placeholder \x7b" ++ toString missing ++ "\x7d has no matching argument (" ++
          toString supplied ++ " supplied)")
      | none =>
        if distinct.length = supplied then .ok ()
        else
          .error (toString supplied ++ " argument(s) supplied for " ++ toString distinct.length ++
            " placeholder(s)")
  | _ => .ok ()

def isNullOrEmpty : List Value → Host Value
  | [.null] => return .bool true
  | [.string s] => return .bool s.isEmpty
  | arguments => throw (unexpectedArguments "IsNullOrEmpty" arguments)

/-- The texts of a sequence with a separator between them. -/
def join : List Value → Host Value
  | [separator, items] => do
    let separator ← textArgument "Join" separator
    match items with
    | .sequence _ _ address =>
      let h ← Host.heap
      let texts ← Host.ofExcept (finite ((h.items address).toList.mapM h.scriptText))
      return .string (String.intercalate separator texts)
    | .null => throw (.nullValue "Join")
    | v => throw (unexpectedArguments "Join" [v])
  | arguments => throw (unexpectedArguments "Join" arguments)

def textLength : List Value → Host Value
  | [s] => do countValue (← textArgument "Length" s).length
  | arguments => throw (unexpectedArguments "Length" arguments)

def transformText (member : String) (f : String → String) : List Value → Host Value
  | [s] => do return .string (f (← textArgument member s))
  | arguments => throw (unexpectedArguments member arguments)

/-- A member that compares its receiver, the first text, with its argument. -/
def compareTexts (member : String) (f : List Char → List Char → Bool) : List Value → Host Value
  | [s, pattern] => do
    let s ← textArgument member s
    let pattern ← textArgument member pattern
    return .bool (f s.toList pattern.toList)
  | arguments => throw (unexpectedArguments member arguments)

/-- Where a text first occurs, or minus one. -/
def indexOfText : List Value → Host Value
  | [s, pattern] => do
    let s ← textArgument "IndexOf" s
    let pattern ← textArgument "IndexOf" pattern
    match Text.indexOf? pattern.toList s.toList with
    | some index => countValue index
    | none => return .int (-1)
  | arguments => throw (unexpectedArguments "IndexOf" arguments)

def replaceText : List Value → Host Value
  | [s, pattern, replacement] => do
    let s ← textArgument "Replace" s
    let pattern ← textArgument "Replace" pattern
    let replacement ← textArgument "Replace" replacement
    return .string (String.ofList (Text.replace pattern.toList replacement.toList s.toList))
  | arguments => throw (unexpectedArguments "Replace" arguments)

def suffixFrom : List Value → Host Value
  | [s, .int start] => do
    let cs := (← textArgument "Substring" s).toList
    let start ← Host.ofExcept (checkedIndex start (cs.length + 1))
    return .string (String.ofList (cs.drop start))
  | arguments => throw (unexpectedArguments "Substring" arguments)

def sliceFrom : List Value → Host Value
  | [s, .int start, .int length] => do
    let cs := (← textArgument "Substring" s).toList
    let start ← Host.ofExcept (checkedIndex start (cs.length + 1))
    if 0 ≤ length.toInt ∧ start + length.toInt ≤ cs.length then
      return .string (String.ofList ((cs.drop start).take length.toInt.toNat))
    else
      throw (.indexOutOfRange length.toInt (cs.length - start))
  | arguments => throw (unexpectedArguments "Substring" arguments)

def stringStatics : List Member :=
  [{ name := "Format", kind := .method, parameters := [.string], variadic := some .object,
     returns := .string, call := formatText, check := some checkFormat },
    .method "IsNullOrEmpty" [.string] .bool isNullOrEmpty,
    .method "Join" [.string, .sequence .list .string] .string join]

def stringMembers : List Member :=
  [.property "Length" .int textLength,
    .method "ToUpper" [] .string (transformText "ToUpper" Text.toUpper),
    .method "ToLower" [] .string (transformText "ToLower" Text.toLower),
    .method "Trim" [] .string (transformText "Trim" Text.trimString),
    .method "Contains" [.string] .bool (compareTexts "Contains" fun s p => Text.contains p s),
    .method "StartsWith" [.string] .bool (compareTexts "StartsWith" fun s p => p.isPrefixOf s),
    .method "EndsWith" [.string] .bool (compareTexts "EndsWith" fun s p => p.isSuffixOf s),
    .method "IndexOf" [.string] .int indexOfText,
    .method "Replace" [.string, .string] .string replaceText,
    .method "Substring" [.int] .string suffixFrom,
    .method "Substring" [.int, .int] .string sliceFrom]

end Scriptlet.Standard
