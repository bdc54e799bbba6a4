import Scriptlet.Token

/-!
# Interpolated strings as calls

An interpolated string is a call of `string.Format` with its template and its arguments. The call stands at
the place of the string, while the tokens of the arguments keep their own places. Strings inside arguments are
expanded as well.
-/

namespace Scriptlet.Expansion

/-- The tokens of the call, for arguments that are expanded already. -/
def formatCall (position : Position) (template : String) (arguments : List (List Token)) : List Token :=
  let at' (kind : TokenKind) : Token := ⟨kind, position⟩
  [at' (.type "string" (.complete .string)), at' (.operator .dot), at' (.identifier "Format"),
      at' (.separator .openParen), at' (.literal (.string template))] ++
    arguments.flatMap (fun argument => at' (.separator .comma) :: argument) ++
    [at' (.separator .closeParen)]

mutual

/-- A token with the given place, as the tokens that it stands for. -/
def expandKind (position : Position) : TokenKind → List Token
  | .interpolated template arguments => formatCall position template (expandEach arguments)
  | kind => [⟨kind, position⟩]

def expandToken : Token → List Token
  | ⟨kind, position⟩ => expandKind position kind

def expand : List Token → List Token
  | [] => []
  | token :: rest => expandToken token ++ expand rest

/-- Expands every interpolated string of several token lists. -/
def expandEach : List (List Token) → List (List Token)
  | [] => []
  | tokens :: rest => expand tokens :: expandEach rest

end

end Scriptlet.Expansion
