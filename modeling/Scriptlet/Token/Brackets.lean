import Scriptlet.Token.LexError

/-!
# Matching brackets

Parentheses, braces and brackets have to be nested and matched by kind. The walk keeps the brackets that are
open, the innermost first; the first closing bracket that does not match the innermost one is to blame, or
else the innermost bracket that is left open.
-/

namespace Scriptlet.Brackets

/-- Checks brackets, given those that are open already, the innermost first. -/
def checkFrom : List (Separator × Separator × Position) → List Token → Except LexError Unit
  | [], [] => .ok ()
  | (opened, _, position) :: _, [] => .error ⟨.unclosedSeparator opened, position⟩
  | pending, token :: rest =>
    match token.kind with
    | .separator sign =>
      match sign.closing? with
      | some closing => checkFrom ((sign, closing, token.position) :: pending) rest
      | none =>
        if sign.isClosing then
          match pending with
          | [] => .error ⟨.unmatchedSeparator sign, token.position⟩
          | (_, closing, _) :: outer =>
            if closing = sign then checkFrom outer rest
            else .error ⟨.mismatchedSeparator closing sign, token.position⟩
        else checkFrom pending rest
    | _ => checkFrom pending rest

/-- Checks that the brackets of a token list are nested and matched by kind. -/
def check (tokens : List Token) : Except LexError Unit :=
  checkFrom [] tokens

end Scriptlet.Brackets
