import Scriptlet.Proofs.Nesting.Statements
import Scriptlet.Proofs.Compiled.Programs

/-!
# The pieces of a program

The tokens that each item of a program takes. Finding the items cuts the token list into pieces, one behind the other,
with nothing between them; the search ends at the end of the source.
-/

namespace Scriptlet.Grammar

open Rule

section Skipping

theorem skipPastSemicolon_isSuffix (depth : Nat) (tokens : List Token) : skipPastSemicolon depth tokens <:+ tokens := by
  fun_induction skipPastSemicolon depth tokens with
  | case1 => exact List.suffix_rfl
  | case2 => exact List.suffix_rfl
  | case3 => exact List.suffix_cons _ _
  | case4 _ _ _ _ _ _ _ ih => exact ih.trans (List.suffix_cons _ _)
  | case5 _ _ _ _ _ _ _ _ ih => exact ih.trans (List.suffix_cons _ _)
  | case6 _ _ _ _ _ _ _ _ ih => exact ih.trans (List.suffix_cons _ _)
  | case7 _ _ _ _ _ ih => exact ih.trans (List.suffix_cons _ _)

theorem skipPastSemicolon_isSuffix_tail {tokens : List Token} (h : firstKind tokens ≠ .endOfInput) (depth : Nat) :
    skipPastSemicolon depth tokens <:+ tokens.tail := by
  cases tokens with
  | nil => exact absurd rfl h
  | cons token rest =>
    rw [skipPastSemicolon]
    split
    · next hend => exact absurd hend h
    · split
      · exact List.suffix_rfl
      · split
        · exact skipPastSemicolon_isSuffix _ _
        · split
          · exact skipPastSemicolon_isSuffix _ _
          · exact skipPastSemicolon_isSuffix _ _
    · exact skipPastSemicolon_isSuffix _ _

theorem skipGroup_isSuffix (depth : Nat) (tokens : List Token) : skipGroup depth tokens <:+ tokens := by
  fun_induction skipGroup depth tokens with
  | case1 => exact List.suffix_rfl
  | case2 => exact List.suffix_rfl
  | case3 _ _ _ _ _ _ ih => exact ih.trans (List.suffix_cons _ _)
  | case4 => exact List.suffix_cons _ _
  | case5 _ _ _ _ _ _ _ _ ih => exact ih.trans (List.suffix_cons _ _)
  | case6 _ _ _ _ _ _ _ ih => exact ih.trans (List.suffix_cons _ _)
  | case7 _ _ _ _ _ ih => exact ih.trans (List.suffix_cons _ _)

end Skipping

/-- The tokens of an item: those of a declaration, or those of a function, up to its body and from there on. -/
inductive Piece
  | function (signature : Signature) (position : Position) (head body : List Token)
  | declaration (tokens : List Token)

namespace Piece

def text : Piece → List Token
  | .function _ _ head body => head ++ body
  | .declaration tokens => tokens

def item (rest : List Token) : Piece → Item
  | .function signature position _ body => .function signature (body ++ rest) position
  | .declaration tokens => .declaration (tokens ++ rest)

def joined (pieces : List Piece) (tail : List Token) : List Token :=
  pieces.flatMap text ++ tail

def items : List Piece → List Token → List Item
  | [], _ => []
  | piece :: rest, tail => piece.item (joined rest tail) :: items rest tail

@[simp] theorem joined_nil (tail : List Token) : joined [] tail = tail := rfl

@[simp] theorem joined_cons (piece : Piece) (pieces : List Piece) (tail : List Token) :
    joined (piece :: pieces) tail = piece.text ++ joined pieces tail := by
  simp [joined]

@[simp] theorem joined_append (before after : List Piece) (tail : List Token) :
    joined (before ++ after) tail = joined before (joined after tail) := by
  simp [joined]

@[simp] theorem items_append (before after : List Piece) (tail : List Token) :
    items (before ++ after) tail = items before (joined after tail) ++ items after tail := by
  induction before with
  | nil => rfl
  | cons piece before ih => simp [items, ih]

end Piece

def itemOf (depth : Nat) : TokenKind → Rule Item
  | .keyword .globalWord | .keyword .externWord | .keyword .constWord => takeDeclaration
  | .type _ _ => typedItem depth
  | .identifier name => do
    match ← peekSecond with
    | .identifier _ => fail (.unknownType name) (← here)
    | _ => expected "a declaration or function"
  | _ => expected "a declaration or function"

theorem itemsFrom_cons (depth : Nat) (token : Token) (steps : Steps) :
    itemsFrom depth (token :: steps) = (do
      let kind ← peek
      if kind.isEnd then return []
      else return (← itemOf depth kind) :: (← itemsFrom depth steps)) := by
  rw [itemsFrom]
  refine congrArg (peek >>= ·) (funext fun kind => ?_)
  cases kind with
  | keyword word => cases word <;> rfl
  | identifier name =>
    simp only [itemOf, TokenKind.isEnd, Bool.false_eq_true, if_false]
    funext env tokens
    simp only [Bind.bind, peekSecond]
    cases firstKind tokens.tail <;> rfl
  | _ => rfl

theorem parameterRule_spans {type : Rule Ty} (htype : type.Spans false [] []) :
    (parameterRule type).Spans false [] [] := by
  refine fun _ _ pending => .here ((htype pending).bind fun ty _ hty => (@identifier_spans false _ _ pending).bind
    fun name _ hname => ?_)
  split
  · exact .fail _ _
  · exact .pure (hty.trans hname)

theorem parametersRule_spans {type : Rule Ty} (htype : type.Spans false [] []) :
    (parametersRule type).Spans false [.closeParen] [] := by
  refine fun _ _ pending => .peek ?_
  split
  · next hclose => exact .skip (.pure (advances_closing (eq_of_isSeparator hclose) rfl))
  · exact .withSteps fun steps => commaList_closes _ (parameterRule_spans htype) rfl steps pending

variable {depth : Nat} {env : Env} {tokens : List Token}

theorem headRule_reads (depth : Nat) (hparen : firstKind tokens = .separator .openParen) (pending : List Separator) :
    (headRule depth).Reads env tokens fun _ rest =>
      Advances false pending tokens pending rest ∧ firstKind rest = .separator .openBrace := by
  refine .skip ((Reads.enter (fun depth => parametersRule_spans (typeRule_spans depth) pending) depth).bind
    fun _ _ hparameters => .peek ?_)
  split
  · next hbrace => exact .pure ⟨(advances_opening hparen rfl).trans hparameters, eq_of_isSeparator hbrace⟩
  · exact .expected _

/-- A rule found the tokens of a piece, and what stands behind them. -/
def IsPiece (tokens : List Token) (item : Item) (rest : List Token) : Prop :=
  ∃ piece : Piece, piece.text ≠ [] ∧ tokens = piece.text ++ rest ∧ item = piece.item rest

theorem isPiece_declaration (h : firstKind tokens ≠ .endOfInput) :
    IsPiece tokens (.declaration tokens) (skipPastSemicolon 0 tokens) := by
  obtain ⟨before, hbefore⟩ := skipPastSemicolon_isSuffix_tail h 0
  cases tokens with
  | nil => exact absurd rfl h
  | cons token tail =>
    have htokens : token :: tail = (token :: before) ++ skipPastSemicolon 0 (token :: tail) :=
      congrArg (token :: ·) hbefore.symm
    exact ⟨.declaration (token :: before), by simp [Piece.text], htokens, congrArg Item.declaration htokens⟩

def typedName (depth : Nat) : Rule (Ty × String) := do
  return (← typeRule depth, ← identifier)

theorem typedName_spans (depth : Nat) : (typedName depth).Spans false [] [] :=
  fun _ _ pending => (typeRule_spans depth pending).bind fun _ _ hty => (identifier_spans pending).bind
    fun _ _ hname => .pure (hty.trans hname)

/-- An item is found by its first token: it begins with a type, or is taken as a declaration. -/
theorem itemOf_reads (kind : TokenKind) : (itemOf depth kind).Reads env tokens fun item rest =>
    itemOf depth kind = typedItem depth ∧ typedItem depth env tokens = .ok (item, rest) ∨
      itemOf depth kind = takeDeclaration ∧ item = .declaration tokens ∧ rest = skipPastSemicolon 0 tokens := by
  unfold itemOf
  split
  · exact .of_eq rfl (.inr ⟨rfl, rfl, rfl⟩)
  · exact .of_eq rfl (.inr ⟨rfl, rfl, rfl⟩)
  · exact .of_eq rfl (.inr ⟨rfl, rfl, rfl⟩)
  · exact fun item rest hok => .inl ⟨rfl, hok⟩
  · refine .peekSecond ?_
    split
    · exact .here (.fail _ _)
    · exact .expected _
  · exact .expected _

theorem typedItem_function {signature : Signature} {body rest : List Token} {p : Position} :
    typedItem depth env tokens = .ok (.function signature body p, rest) ↔ ∃ behind,
      typedName depth env tokens = .ok ((signature.returns, signature.name), behind) ∧
        (firstKind behind).isSeparator .openParen = true ∧
          enter .function headRule depth env behind = .ok (signature.parameters, body) ∧
            p = firstPosition tokens ∧ rest = skipGroup 0 body := by
  constructor
  · intro hok
    obtain ⟨⟨⟨returns, name⟩, behind⟩, hname, hok⟩ := exists_ok_of_bind hok
    dsimp only at hok
    split at hok
    · next hparen =>
      obtain ⟨⟨parameters, body⟩, hparameters, ⟨⟩⟩ := exists_ok_of_bind hok
      exact ⟨behind, hname, hparen, hparameters, rfl, rfl⟩
    · cases hok
  · rintro ⟨behind, hname, hparen, hparameters, rfl, rfl⟩
    change (typedName depth env tokens >>= _) = _
    rw [hname]
    change (if (firstKind behind).isSeparator .openParen = true then _ else _) = _
    rw [if_pos hparen, hparameters]
    rfl

theorem typedItem_declaration {tokens' rest : List Token} :
    typedItem depth env tokens = .ok (.declaration tokens', rest) ↔ ∃ found behind,
      typedName depth env tokens = .ok (found, behind) ∧ (firstKind behind).isSeparator .openParen = false ∧
        tokens' = tokens ∧ rest = skipPastSemicolon 0 tokens := by
  constructor
  · intro hok
    obtain ⟨⟨⟨returns, name⟩, behind⟩, hname, hok⟩ := exists_ok_of_bind hok
    dsimp only at hok
    split at hok
    · obtain ⟨⟨parameters, body⟩, -, ⟨⟩⟩ := exists_ok_of_bind hok
    · next hparen =>
      cases hok
      exact ⟨_, behind, hname, Bool.eq_false_iff.mpr hparen, rfl, rfl⟩
  · rintro ⟨found, behind, hname, hparen, rfl, rfl⟩
    change (typedName depth env tokens' >>= _) = _
    rw [hname]
    change (if (firstKind behind).isSeparator .openParen = true then _ else _) = _
    rw [if_neg (by simp [hparen])]
    rfl

theorem typedItem_isPiece (depth : Nat) (h : firstKind tokens ≠ .endOfInput) :
    (typedItem depth).Reads env tokens (IsPiece tokens) := by
  intro item rest hok
  cases item with
  | function signature body p =>
    obtain ⟨behind, hname, hparen, hparameters, rfl, rfl⟩ := typedItem_function.mp hok
    obtain ⟨hspan, -⟩ := Reads.enter (fun depth => headRule_reads depth (eq_of_isSeparator hparen) []) depth _ _
      hparameters
    obtain ⟨head, hne, rfl, -⟩ := (typedName_spans depth [] _ _ hname).trans hspan
    obtain ⟨group, hgroup⟩ := skipGroup_isSuffix 0 body
    exact ⟨.function signature (firstPosition (head ++ body)) head group, by simp [Piece.text, hne],
      by simp [Piece.text, hgroup], by simp [Piece.item, hgroup]⟩
  | declaration tokens =>
    obtain ⟨_, _, -, -, rfl, rfl⟩ := typedItem_declaration.mp hok
    exact isPiece_declaration h

theorem itemOf_isPiece (depth : Nat) : (itemOf depth (firstKind tokens)).Reads env tokens (IsPiece tokens) := by
  intro item rest hok
  have hend : firstKind tokens ≠ .endOfInput := by
    intro hend
    rw [hend] at hok
    cases hok
  rcases itemOf_reads _ _ _ hok with ⟨-, hok⟩ | ⟨-, rfl, rfl⟩
  · exact typedItem_isPiece depth hend item rest hok
  · exact isPiece_declaration hend

/-- A piece is found at its place, in front of the given tokens. -/
def Piece.Found (depth : Nat) (env : Env) (piece : Piece) (rest : List Token) : Prop :=
  itemOf depth (firstKind (piece.text ++ rest)) env (piece.text ++ rest) = .ok (piece.item rest, rest)

/-- Each of several pieces has a property, with the tokens that stand behind it. -/
def Piece.Each (P : Piece → List Token → Prop) : List Piece → List Token → Prop
  | [], _ => True
  | piece :: rest, tail => P piece (Piece.joined rest tail) ∧ Piece.Each P rest tail

/-- The items that are found are pieces which take all tokens up to the end of the source. -/
theorem pieces_of_itemsFrom {depth : Nat} {steps : Steps} : ∀ {tokens rest : List Token}
    {found : List Item}, tokens.length < steps.length → itemsFrom depth steps env tokens = .ok (found, rest) →
    ∃ pieces : List Piece, tokens = Piece.joined pieces rest ∧ found = Piece.items pieces rest ∧
      firstKind rest = .endOfInput ∧ Piece.Each (Piece.Found depth env) pieces rest := by
  induction steps with
  | nil => exact fun hlength => absurd hlength (by simp)
  | cons token steps ih =>
    intro tokens rest found hlength h
    rw [itemsFrom_cons] at h
    change (if (firstKind tokens).isEnd then _ else _ : Rule (List Item)) env tokens = _ at h
    split at h
    · next hend =>
      cases h
      refine ⟨[], rfl, rfl, ?_, trivial⟩
      revert hend
      cases firstKind tokens <;> simp [TokenKind.isEnd]
    · obtain ⟨item, behind, hitem, h⟩ := Rule.ok_of_bind h
      obtain ⟨others, rest', hothers, ⟨⟩⟩ := Rule.ok_of_bind h
      obtain ⟨piece, hne, rfl, rfl⟩ := itemOf_isPiece depth item behind hitem
      have hpos := List.length_pos_iff.mpr hne
      obtain ⟨pieces, rfl, rfl, hend, heach⟩ := ih (by simp at hlength; omega) hothers
      exact ⟨piece :: pieces, by simp, rfl, hend, hitem, heach⟩

end Scriptlet.Grammar
