import Scriptlet.Proofs.MatchedBrackets
import Scriptlet.Proofs.Tiling
import Scriptlet.Token.Expansion

/-!
# Expanded tokens

Expanding the interpolated strings of a token list leaves none of them, at any depth, and every other token at its
place. The brackets of a source text are checked before, when an interpolated string still counts as one token, and
those of an argument when it is read. The expansion puts balanced runs between balanced parentheses, so the tokens that
the grammar is given are balanced as well.
-/

namespace Scriptlet

def TokenKind.isInterpolated : TokenKind → Bool
  | .interpolated _ _ => true
  | _ => false

namespace Expansion

-- Along the tokens, the arguments of a token and the tokens of an argument, as they are expanded.
mutual

variable {token : Token}

theorem expandToken_of_mem_expandKind (position : Position) (kind : TokenKind)
    (h : token ∈ expandKind position kind) : expandToken token = [token] := by
  cases kind with
  | interpolated template arguments =>
    simp only [expandKind, formatCall, List.mem_append, List.mem_cons, List.mem_flatMap, List.not_mem_nil,
      or_false] at h
    rcases h with ((rfl | rfl | rfl | rfl | rfl) | ⟨argument, hargument, rfl | h⟩) | rfl
    case inl.inr.inr => exact expandToken_of_mem_expandEach arguments hargument h
    all_goals rfl
  | _ =>
    obtain rfl := List.mem_singleton.mp h
    rfl

theorem expandToken_of_mem_expandToken (t : Token) (h : token ∈ expandToken t) : expandToken token = [token] := by
  cases t with
  | mk kind position => exact expandToken_of_mem_expandKind position kind h

theorem expandToken_of_mem_expand (tokens : List Token) (h : token ∈ expand tokens) : expandToken token = [token] := by
  cases tokens with
  | nil => cases h
  | cons t tokens =>
    rcases List.mem_append.mp h with h | h
    · exact expandToken_of_mem_expandToken t h
    · exact expandToken_of_mem_expand tokens h

theorem expandToken_of_mem_expandEach (lists : List (List Token)) {tokens : List Token}
    (htokens : tokens ∈ expandEach lists) (h : token ∈ tokens) : expandToken token = [token] := by
  cases lists with
  | nil => cases htokens
  | cons list lists =>
    rcases List.mem_cons.mp htokens with rfl | htokens
    · exact expandToken_of_mem_expand list h
    · exact expandToken_of_mem_expandEach lists htokens h

end

theorem expand_eq_self {tokens : List Token} (h : ∀ token ∈ tokens, expandToken token = [token]) :
    expand tokens = tokens := by
  induction tokens with
  | nil => rfl
  | cons token tokens ih =>
    rw [expand, h token List.mem_cons_self, ih fun token htoken => h token (List.mem_cons_of_mem _ htoken)]
    rfl

theorem expand_eq_flatMap (tokens : List Token) : expand tokens = tokens.flatMap expandToken := by
  induction tokens with
  | nil => rfl
  | cons token tokens ih => rw [expand, ih, List.flatMap_cons]

theorem expandEach_eq_map (lists : List (List Token)) : expandEach lists = lists.map expand := by
  induction lists with
  | nil => rfl
  | cons tokens lists ih => rw [expandEach, ih, List.map_cons]

/-- A token stands for itself unless it is an interpolated string, whose call has more tokens than one. -/
theorem expandToken_eq_iff (token : Token) : expandToken token = [token] ↔ token.kind.isInterpolated = false := by
  obtain ⟨kind, position⟩ := token
  cases kind with
  | interpolated template arguments => simp [expandToken, expandKind, formatCall, TokenKind.isInterpolated]
  | _ => simp [expandToken, expandKind, TokenKind.isInterpolated]

theorem filter_sublist_expand (tokens : List Token) :
    (tokens.filter fun token => !token.kind.isInterpolated).Sublist (expand tokens) := by
  induction tokens with
  | nil => exact .slnil
  | cons token tokens ih =>
    rw [List.filter_cons, expand]
    split
    · next hkind =>
      rw [(expandToken_eq_iff token).mpr (by simpa using hkind)]
      exact ih.cons_cons token
    · exact ih.trans (List.sublist_append_right _ _)

theorem expand_infix {tokens inside : List Token} (h : Lexer.Nested tokens inside) :
    expand inside <:+: expand tokens := by
  induction h with
  | @argument tokens inside token template arguments htoken hkind hinside =>
    have hcall : expandToken token <:+: expand tokens := by
      rw [expand_eq_flatMap]
      exact List.infix_of_mem_flatten (List.mem_map_of_mem htoken)
    refine List.IsInfix.trans ?_ hcall
    obtain ⟨kind, position⟩ := token
    subst hkind
    rw [expandToken, expandKind, formatCall, expandEach_eq_map, List.flatMap_map]
    have hargument : (⟨.separator .comma, position⟩ : Token) :: expand inside <:+:
        arguments.flatMap fun argument => ⟨.separator .comma, position⟩ :: expand argument :=
      List.infix_of_mem_flatten (List.mem_map_of_mem hinside)
    exact (List.infix_cons List.infix_rfl).trans (hargument.trans (List.infix_append _ _ _))
  | deeper _ _ ih ih' => exact ih'.trans ih

end Expansion

/-- An argument of a string among the tokens comes first on the way to an argument at any depth. -/
theorem Lexer.Nested.exists_first {tokens inside : List Token} (h : Nested tokens inside) :
    ∃ token ∈ tokens, ∃ template arguments, token.kind = .interpolated template arguments ∧
      ∃ first ∈ arguments, inside = first ∨ Nested first inside := by
  induction h with
  | argument htoken hkind hinside => exact ⟨_, htoken, _, _, hkind, _, hinside, .inl rfl⟩
  | deeper _ h' ih _ =>
    obtain ⟨token, htoken, template, arguments, hkind, first, hfirst, hwhich⟩ := ih
    refine ⟨token, htoken, template, arguments, hkind, first, hfirst, .inr ?_⟩
    rcases hwhich with rfl | hdeeper
    · exact h'
    · exact hdeeper.deeper h'

namespace Brackets

theorem check_append {run : List Token} (h : check run = .ok ()) (pending : Opened) (rest : List Token) :
    checkFrom pending (run ++ rest) = checkFrom pending rest :=
  checkFrom_matched (matched_of_check h) pending rest

/-- The brackets of every argument are matched, at any depth. -/
def ArgumentsMatched (tokens : List Token) : Prop :=
  ∀ inside, Lexer.Nested tokens inside → check inside = .ok ()

theorem ArgumentsMatched.mono {tokens tokens' : List Token} (h : ArgumentsMatched tokens)
    (hmem : ∀ token ∈ tokens', token.kind.isInterpolated = true → token ∈ tokens) : ArgumentsMatched tokens' := by
  intro inside hinside
  refine h inside ?_
  induction hinside with
  | argument htoken hkind hinside => exact .argument (hmem _ htoken (by rw [hkind]; rfl)) hkind hinside
  | deeper _ h' ih => exact .deeper (ih hmem) h'

theorem ArgumentsMatched.nil : ArgumentsMatched [] := by
  intro inside hinside
  obtain ⟨_, htoken, -⟩ := hinside.exists_first
  cases htoken

variable {rest : List Token}

theorem ArgumentsMatched.cons {token : Token} (hkind : token.kind.isInterpolated = false)
    (h : ArgumentsMatched rest) : ArgumentsMatched (token :: rest) :=
  h.mono fun other hother hother' => (List.mem_cons.mp hother).resolve_left fun heq => by simp_all

theorem ArgumentsMatched.cons_interpolated {template : String} {arguments : List (List Token)} {p : Position}
    (harguments : ∀ argument ∈ arguments, check argument = .ok () ∧ ArgumentsMatched argument)
    (h : ArgumentsMatched rest) : ArgumentsMatched (⟨.interpolated template arguments, p⟩ :: rest) := by
  intro inside hinside
  obtain ⟨token, htoken, _, _, hkind, first, hfirst, hwhich⟩ := hinside.exists_first
  rcases List.mem_cons.mp htoken with rfl | htoken
  · cases hkind
    rcases hwhich with rfl | hdeeper
    · exact (harguments _ hfirst).1
    · exact (harguments _ hfirst).2 inside hdeeper
  · rcases hwhich with rfl | hdeeper
    · exact h _ (.argument htoken hkind hfirst)
    · exact h _ (.deeper (.argument htoken hkind hfirst) hdeeper)

theorem checkFrom_cons_congr (token : Token) {rest' : List Token}
    (h : ∀ pending, checkFrom pending rest = checkFrom pending rest') (pending : Opened) :
    checkFrom pending (token :: rest) = checkFrom pending (token :: rest') := by
  rw [checkFrom.eq_def, checkFrom.eq_def pending (token :: rest')]
  simp only [h]

open Expansion

-- Along the tokens, the arguments of a token and the tokens of an argument, as they are expanded.
mutual

/-- A string and the call that it stands for are checked alike: the brackets of the call are matched. -/
theorem checkFrom_expandKind (position : Position) (kind : TokenKind) (h : ArgumentsMatched [⟨kind, position⟩])
    (pending : Opened) (rest : List Token) :
    checkFrom pending (expandKind position kind ++ rest) = checkFrom pending (⟨kind, position⟩ :: rest) := by
  cases kind with
  | interpolated template arguments =>
    have hfirst : ∀ argument ∈ arguments,
        Lexer.Nested [⟨.interpolated template arguments, position⟩] argument :=
      fun argument hargument => .argument (List.mem_singleton_self _) rfl hargument
    have hcalls := checkFrom_expandEach position arguments
      (fun argument hargument => ⟨h _ (hfirst argument hargument),
        fun inside hinside => h _ ((hfirst argument hargument).deeper hinside)⟩)
      ((.openParen, .closeParen, position) :: pending) (⟨.separator .closeParen, position⟩ :: rest)
    rw [checkFrom_plain rfl]
    simp only [expandKind, formatCall, List.append_assoc, List.cons_append, List.nil_append]
    cases pending <;> exact hcalls
  | _ => rfl

theorem checkFrom_expand (tokens : List Token) (h : ArgumentsMatched tokens)
    (pending : Opened) (rest : List Token) :
    checkFrom pending (expand tokens ++ rest) = checkFrom pending (tokens ++ rest) := by
  match tokens with
  | [] => rfl
  | ⟨kind, position⟩ :: tokens =>
    rw [expand, expandToken, List.append_assoc, checkFrom_expandKind position kind (h.mono (by simp_all)),
      List.cons_append]
    exact checkFrom_cons_congr _
      (fun pending => checkFrom_expand tokens (h.mono fun _ h _ => List.mem_cons_of_mem _ h) pending rest) pending

theorem checkFrom_expandEach (position : Position) (lists : List (List Token))
    (h : ∀ tokens ∈ lists, check tokens = .ok () ∧ ArgumentsMatched tokens)
    (pending : Opened) (rest : List Token) :
    checkFrom pending ((expandEach lists).flatMap (⟨.separator .comma, position⟩ :: ·) ++ rest) =
      checkFrom pending rest := by
  match lists with
  | [] => rfl
  | tokens :: lists =>
    have htokens := h tokens List.mem_cons_self
    have hlists := checkFrom_expandEach position lists (fun other hother => h other (List.mem_cons_of_mem _ hother))
      pending rest
    have hall := (checkFrom_expand tokens htokens.2 pending _).trans ((check_append htokens.1 pending _).trans hlists)
    rw [expandEach, List.flatMap_cons, List.append_assoc]
    cases pending <;> exact hall

end

end Brackets

namespace Lexer

open Brackets

theorem argumentTokens_matched {scan : Position → List Char → Except LexError (List Token)}
    (hscan : ∀ {p text tokens}, scan p text = .ok tokens → ArgumentsMatched tokens)
    {texts : List (Position × List Char)} {arguments : List (List Token)}
    (h : argumentTokens scan texts = .ok arguments) :
    ∀ argument ∈ arguments, check argument = .ok () ∧ ArgumentsMatched argument := by
  induction texts generalizing arguments with
  | nil =>
    cases h
    simp
  | cons first texts ih =>
    obtain ⟨p, text⟩ := first
    obtain ⟨tokens, others, htokens, hcheck, hothers, rfl⟩ := exists_of_argumentTokens h
    refine List.forall_mem_cons.mpr ⟨⟨hcheck, ?_⟩, ih hothers⟩
    exact (hscan htokens).mono fun _ h _ => (List.dropLast_sublist _).subset h

theorem readLexeme_not_interpolated {types : TypeNames} {source : List Char} {l : Lexeme TokenKind}
    (h : readLexeme types source = .ok l) : l.value.isInterpolated = false := by
  by_cases hsource : source = []
  · subst hsource
    cases h
    rfl
  · rcases (readLexeme_sound hsource h).2.kind_cases with
      ⟨_, h, _⟩ | ⟨_, h⟩ | ⟨_, _, h⟩ | ⟨_, h⟩ | ⟨_, h⟩ | ⟨_, h⟩ <;> rw [h] <;> rfl

variable {tokens : List Token}

theorem scan_matched (types : TypeNames) (steps : Nat) {p : Position} {text : List Char}
    (h : scan types steps p text = .ok tokens) : ArgumentsMatched tokens := by
  induction steps generalizing p text tokens with
  | zero =>
    cases h
    exact .cons rfl .nil
  | succ steps ih =>
    simp only [scan] at h
    split at h
    · split at h
      · obtain ⟨arguments, harguments, h⟩ := exists_ok_of_bind h
        obtain ⟨rest, -, h⟩ := exists_ok_of_bind h
        obtain ⟨others, hothers, ⟨⟩⟩ := exists_ok_of_bind h
        exact .cons_interpolated (argumentTokens_matched ih harguments) (ih hothers)
      · obtain ⟨lexeme, hlexeme, h⟩ := exists_ok_of_bind h
        have hplain := readLexeme_not_interpolated (locate_eq_ok hlexeme)
        split at h
        · cases h
          exact .cons hplain .nil
        · obtain ⟨others, hothers, ⟨⟩⟩ := exists_ok_of_bind h
          exact .cons hplain (ih hothers)
    · cases h

theorem mem_of_mem_joinElseIf {token : Token} (h : token ∈ joinElseIf tokens)
    (hkind : token.kind.isInterpolated = true) : token ∈ tokens := by
  fun_induction joinElseIf tokens with
  | case1 => exact h
  | case2 => exact h
  | case3 first next rest _ ih =>
    rcases List.mem_cons.mp h with rfl | h
    · cases hkind
    · exact List.mem_cons_of_mem _ (List.mem_cons_of_mem _ (ih h))
  | case4 first next rest _ ih =>
    rcases List.mem_cons.mp h with rfl | h
    · exact List.mem_cons_self
    · exact List.mem_cons_of_mem _ (ih h)

theorem tokenize_matched {types : TypeNames} {source : String}
    (h : tokenize types source = .ok tokens) : check tokens = .ok () ∧ ArgumentsMatched tokens := by
  obtain ⟨raw, hraw, hcheck, rfl⟩ := exists_of_tokenize h
  exact ⟨hcheck, (scan_matched types _ hraw).mono fun _ => mem_of_mem_joinElseIf⟩

end Lexer

/-- When a source text has tokens, expanding their interpolated strings leaves none of these, and expanding once more
changes nothing. Every other token stands for itself and stays in its order, among the tokens of the text and among
those of any argument, which stay together. The brackets, which are checked before strings are expanded, are matched
afterwards. Any two token lists are expanded together as they are one by one. -/
theorem expansion_closed {types : Lexer.TypeNames} {source : String} {tokens : List Token}
    (h : Lexer.tokenize types source = .ok tokens) :
    (∀ token ∈ Expansion.expand tokens, token.kind.isInterpolated = false) ∧
    Expansion.expand (Expansion.expand tokens) = Expansion.expand tokens ∧
    (∀ front behind, Expansion.expand (front ++ behind) = Expansion.expand front ++ Expansion.expand behind) ∧
    (∀ token : Token, token.kind.isInterpolated = false → Expansion.expand [token] = [token]) ∧
    (∀ inside, inside = tokens ∨ Lexer.Nested tokens inside →
      (inside.filter fun token => !token.kind.isInterpolated).Sublist (Expansion.expand inside) ∧
        Expansion.expand inside <:+: Expansion.expand tokens) ∧
    Brackets.check (Expansion.expand tokens) = .ok () := by
  obtain ⟨hcheck, hmatched⟩ := Lexer.tokenize_matched h
  refine ⟨fun token htoken => ?_, ?_, fun front behind => ?_, fun token htoken => ?_, fun inside hinside => ?_, ?_⟩
  · exact (Expansion.expandToken_eq_iff token).mp (Expansion.expandToken_of_mem_expand tokens htoken)
  · exact Expansion.expand_eq_self fun token htoken => Expansion.expandToken_of_mem_expand tokens htoken
  · rw [Expansion.expand_eq_flatMap, Expansion.expand_eq_flatMap, Expansion.expand_eq_flatMap, List.flatMap_append]
  · exact Expansion.expand_eq_self (by simpa using (Expansion.expandToken_eq_iff token).mpr htoken)
  · refine ⟨Expansion.filter_sublist_expand inside, ?_⟩
    rcases hinside with rfl | hnested
    · exact List.infix_rfl
    · exact Expansion.expand_infix hnested
  · have hexpanded := Brackets.checkFrom_expand tokens hmatched [] []
    rwa [List.append_nil, List.append_nil, show Brackets.checkFrom [] tokens = .ok () from hcheck] at hexpanded

/-- A string in a string, as an argument of a call. -/
theorem expansion_closed_nestedStrings :
    ∃ tokens, Lexer.tokenize (fun _ => none) Lexer.nestedStrings = .ok tokens ∧ tokens.length = 3 ∧
      (Expansion.expand tokens).length = 20 ∧
      (∀ token ∈ Expansion.expand tokens, token.kind.isInterpolated = false) ∧
      Expansion.expand (Expansion.expand tokens) = Expansion.expand tokens ∧
      Brackets.check (Expansion.expand tokens) = .ok () := by
  have hrun : ((Lexer.tokenize (fun _ => none) Lexer.nestedStrings).toOption.any fun tokens =>
      tokens.length = 3 ∧ (Expansion.expand tokens).length = 20) = true := by
    decide +kernel
  cases htokens : Lexer.tokenize (fun _ => none) Lexer.nestedStrings with
  | error e =>
    rw [htokens] at hrun
    cases hrun
  | ok tokens =>
    rw [htokens, Except.toOption, Option.any_some, decide_eq_true_eq] at hrun
    obtain ⟨hnone, htwice, -, -, -, hcheck⟩ := expansion_closed htokens
    exact ⟨tokens, rfl, hrun.1, hrun.2, hnone, htwice, hcheck⟩

end Scriptlet
