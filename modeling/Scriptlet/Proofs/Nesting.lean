import Scriptlet.Grammar.Items
import Scriptlet.Proofs.FormatCalls

/-!
# Nested runs of tokens

A run of tokens in which brackets are nested and matched by kind, read with some brackets open already. A search that
only counts brackets passes over such a run: it ends behind the run, at the depth of the brackets that the run leaves
open.
-/

namespace Scriptlet.Grammar

/-- Whether a token is neither a bracket nor the end of the source, nor a semicolon where there may be none. -/
def isPlain (semicolons : Bool) : TokenKind → Bool
  | .endOfInput => false
  | .separator sign => sign.closing?.isNone && !sign.isClosing && (semicolons || sign ≠ .semicolon)
  | _ => true

/-- A run of tokens whose brackets are nested: it is read when some brackets are to be closed, the innermost first, and
leaves others to be closed. -/
inductive Nests (semicolons : Bool) : List Separator → List Token → List Separator → Prop
  | nil {pending : List Separator} : Nests semicolons pending [] pending
  | opening {sign closing : Separator} {p : Position} {pending after : List Separator} {run : List Token}
      (h : sign.closing? = some closing) (hrun : Nests semicolons (closing :: pending) run after) :
      Nests semicolons pending (⟨.separator sign, p⟩ :: run) after
  | closing {sign : Separator} {p : Position} {pending after : List Separator} {run : List Token}
      (h : sign.isClosing = true) (hrun : Nests semicolons pending run after) :
      Nests semicolons (sign :: pending) (⟨.separator sign, p⟩ :: run) after
  | plain {kind : TokenKind} {p : Position} {pending after : List Separator} {run : List Token}
      (h : isPlain semicolons kind = true) (hrun : Nests semicolons pending run after) :
      Nests semicolons pending (⟨kind, p⟩ :: run) after

namespace Nests

variable {semicolons : Bool} {pending middle after : List Separator} {run behind rest : List Token}

theorem append (h : Nests semicolons pending run middle) (h' : Nests semicolons middle behind after) :
    Nests semicolons pending (run ++ behind) after := by
  induction h with
  | nil => exact h'
  | opening hsign _ ih => exact .opening hsign (ih h')
  | closing hsign _ ih => exact .closing hsign (ih h')
  | plain hkind _ ih => exact .plain hkind (ih h')

theorem isPlain_mono {kind : TokenKind} (h : isPlain false kind = true) : isPlain true kind = true := by
  cases kind with
  | separator sign => cases sign <;> first | rfl | cases h
  | endOfInput => cases h
  | _ => rfl

theorem allow (h : Nests false pending run after) : Nests true pending run after := by
  induction h with
  | nil => exact .nil
  | opening hsign _ ih => exact .opening hsign ih
  | closing hsign _ ih => exact .closing hsign ih
  | plain hkind _ ih => exact .plain (isPlain_mono hkind) ih

theorem closing?_eq_none {sign : Separator} (h : sign.isClosing = true) : sign.closing? = none := by
  cases sign <;> first | rfl | cases h

theorem skipGroup_append (h : Nests semicolons pending run after) (depth : Nat) :
    skipGroup (pending.length + (depth + 1)) (run ++ rest) = skipGroup (after.length + (depth + 1)) rest := by
  induction h with
  | nil => rfl
  | opening hsign _ ih =>
    rw [← ih]
    simp only [List.cons_append, skipGroup, hsign, Option.isSome_some, if_true, List.length_cons]
    congr 1
    omega
  | closing hsign _ ih =>
    rw [← ih]
    simp only [List.cons_append, skipGroup, closing?_eq_none hsign, hsign, Option.isSome_none, Bool.false_eq_true,
      if_false, if_true, List.length_cons]
    rw [if_neg (by omega)]
    congr 1
    omega
  | @plain kind _ _ _ _ hkind _ ih =>
    rw [← ih]
    cases kind with
    | separator sign => cases sign <;> first | rfl | cases hkind
    | endOfInput => cases hkind
    | _ => rfl

theorem skipPastSemicolon_append (h : Nests false pending run after) :
    skipPastSemicolon pending.length (run ++ rest) = skipPastSemicolon after.length rest := by
  induction h with
  | nil => rfl
  | @opening sign closing _ _ _ _ hsign _ ih =>
    rw [← ih]
    cases sign <;> first | rfl | cases hsign
  | @closing sign _ _ _ _ hsign _ ih =>
    rw [← ih]
    cases sign <;> first | rfl | cases hsign
  | @plain kind _ _ _ _ hkind _ ih =>
    rw [← ih]
    cases kind with
    | separator sign => cases sign <;> first | rfl | cases hkind
    | endOfInput => cases hkind
    | _ => rfl

end Nests

/-- A nested run, perhaps an empty one, leads from one place in a token list to a later one. -/
def Through (semicolons : Bool) (pending : List Separator) (tokens : List Token) (after : List Separator)
    (rest : List Token) : Prop :=
  ∃ run, tokens = run ++ rest ∧ Nests semicolons pending run after

/-- A nested run of at least one token leads from one place in a token list to a later one. -/
def Advances (semicolons : Bool) (pending : List Separator) (tokens : List Token) (after : List Separator)
    (rest : List Token) : Prop :=
  ∃ run, run ≠ [] ∧ tokens = run ++ rest ∧ Nests semicolons pending run after

section Runs

variable {semicolons : Bool} {pending middle after : List Separator} {tokens behind rest : List Token}

theorem Through.refl (semicolons : Bool) (pending : List Separator) (tokens : List Token) :
    Through semicolons pending tokens pending tokens :=
  ⟨[], rfl, .nil⟩

theorem Through.trans (h : Through semicolons pending tokens middle behind)
    (h' : Through semicolons middle behind after rest) : Through semicolons pending tokens after rest := by
  obtain ⟨run, rfl, hrun⟩ := h
  obtain ⟨run', rfl, hrun'⟩ := h'
  exact ⟨run ++ run', by simp, hrun.append hrun'⟩

theorem Advances.through (h : Advances semicolons pending tokens after rest) :
    Through semicolons pending tokens after rest := by
  obtain ⟨run, -, htokens, hrun⟩ := h
  exact ⟨run, htokens, hrun⟩

theorem Advances.andThen (h : Advances semicolons pending tokens middle behind)
    (h' : Through semicolons middle behind after rest) : Advances semicolons pending tokens after rest := by
  obtain ⟨run, hne, rfl, hrun⟩ := h
  obtain ⟨run', rfl, hrun'⟩ := h'
  exact ⟨run ++ run', by simp [hne], by simp, hrun.append hrun'⟩

theorem Advances.trans (h : Advances semicolons pending tokens middle behind)
    (h' : Advances semicolons middle behind after rest) : Advances semicolons pending tokens after rest :=
  h.andThen h'.through

theorem Through.advances (h : Through semicolons pending tokens middle behind)
    (h' : Advances semicolons middle behind after rest) : Advances semicolons pending tokens after rest := by
  obtain ⟨run, rfl, hrun⟩ := h
  obtain ⟨run', hne, rfl, hrun'⟩ := h'
  exact ⟨run ++ run', by simp [hne], by simp, hrun.append hrun'⟩

theorem Through.allow (h : Through false pending tokens after rest) : Through true pending tokens after rest := by
  obtain ⟨run, htokens, hrun⟩ := h
  exact ⟨run, htokens, hrun.allow⟩

theorem Advances.allow (h : Advances false pending tokens after rest) : Advances true pending tokens after rest := by
  obtain ⟨run, hne, htokens, hrun⟩ := h
  exact ⟨run, hne, htokens, hrun.allow⟩

theorem Advances.length_lt (h : Advances semicolons pending tokens after rest) : rest.length < tokens.length := by
  obtain ⟨run, hne, rfl, -⟩ := h
  have := List.length_pos_iff.mpr hne
  simp
  omega

theorem Through.length_le (h : Through semicolons pending tokens after rest) : rest.length ≤ tokens.length := by
  obtain ⟨run, rfl, -⟩ := h
  simp

theorem Through.isSuffix (h : Through semicolons pending tokens after rest) : rest <:+ tokens := by
  obtain ⟨run, rfl, -⟩ := h
  exact List.suffix_append run rest

theorem Advances.isSuffix (h : Advances semicolons pending tokens after rest) : rest <:+ tokens :=
  h.through.isSuffix

end Runs

namespace Rule

variable {α β : Type} {kind : TokenKind}

theorem eq_of_isSeparator {sign : Separator} (h : kind.isSeparator sign = true) : kind = .separator sign := by
  cases kind <;> simp_all [TokenKind.isSeparator]

theorem eq_of_isOperator {sign : Operator} (h : kind.isOperator sign = true) : kind = .operator sign := by
  cases kind <;> simp_all [TokenKind.isOperator]

theorem eq_of_isKeyword {word : Keyword} (h : kind.isKeyword word = true) : kind = .keyword word := by
  cases kind <;> simp_all [TokenKind.isKeyword]

theorem eq_cons_of_firstKind {tokens : List Token} (h : firstKind tokens = kind)
    (hend : kind ≠ .endOfInput) : ∃ p, tokens = ⟨kind, p⟩ :: tokens.tail := by
  cases tokens with
  | nil => exact absurd h.symm hend
  | cons token rest =>
    obtain ⟨first, p⟩ := token
    cases h
    exact ⟨p, rfl⟩

theorem length_tail_lt {tokens : List Token} (h : firstKind tokens = kind)
    (hend : kind ≠ .endOfInput) : tokens.tail.length < tokens.length := by
  obtain ⟨p, htokens⟩ := eq_cons_of_firstKind h hend
  rw [htokens]
  simp

section First

variable {semicolons : Bool} {tokens : List Token} {pending : List Separator}

theorem advances_plain {kind : TokenKind} (hkind : firstKind tokens = kind) (h : isPlain semicolons kind = true) :
    Advances semicolons pending tokens pending tokens.tail := by
  obtain ⟨p, htokens⟩ := eq_cons_of_firstKind hkind (by rintro rfl; cases h)
  exact ⟨[⟨kind, p⟩], by simp, htokens, .plain h .nil⟩

theorem advances_opening {sign closing : Separator} (hkind : firstKind tokens = .separator sign)
    (h : sign.closing? = some closing) : Advances semicolons pending tokens (closing :: pending) tokens.tail := by
  obtain ⟨p, htokens⟩ := eq_cons_of_firstKind hkind (by simp)
  exact ⟨[⟨.separator sign, p⟩], by simp, htokens, .opening h .nil⟩

theorem advances_closing {sign : Separator} (hkind : firstKind tokens = .separator sign)
    (h : sign.isClosing = true) : Advances semicolons (sign :: pending) tokens pending tokens.tail := by
  obtain ⟨p, htokens⟩ := eq_cons_of_firstKind hkind (by simp)
  exact ⟨[⟨.separator sign, p⟩], by simp, htokens, .closing h .nil⟩

end First

namespace Reads

variable {env : Env} {tokens : List Token} {Q : β → List Token → Prop}

theorem peek {next : TokenKind → Rule β} (h : (next (firstKind tokens)).Reads env tokens Q) :
    (Rule.peek >>= next).Reads env tokens Q :=
  h

theorem peekSecond {next : TokenKind → Rule β} (h : (next (firstKind tokens.tail)).Reads env tokens Q) :
    (Rule.peekSecond >>= next).Reads env tokens Q :=
  h

theorem here {next : Position → Rule β} (h : (next (firstPosition tokens)).Reads env tokens Q) :
    (Rule.here >>= next).Reads env tokens Q :=
  h

theorem ask {next : Env → Rule β} (h : (next env).Reads env tokens Q) : (Rule.ask >>= next).Reads env tokens Q :=
  h

theorem skip {next : Unit → Rule β} (h : (next ()).Reads env tokens.tail Q) : (Rule.skip >>= next).Reads env tokens Q :=
  h

theorem unexpected : (Rule.unexpected : Rule β).Reads env tokens Q := by
  rintro _ _ ⟨⟩

theorem within {rule : Rule β} {f : Env → Env} (h : rule.Reads (f env) tokens Q) : (rule.within f).Reads env tokens Q :=
  h

theorem withSteps {rule : Steps → Rule β} (h : ∀ steps, (rule steps).Reads env tokens Q) :
    (Rule.withSteps rule).Reads env tokens Q :=
  h _

theorem enter {name : RuleName} {rule : Nat → Rule β} (h : ∀ depth, (rule depth).Reads (env.enter name) tokens Q)
    (depth : Nat) : (Rule.enter name rule depth).Reads env tokens Q := by
  cases depth with
  | zero => exact fail _ _
  | succ depth => exact h depth

end Reads

/-- A rule that looks only at what is before it. -/
def Still (rule : Rule α) : Prop :=
  ∀ ⦃env : Env⦄ ⦃tokens : List Token⦄, rule.Reads env tokens fun _ rest => rest = tokens

/-- A rule that reads nested runs: under brackets that it closes, and leaving brackets open. -/
def Spans (semicolons : Bool) (before after : List Separator) (rule : Rule α) : Prop :=
  ∀ ⦃env : Env⦄ ⦃tokens : List Token⦄ (pending : List Separator), rule.Reads env tokens fun _ rest =>
    Advances semicolons (before ++ pending) tokens (after ++ pending) rest

/-- A rule that reads nested runs, or nothing. -/
def MaySpan (semicolons : Bool) (rule : Rule α) : Prop :=
  ∀ ⦃env : Env⦄ ⦃tokens : List Token⦄ (pending : List Separator), rule.Reads env tokens fun _ rest =>
    Through semicolons pending tokens pending rest

section Spans

variable {semicolons : Bool} {before after : List Separator}

theorem Spans.allow {rule : Rule α} (h : rule.Spans false before after) : rule.Spans true before after :=
  fun _ _ pending a rest hok => (h pending a rest hok).allow

theorem Spans.named {rule : Rule α} (h : rule.Spans semicolons before after) (name : RuleName) :
    (rule.named name).Spans semicolons before after :=
  fun _ _ pending => h pending

theorem Spans.tooDeep : (Rule.tooDeep : Rule α).Spans semicolons before after :=
  fun _ _ _ => .fail _ _

variable {sign : Separator}

theorem separator_opens {closing : Separator} (h : sign.closing? = some closing) :
    (separator sign).Spans semicolons [] [closing] := by
  intro env tokens pending
  refine .peek ?_
  split
  · next hsign => exact .of_eq rfl (advances_opening (eq_of_isSeparator hsign) h)
  · exact .expected _

theorem separator_closes (h : sign.isClosing = true) : (separator sign).Spans semicolons [sign] [] := by
  intro env tokens pending
  refine .peek ?_
  split
  · next hsign => exact .of_eq rfl (advances_closing (eq_of_isSeparator hsign) h)
  · exact .expected _

theorem separator_plain (h : isPlain semicolons (.separator sign) = true) :
    (separator sign).Spans semicolons [] [] := by
  intro env tokens pending
  refine .peek ?_
  split
  · next hsign => exact .of_eq rfl (advances_plain (eq_of_isSeparator hsign) h)
  · exact .expected _

theorem operator_spans (sign : Operator) : (operator sign).Spans semicolons [] [] := by
  intro env tokens pending
  refine .peek ?_
  split
  · next hsign => exact .of_eq rfl (advances_plain (eq_of_isOperator hsign) rfl)
  · exact .expected _

theorem keyword_spans (word : Keyword) : (keyword word).Spans semicolons [] [] := by
  intro env tokens pending
  refine .peek ?_
  split
  · next hword => exact .of_eq rfl (advances_plain (eq_of_isKeyword hword) rfl)
  · exact .expected _

theorem identifier_spans : identifier.Spans semicolons [] [] := by
  intro env tokens pending
  refine .peek ?_
  split
  · next hname => exact .skip (.pure (advances_plain hname rfl))
  · exact .expected _

theorem isPlain_comma : isPlain semicolons (.separator .comma) = true := by
  cases semicolons <;> rfl

theorem commaList_spans {item : Rule α} {closes : TokenKind → Bool} (closing : String)
    (hitem : item.Spans semicolons [] [])
    (hcloses : ∀ tokens pending, closes (firstKind tokens) = true →
      Advances semicolons (before ++ pending) tokens pending tokens.tail) (steps : Steps) :
    (commaList item closes closing steps).Spans semicolons before [] := by
  induction steps with
  | nil => exact fun _ _ _ => .expected _
  | cons _ steps ih =>
    intro env tokens pending
    refine (hitem (before ++ pending)).bind fun a rest h => .peek ?_
    split
    · next hcomma =>
      have hone := h.trans (advances_plain (eq_of_isSeparator hcomma) isPlain_comma)
      exact .skip ((ih pending).bind fun _ _ h' => .pure (hone.trans h'))
    · split
      · next hclose => exact .skip (.pure (h.trans (hcloses _ pending hclose)))
      · exact .expected _

theorem commaList_closes {item : Rule α} (closing : String) (hitem : item.Spans semicolons [] [])
    (hsign : sign.isClosing = true) (steps : Steps) :
    (commaList item (·.isSeparator sign) closing steps).Spans semicolons [sign] [] :=
  commaList_spans closing hitem (fun _ _ h => advances_closing (eq_of_isSeparator h) hsign) steps

theorem bracedList_spans {item : Rule α} (hitem : item.Spans semicolons [] []) (steps : Steps) :
    (bracedList item steps).Spans semicolons [.closeBrace] [] := by
  induction steps with
  | nil => exact fun _ _ _ => .expected _
  | cons _ steps ih =>
    intro env tokens pending
    refine .peek ?_
    split
    · next hclose => exact .skip (.pure (advances_closing (eq_of_isSeparator hclose) rfl))
    · refine (hitem ([.closeBrace] ++ pending)).bind fun a rest h => .peek ?_
      split
      · next hcomma =>
        have hone := h.trans (advances_plain (eq_of_isSeparator hcomma) isPlain_comma)
        exact .skip ((ih pending).bind fun _ _ h' => .pure (hone.trans h'))
      · split
        · exact (ih pending).bind fun _ _ h' => .pure (h.trans h')
        · exact .expected _

theorem expectAssignable_still (target : Ty) (e : Expr) (use : Use) : (expectAssignable target e use).Still := by
  intro env tokens
  refine .ask ?_
  split
  · exact .pure rfl
  · exact .fail _ _

theorem Still.andThen {rule : Rule α} (h : rule.Still) {next : α → Rule β} {env : Env} {tokens : List Token}
    {Q : β → List Token → Prop} (hnext : ∀ a, (next a).Reads env tokens Q) : (rule >>= next).Reads env tokens Q := by
  refine h.bind fun a rest hrest => ?_
  subst hrest
  exact hnext a

theorem bounded_still (e : Expr) : (bounded e).Still :=
  fun _ _ => .bounded rfl

theorem expectFresh_still (name : String) (position : Position) : (expectFresh name position).Still := by
  intro env tokens
  refine .ask ?_
  split
  · exact .fail _ _
  · exact .pure rfl

end Spans

end Rule

end Scriptlet.Grammar
