import Scriptlet.Proofs.ElseIfChains
import Scriptlet.Proofs.Mirroring.Expressions
import Scriptlet.Proofs.Nesting.Statements

/-!
# Statements in other surroundings

A statement that is read in front of tokens is read in front of other tokens too, if one of the first tokens remains:
behind an `if`, a word could follow that belongs to it. A declaration and a block need no token behind them, because
they end with a token of their own.

Where words are joined, a statement is the same up to the places of the `if` that go on with a chain. Without joined
words such an `if` is the statement in an else branch, in a scope of its own and two rules deeper. With them the rule
for what stands behind the first branch reads the whole chain in a loop.
-/

namespace Scriptlet

namespace Statement

/-- What is compared of a statement: if words may be joined, not the places of those `if` that go on with a chain. -/
def shown (joins : Bool) (s : Statement) : Statement :=
  bif joins then s.forgetElseIf else s

def shownElse (joins : Bool) (s : Statement) : Statement :=
  bif joins then s.forgetElseIf.forgetPlace else s

variable {joins : Bool} {body body' : Statement}

theorem shown_true : shown true = forgetElseIf :=
  rfl

theorem shown_false : shown false = id :=
  rfl

theorem map_shown_injective : (List.map (shown false)).Injective := fun _ _ h => by
  simpa only [shown_false, List.map_id] using h

theorem shownElse_of_shown (h : body'.shown joins = body.shown joins) :
    body'.shownElse joins = body.shownElse joins := by
  cases joins with
  | false => exact h
  | true => exact congrArg forgetPlace h

theorem shown_block {items items' : List Statement} (h : items'.map (shown joins) = items.map (shown joins))
    (p : Position) : (block p items').shown joins = (block p items).shown joins := by
  cases joins with
  | false => simp_all [shown_false]
  | true => simpa [shown_true, forgetElseIf, forgetElseIfAll_eq] using h

theorem shown_conditional {elseBranch elseBranch' : Option Statement} (h : body'.shown joins = body.shown joins)
    (helse : elseBranch'.map (shownElse joins) = elseBranch.map (shownElse joins)) (p : Position) (condition : Expr) :
    (conditional p condition body' elseBranch').shown joins =
      (conditional p condition body elseBranch).shown joins := by
  cases joins with
  | false =>
    have hid : shownElse false = id := rfl
    simp_all [shown_false]
  | true =>
    simp only [shown_true, forgetElseIf_conditional] at h ⊢
    rw [h]
    exact congrArg _ helse

/-- The place of an `if` in a chain matters only where no words are joined. -/
theorem shownElse_conditional {elseBranch elseBranch' : Option Statement} (h : body'.shown joins = body.shown joins)
    (helse : elseBranch'.map (shownElse joins) = elseBranch.map (shownElse joins)) {p p' : Position}
    (hp : joins = false → p' = p) (condition : Expr) :
    (conditional p' condition body' elseBranch').shownElse joins =
      (conditional p condition body elseBranch).shownElse joins := by
  have hshown := shown_conditional h helse p condition
  cases joins with
  | false =>
    rw [hp rfl]
    exact hshown
  | true =>
    refine Eq.trans ?_ (congrArg forgetPlace hshown)
    simp only [shownElse, shown_true, cond_true, forgetElseIf_conditional]
    rfl

theorem shown_whileLoop (h : body'.shown joins = body.shown joins) (p : Position) (condition : Expr) :
    (whileLoop p condition body').shown joins = (whileLoop p condition body).shown joins := by
  cases joins <;> simp_all [shown_false, shown_true, forgetElseIf]

theorem shown_forLoop (h : body'.shown joins = body.shown joins) (p : Position) (initial : List Statement)
    (condition : Option Expr) (increments : List Expr) :
    (forLoop p initial condition increments body').shown joins =
      (forLoop p initial condition increments body).shown joins := by
  cases joins <;> simp_all [shown_false, shown_true, forgetElseIf]

theorem shown_forEachLoop (h : body'.shown joins = body.shown joins) (p : Position) (name : String) (ty : Ty)
    (collection : Expr) :
    (forEachLoop p name ty collection body').shown joins = (forEachLoop p name ty collection body).shown joins := by
  cases joins <;> simp_all [shown_false, shown_true, forgetElseIf]

end Statement

def Section.shown (joins : Bool) (sections : List Section × Option (List Statement)) :
    List Section × Option (List Statement) :=
  bif joins then (Section.forgetElseIfAll sections.1, sections.2.map (List.map Statement.forgetElseIf)) else sections

theorem Section.shown_add {joins : Bool} {sections sections' : List Section × Option (List Statement)}
    {body body' : List Statement} (h : Section.shown joins sections' = Section.shown joins sections)
    (hbody : body'.map (Statement.shown joins) = body.map (Statement.shown joins)) (labels : List Value)
    (isDefault : Bool) :
    Section.shown joins (if labels.isEmpty then sections'.1 else ⟨labels, body'⟩ :: sections'.1,
        if isDefault then some body' else sections'.2) =
      Section.shown joins (if labels.isEmpty then sections.1 else ⟨labels, body⟩ :: sections.1,
        if isDefault then some body else sections.2) := by
  obtain ⟨sections, otherwise⟩ := sections
  obtain ⟨sections', otherwise'⟩ := sections'
  cases joins with
  | false => simp_all [Section.shown, Statement.shown_false]
  | true =>
    obtain ⟨hsections, hotherwise⟩ := Prod.mk.inj h
    cases labels <;> cases isDefault <;>
      simp_all [Section.shown, Statement.shown_true, Section.forgetElseIfAll, Statement.forgetElseIfAll_eq]

theorem Statement.shown_switchOn {joins : Bool} {sections sections' : List Section × Option (List Statement)}
    (h : Section.shown joins sections' = Section.shown joins sections) (p : Position) (value : Expr) :
    (switchOn p value sections'.1 sections'.2).shown joins = (switchOn p value sections.1 sections.2).shown joins := by
  cases joins with
  | false =>
    obtain rfl : sections' = sections := h
    rfl
  | true =>
    obtain ⟨hsections, hotherwise⟩ := Prod.mk.inj h
    simp only [shown_true, forgetElseIf_switchOn, hsections, hotherwise]

namespace Grammar

open Rule

variable {χ : Change}

namespace Rule

variable {α β γ δ ε : Type} {ends : List Token → Prop} {view : δ → ε} {g : α → β} {h : γ → δ} {rule : Rule α}
  {rule' : Rule β}

/-- The second rule reads the statement that the first one reads, with renumbered calls and as far as it is compared. -/
abbrev MirrorsStatement (χ : Change) (rule rule' : Rule Statement) : Prop :=
  rule.MirrorsAt χ none Ahead (Statement.shown χ.joins) (Statement.renumber χ.ρ) rule'

abbrev MirrorsDeclaring (χ : Change) (rule rule' : Rule (Statement × Declared)) : Prop :=
  rule.MirrorsAt χ none Ahead (Prod.map (Statement.shown χ.joins) id) (fun s => (s.1.renumber χ.ρ, s.2)) rule'

abbrev MirrorsBlock (χ : Change) (ends : List Token → Prop) (rule rule' : Rule (List Statement)) : Prop :=
  rule.MirrorsAt χ none ends (List.map (Statement.shown χ.joins)) (Statement.renumberAll χ.ρ) rule'

theorem MirrorsAt.beforeIdentifier {next : α → String → Rule γ} {next' : β → String → Rule δ}
    (hrule : rule.Mirrors χ Ahead g rule')
    (hnext : ∀ a name, (next a name).MirrorsAt χ none ends view h (next' (g a) name)) :
    (do let a ← rule; let name ← identifier; next a name).MirrorsAt χ none ends view h
      (do let b ← rule'; let name ← identifier; next' b name) := by
  refine .beforeStep identifier_mirrors (fun env tokens name rest hok => ?_) hrule hnext
  obtain ⟨hkind, hrest⟩ := identifier_reads name rest hok
  exact ⟨by simp [hkind], by simp [hkind], hrest⟩

theorem MirrorsAt.beforeSeparator {sign : Separator} (hsign : sign ≠ .openBracket) {next : α → Unit → Rule γ}
    {next' : β → Unit → Rule δ} (hrule : rule.Mirrors χ Ahead g rule')
    (hnext : ∀ a u, (next a u).MirrorsAt χ none ends view h (next' (g a) u)) :
    (do let a ← rule; let u ← separator sign; next a u).MirrorsAt χ none ends view h
      (do let b ← rule'; let u ← separator sign; next' b u) := by
  refine .beforeStep (separator_mirrors sign) (fun env tokens u rest hok => ?_) hrule hnext
  obtain ⟨hkind, hrest⟩ := separator_reads sign u rest hok
  exact ⟨by simp [hkind, hsign], by simp [hkind], hrest⟩

/-- What a rule takes begins with the token that ends it, or has two tokens. -/
theorem Concludes.ahead {semicolons : Bool} {sign : Separator} (hconcludes : rule.Concludes semicolons sign)
    (hsign : sign ≠ .openBracket) {env : Env} {front left behind : List Token} {a : α}
    (hok : rule env (front ++ behind) = .ok (a, left ++ behind)) : Ahead front := by
  obtain ⟨last, hrun, hkind, hrest⟩ := hconcludes [] a _ hok
  obtain ⟨p, hlast⟩ := eq_cons_of_firstKind hkind (by simp)
  have hsuffix := hrun.isSuffix
  rw [hlast, ← hrest, ← List.cons_append] at hsuffix
  exact Ahead.of_isSuffix (.of_kind (by simpa using hsign) left) (List.suffix_append_self_iff.mp hsuffix)

end Rule

section Declarations

variable {type type' : Rule Ty} {rules rules' : ExprRules} {ends : List Token → Prop}

theorem constantRule_isValue (env : Env) : (constantRule type rules).Gives env fun d => d.2.IsValue := by
  refine .after fun _ => .after fun _ => .after fun _ => .after fun _ => .after fun _ => .after fun _ => ?_
  split
  · exact .fail _ _
  · exact .after fun _ => .after fun _ => .pure trivial

theorem labelsRule_steady (h : rules.Spanning) (value : Ty) (seen : List Value)
    (hasDefault : Bool) : Steady fun steps => labelsRule rules value seen hasDefault steps [] false :=
  (labelsRound_shrinks h value seen hasDefault).steady
    (fun steps found => labelsRule rules value seen hasDefault steps found.1 found.2) (fun _ _ _ => rfl)
    (fun steps _ _ _ labels rest hok =>
      (labelsRule_maySpan h value seen hasDefault steps _ _ [] labels rest hok).length_le) ([], false)

variable (h : rules.Mirrored χ rules')

include h

theorem initialRule_mirrors (ty : Ty) :
    (initialRule rules ty).Mirrors χ Ahead (Option.map (Expr.renumber χ.ρ)) (initialRule rules' ty) :=
  .peekIte rfl rfl (fun _ => .skip ((typedExpression_mirrors h ty .initializer).bind fun _ => .pure rfl)) (.pure rfl)

theorem variableRule_mirrors (htype : type.Mirrors χ Ahead id type') :
    (variableRule type rules).Mirrors χ ends (fun d => (d.1, d.2.1, d.2.2.map (Expr.renumber χ.ρ)))
      (variableRule type' rules') :=
  .hereAny fun p p' => .beforeIdentifier htype fun ty name => .ite (fun _ => .fail _ _) fun _ =>
    .beforeSeparator (by simp) (initialRule_mirrors h ty) fun _ _ => (expectFresh_mirrors name p p').andThen fun _ =>
      .pure rfl

theorem constantRule_mirrors (htype : type.Mirrors χ Ahead id type') :
    (constantRule type rules).Mirrors χ ends id (constantRule type' rules') := by
  refine .hereAny fun p p' => .beforeIdentifier htype fun ty name => (operator_mirrors .assign).andThen fun _ =>
    .beforeSeparator (by simp) h.expression fun initial _ => ?_
  rw [Expr.literal?_renumber]
  split
  · exact .fail _ _
  · exact (expectAssignable_mirrors ty initial .constant).andThen fun _ => (expectFresh_mirrors name p p').andThen
      fun _ => .pure rfl

theorem conditionRule_mirrors : (conditionRule rules).MirrorsExpr χ (conditionRule rules') :=
  (separator_mirrors .openParen).bind fun _ => (typedExpression_mirrors h .bool .condition).bind fun _ =>
    (separator_mirrors .closeParen).bind fun _ => .pure rfl

theorem executable_mirrors : (executable rules).MirrorsExpr χ (executable rules') := by
  refine h.expression.bind fun e => ?_
  rw [Expr.isExecutable_renumber]
  exact .ite (fun _ => .pure rfl) fun _ => .fail _ _

theorem executables_mirrors (hspanning : rules'.Spanning) (terminator : Separator) :
    (executables rules terminator).Mirrors χ Ahead (List.map (Expr.renumber χ.ρ)) (executables rules' terminator) :=
  .peekIte rfl rfl (fun _ => .skip (.pure rfl)) (.withSteps (commaList_mirrors (executable_mirrors h) rfl _)
    (commaList_steady (executable_spans hspanning).progresses _ _))

theorem forConditionRule_mirrors :
    (forConditionRule rules).Mirrors χ Ahead (Option.map (Expr.renumber χ.ρ)) (forConditionRule rules') :=
  .peekIte rfl rfl (fun _ => .pure rfl) ((typedExpression_mirrors h .bool .condition).bind fun _ => .pure rfl)

theorem labelRule_mirrors (value : Ty) (seen : List Value) :
    (labelRule rules value seen).Mirrors χ Ahead id (labelRule rules' value seen) := by
  -- only an error shows the token with which a label begins
  refine .peek (fun kind => .at_kind ?_) ?_
  all_goals
    refine .here fun p => h.expression.bind fun label => ?_
    rw [Expr.literal?_renumber]
    split
    · exact .fail _ _
    · exact (expectAssignable_mirrors value label .caseLabel).bind fun _ => .ite (fun _ => .fail _ _) fun _ =>
        (separator_mirrors .colon).bind fun _ => .pure rfl

theorem labelsRule_mirrors (value : Ty) (seen : List Value)
    (hasDefault : Bool) (steps : Steps) (labels : List Value) (isDefault : Bool) :
    (labelsRule rules value seen hasDefault steps labels isDefault).Mirrors χ Ahead id
      (labelsRule rules' value seen hasDefault steps labels isDefault) := by
  induction steps generalizing labels isDefault with
  | nil => exact .pure rfl
  | cons _ steps ih =>
    refine .peek (fun kind => ?_) (.ite (fun _ => .expected _) fun _ => .pure rfl)
    split
    · exact .skip ((labelRule_mirrors h value _).bind fun label => ih _ _)
    · exact .ite (fun _ => .here fun _ => .fail _ _) fun _ => .skip ((separator_mirrors .colon).bind fun _ => ih _ _)
    · exact .ite (fun _ => .expected _) fun _ => .pure rfl

theorem returnRule_mirrors (p : Position) : (returnRule rules p).MirrorsStatement χ (returnRule rules' p) :=
  .ask (fun _ _ henv => by rw [henv.returns]) fun _ => .peekIte rfl rfl
    (fun _ => .ite (fun _ => .skip (.pure rfl)) fun _ => .fail _ _) (h.expression.bind fun value =>
      .ite (fun _ => .fail _ _) fun _ => (expectAssignable_mirrors _ value .returned).bind fun _ =>
        (separator_mirrors .semicolon).bind fun _ => .pure rfl)

theorem expressionStatementRule_mirrors :
    (expressionStatementRule rules).MirrorsStatement χ (expressionStatementRule rules') :=
  (executable_mirrors h).bind fun e => (separator_mirrors .semicolon).bind fun _ =>
    .pure (by simp [Statement.renumber])

end Declarations

/-- The second rules for statements read what the first ones read, in other surroundings, and no statement declares a
function. -/
structure StatementRules.Mirrored (χ : Change) (rules rules' : StatementRules) : Prop where
  exprs : rules.exprs.Mirrored χ rules'.exprs
  variableDeclaration : rules.variableDeclaration.Mirrors χ (fun _ => True)
    (fun d => (d.1, d.2.1, d.2.2.map (Expr.renumber χ.ρ))) rules'.variableDeclaration
  constantDeclaration : rules.constantDeclaration.Mirrors χ (fun _ => True) id rules'.constantDeclaration
  constant_isValue : ∀ env, rules.constantDeclaration.Gives env fun d => d.2.IsValue
  statement : rules.statement.MirrorsDeclaring χ rules'.statement
  declared_isValue : ∀ env, rules.statement.Gives env fun s => ∀ d ∈ s.2, d.2.IsValue
  block : rules.block.MirrorsBlock χ (fun _ => True) rules'.block
  ifStatement : ∀ p, (rules.ifStatement p).MirrorsStatement χ (rules'.ifStatement p)
  whileStatement : ∀ p, (rules.whileStatement p).MirrorsStatement χ (rules'.whileStatement p)
  forStatement : ∀ p, (rules.forStatement p).MirrorsStatement χ (rules'.forStatement p)
  forEachStatement : ∀ p, (rules.forEachStatement p).MirrorsStatement χ (rules'.forEachStatement p)
  switchStatement : ∀ p, (rules.switchStatement p).MirrorsStatement χ (rules'.switchStatement p)
  returnStatement : ∀ p, (rules.returnStatement p).MirrorsStatement χ (rules'.returnStatement p)
  expressionStatement : rules.expressionStatement.MirrorsStatement χ rules'.expressionStatement

section Bodies

variable {statement statement' : Rule (Statement × Declared)} {ends : List Token → Prop}

theorem statement_mirrors_cons (hvalue : ∀ env, statement.Gives env fun s => ∀ d ∈ s.2, d.2.IsValue)
    (h : statement.MirrorsDeclaring χ statement')
    {others others' : Rule (List Statement)}
    (hothers : others.MirrorsBlock χ ends others')
    (hneeded : ∀ env front left behind body, ends left → others env (front ++ behind) = .ok (body, left ++ behind) →
      Ahead front) :
    (do
      let (s, declared) ← statement
      return s :: (← inScopes (addDeclared declared) others)).MirrorsBlock χ ends (do
      let (s, declared) ← statement'
      return s :: (← inScopes (addDeclared declared) others')) := by
  refine h.bind_of hvalue ?_ ?_
  · rintro ⟨s, declared⟩ ⟨s', declared'⟩ hs hview
    obtain ⟨hshown, hdeclared⟩ := Prod.mk.inj hview
    obtain rfl : declared' = declared := hdeclared
    refine MirrorsAt.map (.inScopes (fun _ _ henv => henv.addDeclared hs) hothers) fun body body' hbody => ?_
    rw [Statement.renumberAll, List.map_cons, List.map_cons, hshown, hbody]
  · rintro ⟨s, declared⟩ - env front left behind body hleft hok
    obtain ⟨others, middle, hbody, ⟨⟩⟩ := Rule.ok_of_bind hok
    exact hneeded _ front left behind others hleft hbody

theorem statementsToBrace_mirrors (hspans : statement.Spans true [] [])
    (hvalue : ∀ env, statement.Gives env fun s => ∀ d ∈ s.2, d.2.IsValue)
    (h : statement.MirrorsDeclaring χ statement')
    (steps : Steps) :
    (statementsToBrace statement steps).MirrorsBlock χ ends (statementsToBrace statement' steps) := by
  induction steps with
  | nil => exact .expected _
  | cons step steps ih =>
    have htakes : ∀ env tokens, (statementsToBrace statement (step :: steps)).Reads env tokens fun _ rest =>
        rest.length < tokens.length := fun env tokens body rest hok =>
      ((statementsToBrace_concludes hspans (step :: steps)).closes rfl [] body rest hok).length_lt
    have hone := statement_mirrors_cons hvalue h ih fun env front left behind body _ hok =>
      (statementsToBrace_concludes hspans steps).ahead (by simp) hok
    refine .peek_of (fun kind => ?_) hone fun _ _ _ _ _ _ hok => MirrorsAt.ne_nil_of_takes htakes hok
    split
    · exact .skip (.pure rfl)
    · exact .expected _
    · exact hone.at_kind

theorem statementsToBrace_steady (h : statement.Spans true [] []) : Steady (statementsToBrace statement) :=
  (blockRound_shrinks h.progresses).steady (fun steps _ => statementsToBrace statement steps) (fun _ _ _ => rfl)
    (fun steps _ _ _ body rest hok =>
      Nat.le_of_lt ((statementsToBrace_concludes h steps).closes rfl [] body rest hok).length_lt) ()

theorem sectionBody_mirrors (hspans : statement.Spans true [] [])
    (hvalue : ∀ env, statement.Gives env fun s => ∀ d ∈ s.2, d.2.IsValue)
    (h : statement.MirrorsDeclaring χ statement')
    (steps : Steps) :
    (sectionBody statement steps).MirrorsBlock χ Ahead (sectionBody statement' steps) := by
  induction steps with
  | nil => exact .pure rfl
  | cons _ steps ih =>
    have hone := statement_mirrors_cons hvalue h ih fun env front left behind body hleft hok =>
      hleft.of_isSuffix (List.suffix_append_self_iff.mp (sectionBody_maySpan hspans steps [] body _ hok).isSuffix)
    refine .peek (fun kind => ?_) hone
    split
    · exact .pure rfl
    · exact .pure rfl
    · exact .pure rfl
    · exact .pure rfl
    · exact hone.at_kind

theorem sectionBody_steady (h : statement.Spans true [] []) : Steady (sectionBody statement) :=
  (sectionBodyRound_shrinks h.progresses).steady (fun steps _ => sectionBody statement steps) (fun _ _ _ => rfl)
    (fun steps _ _ _ body rest hok => (sectionBody_maySpan h steps [] body rest hok).length_le) ()

end Bodies

section Rules

variable {rules rules' : StatementRules}

theorem elseRule_steady (h : rules.Spanning) : Steady (elseRule rules) :=
  (elseRound_shrinks h).steady (fun steps _ => elseRule rules steps) (fun _ _ _ => rfl)
    (fun steps _ _ _ s rest hok => (elseRule_maySpan h steps [] s rest hok).length_le) ()

/-- What the second rules read behind the first branch of an `if`. -/
abbrev MirrorsElse (χ : Change) (rules rules' : StatementRules) : Prop :=
  (withSteps (elseRule rules)).MirrorsAt χ none Ahead (Option.map (Statement.shownElse χ.joins))
    (Option.map (Statement.renumber χ.ρ)) (withSteps (elseRule rules'))

theorem sectionsRule_steady (h : rules.Spanning) (value : Ty) :
    Steady fun steps => sectionsRule rules value steps [] false :=
  (sectionsRound_shrinks h value).steady (fun steps found => sectionsRule rules value steps found.1 found.2)
    (fun _ _ _ => rfl) (fun steps _ _ _ sections rest hok =>
      Nat.le_of_lt (sectionsRule_spans h value steps _ _ [] sections rest hok).length_lt) ([], false)

theorem forInitialRule_isValue (env : Env) :
    (forInitialRule rules).Gives env fun r => ∀ d ∈ r.2, d.2.IsValue := by
  refine .after fun _ => .after fun _ => .after fun _ => ?_
  split
  · exact .after fun _ => .pure (by simp [Symbol.IsValue])
  · exact .after fun _ => .pure (by simp)

theorem plainStatement_isValue (p : Position) (env : Env) :
    (plainStatement rules p).Gives env fun s => ∀ d ∈ s.2, d.2.IsValue := by
  refine .after fun _ => .after fun _ => ?_
  split
  · exact .after fun _ => .pure (by simp [Symbol.IsValue])
  · exact .after fun _ => .pure (by simp)

theorem statementRule_isValue (h : ∀ env, rules.constantDeclaration.Gives env fun d => d.2.IsValue) (env : Env) :
    (statementRule rules).Gives env fun s => ∀ d ∈ s.2, d.2.IsValue := by
  have hnone : ∀ s : Statement, ∀ d ∈ ((s, none) : Statement × Declared).2, d.2.IsValue := by simp
  refine .after fun p => .after fun kind => ?_
  split
  any_goals exact .after fun _ => .after fun _ => .pure (hnone _)
  · exact .after fun _ => .pure (hnone _)
  · refine .after fun _ => ?_
    split
    · exact .after fun _ => .after fun _ => .pure (hnone _)
    · exact .fail _ _
  · refine .after fun _ => ?_
    split
    · exact .after fun _ => .after fun _ => .pure (hnone _)
    · exact .fail _ _
  · exact .after fun _ => (h env).bind fun d hd => .pure (by simpa using hd)
  · refine .after fun _ => ?_
    split
    · exact .fail _ _
    · exact plainStatement_isValue p env
  · exact plainStatement_isValue p env

theorem keyworded_mirrors {kind : TokenKind} {rule rule' : Rule Statement} (h : rule.MirrorsStatement χ rule') :
    (do skip; return (← rule, none) : Rule (Statement × Declared)).MirrorsAt χ (some kind) Ahead
      (Prod.map (Statement.shown χ.joins) id) (fun s => (s.1.renumber χ.ρ, s.2)) (do skip; return (← rule', none)) :=
  .skip (h.map fun _ _ hs => congrArg (·, none) hs)

variable (h : rules.Mirrored χ rules')

include h

theorem bodyRule_mirrors : (bodyRule rules).MirrorsStatement χ (bodyRule rules') :=
  .inScopes (fun _ _ henv => henv.beginScope) (h.statement.map fun _ _ hview => congrArg Prod.fst hview)

theorem loopBodyRule_mirrors : (loopBodyRule rules).MirrorsStatement χ (loopBodyRule rules') :=
  .inScopes (fun _ _ henv => henv.beginBreakable .loop) (bodyRule_mirrors h)

theorem ifRule_mirrors (helse : MirrorsElse χ rules rules') (p : Position) :
    (ifRule rules p).MirrorsStatement χ (ifRule rules' p) := by
  refine (conditionRule_mirrors h.exprs).bind fun condition => (bodyRule_mirrors h).bindView
    fun thenBranch thenBranch' hthen => helse.map fun elseBranch elseBranch' helse => ?_
  rw [Statement.renumber_conditional]
  exact Statement.shown_conditional hthen helse p _

theorem whileRule_mirrors (p : Position) : (whileRule rules p).MirrorsStatement χ (whileRule rules' p) :=
  (conditionRule_mirrors h.exprs).bind fun _ => (loopBodyRule_mirrors h).map fun _ _ hbody =>
    Statement.shown_whileLoop hbody p _

theorem forEachRule_mirrors {type type' : Rule Ty} (htype : type.Mirrors χ Ahead id type')
    (p : Position) : (forEachRule type rules p).MirrorsStatement χ (forEachRule type' rules' p) := by
  have hin : (keyword .inWord).Mirrors χ Ahead id (keyword .inWord) := .take rfl rfl _
  refine .inScopes (fun _ _ henv => henv.beginScope) ((separator_mirrors .openParen).bind fun _ => .here fun place =>
    htype.bind fun ty => identifier_mirrors.bind fun name => hin.bind fun _ => h.exprs.expression.bind fun collection =>
      (separator_mirrors .closeParen).bind fun _ => ?_)
  have hvalue : (Symbol.variable ty).IsValue := trivial
  simp only [Expr.ty_renumber, id]
  split
  · exact .fail _ _
  · exact .askIte (fun _ _ henv => henv.accepts _ _) ((expectFresh_mirrors name place place).bind fun _ => MirrorsAt.map
      (.inScopes (fun _ _ henv => henv.insert hvalue name) (loopBodyRule_mirrors h)) fun body body' hbody =>
        Statement.shown_forEachLoop hbody p name ty _) (.fail _ _)

variable (hspanning : rules.Spanning)

include hspanning

theorem plainStatement_mirrors (p : Position) :
    (plainStatement rules p).MirrorsDeclaring χ (plainStatement rules' p) := by
  refine .peekTwo (fun _ => rfl) (fun _ => rfl) startsDeclaration_behind (fun _ => .at_kind ?_)
    (h.expressionStatement.map fun _ _ hs => congrArg (·, none) hs) (fun env tokens => ?_) fun env tokens => ?_
  · exact (h.variableDeclaration.mono fun _ _ => trivial).bind fun d => .pure rfl
  · exact (hspanning.variableDeclaration.spans []).bind fun _ _ hrest => .pure fun _ => hrest.length_lt
  · exact (hspanning.expressionStatement []).bind fun _ _ hrest => .pure fun _ => hrest.length_lt

theorem statementRule_mirrors : (statementRule rules).MirrorsDeclaring χ (statementRule rules') := by
  refine .here fun p => .peek (fun kind => ?_) (plainStatement_mirrors h hspanning p)
  split
  · exact .skip (MirrorsAt.map (.inScopes (fun _ _ henv => henv.beginScope) (h.block.mono fun _ _ => trivial))
      fun body body' hbody => congrArg (·, none) (Statement.shown_block hbody p))
  · exact .skip (.pure rfl)
  · exact keyworded_mirrors (h.ifStatement p)
  · exact keyworded_mirrors (h.whileStatement p)
  · exact keyworded_mirrors (h.forStatement p)
  · exact keyworded_mirrors (h.forEachStatement p)
  · exact keyworded_mirrors (h.switchStatement p)
  · exact .askIte (fun _ _ henv => by rw [Scopes.canBreak, Scopes.canBreak, henv.breakables])
      (.skip ((separator_mirrors .semicolon).bind fun _ => .pure rfl)) (.fail _ _)
  · exact .askIte (fun _ _ henv => by rw [Scopes.canContinue, Scopes.canContinue, henv.breakables])
      (.skip ((separator_mirrors .semicolon).bind fun _ => .pure rfl)) (.fail _ _)
  · exact keyworded_mirrors (h.returnStatement p)
  · exact .skip ((h.constantDeclaration.mono fun _ _ => trivial).bind fun d => .pure rfl)
  · refine .peekSecond (fun second => ?_) (plainStatement_mirrors h hspanning p).at_kind fun second env tokens => ?_
    · split
      · exact .fail _ _
      · exact (plainStatement_mirrors h hspanning p).at_kind
    · split
      · exact .fail _ _
      · exact fun s rest hok _ => (plainStatement_spans hspanning p [] s rest hok).length_lt
  · exact (plainStatement_mirrors h hspanning p).at_kind

variable (hspanning' : rules'.Spanning)

include hspanning'

theorem forInitialRule_mirrors : (forInitialRule rules).Mirrors χ Ahead
      (fun r => (Statement.renumberAll χ.ρ r.1, r.2)) (forInitialRule rules') := by
  have hsemicolon : ∀ tokens pending, firstKind tokens = .separator .semicolon →
      Advances true ([] ++ pending) tokens pending tokens.tail := fun _ _ hend => advances_plain hend rfl
  refine .here fun p => .peekTwo (fun _ => rfl) (fun _ => rfl) startsDeclaration_behind (fun _ => .at_kind ?_) ?_
    (fun env tokens => ?_) fun env tokens => ?_
  · exact (h.variableDeclaration.mono fun _ _ => trivial).bind fun d => .pure rfl
  · exact (executables_mirrors h.exprs hspanning'.exprs .semicolon).bind fun expressions =>
      .pure (by simp [Statement.renumberAll_eq, Statement.renumber])
  · exact (hspanning.variableDeclaration.spans []).bind fun _ _ hrest => .pure fun _ => hrest.length_lt
  · exact (executables_spans hspanning.exprs hsemicolon []).bind fun _ _ hrest => .pure fun _ => hrest.length_lt

theorem forRule_mirrors (p : Position) : (forRule rules p).MirrorsStatement χ (forRule rules' p) := by
  refine .inScopes (fun _ _ henv => henv.beginScope) ((separator_mirrors .openParen).bind fun _ =>
    (forInitialRule_mirrors h hspanning hspanning').bindGives forInitialRule_isValue ?_)
  rintro r _ hr rfl
  exact .inScopes (fun _ _ henv => henv.addDeclared hr) ((forConditionRule_mirrors h.exprs).bind fun condition =>
    (separator_mirrors .semicolon).bind fun _ => (executables_mirrors h.exprs hspanning'.exprs .closeParen).bind
      fun increments => (loopBodyRule_mirrors h).map fun body body' hbody => Statement.shown_forLoop hbody p _ _ _)

theorem sectionsRule_mirrors (value : Ty) (steps : Steps) (seen : List Value) (hasDefault : Bool) :
    (sectionsRule rules value steps seen hasDefault).MirrorsAt χ none Ahead (Section.shown χ.joins)
      (fun r => (Section.renumberAll χ.ρ r.1, r.2.map (Statement.renumberAll χ.ρ)))
      (sectionsRule rules' value steps seen hasDefault) := by
  induction steps generalizing seen hasDefault with
  | nil => exact .expected _
  | cons _ steps ih =>
    refine .peekIte rfl rfl (fun _ => .skip (.pure rfl)) (MirrorsAt.bind
      (.withSteps (fun steps => labelsRule_mirrors h.exprs value seen hasDefault steps [] false)
        (labelsRule_steady hspanning'.exprs value seen hasDefault)) fun found => MirrorsAt.bindView
      (.inScopes (fun _ _ henv => henv.beginScope) (.withSteps
        (sectionBody_mirrors hspanning.statement h.declared_isValue h.statement)
        (sectionBody_steady hspanning'.statement)))
      fun body body' hbody => (ih _ _).map fun sections sections' hsections => ?_)
    obtain ⟨labels, isDefault⟩ := found
    refine (Section.shown_add hsections hbody labels isDefault).trans ?_
    cases labels <;> cases isDefault <;> rfl

theorem switchRule_mirrors (p : Position) : (switchRule rules p).MirrorsStatement χ (switchRule rules' p) := by
  refine (separator_mirrors .openParen).bind fun _ => h.exprs.expression.bind fun value =>
    (separator_mirrors .closeParen).bind fun _ => (separator_mirrors .openBrace).bind fun _ => ?_
  rw [Expr.ty_renumber]
  refine MirrorsAt.map (.inScopes (fun _ _ henv => henv.beginBreakable .switch)
    (.withSteps (fun steps => sectionsRule_mirrors h hspanning hspanning' value.ty steps [] false)
      (sectionsRule_steady hspanning' value.ty))) fun sections sections' hsections => ?_
  rw [Statement.renumber_switchOn]
  exact Statement.shown_switchOn hsections p _

end Rules

section Chains

variable {rules rules' : StatementRules} {env env' : Env} {depth : Nat} {tokens rest : List Token} {step : Token}
  {steps : Steps}

theorem elseRule_elseIf (p : Position) :
    elseRule rules (step :: steps) env (⟨.keyword .elseIfWord, p⟩ :: tokens) = (do
      let condition ← conditionRule rules.exprs
      let thenBranch ← bodyRule rules
      let elseBranch ← elseRule rules steps
      return some (Statement.conditional p condition thenBranch elseBranch)) env tokens :=
  rfl

theorem elseRule_else (p : Position) : elseRule rules (step :: steps) env (⟨.keyword .elseWord, p⟩ :: tokens) =
    (do return some (← bodyRule rules)) env tokens :=
  rfl

theorem elseRule_of_ne {kind : TokenKind} (helseIf : kind ≠ .keyword .elseIfWord) (helse : kind ≠ .keyword .elseWord)
    (p : Position) : elseRule rules (step :: steps) env (⟨kind, p⟩ :: tokens) = .ok (none, ⟨kind, p⟩ :: tokens) := by
  rw [elseRule, bind_ok (rfl : peek env (⟨kind, p⟩ :: tokens) = .ok (kind, ⟨kind, p⟩ :: tokens))]
  refine congrFun (congrFun (?_ : _ = (pure none : Rule (Option Statement))) env) _
  split
  · next hkind => exact absurd hkind helseIf
  · next hkind => exact absurd hkind helse
  · rfl

theorem chain_of_elseIf (hspanning : rules.Spanning) {middle last : List Token} {condition : Expr}
    {thenBranch : Statement} {elseBranch : Option Statement}
    (hcondition : conditionRule rules.exprs env tokens = .ok (condition, middle))
    (hthen : bodyRule rules env middle = .ok (thenBranch, last))
    (helse : withSteps (elseRule rules) env last = .ok (elseBranch, rest)) (p : Position) :
    withSteps (elseRule rules) env (⟨.keyword .elseIfWord, p⟩ :: tokens) =
      .ok (some (.conditional p condition thenBranch elseBranch), rest) := by
  have hmiddle := (conditionRule_spans hspanning.exprs [] condition middle hcondition).length_lt
  have hlast := (bodyRule_spans hspanning [] thenBranch last hthen).length_lt
  -- the loop has fewer tokens in front of it now, so the steps that are left are enough
  have hsteps : last.length < rest.length + (⟨.keyword .elseIfWord, p⟩ :: tokens).length := by
    simp only [List.length_cons]
    omega
  have helse := elseRule_steady hspanning (by simp only [List.length_cons]; omega) hsteps _ helse
  change elseRule rules (_ :: _) env _ = _
  rw [elseRule_elseIf, bind_ok hcondition, bind_ok hthen, bind_ok helse]
  rfl

/-- An `if` in an else branch is read two rules deeper, in a scope that is still empty. -/
theorem ifRule_of_bodyRule {q : Position} {s : Statement}
    (hok : bodyRule (statementRules depth) env (⟨.keyword .ifWord, q⟩ :: tokens) = .ok (s, rest)) :
    ∃ inner, depth = inner + 2 ∧ ifRule (statementRules inner) q
      (((env.withScopes Scopes.beginScope).enter .statement).enter .ifStatement) tokens = .ok (s, rest) := by
  obtain ⟨⟨found, declared⟩, middle, hstatement, ⟨⟩⟩ := Rule.ok_of_bind hok
  cases depth with
  | zero => cases hstatement
  | succ depth =>
    have hword : ((statementRules depth).ifStatement q >>= fun s => (pure (s, none) : Rule (Statement × Declared)))
        ((env.withScopes Scopes.beginScope).enter .statement) tokens = .ok ((found, declared), rest) := hstatement
    obtain ⟨found', middle', hif, ⟨⟩⟩ := Rule.ok_of_bind hword
    cases depth with
    | zero => cases hif
    | succ inner => exact ⟨inner, rfl, hif⟩

/-- The rule for the rest of an `if` reads the given branch, as far as it is compared, and leaves the given tokens, in
which words may be joined, in front of others. -/
def ReadsChain (χ : Change) (rules : StatementRules) (env : Env) (tokens : List Token) (found : Option Statement)
    (left behind : List Token) : Prop :=
  ∃ found' left', withSteps (elseRule rules) env tokens = .ok (found', left' ++ behind) ∧
    found'.map (Statement.shownElse χ.joins) = found.map (Statement.shownElse χ.joins) ∧ Joined χ.joins left left'

variable (hspanning : rules'.Spanning) (hinner : ∀ inner, depth = inner + 2 →
  (statementRules inner).Mirrored χ rules' ∧ MirrorsElse χ (statementRules inner) rules')

section Rounds

variable {front front' left behind behind' middle last : List Token} {condition : Expr} {thenBranch branch : Statement}
  {elseBranch found : Option Statement} (henv : env.Renumbers χ.ρ env') (hfront : Joined χ.joins front front')
  (hleft : Ahead left)

include henv hfront hleft

theorem readsChain_else (h : rules.Mirrored χ rules')
    (hbody : bodyRule rules env (front ++ behind) = .ok (branch, left ++ behind)) (p : Position) :
    ReadsChain χ rules' env' (⟨.keyword .elseWord, p⟩ :: (front' ++ behind')) (some (branch.renumber χ.ρ)) left
      behind' := by
  obtain ⟨branch', left', hbranch', hview, hleft'⟩ := (bodyRule_mirrors h).follows henv behind' hfront hleft hbody
  refine ⟨some branch', left', ?_, congrArg some (Statement.shownElse_of_shown hview), hleft'⟩
  change elseRule rules' (_ :: _) env' _ = _
  rw [elseRule_else, bind_ok hbranch']
  rfl

include hspanning

theorem readsChain_elseIf (h : rules.Mirrored χ rules')
    (hcondition : conditionRule rules.exprs env (front ++ behind) = .ok (condition, middle))
    (hthen : bodyRule rules env middle = .ok (thenBranch, last)) (hlast : left ++ behind <:+ last)
    (helse : ∀ ⦃rest rest'⦄, last = rest ++ behind → Joined χ.joins rest rest' →
      ReadsChain χ rules' env' (rest' ++ behind') (elseBranch.map (Statement.renumber χ.ρ)) left behind')
    {p q : Position} (hplace : χ.joins = false → p = q) :
    ReadsChain χ rules' env' (⟨.keyword .elseIfWord, p⟩ :: (front' ++ behind'))
      (some ((Statement.conditional q condition thenBranch elseBranch).renumber χ.ρ)) left behind' := by
  have hmiddle := (bodyRule_mirrors h).shrinks hthen
  obtain ⟨ahead, rfl, hahead, -⟩ :=
    exists_front (hlast.trans hmiddle) ((conditionRule_mirrors h.exprs).shrinks hcondition)
  obtain ⟨rest, rfl, hrest, -⟩ := exists_front hlast hmiddle
  obtain ⟨ahead', hcondition', hjoined⟩ :=
    (conditionRule_mirrors h.exprs).exists_left henv behind' hfront (hleft.of_isSuffix hahead) hcondition
  obtain ⟨thenBranch', rest', hthen', hview, hjoined⟩ :=
    (bodyRule_mirrors h).follows henv behind' hjoined (hleft.of_isSuffix hrest) hthen
  obtain ⟨elseBranch', left', helse', hview', hjoined⟩ := helse rfl hjoined
  refine ⟨_, left', chain_of_elseIf hspanning hcondition' hthen' helse' p, ?_, hjoined⟩
  rw [Statement.renumber_conditional, Option.map_some, Option.map_some]
  exact congrArg some (Statement.shownElse_conditional hview hview' hplace _)

include hinner

/-- An `if` in an else branch is one round of the loop, if its own rest is read by the loop. -/
theorem readsChain_nested (hjoins : χ.joins = true) {q : Position}
    (hbranch : bodyRule (statementRules depth) env (⟨.keyword .ifWord, q⟩ :: (front ++ behind)) =
      .ok (branch, left ++ behind)) (p : Position) :
    ReadsChain χ rules' env' (⟨.keyword .elseIfWord, p⟩ :: (front' ++ behind')) (some (branch.renumber χ.ρ)) left
      behind' := by
  obtain ⟨inner, hdepth, hif⟩ := ifRule_of_bodyRule hbranch
  obtain ⟨condition, middle, hcondition, hif⟩ := Rule.ok_of_bind hif
  obtain ⟨thenBranch, last, hthen, hif⟩ := Rule.ok_of_bind hif
  obtain ⟨elseBranch, _, helse, ⟨⟩⟩ := Rule.ok_of_bind hif
  obtain ⟨hrules, hotherwise⟩ := hinner inner hdepth
  have henv := (henv.inEmptyScope.entered .statement).entered .ifStatement
  refine readsChain_elseIf hspanning henv hfront hleft hrules hcondition hthen (hotherwise.shrinks helse) ?_
    (by simp [hjoins])
  rintro rest rest' rfl hrest
  exact hotherwise.follows henv behind' hrest hleft helse

/-- The two ways of reading a chain agree, if there are steps enough. Without joined words, each condition takes two
rules more than the one before, so the rest of the chain is read by rules for which all this is known. -/
theorem readsChain_of_elseRule (h : (statementRules depth).Mirrored χ rules')
    (hlength : (front ++ behind).length < (left ++ behind).length + steps.length)
    (hok : elseRule (statementRules depth) steps env (front ++ behind) = .ok (found, left ++ behind)) :
    ReadsChain χ rules' env' (front' ++ behind') (found.map (Statement.renumber χ.ρ)) left behind' := by
  have hspanning' := statementRules_spanning depth
  have hsuffix := (elseRule_maySpan hspanning' steps [] found _ hok).isSuffix
  induction steps generalizing front front' found with
  | nil =>
    rw [(Prod.mk.inj (Except.ok.inj hok)).2] at hlength
    exact absurd hlength (Nat.lt_irrefl _)
  | cons step steps ih =>
    cases hfront with
    | nil => exact absurd (List.suffix_nil.mp (List.suffix_append_self_iff.mp hsuffix)) hleft.1
    | @keep token rest rest' hrest =>
      obtain ⟨kind, p⟩ := token
      by_cases helseIf : kind = .keyword .elseIfWord
      · subst helseIf
        rw [List.cons_append, elseRule_elseIf] at hok
        obtain ⟨condition, middle, hcondition, hok⟩ := Rule.ok_of_bind hok
        obtain ⟨thenBranch, last, hthen, hok⟩ := Rule.ok_of_bind hok
        obtain ⟨elseBranch, _, helse, ⟨⟩⟩ := Rule.ok_of_bind hok
        -- the steps that are left are still more than the loop takes tokens
        have hmiddle := (conditionRule_spans hspanning'.exprs [] condition middle hcondition).length_lt
        have hlast := (bodyRule_spans hspanning' [] thenBranch last hthen).length_lt
        have hmay := (elseRule_maySpan hspanning' steps [] elseBranch _ helse).isSuffix
        simp only [List.cons_append, List.length_cons] at hlength
        refine readsChain_elseIf hspanning henv hrest hleft h hcondition hthen hmay ?_ fun _ => rfl
        rintro ahead ahead' rfl hahead
        exact ih hahead (by omega) helse hmay
      · by_cases helse : kind = .keyword .elseWord
        · subst helse
          rw [List.cons_append, elseRule_else] at hok
          obtain ⟨branch, _, hbranch, ⟨⟩⟩ := Rule.ok_of_bind hok
          exact readsChain_else henv hrest hleft h hbranch p
        · rw [List.cons_append, elseRule_of_ne helseIf helse] at hok
          obtain ⟨rfl, heq⟩ := Prod.mk.inj (Except.ok.inj hok)
          obtain rfl := List.append_cancel_right (List.cons_append ▸ heq)
          exact ⟨none, ⟨kind, p⟩ :: rest', elseRule_of_ne helseIf helse p, rfl, .keep _ hrest⟩
    | join hjoins p q hrest =>
      rw [List.cons_append, elseRule_else] at hok
      obtain ⟨branch, _, hbranch, ⟨⟩⟩ := Rule.ok_of_bind hok
      exact readsChain_nested hspanning hinner henv hrest hleft hjoins hbranch p

end Rounds

include hspanning hinner

theorem mirrorsElse_of_mirrored (h : (statementRules depth).Mirrored χ rules') :
    MirrorsElse χ (statementRules depth) rules' := by
  refine ⟨fun env tokens rest found hok => ?_,
    fun env env' henv front front' left behind behind' found hfront hleft hok => ?_⟩
  · exact (elseRule_maySpan (statementRules_spanning depth) _ [] found rest hok).isSuffix
  · exact readsChain_of_elseRule hspanning hinner henv hfront hleft h
      (by simp only [List.length_cons]; omega) hok

end Chains

theorem StatementRules.Mirrored.stuck (rules' : StatementRules) : StatementRules.stuck.Mirrored χ rules' := by
  constructor
  · constructor <;> first | exact .tooDeep | exact fun _ => .tooDeep | exact fun _ _ => .tooDeep
  all_goals first | exact .tooDeep | exact fun _ => .tooDeep | exact fun _ => .fail _ _

/-- Whatever the rules for statements read, they read in other surroundings and where more rules may be entered. -/
theorem statementRules_mirrored {depth depth' : Nat} (hdepth : depth ≤ depth') :
    (statementRules depth).Mirrored χ (statementRules depth') ∧
      MirrorsElse χ (statementRules depth) (statementRules depth') := by
  induction depth using Nat.strongRecOn generalizing depth' with
  | _ depth ih =>
    have hrules : (statementRules depth).Mirrored χ (statementRules depth') := by
      cases depth with
      | zero => exact .stuck _
      | succ depth =>
        obtain ⟨depth', rfl⟩ := Nat.exists_eq_add_one_of_ne_zero (Nat.ne_zero_of_lt hdepth)
        have hdepth := Nat.le_of_succ_le_succ hdepth
        obtain ⟨ih, hotherwise⟩ := ih depth (Nat.lt_succ_self depth) hdepth
        have hspanning := statementRules_spanning depth
        have hspanning' := statementRules_spanning depth'
        have htype := typeRule_mirrors (χ := χ) hdepth
        exact {
          exprs := by
            rw [statementRules_exprs, statementRules_exprs]
            exact exprRules_mirrored (Nat.succ_le_succ hdepth)
          variableDeclaration := .named (variableRule_mirrors ih.exprs htype) _
          constantDeclaration := .named (constantRule_mirrors ih.exprs htype) _
          constant_isValue := fun env => .within (constantRule_isValue _)
          statement := .named (statementRule_mirrors ih hspanning) _
          declared_isValue := fun env => .within (statementRule_isValue ih.constant_isValue _)
          block := .named (.withSteps (statementsToBrace_mirrors hspanning.statement ih.declared_isValue ih.statement)
            (statementsToBrace_steady hspanning'.statement)) _
          ifStatement := fun p => .named (ifRule_mirrors ih hotherwise p) _
          whileStatement := fun p => .named (whileRule_mirrors ih p) _
          forStatement := fun p => .named (forRule_mirrors ih hspanning hspanning' p) _
          forEachStatement := fun p => .named (forEachRule_mirrors ih htype p) _
          switchStatement := fun p => .named (switchRule_mirrors ih hspanning hspanning' p) _
          returnStatement := fun p => .named (returnRule_mirrors ih.exprs p) _
          expressionStatement := .named (expressionStatementRule_mirrors ih.exprs) _ }
    refine ⟨hrules, mirrorsElse_of_mirrored (statementRules_spanning depth') ?_ hrules⟩
    rintro inner rfl
    exact ih inner (by omega) (by omega)

end Grammar

end Scriptlet
