import Scriptlet.Proofs.Nesting.Expressions

/-!
# Statements are nested runs

Every rule for statements takes at least one token, and what it takes is a nested run, now with semicolons. A
declaration has no semicolon outside of brackets but the one at its end, so that the search for a semicolon ends where
the declaration does.
-/

namespace Scriptlet.Grammar

namespace Rule

variable {α : Type}

/-- A rule that reads a nested run and the separator behind it, at which no bracket of the run is open. -/
def Concludes (semicolons : Bool) (sign : Separator) (rule : Rule α) : Prop :=
  ∀ ⦃env : Env⦄ ⦃tokens : List Token⦄ (pending : List Separator), rule.Reads env tokens fun _ rest =>
    ∃ behind, Through semicolons pending tokens pending behind ∧ firstKind behind = .separator sign ∧
      rest = behind.tail

section Concludes

variable {semicolons : Bool} {sign : Separator} {rule : Rule α}

theorem Concludes.spans (h : rule.Concludes false .semicolon) : rule.Spans true [] [] := by
  intro env tokens pending a rest hok
  obtain ⟨behind, hrun, hsemicolon, rfl⟩ := h pending a rest hok
  exact hrun.allow.advances (advances_plain hsemicolon rfl)

theorem Concludes.closes (h : rule.Concludes semicolons sign) (hsign : sign.isClosing = true) :
    rule.Spans semicolons [sign] [] := by
  intro env tokens pending a rest hok
  obtain ⟨behind, hrun, hclose, rfl⟩ := h (sign :: pending) a rest hok
  exact hrun.advances (advances_closing hclose hsign)

theorem Concludes.named (h : rule.Concludes semicolons sign) (name : RuleName) :
    (rule.named name).Concludes semicolons sign :=
  fun _ _ pending => h pending

theorem Concludes.tooDeep : (Rule.tooDeep : Rule α).Concludes semicolons sign :=
  fun _ _ _ => .fail _ _

end Concludes

theorem separator_reads (sign : Separator) {env : Env} {tokens : List Token} :
    (separator sign).Reads env tokens fun _ rest => firstKind tokens = .separator sign ∧ rest = tokens.tail := by
  refine .peek ?_
  split
  · next hsign => exact .of_eq rfl ⟨eq_of_isSeparator hsign, rfl⟩
  · exact .expected _

end Rule

open Rule

section Declarations

variable {type : Rule Ty} {rules : ExprRules} (h : rules.Spanning)

include h

theorem initialRule_maySpan (ty : Ty) : (initialRule rules ty).MaySpan false := by
  intro env tokens pending
  refine .peek ?_
  split
  · next hassign =>
    exact .skip ((typedExpression_spans h ty _ pending).bind fun _ _ he =>
      .pure ((advances_plain (eq_of_isOperator hassign) rfl).trans he).through)
  · exact .pure (.refl _ _ _)

theorem variableRule_concludes (htype : type.Spans false [] []) :
    (variableRule type rules).Concludes false .semicolon := by
  intro env tokens pending
  refine .here ((htype pending).bind fun ty _ hty => (@identifier_spans false _ _ pending).bind fun name _ hname => ?_)
  split
  · exact .fail _ _
  · exact (initialRule_maySpan h ty pending).bind fun _ behind hinitial => (separator_reads _).bind
      fun _ _ hsemicolon => (expectFresh_still _ _).andThen fun _ =>
        .pure ⟨behind, (hty.trans hname).through.trans hinitial, hsemicolon⟩

theorem constantRule_concludes (htype : type.Spans false [] []) :
    (constantRule type rules).Concludes false .semicolon := by
  intro env tokens pending
  refine .here ((htype pending).bind fun ty _ hty => (@identifier_spans false _ _ pending).bind fun name _ hname =>
    (@operator_spans false _ _ _ pending).bind fun _ _ hassign => (h.expression pending).bind fun initial behind hinitial =>
      (separator_reads _).bind fun _ _ hsemicolon => ?_)
  split
  · exact .fail _ _
  · exact (expectAssignable_still _ _ _).andThen fun _ => (expectFresh_still _ _).andThen fun _ =>
      .pure ⟨behind, (hty.trans (hname.trans (hassign.trans hinitial))).through, hsemicolon⟩

theorem conditionRule_spans : (conditionRule rules).Spans false [] [] :=
  fun _ _ pending => (separator_opens rfl pending).bind fun _ _ hopen =>
    (typedExpression_spans h _ _ (.closeParen :: pending)).bind fun _ _ he =>
      (separator_closes rfl pending).bind fun _ _ hclose => .pure (hopen.trans (he.trans hclose))

theorem executable_spans : (executable rules).Spans false [] [] := by
  refine fun _ _ pending => (h.expression pending).bind fun e _ he => ?_
  split
  · exact .pure he
  · exact .fail _ _

theorem executables_spans {terminator : Separator} {before : List Separator}
    (hterminator : ∀ tokens pending, firstKind tokens = .separator terminator →
      Advances true (before ++ pending) tokens pending tokens.tail) :
    (executables rules terminator).Spans true before [] := by
  intro env tokens pending
  refine .peek ?_
  split
  · next hend => exact .skip (.pure (hterminator _ _ (eq_of_isSeparator hend)))
  · exact .withSteps fun steps => commaList_spans _ (executable_spans h).allow
      (fun _ _ hend => hterminator _ _ (eq_of_isSeparator hend)) steps pending

theorem executables_closes : (executables rules .closeParen).Spans true [.closeParen] [] :=
  executables_spans h fun _ _ hend => advances_closing hend rfl

theorem forConditionRule_maySpan : (forConditionRule rules).MaySpan false := by
  refine fun _ _ pending => .peek ?_
  split
  · exact .pure (.refl _ _ _)
  · exact (typedExpression_spans h _ _ pending).bind fun _ _ he => .pure he.through

theorem labelRule_spans (value : Ty) (seen : List Value) : (labelRule rules value seen).Spans false [] [] := by
  intro env tokens pending
  refine .peek (.here ((h.expression pending).bind fun label _ hlabel => ?_))
  split
  · exact .fail _ _
  · refine (expectAssignable_still _ _ _).andThen fun _ => ?_
    dsimp only
    split
    · exact .fail _ _
    · exact (separator_plain rfl pending).bind fun _ _ hcolon => .pure (hlabel.trans hcolon)

theorem labelsRule_maySpan (value : Ty) (seen : List Value)
    (hasDefault : Bool) (steps : Steps) : ∀ (labels : List Value) (isDefault : Bool),
      (labelsRule rules value seen hasDefault steps labels isDefault).MaySpan false := by
  induction steps with
  | nil => exact fun _ _ _ _ _ => .pure (.refl _ _ _)
  | cons _ steps ih =>
    intro labels isDefault env tokens pending
    refine .peek ?_
    split
    · next hword =>
      refine .skip ((labelRule_spans h _ _ pending).bind fun label _ hlabel a rest hok => ?_)
      have hone := (advances_plain hword rfl).trans hlabel
      exact hone.through.trans (ih _ _ pending a rest hok)
    · next hword =>
      split
      · exact .here (.fail _ _)
      · refine .skip ((@separator_plain false _ rfl _ _ pending).bind fun _ _ hcolon a rest hok => ?_)
        have hone := (advances_plain hword rfl).trans hcolon
        exact hone.through.trans (ih _ _ pending a rest hok)
    · split
      · exact .expected _
      · exact .pure (.refl _ _ _)

theorem returnRule_spans (position : Position) : (returnRule rules position).Spans true [] [] := by
  intro env tokens pending
  refine .ask (.peek ?_)
  split
  · next hsemicolon =>
    split
    · exact .skip (.pure (advances_plain (eq_of_isSeparator hsemicolon) rfl))
    · exact .fail _ _
  · refine (h.expression.allow pending).bind fun value _ hvalue => ?_
    split
    · exact .fail _ _
    · exact (expectAssignable_still _ _ _).andThen fun _ => (separator_plain rfl pending).bind fun _ _ hsemicolon =>
        .pure (hvalue.trans hsemicolon)

theorem expressionStatementRule_spans : (expressionStatementRule rules).Spans true [] [] :=
  fun _ _ pending => ((executable_spans h).allow pending).bind fun _ _ he => (separator_plain rfl pending).bind
    fun _ _ hsemicolon => .pure (he.trans hsemicolon)

end Declarations

/-- The rules for statements take nested runs. -/
structure StatementRules.Spanning (rules : StatementRules) : Prop where
  exprs : rules.exprs.Spanning
  variableDeclaration : rules.variableDeclaration.Concludes false .semicolon
  constantDeclaration : rules.constantDeclaration.Concludes false .semicolon
  statement : rules.statement.Spans true [] []
  block : rules.block.Concludes true .closeBrace
  ifStatement : ∀ position, (rules.ifStatement position).Spans true [] []
  whileStatement : ∀ position, (rules.whileStatement position).Spans true [] []
  forStatement : ∀ position, (rules.forStatement position).Spans true [] []
  forEachStatement : ∀ position, (rules.forEachStatement position).Spans true [] []
  switchStatement : ∀ position, (rules.switchStatement position).Spans true [] []
  returnStatement : ∀ position, (rules.returnStatement position).Spans true [] []
  expressionStatement : rules.expressionStatement.Spans true [] []

section Bodies

theorem statementsToBrace_concludes {statement : Rule (Statement × Declared)} (h : statement.Spans true [] [])
    (steps : Steps) : (statementsToBrace statement steps).Concludes true .closeBrace := by
  induction steps with
  | nil => exact fun _ _ _ => .expected _
  | cons _ steps ih =>
    intro env tokens pending
    refine .peek ?_
    split
    · next hclose => exact .skip (.pure ⟨tokens, .refl _ _ _, hclose, rfl⟩)
    · exact .expected _
    · refine (h pending).bind fun _ _ hfirst => (Reads.within (ih pending)).bind fun _ _ hrest => .pure ?_
      obtain ⟨behind, hrun, hclose⟩ := hrest
      exact ⟨behind, hfirst.through.trans hrun, hclose⟩

theorem sectionBody_maySpan {statement : Rule (Statement × Declared)} (h : statement.Spans true [] [])
    (steps : Steps) : (sectionBody statement steps).MaySpan true := by
  induction steps with
  | nil => exact fun _ _ _ => .pure (.refl _ _ _)
  | cons _ steps ih =>
    intro env tokens pending
    refine .peek ?_
    split
    · exact .pure (.refl _ _ _)
    · exact .pure (.refl _ _ _)
    · exact .pure (.refl _ _ _)
    · exact .pure (.refl _ _ _)
    · exact (h pending).bind fun _ _ hfirst => (Reads.within (ih pending)).bind fun _ _ hrest =>
        .pure (hfirst.through.trans hrest)

end Bodies

theorem keyworded_reads {α β : Type} {rule : Rule α} {f : α → β} (h : rule.Spans true [] []) {env : Env}
    {tokens : List Token} {word : Keyword} (hword : firstKind tokens = .keyword word) (pending : List Separator) :
    (do skip; return f (← rule) : Rule β).Reads env tokens fun _ rest => Advances true pending tokens pending rest :=
  .skip ((h pending).bind fun _ _ hrest => .pure ((advances_plain hword rfl).trans hrest))

section Rules

variable {rules : StatementRules} (h : rules.Spanning)

include h

theorem bodyRule_spans : (bodyRule rules).Spans true [] [] :=
  fun _ _ pending => Reads.within ((h.statement pending).bind fun _ _ hbody => .pure hbody)

theorem loopBodyRule_spans : (loopBodyRule rules).Spans true [] [] :=
  fun _ _ pending => Reads.within (bodyRule_spans h pending)

theorem elseRule_maySpan (steps : Steps) : (elseRule rules steps).MaySpan true := by
  induction steps with
  | nil => exact fun _ _ _ => .pure (.refl _ _ _)
  | cons _ steps ih =>
    intro env tokens pending
    refine .peek ?_
    split
    · next hword =>
      exact .here (.skip (((conditionRule_spans h.exprs).allow pending).bind fun _ _ hcondition =>
        (bodyRule_spans h pending).bind fun _ _ hthen => (ih pending).bind fun _ _ helse =>
          .pure ((advances_plain hword rfl).trans (hcondition.trans (hthen.andThen helse))).through))
    · next hword =>
      exact .skip ((bodyRule_spans h pending).bind fun _ _ helse =>
        .pure ((advances_plain hword rfl).trans helse).through)
    · exact .pure (.refl _ _ _)

theorem ifRule_spans (position : Position) : (ifRule rules position).Spans true [] [] :=
  fun _ _ pending => ((conditionRule_spans h.exprs).allow pending).bind fun _ _ hcondition =>
    (bodyRule_spans h pending).bind fun _ _ hthen =>
      (Reads.withSteps fun steps => elseRule_maySpan h steps pending).bind fun _ _ helse =>
        .pure (hcondition.trans (hthen.andThen helse))

theorem whileRule_spans (position : Position) : (whileRule rules position).Spans true [] [] :=
  fun _ _ pending => ((conditionRule_spans h.exprs).allow pending).bind fun _ _ hcondition =>
    (loopBodyRule_spans h pending).bind fun _ _ hbody => .pure (hcondition.trans hbody)

theorem forInitialRule_spans : (forInitialRule rules).Spans true [] [] := by
  refine fun _ _ pending => .here (.peek (.peekSecond ?_))
  split
  · exact (h.variableDeclaration.spans pending).bind fun _ _ hdeclaration => .pure hdeclaration
  · exact (executables_spans h.exprs (fun _ _ hend => advances_plain hend rfl) pending).bind fun _ _ hexpressions =>
      .pure hexpressions

theorem forRule_spans (position : Position) : (forRule rules position).Spans true [] [] :=
  fun _ _ pending => Reads.within ((separator_opens rfl pending).bind fun _ _ hopen =>
    (forInitialRule_spans h (.closeParen :: pending)).bind fun _ _ hinitial => Reads.within
      ((forConditionRule_maySpan h.exprs (.closeParen :: pending)).bind fun _ _ hcondition =>
        (separator_plain rfl (.closeParen :: pending)).bind fun _ _ hsemicolon =>
          (executables_closes h.exprs pending).bind fun _ _ hincrements =>
            (loopBodyRule_spans h pending).bind fun _ _ hbody =>
              .pure (hopen.trans (hinitial.trans (hcondition.allow.advances (hsemicolon.trans
                (hincrements.trans hbody)))))))

theorem forEachRule_spans {type : Rule Ty} (htype : type.Spans false [] [])
    (position : Position) : (forEachRule type rules position).Spans true [] [] := by
  intro env tokens pending
  refine .within ((@separator_opens true _ _ rfl _ _ pending).bind fun _ _ hopen => .here
    ((htype.allow (.closeParen :: pending)).bind fun ty _ hty => (@identifier_spans true _ _ (.closeParen :: pending)).bind
      fun name _ hname => (@keyword_spans true _ _ _ (.closeParen :: pending)).bind fun _ _ hword =>
        (h.exprs.expression.allow (.closeParen :: pending)).bind fun collection _ hcollection =>
          (@separator_closes true _ rfl _ _ pending).bind fun _ _ hclose => ?_))
  have hhead := hopen.trans (hty.trans (hname.trans (hword.trans (hcollection.trans hclose))))
  split
  · exact .fail _ _
  · refine .ask ?_
    split
    · exact (expectFresh_still _ _).andThen fun _ => (Reads.within (loopBodyRule_spans h pending)).bind
        fun _ _ hbody => .pure (hhead.trans hbody)
    · exact .fail _ _

theorem sectionsRule_spans (value : Ty) (steps : Steps) : ∀ (seen : List Value) (hasDefault : Bool),
      (sectionsRule rules value steps seen hasDefault).Spans true [.closeBrace] [] := by
  induction steps with
  | nil => exact fun _ _ _ _ _ => .expected _
  | cons _ steps ih =>
    intro seen hasDefault env tokens pending
    refine .peek ?_
    split
    · next hclose => exact .skip (.pure (advances_closing (eq_of_isSeparator hclose) rfl))
    · exact (Reads.withSteps fun steps => labelsRule_maySpan h.exprs value seen hasDefault steps [] false
          ([.closeBrace] ++ pending)).bind fun labels _ hlabels =>
        (Reads.within (.withSteps fun steps => sectionBody_maySpan h.statement steps ([.closeBrace] ++ pending))).bind
          fun _ _ hbody => (ih _ _ pending).bind fun _ _ hsections =>
            .pure (hlabels.allow.advances (hbody.advances hsections))

theorem switchRule_spans (position : Position) : (switchRule rules position).Spans true [] [] :=
  fun _ _ pending => (separator_opens rfl pending).bind fun _ _ hopen =>
    (h.exprs.expression.allow (.closeParen :: pending)).bind fun value _ hvalue =>
      (separator_closes rfl pending).bind fun _ _ hclose => (separator_opens rfl pending).bind fun _ _ hbrace =>
        (Reads.within (.withSteps fun steps => sectionsRule_spans h value.ty steps [] false pending)).bind
          fun _ _ hsections => .pure (hopen.trans (hvalue.trans (hclose.trans (hbrace.trans hsections))))

theorem plainStatement_spans (position : Position) : (plainStatement rules position).Spans true [] [] := by
  refine fun _ _ pending => .peek (.peekSecond ?_)
  split
  · exact (h.variableDeclaration.spans pending).bind fun _ _ hdeclaration => .pure hdeclaration
  · exact (h.expressionStatement pending).bind fun _ _ he => .pure he

theorem statementRule_spans : (statementRule rules).Spans true [] [] := by
  refine fun _ tokens pending => .here (.peek ?_)
  split
  · next hbrace =>
    have hopen : Advances true pending tokens (.closeBrace :: pending) tokens.tail := advances_opening hbrace rfl
    exact .skip ((Reads.within (h.block.closes rfl pending)).bind fun _ _ hbody => .pure (hopen.trans hbody))
  · next hsemicolon => exact .skip (.pure (advances_plain hsemicolon rfl))
  · next hword => exact keyworded_reads (h.ifStatement _) hword pending
  · next hword => exact keyworded_reads (h.whileStatement _) hword pending
  · next hword => exact keyworded_reads (h.forStatement _) hword pending
  · next hword => exact keyworded_reads (h.forEachStatement _) hword pending
  · next hword => exact keyworded_reads (h.switchStatement _) hword pending
  · next hword =>
    refine .ask ?_
    split
    · exact keyworded_reads (f := fun _ => _) (separator_plain rfl) hword pending
    · exact .fail _ _
  · next hword =>
    refine .ask ?_
    split
    · exact keyworded_reads (f := fun _ => _) (separator_plain rfl) hword pending
    · exact .fail _ _
  · next hword => exact keyworded_reads (h.returnStatement _) hword pending
  · next hword => exact keyworded_reads h.constantDeclaration.spans hword pending
  · refine .peekSecond ?_
    split
    · exact .fail _ _
    · exact plainStatement_spans h _ pending
  · exact plainStatement_spans h _ pending

end Rules

theorem StatementRules.Spanning.stuck : StatementRules.stuck.Spanning := by
  constructor
  · exact .stuck
  all_goals first | exact .tooDeep | exact fun _ => .tooDeep

theorem StatementRules.Spanning.around {type : Rule Ty} (htype : type.Spans false [] []) {rules : StatementRules}
    (h : rules.Spanning) : (rules.around type).Spanning where
  exprs := h.exprs.around htype
  variableDeclaration := (variableRule_concludes h.exprs htype).named _
  constantDeclaration := (constantRule_concludes h.exprs htype).named _
  statement := (statementRule_spans h).named _
  block := Concludes.named
    (fun _ _ pending => .withSteps fun steps => statementsToBrace_concludes h.statement steps pending) _
  ifStatement position := (ifRule_spans h position).named _
  whileStatement position := (whileRule_spans h position).named _
  forStatement position := (forRule_spans h position).named _
  forEachStatement position := (forEachRule_spans h htype position).named _
  switchStatement position := (switchRule_spans h position).named _
  returnStatement position := (returnRule_spans h.exprs position).named _
  expressionStatement := (expressionStatementRule_spans h.exprs).named _

theorem statementRules_spanning (depth : Nat) : (statementRules depth).Spanning := by
  induction depth with
  | zero => exact .stuck
  | succ depth ih => exact ih.around (typeRule_spans depth)

end Scriptlet.Grammar
