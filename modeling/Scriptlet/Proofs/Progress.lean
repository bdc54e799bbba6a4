import Scriptlet.Proofs.Loops
import Scriptlet.Proofs.Pieces

/-!
# Every rule makes progress

Every rule of the grammar leaves a proper suffix of the tokens, and every loop ends.
-/

namespace Scriptlet.Grammar

open Rule

def itemsRound (depth : Nat) (next : Unit → Rule (List Item)) (_ : Unit) : Rule (List Item) := do
  let kind ← peek
  if kind.isEnd then return []
  else return (← itemOf depth kind) :: (← next ())

theorem itemsRound_shrinks (depth : Nat) : Shrinks (itemsRound depth) := by
  refine fun P next next' env tokens _ hnext => .peek ?_
  split
  · exact .refl _
  · refine (itemOf_isPiece depth).agree fun item rest hitem => (hnext () env rest ?_).map _
    obtain ⟨piece, hne, htokens, -⟩ := hitem
    have hpositive := List.length_pos_iff.mpr hne
    rw [htokens, List.length_append]
    omega

def ListsEnd {α : Type} (item : Rule α) : Prop :=
  ∀ closes closing, Ends (commaRound item closes closing) fun steps _ => commaList item closes closing steps

def BracedListsEnd {α : Type} (item : Rule α) : Prop :=
  Ends (bracedRound item) fun steps _ => bracedList item steps

def ChainsEnd {α : Type} (operand : Rule Expr) (operator? : TokenKind → Option α)
    (combine : Expr → α → Expr → Rule Expr) : Prop :=
  Ends (chainRound operand operator? combine) (chain operand operator? combine)

section Ends

variable {α : Type} {item : Rule α}

theorem listsEnd (h : item.Progresses) : ListsEnd item :=
  fun closes closing => (commaRound_shrinks h closes closing).ends fun _ _ _ => rfl

theorem bracedListsEnd (h : item.Progresses) : BracedListsEnd item :=
  (bracedRound_shrinks h).ends fun _ _ _ => rfl

theorem chainsEnd {operand : Rule Expr} (h : operand.Progresses) (operator? : TokenKind → Option α)
    {combine : Expr → α → Expr → Rule Expr} (hcombine : ∀ left op right, (combine left op right).Still) :
    ChainsEnd operand operator? combine :=
  (chainRound_shrinks h operator? hcombine).ends fun _ _ _ => rfl

end Ends

/-- Every rule of the grammar leaves a proper suffix of the tokens. -/
structure RulesProgress (type : Rule Ty) (exprs : ExprRules) (rules : StatementRules) : Prop where
  types : type.Progresses
  levels : ∀ rule ∈ [exprs.expression, exprs.assignment, exprs.ternary, exprs.logicalOr, exprs.logicalAnd,
    exprs.equality, exprs.comparison, exprs.term, exprs.factor, exprs.power, exprs.unary, exprs.suffixed,
    exprs.primary], rule.Progresses
  arguments : exprs.arguments.Progresses
  call : ∀ name position, (exprs.call name position).Progresses
  construction : ∀ position, (exprs.construction position).Progresses
  initializerItems : ∀ element, (itemsRule exprs element).Progresses
  executables : ∀ terminator, (executables exprs terminator).Progresses
  parameters : (parametersRule type).Progresses
  variableDeclaration : rules.variableDeclaration.Progresses
  constantDeclaration : rules.constantDeclaration.Progresses
  statement : rules.statement.Progresses
  body : (bodyRule rules).Progresses
  block : rules.block.Progresses
  behindWords : ∀ position, ∀ rule ∈ [rules.ifStatement position, rules.whileStatement position,
    rules.forStatement position, rules.forEachStatement position, rules.switchStatement position,
    rules.returnStatement position], rule.Progresses
  expressionStatement : rules.expressionStatement.Progresses

/-- Every loop of the grammar ends. -/
structure LoopsEnd (depth : Nat) (type : Rule Ty) (exprs : ExprRules) (rules : StatementRules) : Prop where
  items : Ends (itemsRound depth) fun steps _ => itemsFrom depth steps
  typeArguments : ListsEnd type
  parameters : ListsEnd (parameterRule type)
  arguments : ListsEnd exprs.expression
  executables : ListsEnd (executable exprs)
  initializerItems : ∀ element, BracedListsEnd (typedExpression exprs element .collectionItem)
  entries : ∀ key value, BracedListsEnd (entryRule exprs key value)
  logicalOr : ChainsEnd exprs.logicalAnd orOp? combineLogical
  logicalAnd : ChainsEnd exprs.equality andOp? combineLogical
  equality : ChainsEnd exprs.comparison equalityOp? combineInfix
  comparison : ChainsEnd exprs.term comparisonOp? combineInfix
  term : ChainsEnd exprs.factor termOp? combineInfix
  factor : ChainsEnd exprs.power factorOp? combineInfix
  suffixes : Ends (suffixRound exprs) (suffixes exprs)
  block : Ends (blockRound rules.statement) fun steps _ => statementsToBrace rules.statement steps
  elseBranches : Ends (elseRound rules) fun steps _ => elseRule rules steps
  labels : ∀ value seen hasDefault, Ends (labelsRound exprs value seen hasDefault) fun steps found =>
    labelsRule exprs value seen hasDefault steps found.1 found.2
  sectionBody : Ends (sectionBodyRound rules.statement) fun steps _ => sectionBody rules.statement steps
  sections : ∀ value, Ends (sectionsRound rules value) fun steps found => sectionsRule rules value steps found.1 found.2

theorem rulesProgress_of_spanning {type : Rule Ty} {exprs : ExprRules} {rules : StatementRules}
    (htype : type.Spans false [] []) (hexprs : exprs.Spanning) (h : rules.Spanning) :
    RulesProgress type exprs rules where
  types := htype.progresses
  levels := by
    simp only [List.forall_mem_cons]
    exact ⟨hexprs.expression.progresses, hexprs.assignment.progresses, hexprs.ternary.progresses,
      hexprs.logicalOr.progresses, hexprs.logicalAnd.progresses, hexprs.equality.progresses,
      hexprs.comparison.progresses, hexprs.term.progresses, hexprs.factor.progresses, hexprs.power.progresses,
      hexprs.unary.progresses, hexprs.suffixed.progresses, hexprs.primary.progresses, nofun⟩
  arguments := hexprs.arguments.progresses
  call name position := (hexprs.call name position).progresses
  construction position := (hexprs.construction position).progresses
  initializerItems element := (itemsRule_spans hexprs element).progresses
  executables terminator := by
    refine fun _ _ => .peek ?_
    split
    · next hend => exact .skip (.pure (proper_tail (by simp [eq_of_isSeparator hend])))
    · exact .withSteps fun steps => @commaList_progresses _ _ (executable_spans hexprs).progresses _ _ steps _ _
  parameters := (parametersRule_spans htype).progresses
  variableDeclaration := h.variableDeclaration.spans.progresses
  constantDeclaration := h.constantDeclaration.spans.progresses
  statement := h.statement.progresses
  body := (bodyRule_spans h).progresses
  block := (h.block.closes rfl).progresses
  behindWords position := by
    simp only [List.forall_mem_cons]
    exact ⟨(h.ifStatement position).progresses, (h.whileStatement position).progresses,
      (h.forStatement position).progresses, (h.forEachStatement position).progresses,
      (h.switchStatement position).progresses, (h.returnStatement position).progresses, nofun⟩
  expressionStatement := h.expressionStatement.progresses

theorem loopsEnd_of_spanning (depth : Nat) {type : Rule Ty} {exprs : ExprRules} {rules : StatementRules}
    (htype : type.Spans false [] []) (hexprs : exprs.Spanning) (h : rules.Spanning) :
    LoopsEnd depth type exprs rules where
  items := (itemsRound_shrinks depth).ends fun _ _ _ => itemsFrom_cons depth _ _
  typeArguments := listsEnd htype.progresses
  parameters := listsEnd (parameterRule_spans htype).progresses
  arguments := listsEnd hexprs.expression.progresses
  executables := listsEnd (executable_spans hexprs).progresses
  initializerItems _ := bracedListsEnd (typedExpression_spans hexprs _ _).progresses
  entries key value := bracedListsEnd (entryRule_spans hexprs key value).progresses
  logicalOr := chainsEnd hexprs.logicalAnd.progresses _ combineLogical_still
  logicalAnd := chainsEnd hexprs.equality.progresses _ combineLogical_still
  equality := chainsEnd hexprs.comparison.progresses _ combineInfix_still
  comparison := chainsEnd hexprs.term.progresses _ combineInfix_still
  term := chainsEnd hexprs.factor.progresses _ combineInfix_still
  factor := chainsEnd hexprs.power.progresses _ combineInfix_still
  suffixes := (suffixRound_shrinks hexprs).ends fun _ _ _ => rfl
  block := (blockRound_shrinks h.statement.progresses).ends fun _ _ _ => rfl
  elseBranches := (elseRound_shrinks h).ends fun _ _ _ => rfl
  labels value seen hasDefault := (labelsRound_shrinks hexprs value seen hasDefault).ends fun _ _ _ => rfl
  sectionBody := (sectionBodyRound_shrinks h.statement.progresses).ends fun _ _ _ => rfl
  sections value := (sectionsRound_shrinks h value).ends fun _ _ _ => rfl

/-- Whatever the tokens and the surroundings are, and however many rules may still be entered: a rule of the grammar
that reads something leaves a proper suffix of the tokens, and every loop of the grammar ends. -/
theorem rules_make_progress (depth : Nat) :
    RulesProgress (typeRule depth) (exprRules depth) (statementRules depth) ∧
      LoopsEnd depth (typeRule depth) (exprRules depth) (statementRules depth) :=
  ⟨rulesProgress_of_spanning (typeRule_spans depth) (exprRules_spanning depth) (statementRules_spanning depth),
    loopsEnd_of_spanning depth (typeRule_spans depth) (exprRules_spanning depth) (statementRules_spanning depth)⟩

end Scriptlet.Grammar
