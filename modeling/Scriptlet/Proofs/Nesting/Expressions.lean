import Scriptlet.Proofs.Nesting

/-!
# Types and expressions are nested runs

Every rule for types and expressions takes at least one token, and what it takes is a nested run without a semicolon.
The rules behind an opening bracket take the closing one as well.
-/

namespace Scriptlet.Grammar

open Rule

theorem arraysOver_through (ty : Ty) (tokens : List Token) (pending : List Separator) :
    Through false pending tokens pending (arraysOver ty tokens).2 := by
  fun_induction arraysOver ty tokens with
  | case1 ty first second rest h ih =>
    simp only [Bool.and_eq_true] at h
    have hopen : Advances false pending (first :: second :: rest) (.closeBracket :: pending) (second :: rest) :=
      advances_opening (eq_of_isSeparator h.1) rfl
    have hclose : Advances false (.closeBracket :: pending) (second :: rest) pending rest :=
      advances_closing (eq_of_isSeparator h.2) rfl
    exact (hopen.trans hclose).through.trans ih
  | case2 ty first second rest h => exact .refl _ _ _
  | case3 ty tokens h => exact .refl _ _ _

theorem arraySuffixes_maySpan (ty : Ty) : (arraySuffixes ty).MaySpan false :=
  fun _ tokens pending => .of_eq rfl (arraysOver_through ty tokens pending)

theorem namedType_spans {argument : Rule Ty} (h : argument.Spans false [] []) :
    (namedType argument).Spans false [] [] := by
  intro env tokens pending
  refine .here (.peek ?_)
  split
  · next hkind => exact .skip (.pure (advances_plain hkind rfl))
  · next hkind =>
    refine .skip (.peek ?_)
    split
    · next hless =>
      have hlist : ∀ steps, (commaList argument (·.isOperator .greater) "\",\" or \">\"" steps).Spans false [] [] :=
        commaList_spans _ h fun _ _ hclose => advances_plain (eq_of_isOperator hclose) rfl
      refine .skip ((Reads.withSteps fun steps => hlist steps pending).bind fun arguments behind hlist => ?_)
      split
      · exact .pure ((advances_plain hkind rfl).trans ((advances_plain (eq_of_isOperator hless) rfl).trans hlist))
      · exact .fail _ _
    · exact .fail _ _
  · exact .fail _ _
  · exact .expected _

theorem typeRule_spans (depth : Nat) : (typeRule depth).Spans false [] [] := by
  induction depth with
  | zero => exact .tooDeep
  | succ depth ih =>
    exact fun _ _ pending => Reads.within ((namedType_spans ih pending).bind fun ty _ h =>
      fun a rest hok => h.andThen (arraySuffixes_maySpan ty pending a rest hok))

/-- The rules for expressions take nested runs without semicolons. -/
structure ExprRules.Spanning (rules : ExprRules) : Prop where
  expression : rules.expression.Spans false [] []
  assignment : rules.assignment.Spans false [] []
  ternary : rules.ternary.Spans false [] []
  logicalOr : rules.logicalOr.Spans false [] []
  logicalAnd : rules.logicalAnd.Spans false [] []
  equality : rules.equality.Spans false [] []
  comparison : rules.comparison.Spans false [] []
  term : rules.term.Spans false [] []
  factor : rules.factor.Spans false [] []
  power : rules.power.Spans false [] []
  unary : rules.unary.Spans false [] []
  suffixed : rules.suffixed.Spans false [] []
  primary : rules.primary.Spans false [] []
  arguments : rules.arguments.Spans false [.closeParen] []
  call : ∀ name position, (rules.call name position).Spans false [.closeParen] []
  construction : ∀ position, (rules.construction position).Spans false [] []

section Still

theorem placeOf_still (e : Expr) : (placeOf e).Still := by
  intro env tokens
  unfold placeOf
  split
  · exact .pure rfl
  · exact .pure rfl
  · exact .fail _ _

theorem assignmentOperand_still (op : Option CompoundOp) (target : Ty) (position : Position) (value : Expr) :
    (assignmentOperand op target position value).Still := by
  intro env tokens
  unfold assignmentOperand
  split
  · exact (expectAssignable_still _ _ _).bind fun _ _ h => .pure h
  · split
    · exact .fail _ _
    · refine .ask ?_
      split
      · exact .pure rfl
      · exact .fail _ _
  · split
    · exact .pure rfl
    · exact .fail _ _

theorem caseType_still (thenCase elseCase : Expr) : (caseType thenCase elseCase).Still := by
  intro env tokens
  refine .ask ?_
  split
  · exact .pure rfl
  · split
    · exact .pure rfl
    · exact .fail _ _

theorem combineLogical_still (left : Expr) (op : LogicalOp) (right : Expr) : (combineLogical left op right).Still := by
  intro env tokens
  unfold combineLogical
  split
  · exact .pure rfl
  · exact .fail _ _

theorem combineInfix_still (left : Expr) (op : InfixOp) (right : Expr) : (combineInfix left op right).Still := by
  intro env tokens
  refine .ask ?_
  split
  · exact .pure rfl
  · exact .fail _ _

theorem incrementOf_still (e : Expr) (decrement prefixed : Bool) : (incrementOf e decrement prefixed).Still := by
  intro env tokens
  unfold incrementOf
  split
  · exact (placeOf_still e).bind fun _ _ h => .pure h
  · exact .fail _ _

theorem negationOf_still (e : Expr) (position : Position) : (negationOf e position).Still := by
  intro env tokens
  unfold negationOf
  split
  · split
    · exact .pure rfl
    · exact .pure rfl
  · exact .fail _ _

theorem memberFor_still (owner : Owner) (name : String) (arguments : Option (List Expr)) (position : Position) :
    (memberFor owner name arguments position).Still := by
  intro env tokens
  refine .ask ?_
  split
  · exact .fail _ _
  · split
    · split
      · exact .fail _ _
      · exact .pure rfl
    · exact .pure rfl

theorem checkArguments_still (parameters : List Parameter) (arguments : List Expr) :
    (checkArguments parameters arguments).Still := by
  induction parameters generalizing arguments with
  | nil => exact fun _ _ => .pure rfl
  | cons p ps ih =>
    intro env tokens
    cases arguments with
    | nil => exact .pure rfl
    | cons a rest =>
      exact (expectAssignable_still _ _ _).andThen fun _ => @ih rest env tokens

theorem functionFor_still (name : String) (overloads : List Nat) (arguments : List Expr) (position : Position) :
    (functionFor name overloads arguments position).Still := by
  intro env tokens
  refine .ask ?_
  dsimp only
  split
  · split
    · exact (checkArguments_still _ _).bind fun _ _ h => .pure h
    · exact .fail _ _
  · split
    · exact .pure rfl
    · exact .fail _ _

theorem nameRule_still (name : String) (position : Position) : (nameRule name position).Still := by
  intro env tokens
  refine .ask ?_
  split
  · exact .pure rfl
  · exact .pure rfl
  · exact .fail _ _
  · exact .fail _ _

end Still

section Rules

variable {rules : ExprRules} (h : rules.Spanning)

/-- Only tokens that are neither brackets nor semicolons are operators of a level. -/
def PlainOperators {α : Type} (operator? : TokenKind → Option α) : Prop :=
  ∀ kind op, operator? kind = some op → isPlain false kind = true

theorem PlainOperators.of_none {α : Type} {operator? : TokenKind → Option α} (hend : operator? .endOfInput = none)
    (hsign : ∀ sign, operator? (.separator sign) = none) : PlainOperators operator? := by
  intro kind op hop
  cases kind with
  | endOfInput =>
    rw [hend] at hop
    cases hop
  | separator sign =>
    rw [hsign] at hop
    cases hop
  | _ => rfl

theorem assignment?_plain : PlainOperators assignment? :=
  .of_none rfl fun _ => rfl

section Chains

variable {α : Type} {operand : Rule Expr} {operator? : TokenKind → Option α} {combine : Expr → α → Expr → Rule Expr}
  (hoperand : operand.Spans false [] []) (hoperator : PlainOperators operator?)
  (hcombine : ∀ left op right, (combine left op right).Still)

include hoperand hoperator hcombine

theorem chain_maySpan (steps : Steps) : ∀ left, (chain operand operator? combine steps left).MaySpan false := by
  induction steps with
  | nil => exact fun left _ _ _ => .pure (.refl _ _ _)
  | cons _ steps ih =>
    intro left env tokens pending
    refine .peek ?_
    split
    · exact .pure (.refl _ _ _)
    · next op hop =>
      refine .skip ((hoperand pending).bind fun right behind hright => (hcombine left op right).andThen fun e =>
        (bounded_still e).andThen fun e a rest hok => ?_)
      have hone := (advances_plain rfl (hoperator _ op hop)).trans hright
      exact hone.through.trans (ih e pending a rest hok)

theorem leftToRight_spans : (leftToRight operand operator? combine).Spans false [] [] :=
  fun _ _ pending => (hoperand pending).bind fun left _ hleft => .withSteps fun steps a rest hok =>
    hleft.andThen (chain_maySpan hoperand hoperator hcombine steps left pending a rest hok)

end Chains

theorem orOp?_plain : PlainOperators orOp? :=
  .of_none rfl fun _ => rfl

theorem andOp?_plain : PlainOperators andOp? :=
  .of_none rfl fun _ => rfl

theorem equalityOp?_plain : PlainOperators equalityOp? :=
  .of_none rfl fun _ => rfl

theorem comparisonOp?_plain : PlainOperators comparisonOp? :=
  .of_none rfl fun _ => rfl

theorem termOp?_plain : PlainOperators termOp? :=
  .of_none rfl fun _ => rfl

theorem factorOp?_plain : PlainOperators factorOp? :=
  .of_none rfl fun _ => rfl

variable {type : Rule Ty} {env : Env} {tokens : List Token}

/-- A cast takes its type and the parentheses around it; without a cast nothing is taken. -/
theorem castType?_reads (htype : type.Spans false [] [])
    (pending : List Separator) : (castType? type).Reads env tokens fun found rest =>
      match found with
      | none => rest = tokens
      | some _ => Advances false pending tokens pending rest := by
  intro found rest hok
  unfold castType? at hok
  split at hok
  · next hparen =>
    simp only [Bool.and_eq_true] at hparen
    split at hok
    · next ty behind hty =>
      split at hok
      · next hclose =>
        cases hok
        exact (advances_opening (eq_of_isSeparator hparen.1) rfl).trans
          ((htype (.closeParen :: pending) ty behind hty).trans (advances_closing (eq_of_isSeparator hclose) rfl))
      · cases hok
        rfl
    · cases hok
      rfl
  · cases hok
    rfl

theorem startsLeastInt_plain {first second : TokenKind} (h : startsLeastInt first second = true) :
    isPlain false first = true := by
  unfold startsLeastInt at h
  split at h
  · rfl
  · cases h

theorem emptyArguments_maySpan : emptyArguments.MaySpan false := by
  intro env tokens pending
  refine .peek ?_
  split
  · next hparen =>
    exact .skip fun a rest hok => ((advances_opening (eq_of_isSeparator hparen) rfl).trans
      (separator_closes rfl pending a rest hok)).through
  · exact .pure (.refl _ _ _)

include h

theorem assignmentRule_spans : (assignmentRule rules).Spans false [] [] := by
  intro env tokens pending
  refine (h.ternary pending).bind fun left rest hleft => .peek ?_
  split
  · exact .pure hleft
  · next op hop =>
    have hsign := hleft.trans (advances_plain rfl (assignment?_plain _ op hop))
    exact (placeOf_still left).andThen fun target => .skip ((h.assignment pending).bind fun value rest hvalue =>
      (assignmentOperand_still _ _ _ _).andThen fun _ => .pure (hsign.trans hvalue))

theorem ternaryRule_spans : (ternaryRule rules).Spans false [] [] := by
  intro env tokens pending
  refine (h.logicalOr pending).bind fun condition rest hcondition => .peek ?_
  split
  · next hquestion =>
    have hsign := hcondition.trans (advances_plain (eq_of_isOperator hquestion) rfl)
    exact (expectAssignable_still _ _ _).andThen fun _ => .skip ((h.expression pending).bind fun _ _ hthen =>
      (separator_plain rfl pending).bind fun _ _ hcolon => (h.ternary pending).bind fun _ _ helse =>
        (caseType_still _ _).andThen fun _ => .pure (hsign.trans (hthen.trans (hcolon.trans helse))))
  · exact .pure hcondition

theorem powerRule_spans : (powerRule rules).Spans false [] [] := by
  intro env tokens pending
  refine (h.unary pending).bind fun base rest hbase => .peek ?_
  split
  · next hcaret =>
    refine .skip ((h.power pending).bind fun exponent rest hexponent e behind hok => ?_)
    obtain rfl := combineInfix_still _ _ _ e behind hok
    exact hbase.trans ((advances_plain (eq_of_isOperator hcaret) rfl).trans hexponent)
  · exact .pure hbase

theorem unaryRule_spans (htype : type.Spans false [] []) : (unaryRule type rules).Spans false [] [] := by
  intro env tokens pending
  refine .here ((castType?_reads htype pending).bind fun found rest hfound => ?_)
  split
  · refine (h.unary pending).bind fun operand _ hoperand => .ask ?_
    split
    · exact .pure (hfound.trans hoperand)
    · exact .fail _ _
  · obtain rfl := hfound
    refine .peek ?_
    split
    · next hkind =>
      refine .skip ((h.unary pending).bind fun operand last hoperand e rest hok => ?_)
      obtain rfl := incrementOf_still _ _ _ e rest hok
      exact (advances_plain hkind rfl).trans hoperand
    · next hkind =>
      refine .skip ((h.unary pending).bind fun operand last hoperand e rest hok => ?_)
      obtain rfl := incrementOf_still _ _ _ e rest hok
      exact (advances_plain hkind rfl).trans hoperand
    · next hkind =>
      refine .skip (.peek (.peekSecond ?_))
      split
      · next hleast =>
        exact .skip (.pure ((advances_plain hkind rfl).trans (advances_plain rfl (startsLeastInt_plain hleast))))
      · refine (h.unary pending).bind fun operand last hoperand e rest hok => ?_
        obtain rfl := negationOf_still _ _ e rest hok
        exact (advances_plain hkind rfl).trans hoperand
    · next hkind =>
      refine .skip ((h.unary pending).bind fun operand last hoperand => ?_)
      split
      · exact .pure ((advances_plain hkind rfl).trans hoperand)
      · exact .fail _ _
    · exact h.suffixed pending

theorem memberAccess_maySpan (owner : Owner) (name : String) (position : Position) :
    (memberAccess rules owner name position).MaySpan false := by
  intro env tokens pending
  refine .peek ?_
  split
  · next hparen =>
    have hopen : Advances false pending tokens (.closeParen :: pending) tokens.tail :=
      advances_opening (eq_of_isSeparator hparen) rfl
    exact .skip ((h.arguments pending).bind fun arguments _ harguments => (memberFor_still _ _ _ _).andThen fun _ =>
      .pure (hopen.trans harguments).through)
  · exact (memberFor_still _ _ _ _).andThen fun _ => .pure (.refl _ _ _)

theorem staticAccess_spans (owner : Owner) (position : Position) :
    (staticAccess rules owner position).Spans false [] [] :=
  fun _ _ pending => (operator_spans .dot pending).bind fun _ _ hdot => .here ((identifier_spans pending).bind
    fun name _ hname => (memberAccess_maySpan h owner name _ pending).bind fun _ _ huse =>
      .pure (hdot.trans (hname.andThen huse)))

theorem instanceAccess_reads (receiver : Expr) (hdot : firstKind tokens = .operator .dot) (pending : List Separator) :
    (instanceAccess rules receiver).Reads env tokens fun _ rest => Advances false pending tokens pending rest :=
  .skip (.here ((identifier_spans pending).bind fun name _ hname =>
    (memberAccess_maySpan h _ name _ pending).bind fun _ _ huse => .pure ((advances_plain hdot rfl).trans
      (hname.andThen huse))))

theorem indexAccess_reads (collection : Expr)
    (hbracket : firstKind tokens = .separator .openBracket) (pending : List Separator) :
    (indexAccess rules collection).Reads env tokens fun _ rest => Advances false pending tokens pending rest := by
  unfold indexAccess
  split
  · exact .here (.fail _ _)
  · exact .skip ((h.expression (.closeBracket :: pending)).bind fun _ _ hindex => (expectAssignable_still _ _ _).andThen
      fun _ => (separator_closes rfl pending).bind fun _ _ hclose => .pure ((advances_opening hbracket rfl).trans
        (hindex.trans hclose)))

theorem suffixes_maySpan (steps : Steps) : ∀ e, (suffixes rules steps e).MaySpan false := by
  induction steps with
  | nil => exact fun e _ _ _ => .pure (.refl _ _ _)
  | cons _ steps ih =>
    intro e env tokens pending
    refine (bounded_still e).andThen fun e => .peek ?_
    split
    · next hkind =>
      exact (instanceAccess_reads h e hkind pending).bind fun e _ hone a rest hok =>
        hone.through.trans (ih e pending a rest hok)
    · next hkind =>
      exact (indexAccess_reads h e hkind pending).bind fun e _ hone a rest hok =>
        hone.through.trans (ih e pending a rest hok)
    · next hkind =>
      exact (incrementOf_still _ _ _).andThen fun e => .skip fun a rest hok =>
        (advances_plain hkind rfl).through.trans (ih e pending a rest hok)
    · next hkind =>
      exact (incrementOf_still _ _ _).andThen fun e => .skip fun a rest hok =>
        (advances_plain hkind rfl).through.trans (ih e pending a rest hok)
    · exact .pure (.refl _ _ _)

theorem suffixedRule_spans : (suffixedRule rules).Spans false [] [] :=
  fun _ _ pending => (h.primary pending).bind fun e _ he => .withSteps fun steps a rest hok =>
    he.andThen (suffixes_maySpan h steps e pending a rest hok)

theorem argumentsRule_spans : (argumentsRule rules).Spans false [.closeParen] [] := by
  intro env tokens pending
  refine .peek ?_
  split
  · next hclose => exact .skip (.pure (advances_closing (eq_of_isSeparator hclose) rfl))
  · exact .withSteps fun steps => commaList_closes _ h.expression rfl steps pending

theorem callRule_spans (name : String) (position : Position) :
    (callRule rules name position).Spans false [.closeParen] [] := by
  intro env tokens pending
  refine .ask ?_
  split
  · exact (h.arguments pending).bind fun _ _ harguments => (functionFor_still _ _ _ _).andThen fun _ => .pure harguments
  · exact .fail _ _
  · exact .fail _ _

theorem typedExpression_spans (ty : Ty) (use : Use) : (typedExpression rules ty use).Spans false [] [] :=
  fun _ _ pending => (h.expression pending).bind fun _ _ he => (expectAssignable_still _ _ _).andThen fun _ => .pure he

theorem newArray_reads (ty : Ty) (position : Position)
    (hbracket : firstKind tokens = .separator .openBracket) (pending : List Separator) :
    (newArray rules ty position).Reads env tokens fun _ rest => Through false pending tokens pending rest := by
  unfold newArray
  split
  · exact .fail _ _
  · exact .skip ((typedExpression_spans h _ _ (.closeBracket :: pending)).bind fun _ _ hlength =>
      (separator_closes rfl pending).bind fun _ _ hclose => (arraySuffixes_maySpan ty pending).bind fun _ _ hsuffixes =>
        .pure (((advances_opening hbracket rfl).trans (hlength.trans hclose)).through.trans hsuffixes))

theorem entryRule_spans (key value : Ty) : (entryRule rules key value).Spans false [] [] :=
  fun _ _ pending => (separator_opens rfl pending).bind fun _ _ hopen =>
    (typedExpression_spans h _ _ (.closeBrace :: pending)).bind fun _ _ hkey =>
      (separator_plain rfl (.closeBrace :: pending)).bind fun _ _ hcomma =>
        (typedExpression_spans h _ _ (.closeBrace :: pending)).bind fun _ _ hvalue =>
          (separator_closes rfl pending).bind fun _ _ hclose =>
            .pure (hopen.trans (hkey.trans (hcomma.trans (hvalue.trans hclose))))

theorem newDictionary_maySpan (key value : Ty) (position : Position) :
    (newDictionary rules key value position).MaySpan false := by
  intro env tokens pending
  refine (emptyArguments_maySpan pending).bind fun _ rest hempty => .peek ?_
  split
  · next hbrace =>
    have hopen := hempty.advances (advances_opening (eq_of_isSeparator hbrace) rfl)
    exact .skip ((Reads.withSteps fun steps => bracedList_spans (entryRule_spans h key value) steps pending).bind
      fun _ _ hentries => .pure (hopen.trans hentries).through)
  · exact .pure hempty

theorem itemsRule_spans (element : Ty) : (itemsRule rules element).Spans false [.closeBrace] [] :=
  fun _ _ pending => .withSteps fun steps => bracedList_spans (typedExpression_spans h _ _) steps pending

theorem newSequence_maySpan (kind : SequenceKind) (element : Ty) (position : Position) :
    (newSequence rules kind element position).MaySpan false := by
  intro env tokens pending
  cases kind with
  | array =>
    refine .peek ?_
    split
    · next hbrace =>
      have hopen : Advances false pending tokens (.closeBrace :: pending) tokens.tail :=
        advances_opening (eq_of_isSeparator hbrace) rfl
      exact .skip ((itemsRule_spans h element pending).bind fun _ _ hitems => .pure (hopen.trans hitems).through)
    · exact .bind (P := fun _ _ => False) (.expected _) fun _ _ hfalse => hfalse.elim
  | list =>
    refine (emptyArguments_maySpan pending).bind fun _ rest hempty => .peek ?_
    split
    · next hbrace =>
      have hopen := hempty.advances (advances_opening (eq_of_isSeparator hbrace) rfl)
      exact .skip ((itemsRule_spans h element pending).bind fun _ _ hitems => .pure (hopen.trans hitems).through)
    · exact .pure hempty
  | queue => exact (emptyArguments_maySpan pending).bind fun _ _ hempty => .pure hempty
  | stack => exact (emptyArguments_maySpan pending).bind fun _ _ hempty => .pure hempty

theorem constructionRule_spans (htype : type.Spans false [] [])
    (position : Position) : (constructionRule type rules position).Spans false [] [] := by
  intro env tokens pending
  refine (htype pending).bind fun ty rest hty => .peek ?_
  split
  · next hbracket =>
    exact fun e rest hok => hty.andThen (newArray_reads h ty position (eq_of_isSeparator hbracket) pending e rest hok)
  · split
    · exact fun e rest hok => hty.andThen (newSequence_maySpan h _ _ position pending e rest hok)
    · exact fun e rest hok => hty.andThen (newDictionary_maySpan h _ _ position pending e rest hok)
    · exact (separator_opens rfl pending).bind fun _ _ hopen => (h.arguments pending).bind fun _ _ harguments =>
        (memberFor_still _ _ _ _).andThen fun _ => .pure (hty.trans (hopen.trans harguments))

theorem primaryRule_spans : (primaryRule rules).Spans false [] [] := by
  intro env tokens pending
  refine .here (.peek ?_)
  split
  · next hkind => exact .skip (.pure (advances_plain hkind rfl))
  · next hkind =>
    refine .skip (.peek ?_)
    split
    · next hparen =>
      exact .skip fun e last hok => (advances_plain hkind rfl).trans ((advances_opening (eq_of_isSeparator hparen) rfl).trans
        (h.call _ _ pending e last hok))
    · intro e last hok
      obtain rfl := nameRule_still _ _ e last hok
      exact advances_plain hkind rfl
  · next hkind =>
    exact .skip fun e last hok => (advances_plain hkind rfl).trans (staticAccess_spans h _ _ pending e last hok)
  · exact .fail _ _
  · next hkind =>
    exact .skip fun e last hok => (advances_plain hkind rfl).trans (h.construction _ pending e last hok)
  · next hkind =>
    split
    · exact .skip fun e last hok => (advances_plain hkind rfl).trans (staticAccess_spans h _ _ pending e last hok)
    · exact .unexpected
  · next hkind =>
    exact .skip ((h.expression (.closeParen :: pending)).bind fun _ _ he => (separator_closes rfl pending).bind
      fun _ _ hclose => .pure ((advances_opening hkind rfl).trans (he.trans hclose)))
  · exact .unexpected

end Rules

theorem ExprRules.Spanning.stuck : ExprRules.stuck.Spanning := by
  constructor <;> first | exact .tooDeep | exact fun _ => .tooDeep | exact fun _ _ => .tooDeep

theorem ExprRules.Spanning.around {type : Rule Ty} (htype : type.Spans false [] []) {rules : ExprRules}
    (h : rules.Spanning) : (ExprRules.around type rules).Spanning where
  expression := .named (fun _ _ pending => (h.assignment pending).bind fun e _ he e' rest hok => by
    obtain rfl := bounded_still e e' rest hok
    exact he) _
  assignment := .named (assignmentRule_spans h) _
  ternary := .named (ternaryRule_spans h) _
  logicalOr := .named (leftToRight_spans h.logicalAnd orOp?_plain combineLogical_still) _
  logicalAnd := .named (leftToRight_spans h.equality andOp?_plain combineLogical_still) _
  equality := .named (leftToRight_spans h.comparison equalityOp?_plain combineInfix_still) _
  comparison := .named (leftToRight_spans h.term comparisonOp?_plain combineInfix_still) _
  term := .named (leftToRight_spans h.factor termOp?_plain combineInfix_still) _
  factor := .named (leftToRight_spans h.power factorOp?_plain combineInfix_still) _
  power := .named (powerRule_spans h) _
  unary := .named (unaryRule_spans h htype) _
  suffixed := .named (suffixedRule_spans h) _
  primary := .named (primaryRule_spans h) _
  arguments := .named (argumentsRule_spans h) _
  call := fun name position => .named (callRule_spans h name position) _
  construction := fun position => .named (constructionRule_spans h htype position) _

theorem exprRules_spanning (depth : Nat) : (exprRules depth).Spanning := by
  induction depth with
  | zero => exact .stuck
  | succ depth ih => exact .around (typeRule_spans depth) ih

end Scriptlet.Grammar
