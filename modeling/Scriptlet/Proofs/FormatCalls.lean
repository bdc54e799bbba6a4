import Scriptlet.Proofs.Compiled.Expressions
import Scriptlet.Token.Expansion

/-!
# The calls that interpolated strings stand for

An interpolated string is read as a call of `string.Format`. Whatever else stands in the call, its first argument is
the template itself: a constant with a comma or a closing parenthesis behind it is read as that constant on all levels
of operators. So the template is a constant when the member checks its arguments.
-/

namespace Scriptlet.Grammar

namespace Rule

/-- Whether what a rule reads from a token list, and what it leaves, have a property. -/
def Reads {α : Type} (env : Env) (tokens : List Token) (rule : Rule α) (P : α → List Token → Prop) : Prop :=
  ∀ a rest, rule env tokens = .ok (a, rest) → P a rest

namespace Reads

variable {α β : Type} {env : Env} {tokens : List Token} {P : α → List Token → Prop}

theorem of_eq {rule : Rule α} {a : α} {rest : List Token} (h : rule env tokens = .ok (a, rest)) (hP : P a rest) :
    rule.Reads env tokens P := by
  intro b rest' hok
  rw [h] at hok
  cases hok
  exact hP

theorem bind {rule : Rule α} {next : α → Rule β} {Q : β → List Token → Prop} (h : rule.Reads env tokens P)
    (hnext : ∀ a rest, P a rest → (next a).Reads env rest Q) : (rule >>= next).Reads env tokens Q := by
  intro b rest hok
  obtain ⟨a, behind, hrule, hbehind⟩ := ok_of_bind hok
  exact hnext a behind (h a behind hrule) b rest hbehind

theorem after {rule : Rule α} {next : α → Rule β} {Q : β → List Token → Prop}
    (hnext : ∀ a rest, (next a).Reads env rest Q) : (rule >>= next).Reads env tokens Q :=
  bind (P := fun _ _ => True) (fun _ _ _ => trivial) fun a rest _ => hnext a rest

theorem pure {a : α} (h : P a tokens) : (Pure.pure a : Rule α).Reads env tokens P :=
  of_eq rfl h

theorem fail (cause : CompileCause) (position : Position) : (Rule.fail cause position : Rule α).Reads env tokens P := by
  rintro _ _ ⟨⟩

theorem expected (what : String) : (Rule.expected what : Rule α).Reads env tokens P := by
  rintro _ _ ⟨⟩

theorem bounded {e : Expr} {P : Expr → List Token → Prop} (h : P e tokens) : (Rule.bounded e).Reads env tokens P := by
  unfold Rule.bounded
  split
  · exact fail _ _
  · exact pure h

theorem commaList {item : Rule α} {P : α → Prop} (h : item.Reads env tokens fun a _ => P a) (closes : TokenKind → Bool)
    (closing : String) (steps : Steps) :
    (Rule.commaList item closes closing steps).Reads env tokens fun items _ =>
      ∃ first others, items = first :: others ∧ P first := by
  cases steps with
  | nil => exact expected _
  | cons _ steps =>
    refine h.bind fun first _ hfirst => after fun next _ => ?_
    split
    · exact after fun _ _ => after fun others _ => pure ⟨first, others, rfl, hfirst⟩
    · split
      · exact after fun _ _ => pure ⟨first, [], rfl, hfirst⟩
      · exact expected _

end Reads

end Rule

open Rule

/-- A token behind which an argument ends. -/
inductive EndsArgument : Token → Prop
  | comma (p : Position) : EndsArgument ⟨.separator .comma, p⟩
  | closeParen (p : Position) : EndsArgument ⟨.separator .closeParen, p⟩

/-- A rule that reads a constant at the end of an argument as this constant and leaves the rest. -/
def ReadsConstant (rule : Rule Expr) : Prop :=
  ∀ ⦃env : Env⦄ ⦃constant : Literal⦄ ⦃p : Position⦄ ⦃next : Token⦄ ⦃rest : List Token⦄, EndsArgument next →
    rule.Reads env (⟨.literal constant, p⟩ :: next :: rest) fun e rest' =>
      e.literal? = some constant.value ∧ rest' = next :: rest

namespace ReadsConstant

theorem named {rule : Rule Expr} (h : ReadsConstant rule) (name : RuleName) : ReadsConstant (Rule.named name rule) :=
  fun _ _ _ _ _ hnext => h hnext

theorem tooDeep : ReadsConstant Rule.tooDeep :=
  fun _ _ _ _ _ _ => .fail _ _

variable {rules : ExprRules}

theorem expression (h : ReadsConstant rules.assignment) :
    ReadsConstant (do bounded (← rules.assignment)) :=
  fun _ _ _ _ _ hnext => (h hnext).bind fun _ _ he => .bounded he

theorem assignment (h : ReadsConstant rules.ternary) : ReadsConstant (assignmentRule rules) := by
  intro env constant p next rest hnext
  refine (h hnext).bind ?_
  rintro e _ ⟨he, rfl⟩
  cases hnext <;> exact .of_eq rfl ⟨he, rfl⟩

theorem ternary (h : ReadsConstant rules.logicalOr) : ReadsConstant (ternaryRule rules) := by
  intro env constant p next rest hnext
  refine (h hnext).bind ?_
  rintro e _ ⟨he, rfl⟩
  cases hnext <;> exact .of_eq rfl ⟨he, rfl⟩

theorem leftToRight {α : Type} {operand : Rule Expr} {operator? : TokenKind → Option α}
    {combine : Expr → α → Expr → Rule Expr} (h : ReadsConstant operand)
    (hoperator : ∀ sign, operator? (.separator sign) = none) :
    ReadsConstant (leftToRight operand operator? combine) := by
  intro env constant p next rest hnext
  refine (h hnext).bind ?_
  rintro e _ ⟨he, rfl⟩
  have hnone : operator? next.kind = none := by cases hnext <;> exact hoperator _
  have hstops : withSteps (fun steps => chain operand operator? combine steps e) env (next :: rest) =
      .ok (e, next :: rest) := by
    simp only [withSteps, chain, Bind.bind, peek, firstKind, List.head?_cons, Option.map_some, Option.getD_some, hnone]
    rfl
  exact .of_eq hstops ⟨he, rfl⟩

theorem power (h : ReadsConstant rules.unary) : ReadsConstant (powerRule rules) := by
  intro env constant p next rest hnext
  refine (h hnext).bind ?_
  rintro e _ ⟨he, rfl⟩
  cases hnext <;> exact .of_eq rfl ⟨he, rfl⟩

theorem unary {type : Rule Ty} (h : ReadsConstant rules.suffixed) : ReadsConstant (unaryRule type rules) :=
  fun _ _ _ _ _ hnext a rest hok => h hnext a rest hok

theorem suffixed (h : ReadsConstant rules.primary) : ReadsConstant (suffixedRule rules) := by
  intro env constant p next rest hnext
  refine (h hnext).bind ?_
  rintro e _ ⟨he, rfl⟩
  refine Reads.bind (P := fun a rest' => a = e ∧ rest' = next :: rest) (.bounded ⟨rfl, rfl⟩) ?_
  rintro _ _ ⟨rfl, rfl⟩
  cases hnext <;> exact .of_eq rfl ⟨he, rfl⟩

theorem primary (rules : ExprRules) : ReadsConstant (primaryRule rules) :=
  fun _ _ _ _ _ _ => .of_eq rfl ⟨rfl, rfl⟩

end ReadsConstant

/-- Rules that read a constant at the end of an argument as this constant, on every level. -/
structure ExprRules.ReadConstants (rules : ExprRules) : Prop where
  expression : ReadsConstant rules.expression
  assignment : ReadsConstant rules.assignment
  ternary : ReadsConstant rules.ternary
  logicalOr : ReadsConstant rules.logicalOr
  logicalAnd : ReadsConstant rules.logicalAnd
  equality : ReadsConstant rules.equality
  comparison : ReadsConstant rules.comparison
  term : ReadsConstant rules.term
  factor : ReadsConstant rules.factor
  power : ReadsConstant rules.power
  unary : ReadsConstant rules.unary
  suffixed : ReadsConstant rules.suffixed
  primary : ReadsConstant rules.primary

theorem exprRules_readConstants (depth : Nat) : (exprRules depth).ReadConstants := by
  induction depth with
  | zero => constructor <;> exact ReadsConstant.tooDeep
  | succ depth ih =>
    exact {
      expression := (ReadsConstant.expression ih.assignment).named _
      assignment := (ReadsConstant.assignment ih.ternary).named _
      ternary := (ReadsConstant.ternary ih.logicalOr).named _
      logicalOr := (ReadsConstant.leftToRight ih.logicalAnd fun _ => rfl).named _
      logicalAnd := (ReadsConstant.leftToRight ih.equality fun _ => rfl).named _
      equality := (ReadsConstant.leftToRight ih.comparison fun _ => rfl).named _
      comparison := (ReadsConstant.leftToRight ih.term fun _ => rfl).named _
      term := (ReadsConstant.leftToRight ih.factor fun _ => rfl).named _
      factor := (ReadsConstant.leftToRight ih.power fun _ => rfl).named _
      power := (ReadsConstant.power ih.unary).named _
      unary := (ReadsConstant.unary ih.suffixed).named _
      suffixed := (ReadsConstant.suffixed ih.primary).named _
      primary := (ReadsConstant.primary _).named _ }

variable {env : Env}

/-- Arguments of which the first one is a constant are read with this constant in front. -/
theorem exprRules_arguments_reads (depth : Nat) {constant : Literal} {p : Position} {next : Token}
    {rest : List Token} (hnext : EndsArgument next) :
    (exprRules depth).arguments.Reads env (⟨.literal constant, p⟩ :: next :: rest) fun arguments _ =>
      ∃ first others, arguments = first :: others ∧ first.literal? = some constant.value := by
  cases depth with
  | zero => exact .fail _ _
  | succ depth =>
    have hfirst : (exprRules depth).expression.Reads (env.enter .arguments) (⟨.literal constant, p⟩ :: next :: rest)
        fun e _ => e.literal? = some constant.value :=
      fun e rest' hok => ((exprRules_readConstants depth).expression hnext e rest' hok).1
    exact hfirst.commaList (·.isSeparator .closeParen) "\",\" or \")\"" _

theorem memberFor_reads {tokens : List Token} (owner : Owner) (name : String) (arguments : List Expr)
    (position : Position) : (memberFor owner name (some arguments) position).Reads env tokens fun member _ =>
      member ∈ env.registry.candidates owner name ∧
        ∀ check ∈ member.check, check (arguments.map Expr.literal?) = .ok () := by
  refine Reads.bind (P := fun known _ => known = env) (.of_eq rfl rfl) ?_
  rintro _ rest rfl
  split
  · exact .fail _ _
  · next member hmember =>
    have hcandidate := (Registry.resolveMember_spec hmember).1
    split
    · next check _ hcheck heq =>
      cases heq
      split
      · exact .fail _ _
      · next haccepted =>
        refine .pure ⟨hcandidate, fun other hother => ?_⟩
        cases hcheck.symm.trans hother
        exact haccepted
    · next hnone =>
      refine .pure ⟨hcandidate, fun check hcheck => ?_⟩
      exact absurd rfl (hnone check arguments hcheck)

/-- The call that an interpolated string stands for is read as a call of `string.Format` whose first argument is the
template, and the member that is called accepts the arguments. -/
theorem exprRules_primary_reads_formatCall (depth : Nat) (position : Position) (template : String)
    (groups : List (List Token)) (rest : List Token) :
    (exprRules depth).primary.Reads env (Expansion.formatCall position template groups ++ rest) fun e _ =>
      ∃ note member first others, e = .staticMember note member (first :: others) ∧
        first.literal? = some (.string template) ∧ member ∈ env.registry.candidates (.type .string) "Format" ∧
        ∀ check ∈ member.check, check (some (.string template) :: others.map Expr.literal?) = .ok () := by
  cases depth with
  | zero => exact .fail _ _
  | succ depth =>
    have harguments : ∃ next behind, EndsArgument next ∧ Expansion.formatCall position template groups ++ rest =
        ⟨.type "string" (.complete .string), position⟩ :: ⟨.operator .dot, position⟩ ::
          ⟨.identifier "Format", position⟩ :: ⟨.separator .openParen, position⟩ ::
          ⟨.literal (.string template), position⟩ :: next :: behind := by
      cases groups with
      | nil => exact ⟨_, _, .closeParen position, rfl⟩
      | cons group groups => exact ⟨_, _, .comma position, rfl⟩
    obtain ⟨next, behind, hnext, htokens⟩ := harguments
    rw [htokens]
    -- the tokens up to the opening parenthesis are fixed, so the rules for them can be run
    have haccess : (memberAccess (exprRules depth) (.type .string) "Format" position).Reads (env.enter .primary)
        (⟨.separator .openParen, position⟩ :: ⟨.literal (.string template), position⟩ :: next :: behind)
        fun found _ => ∃ first others, found.2 = first :: others ∧ first.literal? = some (.string template) ∧
          found.1 ∈ env.registry.candidates (.type .string) "Format" ∧
          ∀ check ∈ found.1.check, check (some (.string template) :: others.map Expr.literal?) = .ok () := by
      show (do
        let arguments ← (exprRules depth).arguments
        return (← memberFor (.type .string) "Format" (some arguments) position, arguments) :
          Rule (Member × List Expr)).Reads (env.enter .primary)
            (⟨.literal (.string template), position⟩ :: next :: behind) _
      refine (exprRules_arguments_reads depth hnext).bind ?_
      rintro _ rest' ⟨first, others, rfl, hfirst⟩
      refine (memberFor_reads (.type .string) "Format" (first :: others) position).bind ?_
      rintro member _ ⟨hcandidate, hcheck⟩
      refine .pure ⟨first, others, rfl, hfirst, hcandidate, fun check hmem => ?_⟩
      have haccepted := hcheck check hmem
      rwa [List.map_cons, hfirst] at haccepted
    show (do
      let found ← memberAccess (exprRules depth) (.type .string) "Format" position
      return .staticMember (.over found.1.returns position found.2) found.1 found.2 : Rule Expr).Reads
        (env.enter .primary) (⟨.separator .openParen, position⟩ :: _) _
    refine haccess.bind ?_
    rintro ⟨member, _⟩ rest' ⟨first, others, rfl, hfirst, hcandidate, hcheck⟩
    exact .pure ⟨_, member, first, others, rfl, hfirst, hcandidate, hcheck⟩

end Scriptlet.Grammar
