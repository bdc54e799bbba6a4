import Mathlib.Logic.Function.Iterate
import Scriptlet.Proofs.Nesting.Statements

/-!
# The loops of the grammar

A rule that reads something takes at least one token, of whatever list. So the loops of the grammar end: every round
takes a token before the next one begins. That a loop has as many steps as there are tokens is no restriction, since
what would be done when they are used up is never reached, and more steps make no difference.
-/

namespace Scriptlet.Grammar

namespace Rule

variable {α β π : Type}

/-- The one list is a proper suffix of the other. -/
def Proper (rest tokens : List Token) : Prop :=
  rest <:+ tokens ∧ rest ≠ tokens

/-- A rule that leaves a proper suffix of the tokens. -/
def Progresses (rule : Rule α) : Prop :=
  ∀ ⦃env : Env⦄ ⦃tokens : List Token⦄, rule.Reads env tokens fun _ rest => Proper rest tokens

/-- The tokens that a rule has left, if it has read something. -/
def left? (result : Except CompileError (α × List Token)) : Option (List Token) :=
  result.toOption.map (·.2)

/-- Two rules that do the same at one place, if what the first one leaves there has a property. -/
def Agree (P : Option (List Token) → Prop) (env : Env) (tokens : List Token) (rule rule' : Rule α) : Prop :=
  P (left? (rule env tokens)) → rule' env tokens = rule env tokens

/-- A round of a loop that goes on only where fewer tokens are left. -/
def Shrinks (round : (π → Rule α) → π → Rule α) : Prop :=
  ∀ ⦃P : Option (List Token) → Prop⦄ ⦃next next' : π → Rule α⦄ ⦃env : Env⦄ ⦃tokens : List Token⦄ (p : π),
    (∀ p env rest, rest.length < tokens.length → Agree P env rest (next p) (next' p)) →
      Agree P env tokens (round next p) (round next' p)

/-- A loop that repeats a round and ends: it makes no difference what would be done after more rounds than there are
tokens. -/
structure Ends (round : (π → Rule α) → π → Rule α) (loop : Steps → π → Rule α) : Prop where
  repeats : ∀ step steps p, loop (step :: steps) p = round (loop steps) p
  bounded : ∀ (out : π → Rule α) steps p env tokens, tokens.length < steps.length →
    loop steps p env tokens = round^[steps.length] out p env tokens

/-- A rule that gives the same with other steps, as long as there are more of them than it takes tokens. -/
def Steady (rule : Steps → Rule α) : Prop :=
  ∀ ⦃steps steps' : Steps⦄ ⦃env : Env⦄ ⦃tokens rest : List Token⦄, tokens.length < rest.length + steps.length →
    tokens.length < rest.length + steps'.length →
      ∀ a, rule steps env tokens = .ok (a, rest) → rule steps' env tokens = .ok (a, rest)

section Rounds

variable {round : (π → Rule α) → π → Rule α} {loop : Steps → π → Rule α}

theorem Shrinks.ends (h : Shrinks round) (hrepeats : ∀ step steps p, loop (step :: steps) p = round (loop steps) p) :
    Ends round loop where
  repeats := hrepeats
  bounded out steps p env tokens hlength := by
    induction steps generalizing p env tokens with
    | nil => exact absurd hlength (Nat.not_lt_zero _)
    | cons step steps ih =>
      rw [List.length_cons] at hlength
      rw [hrepeats, List.length_cons, Function.iterate_succ_apply']
      exact (@h (fun _ => True) _ _ env tokens p (fun p env rest hrest _ => (ih p env rest (by omega)).symm) trivial).symm

theorem Shrinks.steady (h : Shrinks round) (loop : Steps → π → Rule α)
    (hrepeats : ∀ step steps p, loop (step :: steps) p = round (loop steps) p)
    (hlength : ∀ steps p env tokens, (loop steps p).Reads env tokens fun _ rest => rest.length ≤ tokens.length)
    (p : π) : Steady fun steps => loop steps p := by
  intro steps steps' env tokens rest hsteps hsteps' a hok
  induction steps generalizing steps' p env tokens a with
  | nil =>
    have hrest := hlength [] p env tokens a rest hok
    simp only [List.length_nil] at hsteps
    omega
  | cons step steps ih =>
    have hrest := hlength (step :: steps) p env tokens a rest hok
    obtain _ | ⟨step', steps'⟩ := steps'
    · simp only [List.length_nil] at hsteps'
      omega
    simp only [List.length_cons, hrepeats] at hsteps hsteps' hok ⊢
    rw [← hok]
    -- the next round leaves the same tokens as this one, so that its steps can be compared with what it takes
    refine @h (· = some rest) (loop steps) (loop steps') env tokens p (fun p env middle hmiddle hleft => ?_) ?_
    · cases hnext : loop steps p env middle with
      | error e =>
        rw [hnext] at hleft
        cases hleft
      | ok read =>
        rw [hnext] at hleft
        cases hleft
        exact ih p (by omega) (by omega) read.1 hnext
    · rw [hok]
      rfl

end Rounds

section Progresses

variable {semicolons : Bool} {before after : List Separator} {rule : Rule α} {tokens rest last : List Token}

theorem Proper.length_lt (h : Proper rest tokens) : rest.length < tokens.length :=
  Nat.lt_of_le_of_ne h.1.length_le fun hlength => h.2 (h.1.eq_of_length hlength)

theorem Proper.andThen (h : Proper rest tokens) (h' : last <:+ rest) : Proper last tokens := by
  refine ⟨h'.trans h.1, ?_⟩
  rintro rfl
  exact Nat.not_le.mpr h.length_lt h'.length_le

theorem Advances.proper {pending pending' : List Separator} (h : Advances semicolons pending tokens pending' rest) :
    Proper rest tokens := by
  refine ⟨h.isSuffix, ?_⟩
  rintro rfl
  exact Nat.lt_irrefl _ h.length_lt

theorem Spans.progresses (h : rule.Spans semicolons before after) : rule.Progresses :=
  fun _ _ a rest hok => Advances.proper (h [] a rest hok)

theorem proper_tail (h : firstKind tokens ≠ .endOfInput) : Proper tokens.tail tokens := by
  refine ⟨List.tail_suffix tokens, fun heq => ?_⟩
  have hlength := length_tail_lt rfl h
  rw [heq] at hlength
  exact Nat.lt_irrefl _ hlength

/-- Items that make progress are a list that makes progress, whatever ends it. -/
theorem commaList_progresses {item : Rule α} (h : item.Progresses) (closes : TokenKind → Bool) (closing : String)
    (steps : Steps) : (commaList item closes closing steps).Progresses := by
  induction steps with
  | nil => exact fun _ _ => .expected _
  | cons _ steps ih =>
    refine fun _ _ => h.bind fun _ rest hrest => .peek ?_
    split
    · refine .skip (ih.bind fun _ _ hlast => .pure ?_)
      exact hrest.andThen (hlast.1.trans (List.tail_suffix rest))
    · split
      · exact .skip (.pure (hrest.andThen (List.tail_suffix rest)))
      · exact .expected _

end Progresses

section Agree

variable {P : Option (List Token) → Prop} {env : Env} {tokens : List Token}

theorem Reads.agree {rule : Rule β} {Q : β → List Token → Prop} {f g : β → Rule α} (h : rule.Reads env tokens Q)
    (hnext : ∀ b rest, Q b rest → Agree P env rest (f b) (g b)) : Agree P env tokens (rule >>= f) (rule >>= g) := by
  simp only [Agree, Bind.bind]
  cases hrule : rule env tokens with
  | error e => exact fun _ => rfl
  | ok read => exact hnext read.1 read.2 (h _ _ hrule)

theorem Still.agree {rule : Rule β} {f g : β → Rule α} (h : rule.Still)
    (hnext : ∀ b, Agree P env tokens (f b) (g b)) : Agree P env tokens (rule >>= f) (rule >>= g) := by
  refine Reads.agree (@h env tokens) fun b rest hrest => ?_
  subst hrest
  exact hnext b

namespace Agree

theorem refl (rule : Rule α) : Agree P env tokens rule rule :=
  fun _ => rfl

theorem map {rule rule' : Rule β} (h : Agree P env tokens rule rule') (f : β → α) :
    Agree P env tokens (do return f (← rule)) (do return f (← rule')) := by
  unfold Agree at h ⊢
  simp only [Bind.bind]
  cases hrule : rule env tokens with
  | error e =>
    rw [hrule] at h
    exact fun hleft => by rw [h hleft]
  | ok read =>
    rw [hrule] at h
    exact fun hleft => by rw [h hleft]

theorem peek {f g : TokenKind → Rule α} (h : Agree P env tokens (f (firstKind tokens)) (g (firstKind tokens))) :
    Agree P env tokens (Rule.peek >>= f) (Rule.peek >>= g) :=
  h

theorem skip {f g : Unit → Rule α} (h : Agree P env tokens.tail (f ()) (g ())) :
    Agree P env tokens (Rule.skip >>= f) (Rule.skip >>= g) :=
  h

end Agree

end Agree

def commaRound (item : Rule α) (closes : TokenKind → Bool) (closing : String) (next : Unit → Rule (List α)) (_ : Unit) :
    Rule (List α) := do
  let a ← item
  let kind ← peek
  if kind.isSeparator .comma then
    skip
    return a :: (← next ())
  else if closes kind then
    skip
    return [a]
  else expected closing

theorem commaRound_shrinks {item : Rule α} (h : item.Progresses) (closes : TokenKind → Bool) (closing : String) :
    Shrinks (commaRound item closes closing) := by
  refine fun P next next' env tokens _ hnext => h.agree fun a rest hrest => .peek ?_
  split
  · exact .skip ((hnext () env rest.tail (hrest.andThen (List.tail_suffix rest)).length_lt).map _)
  · exact .refl _

theorem commaList_steady {item : Rule α} (h : item.Progresses) (closes : TokenKind → Bool) (closing : String) :
    Steady (commaList item closes closing) :=
  (commaRound_shrinks h closes closing).steady (fun steps _ => commaList item closes closing steps) (fun _ _ _ => rfl)
    (fun steps _ _ _ a rest hok => (commaList_progresses h closes closing steps a rest hok).1.length_le) ()

def bracedRound (item : Rule α) (next : Unit → Rule (List α)) (_ : Unit) : Rule (List α) := do
  if (← peek).isSeparator .closeBrace then
    skip
    return []
  let a ← item
  let kind ← peek
  if kind.isSeparator .comma then
    skip
    return a :: (← next ())
  else if kind.isSeparator .closeBrace then return a :: (← next ())
  else expected "\",\" or \"\x7d\""

theorem bracedRound_shrinks {item : Rule α} (h : item.Progresses) : Shrinks (bracedRound item) := by
  refine fun P next next' env tokens _ hnext => .peek ?_
  split
  · exact .refl _
  · refine h.agree fun a rest hrest => .peek ?_
    split
    · exact .skip ((hnext () env rest.tail (hrest.andThen (List.tail_suffix rest)).length_lt).map _)
    · split
      · exact (hnext () env rest hrest.length_lt).map _
      · exact .refl _

theorem bracedList_steady {semicolons : Bool} {item : Rule α} (h : item.Spans semicolons [] []) :
    Steady (bracedList item) :=
  (bracedRound_shrinks h.progresses).steady (fun steps _ => bracedList item steps) (fun _ _ _ => rfl)
    (fun steps _ _ _ a rest hok => (bracedList_spans h steps [] a rest hok).isSuffix.length_le) ()

end Rule

open Rule

section Expressions

variable {rules : ExprRules}

def chainRound {α : Type} (operand : Rule Expr) (operator? : TokenKind → Option α)
    (combine : Expr → α → Expr → Rule Expr) (next : Expr → Rule Expr) (left : Expr) : Rule Expr := do
  match operator? (← peek) with
  | none => return left
  | some op =>
    skip
    let right ← operand
    next (← bounded (← combine left op right))

theorem chainRound_shrinks {α : Type} {operand : Rule Expr} (h : operand.Progresses) (operator? : TokenKind → Option α)
    {combine : Expr → α → Expr → Rule Expr} (hcombine : ∀ left op right, (combine left op right).Still) :
    Shrinks (chainRound operand operator? combine) := by
  refine fun P next next' env tokens left hnext => .peek ?_
  split
  · exact .refl _
  · refine .skip (h.agree fun right rest hrest => (hcombine _ _ _).agree fun e => (bounded_still e).agree fun e =>
      hnext e env rest ?_)
    exact Nat.lt_of_lt_of_le hrest.length_lt (List.tail_suffix tokens).length_le

def suffixRound (rules : ExprRules) (next : Expr → Rule Expr) (e : Expr) : Rule Expr := do
  let e ← bounded e
  match ← peek with
  | .operator .dot => next (← instanceAccess rules e)
  | .separator .openBracket => next (← indexAccess rules e)
  | .operator .increment =>
    let e ← incrementOf e false false
    skip
    next e
  | .operator .decrement =>
    let e ← incrementOf e true false
    skip
    next e
  | _ => return e

theorem suffixRound_shrinks (h : rules.Spanning) : Shrinks (suffixRound rules) := by
  refine fun P next next' env tokens e hnext => (bounded_still e).agree fun e => .peek ?_
  split
  · next hkind => exact (instanceAccess_reads h e hkind []).agree fun e rest hone => hnext e env rest hone.length_lt
  · next hkind => exact (indexAccess_reads h e hkind []).agree fun e rest hone => hnext e env rest hone.length_lt
  · next hkind =>
    exact (incrementOf_still _ _ _).agree fun e => .skip (hnext e env tokens.tail (length_tail_lt hkind nofun))
  · next hkind =>
    exact (incrementOf_still _ _ _).agree fun e => .skip (hnext e env tokens.tail (length_tail_lt hkind nofun))
  · exact .refl _

end Expressions

section Statements

variable {rules : StatementRules}

def blockRound (statement : Rule (Statement × Declared)) (next : Unit → Rule (List Statement)) (_ : Unit) :
    Rule (List Statement) := do
  match ← peek with
  | .separator .closeBrace =>
    skip
    return []
  | .endOfInput => expected "\"\x7d\""
  | _ =>
    let (s, declared) ← statement
    return s :: (← inScopes (addDeclared declared) (next ()))

def sectionBodyRound (statement : Rule (Statement × Declared)) (next : Unit → Rule (List Statement)) (_ : Unit) :
    Rule (List Statement) := do
  match ← peek with
  | .keyword .caseWord | .keyword .defaultWord | .separator .closeBrace | .endOfInput => return []
  | _ =>
    let (s, declared) ← statement
    return s :: (← inScopes (addDeclared declared) (next ()))

variable {statement : Rule (Statement × Declared)}

/-- A statement, and others behind it that see what it declares. -/
theorem statement_agree (h : statement.Progresses)
    {P : Option (List Token) → Prop} {next next' : Unit → Rule (List Statement)} {env : Env} {tokens : List Token}
    (hnext : ∀ p env rest, rest.length < tokens.length → Agree P env rest (next p) (next' p)) :
    Agree P env tokens (do let (s, declared) ← statement; return s :: (← inScopes (addDeclared declared) (next ())))
      (do let (s, declared) ← statement; return s :: (← inScopes (addDeclared declared) (next' ()))) := by
  refine h.agree fun ⟨s, declared⟩ rest hrest => Agree.map ?_ _
  exact hnext () (env.withScopes (addDeclared declared)) rest hrest.length_lt

theorem blockRound_shrinks (h : statement.Progresses) : Shrinks (blockRound statement) := by
  refine fun P next next' env tokens _ hnext => .peek ?_
  split
  · exact .refl _
  · exact .refl _
  · exact statement_agree h hnext

theorem sectionBodyRound_shrinks (h : statement.Progresses) : Shrinks (sectionBodyRound statement) := by
  refine fun P next next' env tokens _ hnext => .peek ?_
  split
  · exact .refl _
  · exact .refl _
  · exact .refl _
  · exact .refl _
  · exact statement_agree h hnext

def elseRound (rules : StatementRules) (next : Unit → Rule (Option Statement)) (_ : Unit) : Rule (Option Statement) := do
  match ← peek with
  | .keyword .elseIfWord =>
    let position ← here
    skip
    let condition ← conditionRule rules.exprs
    let thenBranch ← bodyRule rules
    let elseBranch ← next ()
    return some (.conditional position condition thenBranch elseBranch)
  | .keyword .elseWord =>
    skip
    return some (← bodyRule rules)
  | _ => return none

theorem elseRound_shrinks (h : rules.Spanning) : Shrinks (elseRound rules) := by
  refine fun P next next' env tokens _ hnext => .peek ?_
  split
  · next hword =>
    have hskip := length_tail_lt hword nofun
    refine Still.agree (fun _ _ => .of_eq rfl rfl) fun _ => .skip ((conditionRule_spans h.exprs).progresses.agree
      fun _ _ hcondition => (bodyRule_spans h).progresses.agree fun _ rest hbody => (hnext () env rest ?_).map _)
    have hlength := (hcondition.andThen hbody.1).length_lt
    omega
  · exact .refl _
  · exact .refl _

def labelsRound (rules : ExprRules) (value : Ty) (seen : List Value) (hasDefault : Bool)
    (next : List Value × Bool → Rule (List Value × Bool)) (found : List Value × Bool) : Rule (List Value × Bool) := do
  match ← peek with
  | .keyword .caseWord =>
    skip
    let label ← labelRule rules value (seen ++ found.1)
    next (found.1 ++ [label], found.2)
  | .keyword .defaultWord =>
    if hasDefault || found.2 then fail .multipleDefaults (← here)
    else
      skip
      separator .colon
      next (found.1, true)
  | _ =>
    if found.1.isEmpty && !found.2 then expected "\"case\" or \"default\""
    else return found

theorem labelsRound_shrinks {rules : ExprRules} (h : rules.Spanning) (value : Ty) (seen : List Value)
    (hasDefault : Bool) : Shrinks (labelsRound rules value seen hasDefault) := by
  refine fun P next next' env tokens found hnext => .peek ?_
  split
  · next hword =>
    refine .skip ((labelRule_spans h _ _).progresses.agree fun label rest hlabel => hnext _ env rest ?_)
    exact ((proper_tail (by simp [hword])).andThen hlabel.1).length_lt
  · next hword =>
    split
    · exact .refl _
    · refine .skip ((@separator_plain false .colon rfl).progresses.agree fun _ rest hcolon => hnext _ env rest ?_)
      exact ((proper_tail (by simp [hword])).andThen hcolon.1).length_lt
  · exact .refl _

theorem labels_progress {rules : ExprRules} (h : rules.Spanning) (value : Ty) (seen : List Value) (hasDefault : Bool) :
    (withSteps fun steps => labelsRule rules value seen hasDefault steps [] false).Progresses := by
  intro env tokens
  refine .peek ?_
  split
  · next hword =>
    refine .skip ((labelRule_spans h _ _).progresses.bind fun label _ hlabel labels rest hok => ?_)
    have hrest := (labelsRule_maySpan h value seen hasDefault _ _ _ [] labels rest hok).isSuffix
    exact (proper_tail (by simp [hword])).andThen (hrest.trans hlabel.1)
  · next hword =>
    split
    · exact .here (.fail _ _)
    · refine .skip ((@separator_plain false .colon rfl).progresses.bind fun _ _ hcolon labels rest hok => ?_)
      have hrest := (labelsRule_maySpan h value seen hasDefault _ _ _ [] labels rest hok).isSuffix
      exact (proper_tail (by simp [hword])).andThen (hrest.trans hcolon.1)
  · exact .expected _

def sectionsRound (rules : StatementRules) (value : Ty)
    (next : List Value × Bool → Rule (List Section × Option (List Statement))) (found : List Value × Bool) :
    Rule (List Section × Option (List Statement)) := do
  if (← peek).isSeparator .closeBrace then
    skip
    return ([], none)
  else
    let (labels, isDefault) ← withSteps fun steps => labelsRule rules.exprs value found.1 found.2 steps [] false
    let body ← inScopes Scopes.beginScope (withSteps (sectionBody rules.statement))
    let (sections, otherwise) ← next (found.1 ++ labels, found.2 || isDefault)
    return (if labels.isEmpty then sections else ⟨labels, body⟩ :: sections, if isDefault then some body else otherwise)

theorem sectionsRound_shrinks (h : rules.Spanning) (value : Ty) : Shrinks (sectionsRound rules value) := by
  refine fun P next next' env tokens found hnext => .peek ?_
  split
  · exact .refl _
  · have hbody : ∀ {env tokens}, (inScopes Scopes.beginScope (withSteps (sectionBody rules.statement))).Reads env tokens
        fun _ rest => rest <:+ tokens := fun {_ _} =>
      .within (.withSteps fun steps a rest hok => (sectionBody_maySpan h.statement steps [] a rest hok).isSuffix)
    refine (labels_progress h.exprs value found.1 found.2).agree fun ⟨labels, isDefault⟩ behind hlabels =>
      hbody.agree fun body rest hrest => (hnext _ env rest ?_).map _
    exact (hlabels.andThen hrest).length_lt

end Statements

end Scriptlet.Grammar
