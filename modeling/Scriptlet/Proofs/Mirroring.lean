import Scriptlet.Proofs.Compiled.Programs
import Scriptlet.Proofs.Loops
import Scriptlet.Proofs.Renumbering

/-!
# Rules in other surroundings

A rule is run twice. The second time the functions of the script have other numbers, other tokens follow, and some
`else if` may be one word. If the rule reads something the first time, and stops before the tokens that differ, it
reads the same the second time, up to the numbers. How far before depends on the rule: some look at the tokens behind
what they take. A joined word stands at the place of its `else`, so rules see the same places; a rule that takes a token
has looked at it before, and only the rule for what stands behind the first branch of an `if` takes an `else`. This
module has the relation and what holds for all rules; the rules of the grammar come after it.
-/

namespace Scriptlet

/-- The same symbol where functions have other numbers; the overloads may stand in another order. -/
inductive Symbol.Renumbers (ρ : Nat → Nat) : Symbol → Symbol → Prop
  | variable (ty : Ty) : Renumbers ρ (.variable ty) (.variable ty)
  | constant (v : Value) (ty : Ty) : Renumbers ρ (.constant v ty) (.constant v ty)
  | function {overloads overloads' : List Nat} (h : overloads'.Perm (overloads.map ρ)) :
      Renumbers ρ (.function overloads) (.function overloads')

/-- A symbol that has nothing to do with functions. -/
def Symbol.IsValue : Symbol → Prop
  | .variable _ | .constant _ _ => True
  | .function _ => False

theorem Symbol.IsValue.renumbers {ρ : Nat → Nat} {symbol : Symbol} (h : symbol.IsValue) :
    symbol.Renumbers ρ symbol := by
  cases symbol with
  | «variable» ty => exact .variable ty
  | constant v ty => exact .constant v ty
  | function overloads => exact h.elim

namespace Grammar

/-- The same surroundings where functions have other numbers. The overloads of a function can be told apart by the
types of their parameters. -/
structure Env.Renumbers (ρ : Nat → Nat) (env env' : Env) : Prop where
  registry : env'.registry = env.registry
  signatures : ∀ i, env'.signatures[ρ i]? = env.signatures[i]?
  symbols : ∀ name, Option.Rel (Symbol.Renumbers ρ) (env.scopes.lookup name) (env'.scopes.lookup name)
  apart : ∀ name overloads, env.scopes.lookup name = some (.function overloads) →
    (overloads.filterMap (env.signatures[·]?)).Pairwise fun s t => s.parameterTypes ≠ t.parameterTypes
  breakables : env'.scopes.breakables = env.scopes.breakables
  returns : env'.scopes.returns = env.scopes.returns

namespace Env.Renumbers

variable {ρ : Nat → Nat} {env env' : Env} (h : env.Renumbers ρ env')

include h

theorem accepts (target source : Ty) : env'.accepts target source = env.accepts target source := by
  rw [Env.accepts, Env.accepts, h.registry]

theorem enter (name : RuleName) : (env.enter name).Renumbers ρ (env'.enter name) :=
  ⟨h.registry, h.signatures, h.symbols, h.apart, h.breakables, h.returns⟩

theorem beginScope : (env.withScopes Scopes.beginScope).Renumbers ρ (env'.withScopes Scopes.beginScope) :=
  ⟨h.registry, h.signatures, h.symbols, h.apart, h.breakables, h.returns⟩

theorem beginBreakable (b : Breakable) :
    (env.withScopes (·.beginBreakable b)).Renumbers ρ (env'.withScopes (·.beginBreakable b)) :=
  ⟨h.registry, h.signatures, h.symbols, h.apart, congrArg (b :: ·) h.breakables, h.returns⟩

theorem beginFunction (returns : Option Ty) :
    (env.withScopes fun s => s.beginScope.withReturns returns).Renumbers ρ
      (env'.withScopes fun s => s.beginScope.withReturns returns) :=
  ⟨h.registry, h.signatures, h.symbols, h.apart, h.breakables, rfl⟩

theorem insert {symbol : Symbol} (hsymbol : symbol.IsValue) (name : String) :
    (env.withScopes (·.insert name symbol)).Renumbers ρ (env'.withScopes (·.insert name symbol)) := by
  refine ⟨h.registry, h.signatures, fun other => ?_, fun other overloads hother => ?_, h.breakables, h.returns⟩
  · simp only [Env.withScopes, Scopes.lookup_insert]
    split
    · exact .some hsymbol.renumbers
    · exact h.symbols other
  · simp only [Env.withScopes, Scopes.lookup_insert] at hother
    split at hother
    · cases hother
      exact hsymbol.elim
    · exact h.apart other overloads hother

theorem addDeclared {declared : Declared} (hdeclared : ∀ d ∈ declared, d.2.IsValue) :
    (env.withScopes (addDeclared declared)).Renumbers ρ (env'.withScopes (Grammar.addDeclared declared)) := by
  cases declared with
  | none => exact h
  | some d => exact h.insert (hdeclared d rfl) d.1

theorem entered (name : RuleName) : (env.enter name).Renumbers ρ env' :=
  ⟨h.registry, h.signatures, h.symbols, h.apart, h.breakables, h.returns⟩

theorem inEmptyScope : (env.withScopes Scopes.beginScope).Renumbers ρ env' :=
  ⟨h.registry, h.signatures, h.symbols, h.apart, h.breakables, h.returns⟩

end Env.Renumbers

/-- Tokens behind a place of which a rule may look at the first, and at the second if the first opens a bracket. -/
def Ahead (tokens : List Token) : Prop :=
  tokens ≠ [] ∧ ∀ p, tokens ≠ [⟨.separator .openBracket, p⟩]

namespace Ahead

variable {tokens longer : List Token}

theorem of_isSuffix (h : Ahead tokens) (hsuffix : tokens <:+ longer) : Ahead longer := by
  obtain ⟨front, rfl⟩ := hsuffix
  cases front with
  | nil => exact h
  | cons token front =>
    refine ⟨by simp, fun p heq => ?_⟩
    simp only [List.cons_append, List.cons.injEq, List.append_eq_nil_iff] at heq
    exact h.1 heq.2.2

theorem of_kind {token : Token} (h : token.kind ≠ .separator .openBracket) (rest : List Token) :
    Ahead (token :: rest) := by
  refine ⟨by simp, fun p heq => ?_⟩
  cases heq
  exact h rfl

end Ahead

/-- The second list is the first one, with some `else if` joined if that may be. -/
inductive Joined (joins : Bool) : List Token → List Token → Prop
  | nil : Joined joins [] []
  | keep (token : Token) {tokens tokens' : List Token} (h : Joined joins tokens tokens') :
      Joined joins (token :: tokens) (token :: tokens')
  | join (hjoins : joins = true) (p q : Position) {tokens tokens' : List Token} (h : Joined joins tokens tokens') :
      Joined joins (⟨.keyword .elseWord, p⟩ :: ⟨.keyword .ifWord, q⟩ :: tokens)
        (⟨.keyword .elseIfWord, p⟩ :: tokens')

/-- Tokens without and with joined words. If a kind is given, the first token has it and stays as it is. -/
def JoinedAt (joins : Bool) : Option TokenKind → List Token → List Token → Prop
  | none, front, front' => Joined joins front front'
  | some kind, front, front' => ∃ p rest rest', front = ⟨kind, p⟩ :: rest ∧ front' = ⟨kind, p⟩ :: rest' ∧
      Joined joins rest rest'

namespace Joined

open Rule

variable {joins : Bool} {front front' : List Token}

theorem refl (tokens : List Token) : Joined joins tokens tokens := by
  induction tokens with
  | nil => exact .nil
  | cons token tokens ih => exact .keep token ih

theorem eq_of_not_joins (h : Joined false front front') : front' = front := by
  induction h with
  | nil => rfl
  | keep token _ ih => rw [ih]
  | join hjoins => cases hjoins

theorem length_le (h : Joined joins front front') : front'.length ≤ front.length := by
  induction h with
  | nil => exact Nat.le_refl _
  | keep token _ ih => exact Nat.succ_le_succ ih
  | join hjoins p q _ ih => exact Nat.succ_le_succ (Nat.le_succ_of_le ih)

theorem firstPosition_eq (h : Joined joins front front') (hsome : front ≠ []) (behind behind' : List Token) :
    firstPosition (front' ++ behind') = firstPosition (front ++ behind) := by
  cases h with
  | nil => exact absurd rfl hsome
  | keep token h => rfl
  | join hjoins p q h => rfl

/-- What cannot tell an `else` from a joined word sees the same first token. -/
theorem look (h : Joined joins front front') (hsome : front ≠ []) {γ : Type} (f : TokenKind → γ)
    (hf : f (.keyword .elseIfWord) = f (.keyword .elseWord)) (behind behind' : List Token) :
    f (firstKind (front' ++ behind')) = f (firstKind (front ++ behind)) := by
  cases h with
  | nil => exact absurd rfl hsome
  | keep token h => rfl
  | join hjoins p q h => exact hf

end Joined

theorem JoinedAt.joined {joins : Bool} {kind? : Option TokenKind} {front front' : List Token}
    (h : JoinedAt joins kind? front front') : Joined joins front front' := by
  cases kind? with
  | none => exact h
  | some kind =>
    obtain ⟨p, rest, rest', rfl, rfl, hrest⟩ := h
    exact .keep _ hrest

theorem Joined.at_separator {joins : Bool} {sign : Separator} {front front' : List Token}
    (h : Joined joins front front') (hsign : Rule.firstKind front = .separator sign) :
    JoinedAt joins (some (.separator sign)) front front' := by
  cases h with
  | nil => cases hsign
  | keep token h =>
    obtain ⟨kind, p⟩ := token
    obtain rfl : kind = .separator sign := hsign
    exact ⟨p, _, _, rfl, rfl, h⟩
  | join => cases hsign

/-- What is different when a rule is run again: the numbers of the functions, and whether words may be joined. -/
structure Change where
  ρ : Nat → Nat
  joins : Bool

namespace Rule

variable {α β γ δ ε ζ : Type} {χ : Change}

/-- The second rule reads what the first one reads, changed by `g` and as far as `view` shows, where functions have
other numbers, words may be joined and other tokens follow. What the rules leave of the tokens in front of these has to
be long enough. If a kind is given, the first token has it and is not joined. -/
structure MirrorsAt (χ : Change) (kind? : Option TokenKind) (ends : List Token → Prop) (view : β → ε) (g : α → β)
    (rule : Rule α) (rule' : Rule β) : Prop where
  shrinks : ∀ ⦃env : Env⦄ ⦃tokens rest : List Token⦄ ⦃a : α⦄, rule env tokens = .ok (a, rest) → rest <:+ tokens
  follows : ∀ ⦃env env' : Env⦄, env.Renumbers χ.ρ env' → ∀ ⦃front front' left behind : List Token⦄
    (behind' : List Token) ⦃a : α⦄, JoinedAt χ.joins kind? front front' → ends left →
      rule env (front ++ behind) = .ok (a, left ++ behind) → ∃ b left',
        rule' env' (front' ++ behind') = .ok (b, left' ++ behind') ∧ view b = view (g a) ∧ Joined χ.joins left left'

/-- The second rule reads what the first one reads, changed by `g`. -/
abbrev Mirrors (χ : Change) (ends : List Token → Prop) (g : α → β) (rule : Rule α) (rule' : Rule β) : Prop :=
  rule.MirrorsAt χ none ends id g rule'

/-- The second rule reads the expression that the first one reads, with renumbered calls. -/
abbrev MirrorsExpr (χ : Change) (rule rule' : Rule Expr) : Prop :=
  rule.Mirrors χ Ahead (Expr.renumber χ.ρ) rule'

theorem exists_front {front left behind middle : List Token} (h : left ++ behind <:+ middle)
    (h' : middle <:+ front ++ behind) : ∃ rest, middle = rest ++ behind ∧ left <:+ rest ∧ rest <:+ front := by
  obtain ⟨skipped, rfl⟩ := h
  rw [← List.append_assoc] at h'
  exact ⟨skipped ++ left, by simp, List.suffix_append _ _, (List.suffix_append_self_iff).mp h'⟩

theorem bind_ok {rule : Rule α} {next : α → Rule β} {env : Env} {tokens rest : List Token} {a : α}
    (h : rule env tokens = .ok (a, rest)) : (rule >>= next) env tokens = next a env rest := by
  simp only [Bind.bind, h]

theorem ask_bind {next : Env → Rule β} {env : Env} {tokens : List Token} :
    (Rule.ask >>= next) env tokens = next env env tokens :=
  rfl

namespace MirrorsAt

variable {kind? : Option TokenKind} {ends : List Token → Prop} {view : β → ε} {view' : δ → ζ} {g : α → β} {h : γ → δ}
  {rule : Rule α} {rule' : Rule β} {next : α → Rule γ} {next' : β → Rule δ} {env env' : Env}

theorem exists_left (hrule : rule.MirrorsAt χ kind? ends id g rule') (henv : env.Renumbers χ.ρ env')
    {front front' left behind : List Token} (behind' : List Token) {a : α}
    (hfront : JoinedAt χ.joins kind? front front') (hleft : ends left)
    (hok : rule env (front ++ behind) = .ok (a, left ++ behind)) :
    ∃ left', rule' env' (front' ++ behind') = .ok (g a, left' ++ behind') ∧ Joined χ.joins left left' := by
  obtain ⟨b, left', hb, hview, hleft'⟩ := hrule.follows henv behind' hfront hleft hok
  obtain rfl : b = g a := hview
  exact ⟨left', hb, hleft'⟩

theorem whole (hrule : rule.MirrorsAt χ kind? ends view g rule') (henv : env.Renumbers χ.ρ env')
    {tokens tokens' rest : List Token} {a : α} (htokens : JoinedAt χ.joins kind? tokens tokens') (hrest : ends rest)
    (hok : rule env tokens = .ok (a, rest)) : ∃ b rest', rule' env' tokens' = .ok (b, rest') ∧ view b = view (g a) ∧
      Joined χ.joins rest rest' := by
  have hok : rule env (tokens ++ []) = .ok (a, rest ++ []) := by rwa [List.append_nil, List.append_nil]
  simpa only [List.append_nil] using hrule.follows henv [] htokens hrest hok

theorem unjoined {ρ : Nat → Nat} (hrule : rule.MirrorsAt ⟨ρ, false⟩ none ends view g rule') (hview : view.Injective)
    (henv : env.Renumbers ρ env') {front left behind : List Token} (behind' : List Token) {a : α}
    (hleft : ends left) (hok : rule env (front ++ behind) = .ok (a, left ++ behind)) :
    rule' env' (front ++ behind') = .ok (g a, left ++ behind') := by
  obtain ⟨b, left', hb, hsame, hleft'⟩ := hrule.follows henv behind' (.refl front) hleft hok
  rw [hb, hview hsame, hleft'.eq_of_not_joins]

theorem eq_self {g : α → α} {view : α → ε} (hrule : rule.MirrorsAt ⟨id, false⟩ none ends view g rule)
    (hview : view.Injective) (henv : env.Renumbers id env) {tokens rest : List Token} {a : α}
    (hrest : ends rest) (hok : rule env tokens = .ok (a, rest)) : g a = a := by
  obtain ⟨b, rest', hb, hsame, -⟩ := hrule.whole henv (.refl tokens) hrest hok
  rw [← hview hsame]
  rw [hok] at hb
  cases hb
  rfl

theorem mono {wider : List Token → Prop} (hrule : rule.MirrorsAt χ kind? wider view g rule')
    (hends : ∀ left, ends left → wider left) : rule.MirrorsAt χ kind? ends view g rule' :=
  ⟨hrule.shrinks, fun _ _ henv _ _ left _ behind' _ hfront hleft =>
    hrule.follows henv behind' hfront (hends left hleft)⟩

theorem at_kind (hrule : rule.MirrorsAt χ none ends view g rule') : rule.MirrorsAt χ kind? ends view g rule' :=
  ⟨hrule.shrinks, fun _ _ henv _ _ _ _ behind' _ hfront hleft hok => hrule.follows henv behind' hfront.joined hleft hok⟩

theorem congr {g' : α → β} (hrule : rule.MirrorsAt χ kind? ends view g rule') (hg : ∀ a, g a = g' a) :
    rule.MirrorsAt χ kind? ends view g' rule' := by
  obtain rfl : g = g' := funext hg
  exact hrule

theorem pure {a : α} {b : β} (hb : view b = view (g a)) :
    (Pure.pure a : Rule α).MirrorsAt χ kind? ends view g (Pure.pure b) := by
  refine ⟨?_, fun env env' _ front front' left behind behind' a' hfront _ hok => ?_⟩
  · rintro env tokens rest _ ⟨⟩
    exact List.suffix_rfl
  · simp only [Pure.pure, Except.ok.injEq, Prod.mk.injEq, List.append_cancel_right_eq] at hok
    obtain ⟨rfl, rfl⟩ := hok
    exact ⟨b, front', rfl, hb, hfront.joined⟩

theorem of_refuses (hrule : ∀ env tokens, rule.Reads env tokens fun _ _ => False) :
    rule.MirrorsAt χ kind? ends view g rule' :=
  ⟨fun _ _ _ _ hok => (hrule _ _ _ _ hok).elim, fun _ _ _ _ _ _ _ _ _ _ _ hok => (hrule _ _ _ _ hok).elim⟩

theorem fail (cause : CompileCause) (p : Position) : (Rule.fail cause p).MirrorsAt χ kind? ends view g rule' :=
  of_refuses fun _ _ => .fail _ _

theorem expected (what : String) : (Rule.expected what).MirrorsAt χ kind? ends view g rule' :=
  of_refuses fun _ _ => .expected _

theorem unexpected : Rule.unexpected.MirrorsAt χ kind? ends view g rule' :=
  of_refuses fun _ _ => .unexpected

theorem tooDeep : Rule.tooDeep.MirrorsAt χ kind? ends view g rule' :=
  fail _ _

theorem of_still (hstill : rule.Still)
    (hrule : ∀ ⦃env env' : Env⦄, env.Renumbers χ.ρ env' → ∀ tokens tokens' a, rule env tokens = .ok (a, tokens) →
      rule' env' tokens' = .ok (g a, tokens')) : rule.MirrorsAt χ kind? ends view g rule' := by
  refine ⟨fun env tokens rest a hok => ?_, fun env env' henv front front' left behind behind' a hfront _ hok => ?_⟩
  · obtain rfl := hstill a rest hok
    exact List.suffix_rfl
  · have hleft := hstill a _ hok
    rw [hleft] at hok
    obtain rfl := List.append_cancel_right hleft
    exact ⟨g a, front', hrule henv _ _ a hok, rfl, hfront.joined⟩

/-- Two rules one behind the other. The second one needs tokens, so the first one leaves enough. -/
theorem bind_of {needed : List Token → Prop} {G : α → Prop} (hrule : rule.MirrorsAt χ kind? needed view g rule')
    (hgives : ∀ env, rule.Gives env G)
    (hnext : ∀ a b, G a → view b = view (g a) → (next a).MirrorsAt χ none ends view' h (next' b))
    (hneeded : ∀ a, G a → ∀ env front left behind c, ends left →
      next a env (front ++ behind) = .ok (c, left ++ behind) → needed front) :
    (rule >>= next).MirrorsAt χ kind? ends view' h (rule' >>= next') := by
  refine ⟨fun env tokens rest c hok => ?_, fun env env' henv front front' left behind behind' c hfront hleft hok => ?_⟩
  · obtain ⟨a, middle, hfirst, hsecond⟩ := Rule.ok_of_bind hok
    exact ((hnext a _ (hgives env _ _ _ hfirst) rfl).shrinks hsecond).trans (hrule.shrinks hfirst)
  · obtain ⟨a, middle, hfirst, hsecond⟩ := Rule.ok_of_bind hok
    have ha := hgives env _ _ _ hfirst
    obtain ⟨rest, rfl, -, -⟩ := exists_front ((hnext a _ ha rfl).shrinks hsecond) (hrule.shrinks hfirst)
    obtain ⟨b, rest', hfirst', hview, hrest⟩ :=
      hrule.follows henv behind' hfront (hneeded a ha env rest left behind c hleft hsecond) hfirst
    rw [bind_ok hfirst']
    exact (hnext a b ha hview).follows henv behind' hrest hleft hsecond

theorem andThen (hrule : rule.MirrorsAt χ kind? (fun _ => True) id g rule')
    (hnext : ∀ a, (next a).MirrorsAt χ none ends view' h (next' (g a))) :
    (rule >>= next).MirrorsAt χ kind? ends view' h (rule' >>= next') := by
  refine hrule.bind_of (fun _ => .any rule) ?_ fun _ _ _ _ _ _ _ _ _ => trivial
  rintro a _ - rfl
  exact hnext a

theorem bindGives {G : α → Prop} (hrule : rule.MirrorsAt χ kind? Ahead view g rule') (hgives : ∀ env, rule.Gives env G)
    (hnext : ∀ a b, G a → view b = view (g a) → (next a).MirrorsAt χ none Ahead view' h (next' b)) :
    (rule >>= next).MirrorsAt χ kind? Ahead view' h (rule' >>= next') := by
  refine hrule.bind_of hgives hnext ?_
  intro a ha env front left behind c hleft hok
  exact hleft.of_isSuffix (List.suffix_append_self_iff.mp ((hnext a _ ha rfl).shrinks hok))

theorem bindView (hrule : rule.MirrorsAt χ kind? Ahead view g rule')
    (hnext : ∀ a b, view b = view (g a) → (next a).MirrorsAt χ none Ahead view' h (next' b)) :
    (rule >>= next).MirrorsAt χ kind? Ahead view' h (rule' >>= next') :=
  hrule.bindGives (fun _ => .any rule) fun a b _ => hnext a b

theorem bind (hrule : rule.MirrorsAt χ kind? Ahead id g rule')
    (hnext : ∀ a, (next a).MirrorsAt χ none Ahead view' h (next' (g a))) :
    (rule >>= next).MirrorsAt χ kind? Ahead view' h (rule' >>= next') := by
  refine hrule.bindView ?_
  rintro a _ rfl
  exact hnext a

theorem map {f : α → γ} {f' : β → δ} (hrule : rule.MirrorsAt χ kind? ends view g rule')
    (hf : ∀ a b, view b = view (g a) → view' (f' b) = view' (h (f a))) :
    (rule >>= fun a => Pure.pure (f a)).MirrorsAt χ kind? ends view' h (rule' >>= fun b => Pure.pure (f' b)) := by
  refine hrule.bind_of (fun _ => .any rule) (fun a b _ hview => .pure (hf a b hview)) ?_
  intro a _ env front left behind c hleft hok
  obtain ⟨-, hrest⟩ := Prod.mk.inj (Except.ok.inj hok)
  exact List.append_cancel_right hrest ▸ hleft

/-- A rule that takes nothing leaves the first token where it is. -/
theorem after (hstill : rule.Still) (hstill' : rule'.Still) (hrule : rule.Mirrors χ (fun _ => True) g rule')
    (hnext : ∀ a, (next a).MirrorsAt χ kind? ends view' h (next' (g a))) :
    (rule >>= next).MirrorsAt χ kind? ends view' h (rule' >>= next') := by
  refine ⟨fun env tokens rest c hok => ?_, fun env env' henv front front' left behind behind' c hfront hleft hok => ?_⟩
  · obtain ⟨a, middle, hfirst, hsecond⟩ := Rule.ok_of_bind hok
    exact ((hnext a).shrinks hsecond).trans (hrule.shrinks hfirst)
  · obtain ⟨a, middle, hfirst, hsecond⟩ := Rule.ok_of_bind hok
    obtain rfl := hstill a middle hfirst
    obtain ⟨rest', hfirst', -⟩ := hrule.exists_left henv behind' hfront.joined trivial hfirst
    rw [bind_ok hfirst', hstill' _ _ hfirst']
    exact (hnext a).follows henv behind' hfront hleft hsecond

theorem beforeStep {σ : Type} {step : Rule σ} (hstep : step.Mirrors χ (fun _ => True) id step)
    (htakes : ∀ env tokens, step.Reads env tokens fun _ rest =>
      firstKind tokens ≠ .separator .openBracket ∧ firstKind tokens ≠ .endOfInput ∧ rest = tokens.tail)
    {next : α → σ → Rule γ} {next' : β → σ → Rule δ} (hrule : rule.Mirrors χ Ahead g rule')
    (hnext : ∀ a s, (next a s).MirrorsAt χ none ends view' h (next' (g a) s)) :
    (do let a ← rule; let s ← step; next a s).MirrorsAt χ none ends view' h
      (do let b ← rule'; let s ← step; next' b s) := by
  refine hrule.bind_of (fun _ => .any rule) ?_ ?_
  · rintro a _ - rfl
    exact hstep.andThen (hnext a)
  · intro a _ env front left behind c _ hok
    obtain ⟨s, middle, hs, hrest⟩ := Rule.ok_of_bind hok
    obtain ⟨hbracket, hend, rfl⟩ := htakes env _ s middle hs
    cases front with
    | nil =>
      have hlength := ((hnext a s).shrinks hrest).length_le
      have htail := length_tail_lt rfl hend
      simp only [List.nil_append, List.length_append] at hlength htail
      omega
    | cons token front => exact .of_kind hbracket front

theorem ask {next : Env → Rule α} {next' : Env → Rule β}
    (hsame : ∀ ⦃env env' : Env⦄, env.Renumbers χ.ρ env' → next' env' = next' env)
    (hnext : ∀ env, (next env).MirrorsAt χ kind? ends view g (next' env)) :
    (Rule.ask >>= next).MirrorsAt χ kind? ends view g (Rule.ask >>= next') := by
  refine ⟨fun env tokens rest a hok => (hnext env).shrinks hok, ?_⟩
  intro env env' henv front front' left behind behind' a hfront hleft hok
  rw [ask_bind, hsame henv]
  exact (hnext env).follows henv behind' hfront hleft hok

theorem ite {c : Prop} [Decidable c] {yes no : Rule α} {yes' no' : Rule β}
    (hyes : c → yes.MirrorsAt χ kind? ends view g yes') (hno : ¬ c → no.MirrorsAt χ kind? ends view g no') :
    (if c then yes else no).MirrorsAt χ kind? ends view g (if c then yes' else no') := by
  split
  · next hc => exact hyes hc
  · next hc => exact hno hc

theorem askIte {c : Env → Bool} (hc : ∀ ⦃env env' : Env⦄, env.Renumbers χ.ρ env' → c env' = c env) {yes no : Rule α}
    {yes' no' : Rule β} (hyes : yes.MirrorsAt χ kind? ends view g yes') (hno : no.MirrorsAt χ kind? ends view g no') :
    (do if c (← Rule.ask) then yes else no).MirrorsAt χ kind? ends view g (do if c (← Rule.ask) then yes' else no') :=
  ask (fun _ _ henv => by rw [hc henv]) fun _ => .ite (fun _ => hyes) fun _ => hno

theorem within {f : Env → Env}
    (hf : ∀ ⦃env env' : Env⦄, env.Renumbers χ.ρ env' → (f env).Renumbers χ.ρ (f env'))
    (hrule : rule.MirrorsAt χ kind? ends view g rule') :
    (rule.within f).MirrorsAt χ kind? ends view g (rule'.within f) :=
  ⟨fun _ _ _ _ hok => hrule.shrinks hok, fun _ _ henv _ _ _ _ behind' _ hfront hleft hok =>
    hrule.follows (hf henv) behind' hfront hleft hok⟩

theorem inScopes {f : Scopes → Scopes}
    (hf : ∀ ⦃env env' : Env⦄, env.Renumbers χ.ρ env' → (env.withScopes f).Renumbers χ.ρ (env'.withScopes f))
    (hrule : rule.MirrorsAt χ kind? ends view g rule') :
    (Rule.inScopes f rule).MirrorsAt χ kind? ends view g (Rule.inScopes f rule') :=
  hrule.within hf

theorem named (hrule : rule.MirrorsAt χ kind? ends view g rule') (name : RuleName) :
    (rule.named name).MirrorsAt χ kind? ends view g (rule'.named name) :=
  hrule.within fun _ _ henv => henv.enter name

theorem enter {rule : Nat → Rule α} {rule' : Nat → Rule β}
    (hrule : ∀ depth, (rule depth).MirrorsAt χ kind? ends view g (rule' depth)) (name : RuleName) (depth : Nat) :
    (Rule.enter name rule depth).MirrorsAt χ kind? ends view g (Rule.enter name rule' depth) := by
  cases depth with
  | zero => exact tooDeep
  | succ depth => exact (hrule depth).named name

section Looking

variable {next : TokenKind → Rule α} {next' : TokenKind → Rule β}

theorem ne_nil_of_ahead (hrule : rule.MirrorsAt χ kind? Ahead view g rule') {env : Env} {front left behind : List Token}
    {a : α} (hleft : Ahead left) (hok : rule env (front ++ behind) = .ok (a, left ++ behind)) : front ≠ [] :=
  (hleft.of_isSuffix (List.suffix_append_self_iff.mp (hrule.shrinks hok))).1

theorem ne_nil_of_takes (hrule : ∀ env tokens, rule.Reads env tokens fun _ rest => rest.length < tokens.length)
    {env : Env} {front left behind : List Token} {a : α}
    (hok : rule env (front ++ behind) = .ok (a, left ++ behind)) : front ≠ [] := by
  rintro rfl
  have htaken := hrule env _ a _ hok
  simp only [List.nil_append, List.length_append] at htaken
  omega

/-- The next token is the same and stays as it is, or it is an `else` that is joined, if there is one in front of those
that differ. -/
theorem peek_of (hnext : ∀ kind, (next kind).MirrorsAt χ (some kind) ends view g (next' kind))
    (hjoined : (next (.keyword .elseWord)).MirrorsAt χ none ends view g (next' (.keyword .elseIfWord)))
    (hsome : ∀ ⦃env front left behind a⦄, ends left →
      (Rule.peek >>= next) env (front ++ behind) = .ok (a, left ++ behind) → front ≠ []) :
    (Rule.peek >>= next).MirrorsAt χ none ends view g (Rule.peek >>= next') := by
  refine ⟨fun env tokens rest a hok => (hnext _).shrinks hok, ?_⟩
  intro env env' henv front front' left behind behind' a hfront hleft hok
  have hne := hsome hleft hok
  cases hfront with
  | nil => exact absurd rfl hne
  | keep token hrest =>
    obtain ⟨kind, p⟩ := token
    exact (hnext kind).follows henv behind' ⟨p, _, _, rfl, rfl, hrest⟩ hleft hok
  | join hjoins p q hrest => exact hjoined.follows henv behind' (.join hjoins p q hrest) hleft hok

theorem peek (hnext : ∀ kind, (next kind).MirrorsAt χ (some kind) Ahead view g (next' kind))
    (hjoined : (next (.keyword .elseWord)).MirrorsAt χ none Ahead view g (next' (.keyword .elseIfWord))) :
    (Rule.peek >>= next).MirrorsAt χ none Ahead view g (Rule.peek >>= next') :=
  peek_of hnext hjoined fun _ _ _ _ _ hleft hok => (hnext _).ne_nil_of_ahead hleft hok

/-- A choice by the next token that an `else` does not meet. -/
theorem peekIte {c : TokenKind → Bool} {yes no : Rule α} {yes' no' : Rule β} (hc : c (.keyword .elseWord) = false)
    (hc' : c (.keyword .elseIfWord) = false) (hyes : ∀ kind, yes.MirrorsAt χ (some kind) Ahead view g yes')
    (hno : no.MirrorsAt χ none Ahead view g no') :
    (do if c (← Rule.peek) then yes else no).MirrorsAt χ none Ahead view g
      (do if c (← Rule.peek) then yes' else no') := by
  refine peek (fun kind => .ite (fun _ => hyes kind) fun _ => hno.at_kind) ?_
  rw [hc, hc']
  exact hno

/-- The token behind the next one is the same too, or it is an `else` that is joined, if the rule takes one token and
leaves another. -/
theorem peekSecond {kind : TokenKind}
    (hnext : ∀ second, (next second).MirrorsAt χ (some kind) Ahead view g (next' second))
    (hjoined : (next (.keyword .elseWord)).MirrorsAt χ (some kind) Ahead view g (next' (.keyword .elseIfWord)))
    (hlength : ∀ second env tokens, (next second).Reads env tokens fun _ rest =>
      rest ≠ [] → rest.length < tokens.length) :
    (Rule.peekSecond >>= next).MirrorsAt χ (some kind) Ahead view g (Rule.peekSecond >>= next') := by
  refine ⟨fun env tokens rest a hok => (hnext _).shrinks hok, ?_⟩
  intro env env' henv front front' left behind behind' a hfront hleft hok
  obtain ⟨p, rest, rest', rfl, rfl, hrest⟩ := hfront
  have htaken := hlength _ env _ a _ hok (List.append_ne_nil_of_left_ne_nil hleft.1 _)
  have hsome := List.length_pos_iff.mpr hleft.1
  simp only [List.cons_append, List.length_cons, List.length_append] at htaken
  cases hrest with
  | nil =>
    simp only [List.length_nil] at htaken
    omega
  | keep second hrest =>
    exact (hnext second.kind).follows henv behind' ⟨p, _, _, rfl, rfl, .keep second hrest⟩ hleft hok
  | join hjoins q r hrest => exact hjoined.follows henv behind' ⟨p, _, _, rfl, rfl, .join hjoins q r hrest⟩ hleft hok

/-- A choice by the next two tokens that no `else` in front meets, and that an `else` behind does not change. -/
theorem peekTwo {c : TokenKind → TokenKind → Bool} {yes no : Rule α} {yes' no' : Rule β}
    (hc : ∀ second, c (.keyword .elseWord) second = false) (hc' : ∀ second, c (.keyword .elseIfWord) second = false)
    (hsecond : ∀ first, c first (.keyword .elseIfWord) = c first (.keyword .elseWord))
    (hyes : ∀ kind, yes.MirrorsAt χ (some kind) Ahead view g yes') (hno : no.MirrorsAt χ none Ahead view g no')
    (hlength : ∀ env tokens, yes.Reads env tokens fun _ rest => rest ≠ [] → rest.length < tokens.length)
    (hlength' : ∀ env tokens, no.Reads env tokens fun _ rest => rest ≠ [] → rest.length < tokens.length) :
    (do if c (← Rule.peek) (← Rule.peekSecond) then yes else no).MirrorsAt χ none Ahead view g
      (do if c (← Rule.peek) (← Rule.peekSecond) then yes' else no') := by
  have hchoice : ∀ first second, (if c first second then yes else no).MirrorsAt χ (some first) Ahead view g
      (if c first second then yes' else no') :=
    fun first _ => .ite (fun _ => hyes first) fun _ => hno.at_kind
  refine peek (fun first => peekSecond (hchoice first) ?_ fun second env tokens => ?_) ?_
  · rw [hsecond]
    exact hchoice first _
  · split
    · exact hlength env tokens
    · exact hlength' env tokens
  · simp only [hc, hc', Bool.false_eq_true, if_false]
    exact hno

theorem here {next : Position → Rule α} {next' : Position → Rule β}
    (hnext : ∀ p, (next p).MirrorsAt χ kind? Ahead view g (next' p)) :
    (Rule.here >>= next).MirrorsAt χ kind? Ahead view g (Rule.here >>= next') := by
  refine ⟨fun env tokens rest a hok => (hnext _).shrinks hok, ?_⟩
  intro env env' henv front front' left behind behind' a hfront hleft hok
  change ∃ b left', next' (firstPosition (front' ++ behind')) env' _ = .ok (b, _) ∧ _
  rw [hfront.joined.firstPosition_eq ((hnext _).ne_nil_of_ahead hleft hok) behind]
  exact (hnext _).follows henv behind' hfront hleft hok

theorem herePeek {next : Position → TokenKind → Rule α} {next' : Position → TokenKind → Rule β}
    (hnext : ∀ p kind, (next p kind).MirrorsAt χ (some kind) ends view g (next' p kind))
    (hjoined : ∀ p, (next p (.keyword .elseWord)).MirrorsAt χ none ends view g (next' p (.keyword .elseIfWord)))
    (htakes : ∀ env tokens, (do next (← Rule.here) (← Rule.peek)).Reads env tokens fun _ rest =>
      rest.length < tokens.length) :
    (do next (← Rule.here) (← Rule.peek)).MirrorsAt χ none ends view g (do next' (← Rule.here) (← Rule.peek)) := by
  refine ⟨fun env tokens rest a hok => (hnext _ _).shrinks hok, ?_⟩
  intro env env' henv front front' left behind behind' a hfront hleft hok
  cases hfront with
  | nil => exact absurd rfl (ne_nil_of_takes htakes hok)
  | keep token hrest =>
    obtain ⟨kind, p⟩ := token
    exact (hnext p kind).follows henv behind' ⟨p, _, _, rfl, rfl, hrest⟩ hleft hok
  | join hjoins p q hrest => exact (hjoined p).follows henv behind' (.join hjoins p q hrest) hleft hok

/-- A place that only errors mention may be another one. -/
theorem hereAny {next : Position → Rule α} {next' : Position → Rule β}
    (hnext : ∀ p p', (next p).MirrorsAt χ kind? ends view g (next' p')) :
    (Rule.here >>= next).MirrorsAt χ kind? ends view g (Rule.here >>= next') :=
  ⟨fun _ _ _ _ hok => (hnext _ (firstPosition [])).shrinks hok,
    fun _ _ henv _ _ _ _ behind' _ hfront hleft hok => (hnext _ _).follows henv behind' hfront hleft hok⟩

theorem skip {kind : TokenKind} {next : Unit → Rule α} {next' : Unit → Rule β}
    (hnext : (next ()).MirrorsAt χ none ends view g (next' ())) :
    (Rule.skip >>= next).MirrorsAt χ (some kind) ends view g (Rule.skip >>= next') := by
  refine ⟨fun env tokens rest a hok => (hnext.shrinks hok).trans (List.tail_suffix _), ?_⟩
  intro env env' henv front front' left behind behind' a hfront hleft hok
  obtain ⟨p, rest, rest', rfl, rfl, hrest⟩ := hfront
  exact hnext.follows henv behind' hrest hleft hok

end Looking

theorem take {c : TokenKind → Bool} (hend : c .endOfInput = false) (helse : c (.keyword .elseWord) = false)
    (what : String) : (do if c (← Rule.peek) then Rule.skip else Rule.expected what : Rule Unit).Mirrors χ ends id
      (do if c (← Rule.peek) then Rule.skip else Rule.expected what) := by
  have htakes : ∀ env tokens, (do if c (← Rule.peek) then Rule.skip else Rule.expected what : Rule Unit).Reads env
      tokens fun _ rest => rest.length < tokens.length := by
    intro env tokens
    refine .peek ?_
    split
    · next hc => exact .of_eq rfl (length_tail_lt rfl fun hkind => by simp [hkind, hend] at hc)
    · exact .expected _
  refine peek_of (fun kind => .ite (fun _ => ?_) fun _ => .expected _) ?_
    fun _ _ _ _ _ _ hok => ne_nil_of_takes htakes hok
  · have hskip : (Rule.skip >>= Pure.pure).MirrorsAt χ (some kind) ends id id (Rule.skip >>= Pure.pure) :=
      .skip (.pure rfl)
    exact hskip
  · rw [helse]
    exact .expected _

end MirrorsAt

section Steps

/-- Where words are joined there are fewer tokens, and still more steps than that. -/
theorem MirrorsAt.withSteps {kind? : Option TokenKind} {ends : List Token → Prop} {view : β → ε} {g : α → β}
    {rule : Steps → Rule α} {rule' : Steps → Rule β}
    (hrule : ∀ steps, (rule steps).MirrorsAt χ kind? ends view g (rule' steps)) (hsteady : Steady rule') :
    (Rule.withSteps rule).MirrorsAt χ kind? ends view g (Rule.withSteps rule') := by
  refine ⟨fun env tokens rest a hok => (hrule _).shrinks hok, ?_⟩
  intro env env' henv front front' left behind behind' a hfront hleft hok
  obtain ⟨b, left', hb, hview, hrest⟩ := (hrule _).follows henv behind' hfront hleft hok
  have hlength := hfront.joined.length_le
  refine ⟨b, left', hsteady ?_ ?_ b hb, hview, hrest⟩
  · simp only [List.length_cons, List.length_append]
    omega
  · simp only [List.length_cons, List.length_append]
    omega

end Steps

section Tokens

variable {ends : List Token → Prop}

theorem separator_mirrors (sign : Separator) : (separator sign).Mirrors χ ends id (separator sign) :=
  .take rfl rfl _

theorem operator_mirrors (sign : Operator) : (operator sign).Mirrors χ ends id (operator sign) :=
  .take rfl rfl _

theorem identifier_reads {env : Env} {tokens : List Token} : identifier.Reads env tokens fun name rest =>
    firstKind tokens = .identifier name ∧ rest = tokens.tail := by
  refine .peek ?_
  split
  · next hkind => exact .skip (.pure ⟨hkind, rfl⟩)
  · exact .expected _

theorem identifier_mirrors : identifier.Mirrors χ ends id identifier := by
  have htakes : ∀ env tokens, identifier.Reads env tokens fun _ rest => rest.length < tokens.length := by
    intro env tokens name rest hok
    obtain ⟨hkind, rfl⟩ := identifier_reads name rest hok
    exact length_tail_lt hkind (by simp)
  refine .peek_of (fun kind => ?_) (.expected _) fun _ _ _ _ _ _ hok => MirrorsAt.ne_nil_of_takes htakes hok
  split
  · exact .skip (.pure rfl)
  · exact .expected _

end Tokens

section Checks

variable {kind? : Option TokenKind} {ends : List Token → Prop}

theorem expectAssignable_mirrors (target : Ty) (e : Expr) (use : Use) :
    (expectAssignable target e use).MirrorsAt χ kind? ends id id (expectAssignable target (e.renumber χ.ρ) use) := by
  unfold expectAssignable
  rw [Expr.ty_renumber]
  exact .askIte (fun _ _ henv => henv.accepts _ _) (.pure rfl) (.fail _ _)

theorem bounded_mirrors (e : Expr) :
    (bounded e).MirrorsAt χ kind? ends id (Expr.renumber χ.ρ) (bounded (e.renumber χ.ρ)) := by
  unfold bounded
  rw [Expr.height_renumber]
  exact .ite (fun _ => .fail _ _) fun _ => .pure rfl

theorem expectFresh_mirrors (name : String) (p p' : Position) :
    (expectFresh name p).MirrorsAt χ kind? ends id id (expectFresh name p') := by
  refine .askIte (fun _ _ henv => ?_) (.fail _ _) (.pure rfl)
  have hsymbols := henv.symbols name
  revert hsymbols
  cases Scopes.lookup _ name <;> cases Scopes.lookup _ name <;> intro hsymbols <;> cases hsymbols <;> rfl

end Checks

section Lists

variable {g : α → β} {item : Rule α} {item' : Rule β}

theorem commaList_mirrors (hitem : item.Mirrors χ Ahead g item') {closes : TokenKind → Bool}
    (hcloses : closes (.keyword .elseWord) = false) (closing : String) (steps : Steps) :
    (commaList item closes closing steps).Mirrors χ Ahead (List.map g) (commaList item' closes closing steps) := by
  induction steps with
  | nil => exact .expected _
  | cons _ steps ih =>
    refine hitem.bind fun a => .peek (fun kind => ?_) ?_
    · exact .ite (fun _ => .skip (ih.bind fun rest => .pure rfl)) fun _ =>
        .ite (fun _ => .skip (.pure rfl)) fun _ => .expected _
    · rw [hcloses]
      exact .expected _

theorem bracedList_mirrors (hitem : item.Mirrors χ Ahead g item') (steps : Steps) :
    (bracedList item steps).Mirrors χ Ahead (List.map g) (bracedList item' steps) := by
  induction steps with
  | nil => exact .expected _
  | cons _ steps ih =>
    refine .peekIte rfl rfl (fun _ => .skip (.pure rfl)) (hitem.bind fun a => ?_)
    have hrest : (do return a :: (← bracedList item steps)).Mirrors χ Ahead (List.map g)
        (do return g a :: (← bracedList item' steps)) := ih.bind fun rest => .pure rfl
    refine .peek (fun kind => ?_) (.expected _)
    exact .ite (fun _ => .skip hrest) fun _ => .ite (fun _ => hrest.at_kind) fun _ => .expected _

end Lists

end Rule

end Grammar

end Scriptlet
