import Scriptlet.Proofs.Compiled.Heights

/-!
# Compiled expressions are checked

What a rule of the grammar gives, in surroundings that tell what is visible. A property of the results of rules
goes through the ways in which rules are put together; with it every rule for expressions gives an expression
that is right at its place, by induction on the number of rules that may still be entered. The same induction shows
that the height stored in an expression is worked out from those of its parts, and that the rule by which every other
rule is entered gives nothing that is too high.
-/

namespace Scriptlet

/-- Whether scopes tell what is visible: the variables with their types, and constants that fit theirs. -/
def Scopes.Describes (classes : Hierarchy) (visible : Lexical) (s : Scopes) : Prop :=
  ∀ name, match s.lookup name with
    | some (.variable ty) => ∃ origin, visible.lookup name = some ⟨ty, origin⟩
    | some (.constant v ty) => visible.lookup name = none ∧ v.IsPlain ∧ v.Fits classes ty
    | some (.function _) | none => visible.lookup name = none

theorem Hierarchy.fits_loose {classes : Hierarchy} {fit : Fit} {parameter argument : Ty}
    (h : classes.fits fit parameter argument = true) : classes.fits .loose parameter argument = true := by
  cases fit with
  | exact =>
    have heq : parameter = argument := by simpa [fits] using h
    exact heq ▸ accepts_refl parameter
  | loose => exact h

variable {m : Member} {name : String}

theorem Member.takes_loose {classes : Hierarchy} {fit : Fit} {arguments : List Ty}
    (h : m.takes classes arguments fit = true) : m.takes classes arguments .loose = true := by
  have hfrom : ∀ index, m.takesFrom classes fit index arguments = true →
      m.takesFrom classes .loose index arguments = true := by
    clear h
    induction arguments with
    | nil => exact fun _ _ => rfl
    | cons argument rest ih =>
      intro index h
      simp only [takesFrom, Bool.and_eq_true] at h ⊢
      refine ⟨?_, ih (index + 1) h.2⟩
      cases hp : m.parameterType index with
      | none => simp [hp] at h
      | some parameter => exact Hierarchy.fits_loose (by simpa [hp] using h.1)
  simp only [takes, Bool.and_eq_true] at h ⊢
  exact ⟨h.1, hfrom 0 h.2⟩

theorem selectOverload_spec {α : Type} {takes : Fit → α → Bool} {candidates : List α} {arguments : List Ty}
    {a : α} (h : selectOverload takes candidates arguments = .ok a) :
    a ∈ candidates ∧ ∃ fit, takes fit a = true := by
  unfold selectOverload at h
  split at h
  · next hfind =>
    cases h
    exact ⟨List.mem_of_find?_eq_some hfind, .exact, List.find?_some hfind⟩
  · split at h
    · next hfilter =>
      cases h
      have hmem : a ∈ candidates.filter (takes .loose) := by simp [hfilter]
      exact ⟨(List.mem_filter.mp hmem).1, .loose, (List.mem_filter.mp hmem).2⟩
    · cases h
    · cases h

theorem Registry.resolveMember_spec {r : Registry} {owner : Owner} {arguments : Option (List Ty)}
    (h : r.resolveMember owner name arguments = .ok m) : m ∈ r.candidates owner name ∧ match arguments with
      | none => m.kind = .property
      | some types => m.takes r.classes types .loose = true := by
  have hselect : r.select (r.candidates owner name) arguments = .ok m := by
    unfold resolveMember at h
    split at h
    · cases h
    · exact h
  unfold select at hselect
  cases arguments with
  | none =>
    simp only at hselect
    split at hselect
    · cases hselect
    · next first rest hfilter =>
      cases hselect
      have hmem : m ∈ (r.candidates owner name).filter (·.kind = .property) := by simp [hfilter]
      simpa using List.mem_filter.mp hmem
  | some types =>
    simp only at hselect
    split at hselect
    · cases hselect
    · obtain ⟨hmem, fit, hfit⟩ := selectOverload_spec hselect
      exact ⟨(List.mem_filter.mp hmem).1, Member.takes_loose hfit⟩

theorem MemberTable.mem_of_mem_named {table : MemberTable} {owner : String}
    (h : m ∈ table.named owner name) : (owner, m) ∈ table ∧ m.name = name := by
  obtain ⟨entry, hentry, rfl⟩ := List.mem_map.mp h
  obtain ⟨hmem, hcond⟩ := List.mem_filter.mp hentry
  simp only [Bool.and_eq_true, decide_eq_true_eq] at hcond
  obtain ⟨rfl, hname⟩ := hcond
  exact ⟨hmem, hname⟩

theorem Registry.mem_statics_of_mem_candidates {r : Registry} {owner : Owner}
    (howner : ∀ ty, owner ≠ .value ty) (h : m ∈ r.candidates owner name) :
    (owner.text, m) ∈ r.statics ∧ m.name = name := by
  cases owner with
  | facility => exact MemberTable.mem_of_mem_named h
  | type => exact MemberTable.mem_of_mem_named h
  | value ty => exact absurd rfl (howner ty)

namespace Grammar

/-- Whether surroundings tell what a place is checked against. -/
structure Env.Describes (k : Checking) (visible : Lexical) (env : Env) : Prop where
  registry : env.registry = k.registry
  signatures : env.signatures = k.signatures
  scopes : env.scopes.Describes k.classes visible
  returns : env.scopes.returns.getD .void = k.returns
  breakables : env.scopes.breakables = k.breakables

variable {k : Checking} {visible : Lexical} {env : Env}

theorem Env.Describes.accepts (h : env.Describes k visible)
    (target source : Ty) : env.accepts target source = k.classes.accepts target source := by
  rw [Env.accepts, h.registry]
  rfl

theorem Env.Describes.accepted (h : env.Describes k visible)
    {target source : Ty} (haccepts : env.accepts target source = true) : k.classes.accepts target source = true :=
  h.accepts target source ▸ haccepts

theorem Env.Describes.enter (h : env.Describes k visible) (name : RuleName) : (env.enter name).Describes k visible :=
  ⟨h.registry, h.signatures, h.scopes, h.returns, h.breakables⟩

namespace Rule

theorem ok_of_bind {α β : Type} {rule : Rule α} {next : α → Rule β} {env : Env} {tokens rest : List Token} {b : β}
    (h : (rule >>= next) env tokens = .ok (b, rest)) :
    ∃ a behind, rule env tokens = .ok (a, behind) ∧ next a env behind = .ok (b, rest) := by
  cases hrule : rule env tokens with
  | error e =>
    simp only [Bind.bind, hrule] at h
    cases h
  | ok r =>
    simp only [Bind.bind, hrule] at h
    exact ⟨r.1, r.2, rfl, h⟩

/-- Whether everything that a rule reads in some surroundings has a property. -/
def Gives {α : Type} (env : Env) (rule : Rule α) (P : α → Prop) : Prop :=
  ∀ tokens a rest, rule env tokens = .ok (a, rest) → P a

namespace Gives

variable {α β : Type} {env : Env} {P Q : α → Prop}

theorem any (rule : Rule α) : rule.Gives env fun _ => True :=
  fun _ _ _ _ => trivial

theorem mono {rule : Rule α} (h : rule.Gives env P) (hpq : ∀ a, P a → Q a) : rule.Gives env Q :=
  fun tokens a rest hok => hpq a (h tokens a rest hok)

theorem pure {a : α} (h : P a) : (Pure.pure a : Rule α).Gives env P := by
  rintro tokens _ rest ⟨⟩
  exact h

theorem bind {rule : Rule α} {next : α → Rule β} {Q : β → Prop} (h : rule.Gives env P)
    (hnext : ∀ a, P a → (next a).Gives env Q) : (rule >>= next).Gives env Q := by
  intro tokens b rest hok
  obtain ⟨a, behind, hrule, hbehind⟩ := ok_of_bind hok
  exact hnext a (h tokens a behind hrule) behind b rest hbehind

theorem after {rule : Rule α} {next : α → Rule β} {Q : β → Prop} (hnext : ∀ a, (next a).Gives env Q) :
    (rule >>= next).Gives env Q :=
  (any rule).bind fun a _ => hnext a

theorem fail (cause : CompileCause) (position : Position) : (Rule.fail cause position : Rule α).Gives env P := by
  rintro _ _ _ ⟨⟩

theorem expected (what : String) : (Rule.expected what : Rule α).Gives env P := by
  rintro _ _ _ ⟨⟩

theorem unexpected : (Rule.unexpected : Rule α).Gives env P := by
  rintro _ _ _ ⟨⟩

theorem ask {next : Env → Rule β} {Q : β → Prop} (hnext : (next env).Gives env Q) :
    (Rule.ask >>= next).Gives env Q :=
  fun tokens => hnext tokens

theorem within {rule : Rule α} {f : Env → Env} (h : rule.Gives (f env) P) : (rule.within f).Gives env P :=
  h

theorem enter {name : RuleName} {rule : Nat → Rule α} (h : ∀ depth, (rule depth).Gives (env.enter name) P)
    (depth : Nat) : (Rule.enter name rule depth).Gives env P := by
  cases depth with
  | zero => exact fail _ _
  | succ depth => exact h depth

theorem withSteps {rule : Steps → Rule α} (h : ∀ steps, (rule steps).Gives env P) :
    (Rule.withSteps rule).Gives env P :=
  fun tokens => h _ tokens

theorem commaList {item : Rule α} (h : item.Gives env P) (closes : TokenKind → Bool) (closing : String)
    (steps : Steps) : (Rule.commaList item closes closing steps).Gives env (∀ a ∈ ·, P a) := by
  induction steps with
  | nil => exact expected _
  | cons _ steps ih =>
    refine h.bind fun a ha => after fun next => ?_
    split
    · exact after fun _ => ih.bind fun rest hrest => pure (by simpa using ⟨ha, hrest⟩)
    · split
      · exact after fun _ => pure (by simpa using ha)
      · exact expected _

theorem bracedList {item : Rule α} (h : item.Gives env P) (steps : Steps) :
    (Rule.bracedList item steps).Gives env (∀ a ∈ ·, P a) := by
  induction steps with
  | nil => exact expected _
  | cons _ steps ih =>
    refine after fun next => ?_
    split
    · exact after fun _ => pure (by simp)
    · refine h.bind fun a ha => after fun next => ?_
      split
      · exact after fun _ => ih.bind fun rest hrest => pure (by simpa using ⟨ha, hrest⟩)
      · split
        · exact ih.bind fun rest hrest => pure (by simpa using ⟨ha, hrest⟩)
        · exact expected _

theorem bounded (e : Expr) : (Rule.bounded e).Gives env fun e' => e' = e ∧ e.height ≤ maxHeight := by
  unfold Rule.bounded
  split
  · exact fail _ _
  · next hheight => exact pure ⟨rfl, Nat.le_of_not_lt hheight⟩

theorem expectAssignable (target : Ty) (e : Expr) (use : Use) :
    (Rule.expectAssignable target e use).Gives env fun _ => env.accepts target e.ty = true := by
  refine ask ?_
  split
  · next h => exact pure h
  · exact fail _ _

theorem expectFresh (name : String) (position : Position) :
    (Rule.expectFresh name position).Gives env fun _ => env.scopes.lookup name = none := by
  refine ask ?_
  split
  · exact fail _ _
  · next h => exact pure (by simpa using h)

end Gives

end Rule

/-- What holds at every place that the surroundings tell of. -/
def Env.Ensures (env : Env) (P : Checking → Lexical → Prop) : Prop :=
  ∀ ⦃k visible⦄, env.Describes k visible → P k visible

theorem Env.Ensures.leave {P : Checking → Lexical → Prop} {name : RuleName}
    (h : (env.enter name).Ensures P) : env.Ensures P :=
  fun _ _ hd => h (hd.enter name)

/-- What the grammar makes in some surroundings: the height is worked out from those of the parts, and all is right
there. -/
structure Env.Makes (env : Env) (e : Expr) : Prop where
  counts : e.CountsParts
  agrees : env.Ensures (Expr.Agrees · · e)

/-- An expression that is made in some surroundings, with all that is in it. -/
abbrev Env.Made (env : Env) (e : Expr) : Prop :=
  e.All env.Makes

/-- An expression that is made in some surroundings and is not too high. -/
structure Env.Whole (env : Env) (e : Expr) : Prop where
  made : env.Made e
  height : e.height ≤ maxHeight

/-- Such an expression that can be given to what has a type. -/
structure Env.WholeAs (env : Env) (ty : Ty) (e : Expr) : Prop extends env.Whole e where
  accepts : env.accepts ty e.ty = true

section Made

variable {env : Env} {k : Checking} {visible : Lexical} {e : Expr}

theorem Env.Made.checked (h : env.Made e) (hd : env.Describes k visible) : e.Checked k visible :=
  h.mono fun _ hmade => hmade.agrees hd

theorem Env.Made.leave {name : RuleName} (h : (env.enter name).Made e) : env.Made e :=
  h.mono fun _ hmade => ⟨hmade.counts, hmade.agrees.leave⟩

theorem Env.Whole.bounded (h : env.Whole e) : e.Bounded :=
  ⟨h.made.mono fun _ hmade => hmade.counts, h.height⟩

theorem Env.Whole.leave {name : RuleName} (h : (env.enter name).Whole e) : env.Whole e :=
  ⟨h.made.leave, h.height⟩

theorem Env.WholeAs.checkedAs {ty : Ty} (h : env.WholeAs ty e) (hd : env.Describes k visible) :
    e.CheckedAs k visible ty :=
  ⟨h.made.checked hd, hd.accepted h.accepts⟩

end Made

def Rule.GivesMade (rule : Rule Expr) : Prop :=
  ∀ env, rule.Gives env env.Made

theorem Rule.GivesMade.named {rule : Rule Expr} (h : rule.GivesMade) (name : RuleName) : (rule.named name).GivesMade :=
  fun env => (h (env.enter name)).mono fun _ he => he.leave

theorem Rule.GivesMade.tooDeep : (Rule.tooDeep : Rule Expr).GivesMade :=
  fun _ => Gives.fail _ _

open Rule Gives

/-- The rules for expressions give only what is right at its place, and that by which they are entered gives nothing
too high. -/
structure ExprRules.Sound (rules : ExprRules) : Prop where
  expression : ∀ env, rules.expression.Gives env env.Whole
  assignment : rules.assignment.GivesMade
  ternary : rules.ternary.GivesMade
  logicalOr : rules.logicalOr.GivesMade
  logicalAnd : rules.logicalAnd.GivesMade
  equality : rules.equality.GivesMade
  comparison : rules.comparison.GivesMade
  term : rules.term.GivesMade
  factor : rules.factor.GivesMade
  power : rules.power.GivesMade
  unary : rules.unary.GivesMade
  suffixed : rules.suffixed.GivesMade
  primary : rules.primary.GivesMade
  arguments : ∀ env, rules.arguments.Gives env (∀ e ∈ ·, env.Made e)
  call : ∀ name position, (rules.call name position).GivesMade
  construction : ∀ position, (rules.construction position).GivesMade

section Rules

variable {env : Env} {e : Expr}

theorem placeOf_gives (he : env.Made e) : (placeOf e).Gives env fun place =>
    env.Ensures (fun k visible => place.Holds k.classes visible e.ty) ∧ ∀ x ∈ place.children, env.Made x := by
  cases e with
  | «variable» info ref => exact pure ⟨he.here.agrees, by simp [Place.children]⟩
  | index info collection key => exact pure ⟨he.here.agrees, he.inside⟩
  | _ => exact fail _ _

theorem caseType_gives (thenCase elseCase : Expr) : (caseType thenCase elseCase).Gives env fun ty =>
    env.accepts ty thenCase.ty = true ∧ env.accepts ty elseCase.ty = true := by
  refine ask ?_
  split
  · next haccepts => exact pure ⟨Hierarchy.accepts_refl _, haccepts⟩
  · split
    · next haccepts => exact pure ⟨haccepts, Hierarchy.accepts_refl _⟩
    · exact fail _ _

theorem leftToRight_made {α : Type} {operand : Rule Expr} {operator? : TokenKind → Option α}
    {combine : Expr → α → Expr → Rule Expr} (ho : operand.GivesMade)
    (hc : ∀ {env : Env} {left right : Expr} (op : α), env.Made left → env.Made right →
      (combine left op right).Gives env env.Made) :
    (leftToRight operand operator? combine).GivesMade := by
  intro env
  have hchain : ∀ steps left, env.Made left → (chain operand operator? combine steps left).Gives env env.Made := by
    intro steps
    induction steps with
    | nil => exact fun left hleft => pure hleft
    | cons _ steps ih =>
      intro left hleft
      refine after fun next => ?_
      split
      · exact pure hleft
      · next op _ =>
        refine after fun _ => (ho env).bind fun right hright => (hc op hleft hright).bind fun e he =>
          (Gives.bounded e).bind fun _ heq => ?_
        exact heq.1 ▸ ih e he
  exact (ho env).bind fun left hleft => withSteps fun steps => hchain steps left hleft

theorem combineLogical_gives {left right : Expr} (op : LogicalOp) (hl : env.Made left) (hr : env.Made right) :
    (combineLogical left op right).Gives env env.Made := by
  unfold combineLogical
  split
  · exact pure (.intro ⟨rfl, fun _ _ _ => rfl⟩ (by simpa [Expr.children] using ⟨hl, hr⟩))
  · exact fail _ _

theorem combineInfix_gives {left right : Expr} (op : InfixOp) (hl : env.Made left) (hr : env.Made right) :
    (combineInfix left op right).Gives env env.Made := by
  refine ask ?_
  split
  · next operation hoperation =>
    refine pure (.intro ⟨rfl, fun k visible hd => ?_⟩ (by simpa [Expr.children] using ⟨hl, hr⟩))
    rw [hd.registry] at hoperation
    exact hoperation
  · exact fail _ _

theorem incrementOf_gives (he : env.Made e) (decrement prefixed : Bool) :
    (incrementOf e decrement prefixed).Gives env env.Made := by
  unfold incrementOf
  split
  · exact (placeOf_gives he).bind fun target htarget => pure (.intro ⟨rfl, htarget.1⟩ htarget.2)
  · exact fail _ _

theorem negationOf_gives (he : env.Made e) (position : Position) : (negationOf e position).Gives env env.Made := by
  unfold negationOf
  split
  · next hnumeric =>
    split
    · next w hw =>
      obtain ⟨v, hv, hneg⟩ := Option.bind_eq_some_iff.mp hw
      cases e with
      | literal info value =>
        cases hv
        refine pure (.intro ⟨rfl, fun k visible hd => ?_⟩ (by simp [Expr.children]))
        have hty := Value.runtimeType_negated hneg
        rw [(he.here.agrees hd).2.runtimeType_eq hnumeric] at hty
        exact ⟨Value.isPlain_of_isNumeric (hty ▸ hnumeric), .of_runtimeType hty⟩
      | _ => cases hv
    · exact pure (.intro ⟨rfl, fun _ _ _ => ⟨rfl, hnumeric⟩⟩ (by simpa [Expr.children] using he))
  · exact fail _ _

theorem memberFor_gives (owner : Owner) (name : String) (arguments : Option (List Expr)) (position : Position) :
    (memberFor owner name arguments position).Gives env fun m => env.Ensures fun k _ =>
      m ∈ k.registry.candidates owner name ∧ match arguments with
        | none => m.kind = .property
        | some arguments => m.takes k.classes (arguments.map Expr.ty) .loose = true := by
  refine ask ?_
  split
  · exact fail _ _
  · next member hmember =>
    have hspec {k : Checking} {visible : Lexical} (hd : env.Describes k visible) :=
      Registry.resolveMember_spec (hd.registry ▸ hmember)
    cases arguments with
    | none => cases member.check <;> exact pure fun _ _ hd => hspec hd
    | some arguments =>
      cases member.check with
      | none => exact pure fun _ _ hd => hspec hd
      | some check =>
        dsimp only
        split
        · exact fail _ _
        · exact pure fun _ _ hd => hspec hd

theorem functionFor_gives (name : String) (overloads : List Nat) (arguments : List Expr) (position : Position) :
    (functionFor name overloads arguments position).Gives env fun chosen =>
      env.signatures[chosen.1]? = some chosen.2 := by
  have hmem : ∀ chosen, chosen ∈ (overloads.filterMap fun index =>
      env.signatures[index]?.map fun s => (index, s)) → env.signatures[chosen.1]? = some chosen.2 := by
    intro chosen hchosen
    obtain ⟨index, _, hindex⟩ := List.mem_filterMap.mp hchosen
    obtain ⟨signature, hsignature, rfl⟩ := Option.map_eq_some_iff.mp hindex
    exact hsignature
  refine ask ?_
  dsimp only
  split
  · next index signature hcandidates =>
    split
    · exact after fun _ => pure (hmem (index, signature) (by simp [hcandidates]))
    · exact fail _ _
  · split
    · next chosen hchosen => exact pure (hmem chosen (selectOverload_spec hchosen).1)
    · exact fail _ _

theorem nameRule_made (name : String) (position : Position) : (nameRule name position).GivesMade := by
  intro env
  refine ask ?_
  split
  · next hlookup =>
    refine pure (.intro ⟨rfl, fun k visible hd => ?_⟩ (by simp [Expr.children]))
    have hscopes := hd.scopes name
    rw [hlookup] at hscopes
    exact hscopes.2
  · next hlookup =>
    refine pure (.intro ⟨rfl, fun k visible hd => ?_⟩ (by simp [Expr.children]))
    have hscopes := hd.scopes name
    rw [hlookup] at hscopes
    exact ⟨rfl, hscopes⟩
  · exact fail _ _
  · exact fail _ _

variable {rules : ExprRules} (h : rules.Sound)

include h

theorem assignmentRule_made : (assignmentRule rules).GivesMade := by
  intro env
  refine (h.ternary env).bind fun left hleft => after fun next => ?_
  split
  · exact pure hleft
  · refine (placeOf_gives hleft).bind fun target htarget => after fun _ =>
      (h.assignment env).bind fun value hvalue => after fun operand => pure (.intro ⟨rfl, htarget.1⟩ ?_)
    intro x hx
    rcases List.mem_append.mp hx with hx | hx
    · exact htarget.2 x hx
    · obtain rfl := List.mem_singleton.mp hx
      exact hvalue

theorem ternaryRule_made : (ternaryRule rules).GivesMade := by
  intro env
  refine (h.logicalOr env).bind fun condition hcondition => after fun next => ?_
  split
  · refine after fun _ => after fun _ => (h.expression env).bind fun thenCase hthen => after fun _ =>
      (h.ternary env).bind fun elseCase helse => (caseType_gives thenCase elseCase).bind fun ty hty =>
        pure (.intro ⟨rfl, fun _ _ hd => ⟨hd.accepted hty.1, hd.accepted hty.2⟩⟩ ?_)
    simpa [Expr.children] using ⟨hcondition, hthen.made, helse⟩
  · exact pure hcondition

theorem powerRule_made : (powerRule rules).GivesMade := by
  intro env
  refine (h.unary env).bind fun base hbase => after fun next => ?_
  split
  · exact after fun _ => (h.power env).bind fun exponent hexponent => combineInfix_gives .power hbase hexponent
  · exact pure hbase

theorem unaryRule_made (type : Rule Ty) : (unaryRule type rules).GivesMade := by
  intro env
  refine after fun position => after fun target? => ?_
  split
  · refine (h.unary env).bind fun operand hoperand => ask ?_
    split
    · exact pure (.intro ⟨rfl, fun _ _ _ => trivial⟩ (by simpa [Expr.children] using hoperand))
    · exact fail _ _
  · refine after fun next => ?_
    split
    · exact after fun _ => (h.unary env).bind fun operand hoperand => incrementOf_gives hoperand _ _
    · exact after fun _ => (h.unary env).bind fun operand hoperand => incrementOf_gives hoperand _ _
    · refine after fun _ => after fun first => after fun second => ?_
      split
      · exact after fun _ => pure (.intro ⟨rfl, fun _ _ _ => ⟨trivial, .of_runtimeType rfl⟩⟩ (by simp [Expr.children]))
      · exact (h.unary env).bind fun operand hoperand => negationOf_gives hoperand position
    · refine after fun _ => (h.unary env).bind fun operand hoperand => ?_
      split
      · exact pure (.intro ⟨rfl, fun _ _ _ => rfl⟩ (by simpa [Expr.children] using hoperand))
      · exact fail _ _
    · exact h.suffixed env

theorem memberAccess_gives (owner : Owner) (name : String) (position : Position) :
    (memberAccess rules owner name position).Gives env fun use => env.Ensures (fun k _ =>
      use.1 ∈ k.registry.candidates owner name ∧ use.1.UsableWith k.classes use.2) ∧ ∀ e ∈ use.2, env.Made e := by
  refine after fun next => ?_
  split
  · exact after fun _ => (h.arguments env).bind fun arguments harguments =>
      (memberFor_gives owner name (some arguments) position).bind fun m hm =>
        pure ⟨fun _ _ hd => ⟨(hm hd).1, .inr (hm hd).2⟩, harguments⟩
  · exact (memberFor_gives owner name none position).bind fun m hm =>
      pure ⟨fun _ _ hd => ⟨(hm hd).1, .inl ⟨(hm hd).2, rfl⟩⟩, by simp⟩

theorem staticAccess_made {owner : Owner} (howner : ∀ ty, owner ≠ .value ty)
    (position : Position) : (staticAccess rules owner position).GivesMade := by
  refine fun env => after fun _ => after fun _ => after fun name =>
    (memberAccess_gives h owner name _).bind fun use huse => pure (.intro ⟨rfl, fun k visible hd => ?_⟩ huse.2)
  obtain ⟨hmem, husable⟩ := huse.1 hd
  exact ⟨husable, owner.text, (Registry.mem_statics_of_mem_candidates howner hmem).1, .inl rfl⟩

theorem instanceAccess_gives {receiver : Expr} (hreceiver : env.Made receiver) :
    (instanceAccess rules receiver).Gives env env.Made :=
  after fun _ => after fun _ => after fun name => (memberAccess_gives h (.value receiver.ty) name _).bind fun _ huse =>
    pure (.intro ⟨rfl, fun _ _ hd => ⟨(huse.1 hd).2, rfl, name, (huse.1 hd).1⟩⟩
      (by simpa [Expr.children] using ⟨hreceiver, huse.2⟩))

theorem indexAccess_gives {collection : Expr} (hcollection : env.Made collection) :
    (indexAccess rules collection).Gives env env.Made := by
  unfold indexAccess
  split
  · exact after fun _ => fail _ _
  · next key element htypes =>
    exact after fun _ => (h.expression env).bind fun index hindex =>
      (Gives.expectAssignable key index .index).bind fun _ haccepts => after fun _ =>
        pure (.intro ⟨rfl, fun _ _ hd => ⟨key, htypes, hd.accepted haccepts⟩⟩
          (by simpa [Expr.children] using ⟨hcollection, hindex.made⟩))

theorem suffixes_gives (steps : Steps) : ∀ e : Expr, env.Made e → (suffixes rules steps e).Gives env env.Made := by
  induction steps with
  | nil => exact fun e he => pure he
  | cons _ steps ih =>
    intro e he
    refine (Gives.bounded e).bind fun e' heq => ?_
    obtain rfl := heq.1
    refine after fun next => ?_
    split
    · exact (instanceAccess_gives h he).bind ih
    · exact (indexAccess_gives h he).bind ih
    · exact (incrementOf_gives he _ _).bind fun e he => after fun _ => ih e he
    · exact (incrementOf_gives he _ _).bind fun e he => after fun _ => ih e he
    · exact pure he

theorem suffixedRule_made : (suffixedRule rules).GivesMade :=
  fun env => (h.primary env).bind fun e he => withSteps fun steps => suffixes_gives h steps e he

theorem argumentsRule_gives : (argumentsRule rules).Gives env (∀ e ∈ ·, env.Made e) := by
  refine after fun next => ?_
  split
  · exact after fun _ => pure (by simp)
  · exact withSteps fun steps => .commaList ((h.expression env).mono fun _ he => he.made) _ _ steps

theorem callRule_made (name : String) (position : Position) : (callRule rules name position).GivesMade := by
  intro env
  refine ask ?_
  split
  · next overloads _ =>
    exact (h.arguments env).bind fun arguments harguments =>
      (functionFor_gives name overloads arguments position).bind fun chosen hchosen =>
        pure (.intro ⟨rfl, fun _ _ hd => ⟨chosen.2, hd.signatures ▸ hchosen, rfl⟩⟩ harguments)
  · exact fail _ _
  · exact fail _ _

theorem typedExpression_gives (ty : Ty) (use : Use) : (typedExpression rules ty use).Gives env (env.WholeAs ty) :=
  (h.expression env).bind fun e he => (Gives.expectAssignable ty e use).bind fun _ haccepts => pure ⟨he, haccepts⟩

theorem newArray_gives (ty : Ty) (position : Position) : (newArray rules ty position).Gives env env.Made := by
  unfold newArray
  split
  · exact fail _ _
  · exact after fun _ => (typedExpression_gives h _ _).bind fun length hlength => after fun _ => after fun element =>
      pure (.intro ⟨rfl, fun _ _ _ => rfl⟩ (by simpa [Expr.children] using hlength.made))

theorem entryRule_gives (key value : Ty) :
    (entryRule rules key value).Gives env fun e => env.WholeAs key e.1 ∧ env.WholeAs value e.2 :=
  after fun _ => (typedExpression_gives h _ _).bind fun _ hk => after fun _ =>
    (typedExpression_gives h _ _).bind fun _ hv => after fun _ => pure ⟨hk, hv⟩

theorem newDictionary_gives (key value : Ty) (position : Position) :
    (newDictionary rules key value position).Gives env env.Made := by
  have hentries : ∀ entries : List (Expr × Expr), (∀ e ∈ entries, env.WholeAs key e.1 ∧ env.WholeAs value e.2) →
      env.Made (.newDictionary (.over (.dictionary key value) position (entries.flatMap fun e => [e.1, e.2]))
        key value entries) := by
    intro entries hentries
    refine .intro ⟨rfl, fun _ _ hd => ⟨rfl, fun e he =>
      ⟨hd.accepted (hentries e he).1.accepts, hd.accepted (hentries e he).2.accepts⟩⟩⟩ fun x hx => ?_
    obtain ⟨e, he, hx⟩ := List.mem_flatMap.mp hx
    simp only [List.mem_cons, List.not_mem_nil, or_false] at hx
    rcases hx with rfl | rfl
    · exact (hentries e he).1.made
    · exact (hentries e he).2.made
  refine after fun _ => after fun next => ?_
  split
  · exact after fun _ => (Gives.withSteps fun steps => .bracedList (entryRule_gives h key value) steps).bind
      fun entries he => pure (hentries entries he)
  · exact pure (hentries [] (by simp))

theorem itemsRule_gives (element : Ty) : (itemsRule rules element).Gives env (∀ e ∈ ·, env.WholeAs element e) :=
  withSteps fun steps => .bracedList (typedExpression_gives h _ _) steps

theorem newSequence_gives (kind : SequenceKind) (element : Ty)
    (position : Position) : (newSequence rules kind element position).Gives env env.Made := by
  have hitems : ∀ items : List Expr, (∀ e ∈ items, env.WholeAs element e) →
      env.Made (.newSequence (.over (.sequence kind element) position items) kind element items) :=
    fun items h => .intro ⟨rfl, fun _ _ hd => ⟨rfl, fun e he => hd.accepted (h e he).accepts⟩⟩ fun e he => (h e he).made
  unfold newSequence
  cases kind with
  | array =>
    refine after fun next => ?_
    split
    · exact after fun _ => (itemsRule_gives h element).bind fun items h => pure (hitems items h)
    · exact .bind (expected _) fun items h => pure (hitems items h)
  | list =>
    refine after fun _ => after fun next => ?_
    split
    · exact after fun _ => (itemsRule_gives h element).bind fun items h => pure (hitems items h)
    · exact pure (hitems [] (by simp))
  | queue => exact after fun _ => pure (hitems [] (by simp))
  | stack => exact after fun _ => pure (hitems [] (by simp))

theorem constructionRule_made (type : Rule Ty) (position : Position) :
    (constructionRule type rules position).GivesMade := by
  intro env
  refine after fun ty => after fun next => ?_
  split
  · exact newArray_gives h ty position
  · split
    · exact newSequence_gives h _ _ position
    · exact newDictionary_gives h _ _ position
    · refine after fun _ => (h.arguments env).bind fun arguments harguments =>
        (memberFor_gives _ "new" (some arguments) position).bind fun m hm =>
          pure (.intro ⟨rfl, fun k visible hd => ?_⟩ harguments)
      obtain ⟨hmem, hname⟩ := Registry.mem_statics_of_mem_candidates (by simp) (hm hd).1
      exact ⟨.inr (hm hd).2, _, hmem, .inr ⟨hname, rfl⟩⟩

theorem primaryRule_made : (primaryRule rules).GivesMade := by
  intro env
  refine after fun position => after fun next => ?_
  split
  · next constant =>
    refine after fun _ => pure (.intro ⟨rfl, fun _ _ _ => ⟨?_, .of_runtimeType rfl⟩⟩ (by simp [Expr.children]))
    cases constant <;> trivial
  · refine after fun _ => after fun next => ?_
    split
    · exact after fun _ => h.call _ _ env
    · exact nameRule_made _ _ env
  · exact after fun _ => staticAccess_made h (by simp) _ env
  · exact fail _ _
  · exact after fun _ => h.construction _ env
  · split
    · exact after fun _ => staticAccess_made h (by simp) _ env
    · exact unexpected
  · exact after fun _ => (h.expression env).bind fun e he => after fun _ => pure he.made
  · exact unexpected

end Rules

theorem ExprRules.Sound.stuck : ExprRules.stuck.Sound := by
  constructor <;> first | exact .tooDeep | exact fun _ => .tooDeep | exact fun _ _ => .tooDeep | exact fun _ => fail _ _

theorem ExprRules.Sound.around (type : Rule Ty) {rules : ExprRules} (h : rules.Sound) :
    (ExprRules.around type rules).Sound where
  expression := fun env => ((h.assignment (env.enter _)).bind fun e he =>
    (Gives.bounded e).mono fun _ heq => ⟨heq.1 ▸ he.leave, heq.1 ▸ heq.2⟩)
  assignment := .named (assignmentRule_made h) _
  ternary := .named (ternaryRule_made h) _
  logicalOr := .named (leftToRight_made h.logicalAnd combineLogical_gives) _
  logicalAnd := .named (leftToRight_made h.equality combineLogical_gives) _
  equality := .named (leftToRight_made h.comparison combineInfix_gives) _
  comparison := .named (leftToRight_made h.term combineInfix_gives) _
  term := .named (leftToRight_made h.factor combineInfix_gives) _
  factor := .named (leftToRight_made h.power combineInfix_gives) _
  power := .named (powerRule_made h) _
  unary := .named (unaryRule_made h type) _
  suffixed := .named (suffixedRule_made h) _
  primary := .named (primaryRule_made h) _
  arguments := fun _ => (argumentsRule_gives h).mono fun _ he e hmem => Env.Made.leave (he e hmem)
  call := fun name position => .named (callRule_made h name position) _
  construction := fun position => .named (constructionRule_made h type position) _

theorem exprRules_sound (depth : Nat) : (exprRules depth).Sound := by
  induction depth with
  | zero => exact .stuck
  | succ depth ih => exact .around (typeRule depth) ih

end Grammar

end Scriptlet
