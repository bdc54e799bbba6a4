import Scriptlet.Proofs.Compiled.Expressions

/-!
# Compiled programs are checked

The rules for statements give statements that are right at their place, and tell what these declare. A whole
program is right for the host that it was compiled for: its declarations one behind the other, and the body of
every function under its parameters and all declarations. A statement that stands in another one is read by a rule that
has fewer entries left to spend, so with the same induction statements nest no deeper than rules may be entered. The
links of an `else if` chain are read in a loop, one behind the other: they do not count as nested.
-/

namespace Scriptlet

namespace Scopes

theorem lookup_insert (s : Scopes) (name declared : String) (symbol : Symbol) :
    (s.insert declared symbol).lookup name = if name = declared then some symbol else s.lookup name := by
  simp only [lookup, insert, lookupIn, List.lookup_cons]
  split
  · next h => simp [beq_iff_eq.mp h]
  · next h => simp [beq_eq_false_iff_ne.mp h]

namespace Describes

variable {classes : Hierarchy} {visible : Lexical} {s : Scopes}

theorem lookup_eq_none {name : String} (h : s.Describes classes visible) (hname : s.lookup name = none) :
    visible.lookup name = none := by
  have := h name
  rwa [hname] at this

theorem insert_variable (h : s.Describes classes visible) (name : String) (ty : Ty) (origin : Origin) :
    (s.insert name (.variable ty)).Describes classes ((name, ⟨ty, origin⟩) :: visible) := by
  intro other
  rw [lookup_insert]
  by_cases heq : other = name
  · simp [heq]
  · simpa [heq, List.lookup_cons, beq_eq_false_iff_ne.mpr heq] using h other

theorem insert_constant (h : s.Describes classes visible) {name : String} {v : Value} {ty : Ty}
    (hname : visible.lookup name = none) (hplain : v.IsPlain) (hfits : v.Fits classes ty) :
    (s.insert name (.constant v ty)).Describes classes visible := by
  intro other
  rw [lookup_insert]
  by_cases heq : other = name
  · subst heq
    simp [hname, hplain, hfits]
  · simpa [heq] using h other

theorem beginScope (h : s.Describes classes visible) : s.beginScope.Describes classes visible :=
  h

end Describes

end Scopes

namespace Grammar

open Rule Gives Statement

/-- What a statement declares becomes visible to the compiler. -/
def Declares (classes : Hierarchy) (visible after : Lexical) (declared : Declared) : Prop :=
  ∀ s : Scopes, s.Describes classes visible → (addDeclared declared s).Describes classes after

theorem Declares.none (classes : Hierarchy) (visible : Lexical) : Declares classes visible visible none :=
  fun _ h => h

theorem Declares.variable (classes : Hierarchy) (visible : Lexical) (name : String) (ty : Ty) (origin : Origin) :
    Declares classes visible ((name, ⟨ty, origin⟩) :: visible) (some (name, .variable ty)) :=
  fun _ h => h.insert_variable name ty origin

namespace Env.Describes

variable {env : Env} {k : Checking} {visible after : Lexical}

theorem beginScope (h : env.Describes k visible) : (env.withScopes Scopes.beginScope).Describes k visible :=
  ⟨h.registry, h.signatures, h.scopes.beginScope, h.returns, h.breakables⟩

theorem beginBreakable (h : env.Describes k visible) (b : Breakable) :
    (env.withScopes (·.beginBreakable b)).Describes (k.inside b) visible :=
  ⟨h.registry, h.signatures, h.scopes, h.returns, congrArg (b :: ·) h.breakables⟩

theorem insert (h : env.Describes k visible) (name : String) (ty : Ty) (origin : Origin) :
    (env.withScopes (·.insert name (.variable ty))).Describes k ((name, ⟨ty, origin⟩) :: visible) :=
  ⟨h.registry, h.signatures, h.scopes.insert_variable name ty origin, h.returns, h.breakables⟩

theorem declare (h : env.Describes k visible) {declared : Declared} (hd : Declares k.classes visible after declared) :
    (env.withScopes (addDeclared declared)).Describes k after := by
  refine ⟨h.registry, h.signatures, hd _ h.scopes, ?_, ?_⟩
  · cases declared <;> exact h.returns
  · cases declared <;> exact h.breakables

end Env.Describes

/-- A statement that declares nothing, nests so deep at most, and is right at every place that the surroundings tell
of. -/
structure Env.Silent (env : Env) (d : Nat) (s : Statement) : Prop where
  shallow : s.Shallow d
  checked : env.Ensures (Statement.Checked · · s)
  silent : s.declares = []

/-- A statement like that, and what it declares. -/
structure Env.Stated (env : Env) (d : Nat) (s : Statement × Declared) : Prop where
  shallow : s.1.Shallow d
  checked : env.Ensures (Statement.Checked · · s.1)
  declares : env.Ensures fun k visible => Declares k.classes visible (s.1.declares ++ visible) s.2

/-- Statements like that, one behind the other. -/
structure Env.Listed (env : Env) (d : Nat) (body : List Statement) : Prop where
  shallow : AllShallow d body
  checked : env.Ensures (Statement.AllChecked · · body)

/-- A variable with a new name, and an initial value that it can be given. -/
structure Env.Introduces (env : Env) (v : String × Ty × Option Expr) : Prop where
  fresh : env.scopes.lookup v.1 = none
  initial : ∀ e ∈ v.2.2, env.WholeAs v.2.1 e

namespace Env

variable {env : Env} {d : Nat} {s : Statement} {name : RuleName}

theorem Silent.leave (h : (env.enter name).Silent d s) : env.Silent d s :=
  ⟨h.shallow, h.checked.leave, h.silent⟩

theorem Silent.stated (h : env.Silent d s) : env.Stated (d + 1) (s, none) :=
  ⟨h.shallow.mono (Nat.le_succ d), h.checked, fun _ _ _ => h.silent ▸ .none _ _⟩

theorem Listed.nil : env.Listed d [] :=
  ⟨.nil d, fun _ _ _ => trivial⟩

theorem Stated.cons {s : Statement × Declared} {rest : List Statement} (hs : env.Stated d s)
    (hrest : (env.withScopes (addDeclared s.2)).Listed d rest) : env.Listed d (s.1 :: rest) :=
  ⟨.cons hs.shallow hrest.shallow, fun _ _ hd => ⟨hs.checked hd, hrest.checked (hd.declare (hs.declares hd))⟩⟩

variable {v : String × Ty × Option Expr}

theorem Introduces.leave (h : (env.enter name).Introduces v) : env.Introduces v :=
  ⟨h.fresh, fun e he => ⟨(h.initial e he).leave, (h.initial e he).accepts⟩⟩

theorem Introduces.bounded (h : env.Introduces v) : ∀ e ∈ v.2.2, e.Bounded :=
  fun e he => (h.initial e he).bounded

theorem Introduces.checked (h : env.Introduces v) : env.Ensures fun k visible =>
    visible.lookup v.1 = none ∧ ∀ e ∈ v.2.2, e.CheckedAs k visible v.2.1 :=
  fun _ _ hd => ⟨hd.scopes.lookup_eq_none h.fresh, fun e he => (h.initial e he).checkedAs hd⟩

end Env

def GivesSilent (d : Nat) (rule : Rule Statement) : Prop :=
  ∀ env, rule.Gives env (env.Silent d)

/-- The rules for statements give only what is right at its place, and nothing that nests deeper than rules may still be
entered. -/
structure StatementRules.Sound (d : Nat) (rules : StatementRules) : Prop where
  exprs : rules.exprs.Sound
  variableDeclaration : ∀ env, rules.variableDeclaration.Gives env env.Introduces
  constantDeclaration : ∀ env, rules.constantDeclaration.Gives env fun c =>
    env.Ensures fun k visible => Declares k.classes visible visible (some c)
  statement : ∀ env, rules.statement.Gives env (env.Stated d)
  block : ∀ env, rules.block.Gives env (env.Listed d)
  ifStatement : ∀ position, GivesSilent d (rules.ifStatement position)
  whileStatement : ∀ position, GivesSilent d (rules.whileStatement position)
  forStatement : ∀ position, GivesSilent d (rules.forStatement position)
  forEachStatement : ∀ position, GivesSilent d (rules.forEachStatement position)
  switchStatement : ∀ position, GivesSilent d (rules.switchStatement position)
  returnStatement : ∀ position, GivesSilent d (rules.returnStatement position)
  expressionStatement : GivesSilent d rules.expressionStatement

section Rules

variable {env : Env} {d : Nat}

/-- Labels that fit a type in some surroundings, no two of them equal to scripts. -/
structure Env.Labels (env : Env) (ty : Ty) (labels : List Value) : Prop where
  fits : ∀ v ∈ labels, env.Ensures fun k _ => v.Fits k.classes ty
  differ : labels.Pairwise fun a b => a.scriptEquals b = false

theorem literal_fits {e : Expr} {v : Value} {ty : Ty} (he : env.Made e) (hv : e.literal? = some v)
    (haccepts : env.accepts ty e.ty = true) :
    env.Ensures fun k _ => (v.coerce ty).IsPlain ∧ (v.coerce ty).Fits k.classes ty := by
  intro k visible hd
  cases e with
  | literal info value =>
    cases hv
    obtain ⟨hplain, hfits⟩ := he.here.agrees hd
    refine ⟨?_, hfits.coerce_isPlain hplain (hd.accepted haccepts)⟩
    rcases v.coerce_eq_or_isPlain ty with heq | hcoerced
    · exact heq.symm ▸ hplain
    · exact hcoerced
  | _ => cases hv

section Exprs

variable {rules : ExprRules} (h : rules.Sound)

include h

theorem initialRule_gives (ty : Ty) :
    (initialRule rules ty).Gives env fun initial => ∀ e ∈ initial, env.WholeAs ty e := by
  refine after fun next => ?_
  split
  · exact after fun _ => (typedExpression_gives h _ _).bind fun e he => pure (by simpa using he)
  · exact pure (by simp)

theorem variableRule_gives (type : Rule Ty) : (variableRule type rules).Gives env env.Introduces := by
  refine after fun position => after fun ty => after fun name => ?_
  split
  · exact fail _ _
  · exact (initialRule_gives h ty).bind fun initial hinitial => after fun _ =>
      (Gives.expectFresh name position).bind fun _ hfresh => pure ⟨hfresh, hinitial⟩

theorem constantRule_gives (type : Rule Ty) : (constantRule type rules).Gives env fun c =>
      env.Ensures fun k visible => Declares k.classes visible visible (some c) := by
  refine after fun position => after fun ty => after fun name => after fun _ =>
    (h.expression env).bind fun initial hinitial => after fun _ => ?_
  split
  · exact fail _ _
  · next value hvalue =>
    refine (Gives.expectAssignable ty initial _).bind fun _ haccepts =>
      (Gives.expectFresh name position).bind fun _ hfresh => pure fun k visible hd => ?_
    obtain ⟨hplain, hfits⟩ := literal_fits hinitial.made hvalue haccepts hd
    exact fun s hs => hs.insert_constant (hd.scopes.lookup_eq_none hfresh) hplain hfits

theorem conditionRule_gives : (conditionRule rules).Gives env env.Whole :=
  after fun _ => (typedExpression_gives h _ _).bind fun _ hcondition => after fun _ => pure hcondition.toWhole

theorem executable_gives : (executable rules).Gives env env.Whole := by
  refine (h.expression env).bind fun e he => ?_
  split
  · exact pure he
  · exact fail _ _

theorem executables_gives (terminator : Separator) :
    (executables rules terminator).Gives env (∀ e ∈ ·, env.Whole e) := by
  refine after fun next => ?_
  split
  · exact after fun _ => pure (by simp)
  · exact withSteps fun steps => .commaList (executable_gives h) _ _ steps

theorem forConditionRule_gives : (forConditionRule rules).Gives env fun condition => ∀ e ∈ condition, env.Whole e := by
  refine after fun next => ?_
  split
  · exact pure (by simp)
  · exact (typedExpression_gives h _ _).bind fun e he => pure (by simpa using he.toWhole)

theorem labelRule_gives {value : Ty} {seen : List Value} (hseen : env.Labels value seen) :
    (labelRule rules value seen).Gives env fun label => env.Labels value (seen ++ [label]) := by
  refine after fun kind => after fun position => (h.expression env).bind fun label hlabel => ?_
  split
  · exact fail _ _
  · next v hv =>
    refine (Gives.expectAssignable value label _).bind fun _ haccepts => ?_
    dsimp only
    split
    · exact fail _ _
    · next hfresh =>
      simp only [List.any_eq_true, not_exists, not_and, Bool.not_eq_true] at hfresh
      refine after fun _ => pure ⟨?_, List.pairwise_append.mpr ⟨hseen.differ, List.pairwise_singleton _ _, ?_⟩⟩
      · simp only [List.forall_mem_append, List.forall_mem_singleton]
        exact ⟨hseen.fits, fun k visible hd => (literal_fits hlabel.made hv haccepts hd).2⟩
      · simpa using hfresh

theorem labelsRule_gives {value : Ty} {seen : List Value} (hasDefault : Bool)
    (steps : Steps) : ∀ labels isDefault, env.Labels value (seen ++ labels) →
      (labelsRule rules value seen hasDefault steps labels isDefault).Gives env fun found =>
        env.Labels value (seen ++ found.1) := by
  induction steps with
  | nil => exact fun _ _ hlabels => pure hlabels
  | cons _ steps ih =>
    intro labels isDefault hlabels
    refine after fun next => ?_
    split
    · refine after fun _ => (labelRule_gives h hlabels).bind fun label hlabel => ih _ _ ?_
      rwa [List.append_assoc] at hlabel
    · split
      · exact after fun _ => fail _ _
      · exact after fun _ => after fun _ => ih _ _ hlabels
    · split
      · exact expected _
      · exact pure hlabels

theorem returnRule_silent (position : Position) : GivesSilent (d + 1) (returnRule rules position) := by
  intro env
  refine ask (after fun next => ?_)
  split
  · split
    · next hvoid =>
      refine after fun _ => pure ⟨.returnStatement (by simp), fun k visible hd => ?_, rfl⟩
      rw [hd.returns] at hvoid
      exact hvoid
    · exact fail _ _
  · refine (h.expression env).bind fun value hvalue => ?_
    split
    · exact fail _ _
    · next hvoid =>
      refine (Gives.expectAssignable _ value _).bind fun _ haccepts => after fun _ =>
        pure ⟨.returnStatement (by simpa using hvalue.bounded), fun k visible hd => ?_, rfl⟩
      rw [hd.returns] at hvoid haccepts
      exact ⟨hvoid, hvalue.made.checked hd, hd.accepted haccepts⟩

theorem expressionStatementRule_silent : GivesSilent (d + 1) (expressionStatementRule rules) :=
  fun _ => (executable_gives h).bind fun _ he => after fun _ =>
    pure ⟨.expression he.bounded, fun _ _ hd => he.made.checked hd, rfl⟩

end Exprs

theorem statementsToBrace_gives {statement : Rule (Statement × Declared)}
    (h : ∀ env, statement.Gives env (env.Stated d)) (steps : Steps) :
    ∀ env, (statementsToBrace statement steps).Gives env (env.Listed d) := by
  induction steps with
  | nil => exact fun _ => expected _
  | cons _ steps ih =>
    intro env
    refine after fun next => ?_
    split
    · exact after fun _ => pure .nil
    · exact expected _
    · exact (h env).bind fun s hs => (Gives.within (ih _)).bind fun rest hrest => pure (hs.cons hrest)

theorem sectionBody_gives {statement : Rule (Statement × Declared)}
    (h : ∀ env, statement.Gives env (env.Stated d)) (steps : Steps) :
    ∀ env, (sectionBody statement steps).Gives env (env.Listed d) := by
  induction steps with
  | nil => exact fun _ => pure .nil
  | cons _ steps ih =>
    intro env
    refine after fun next => ?_
    split
    · exact pure .nil
    · exact pure .nil
    · exact pure .nil
    · exact pure .nil
    · exact (h env).bind fun s hs => (Gives.within (ih _)).bind fun rest hrest => pure (hs.cons hrest)

theorem silent_conditional {position : Position} {condition : Expr} {thenBranch : Statement}
    {elseBranch : Option Statement} (hc : env.Whole condition)
    (ht : thenBranch.Shallow d ∧ env.Ensures (Statement.Checked · · thenBranch))
    (he : ∀ s ∈ elseBranch, s.Follows d ∧ env.Ensures (Statement.Checked · · s)) :
    env.Silent (d + 1) (.conditional position condition thenBranch elseBranch) := by
  refine ⟨.conditional hc.bounded ht.1 fun s hs => (he s hs).1, fun k visible hd => ?_, rfl⟩
  cases elseBranch with
  | none => exact ⟨hc.made.checked hd, ht.2 hd⟩
  | some branch => exact ⟨hc.made.checked hd, ht.2 hd, (he branch rfl).2 hd⟩

variable {rules : StatementRules} (h : rules.Sound d)

include h

theorem bodyRule_gives : (bodyRule rules).Gives env fun s => s.Shallow d ∧ env.Ensures (Statement.Checked · · s) :=
  Gives.within ((h.statement _).bind fun _ hs => pure ⟨hs.shallow, fun _ _ hd => hs.checked hd.beginScope⟩)

theorem loopBodyRule_gives : (loopBodyRule rules).Gives env fun s =>
    s.Shallow d ∧ env.Ensures fun k visible => s.Checked (k.inside .loop) visible :=
  Gives.within ((bodyRule_gives h).mono fun _ hs => ⟨hs.1, fun _ _ hd => hs.2 (hd.beginBreakable .loop)⟩)

/-- However many links a chain has, none is deeper than the one before it. -/
theorem elseRule_gives (steps : Steps) : (elseRule rules steps).Gives env fun branch =>
      ∀ s ∈ branch, Follows d s ∧ env.Ensures (Statement.Checked · · s) := by
  induction steps with
  | nil => exact pure (by simp)
  | cons _ steps ih =>
    refine after fun next => ?_
    split
    · refine after fun position => after fun _ => (conditionRule_gives h.exprs).bind fun condition hc =>
        (bodyRule_gives h).bind fun thenBranch ht => ih.bind fun elseBranch he => pure ?_
      rintro _ ⟨⟩
      have hlink : env.Silent (d + 1) (.conditional position condition thenBranch elseBranch) :=
        silent_conditional hc ht he
      exact ⟨.inr ⟨rfl, hlink.shallow⟩, hlink.checked⟩
    · refine after fun _ => (bodyRule_gives h).bind fun branch hb => pure ?_
      rintro _ ⟨⟩
      exact ⟨.inl hb.1, hb.2⟩
    · exact pure (by simp)

theorem ifRule_silent (position : Position) : GivesSilent (d + 1) (ifRule rules position) :=
  fun _ => (conditionRule_gives h.exprs).bind fun _ hc => (bodyRule_gives h).bind fun _ ht =>
    (Gives.withSteps fun steps => elseRule_gives h steps).bind fun _ he => pure (silent_conditional hc ht he)

theorem whileRule_silent (position : Position) : GivesSilent (d + 1) (whileRule rules position) :=
  fun _ => (conditionRule_gives h.exprs).bind fun _ hc => (loopBodyRule_gives h).bind fun _ hb =>
    pure ⟨.whileLoop hc.bounded hb.1, fun _ _ hd => ⟨hc.made.checked hd, hb.2 hd⟩, rfl⟩

/-- What a `for` does first does not nest, is right at its place, and tells what is visible behind it. -/
theorem forInitialRule_gives : (forInitialRule rules).Gives env fun first =>
    AllShallow 1 first.1 ∧ (∀ s ∈ first.1, s.IsSimple) ∧ env.Ensures fun k visible =>
      Statement.AllChecked k visible first.1 ∧
        Declares k.classes visible (Statement.visibleAfter visible first.1) first.2 := by
  refine after fun position => after fun first => after fun second => ?_
  split
  · refine (h.variableDeclaration env).bind fun v hv => pure ⟨.cons (.declaration hv.bounded) (.nil 1), ?_,
      fun _ _ hd => ⟨⟨hv.checked hd, trivial⟩, .variable _ _ _ _ _⟩⟩
    simp [Statement.IsSimple]
  · refine (executables_gives h.exprs _).bind fun expressions he => pure ?_
    have hall : AllShallow 1 (expressions.map fun e => .expression e.position e) ∧ env.Ensures fun k visible =>
        Statement.AllChecked k visible (expressions.map fun e => .expression e.position e) ∧
          Statement.visibleAfter visible (expressions.map fun e => .expression e.position e) = visible := by
      induction expressions with
      | nil => exact ⟨.nil 1, fun _ _ _ => ⟨trivial, rfl⟩⟩
      | cons e rest ih =>
        obtain ⟨hshallow, hrest⟩ := ih fun e h => he e (List.mem_cons_of_mem _ h)
        have hfirst := he e List.mem_cons_self
        exact ⟨.cons (.expression hfirst.bounded) hshallow, fun _ _ hd =>
          ⟨⟨hfirst.made.checked hd, (hrest hd).1⟩, (hrest hd).2⟩⟩
    refine ⟨hall.1, ?_, fun k visible hd => ⟨(hall.2 hd).1, ?_⟩⟩
    · intro s hs
      obtain ⟨e, _, rfl⟩ := List.mem_map.mp hs
      trivial
    · dsimp only
      rw [(hall.2 hd).2]
      exact .none _ _

theorem forRule_silent (position : Position) : GivesSilent (d + 1) (forRule rules position) := by
  intro env
  refine Gives.within (after fun _ => (forInitialRule_gives h).bind fun first hfirst => ?_)
  obtain ⟨hshallow, hsimple, hinitial⟩ := hfirst
  refine Gives.within <| (forConditionRule_gives h.exprs).bind fun condition hcondition => after fun _ =>
    (executables_gives h.exprs _).bind fun increments hincrements => (loopBodyRule_gives h).bind fun body hbody =>
      pure ⟨.forLoop hshallow (fun e he => (hcondition e he).bounded) (fun e he => (hincrements e he).bounded) hbody.1,
        fun k visible hd => ?_, rfl⟩
  obtain ⟨hchecked, hdeclares⟩ := hinitial hd.beginScope
  have hd' := hd.beginScope.declare hdeclares
  exact ⟨hsimple, hchecked, fun e he => (hcondition e he).made.checked hd',
    fun e he => (hincrements e he).made.checked hd', hbody.2 hd'⟩

theorem forEachRule_silent (type : Rule Ty) (position : Position) :
    GivesSilent (d + 1) (forEachRule type rules position) := by
  intro env
  refine Gives.within (after fun _ => after fun _ => after fun ty => after fun name => after fun _ =>
    (h.exprs.expression _).bind fun collection hcollection => after fun _ => ?_)
  split
  · exact fail _ _
  · next element helement =>
    refine ask ?_
    split
    · next haccepts =>
      refine (Gives.expectFresh name _).bind fun _ hfresh => (Gives.within (loopBodyRule_gives h)).bind
        fun body hbody => pure ⟨.forEachLoop hcollection.bounded hbody.1, fun k visible hd => ?_, rfl⟩
      have hd' := hd.beginScope
      exact ⟨hd'.scopes.lookup_eq_none hfresh, hcollection.made.checked hd', ⟨element, helement, hd'.accepted haccepts⟩,
        hbody.2 (hd'.insert name ty (.statement position))⟩
    · exact fail _ _

theorem sectionsRule_gives (value : Ty) (steps : Steps) :
    ∀ seen hasDefault, env.Labels value seen → (sectionsRule rules value steps seen hasDefault).Gives env fun found =>
      (SectionsShallow d found.1 ∧ env.Ensures (Section.AllChecked · · found.1)) ∧
        (∀ body ∈ found.2, env.Listed d body) ∧ env.Labels value (seen ++ found.1.flatMap (·.labels)) := by
  induction steps with
  | nil => exact fun _ _ _ => expected _
  | cons _ steps ih =>
    intro seen hasDefault hseen
    refine after fun next => ?_
    split
    · exact after fun _ => pure ⟨⟨.nil d, fun _ _ _ => trivial⟩, by simp, by simpa using hseen⟩
    · have hlabels := Gives.withSteps fun steps =>
        labelsRule_gives h.exprs hasDefault steps [] false (by simpa using hseen)
      refine hlabels.bind fun labels hlabels => (Gives.within (Gives.withSteps fun steps =>
        sectionBody_gives h.statement steps _)).bind fun body hbody => (ih _ _ hlabels).bind fun found hfound => pure ?_
      obtain ⟨hsections, hotherwise, hall⟩ := hfound
      have hinside : env.Listed d body := ⟨hbody.shallow, fun _ _ hd => hbody.checked hd.beginScope⟩
      refine ⟨?_, ?_, ?_⟩
      · dsimp only
        split
        · exact hsections
        · exact ⟨.cons hinside.shallow hsections.1, fun _ _ hd => ⟨hinside.checked hd, hsections.2 hd⟩⟩
      · dsimp only
        split
        · rintro _ ⟨⟩
          exact hinside
        · exact hotherwise
      · rw [List.append_assoc] at hall
        dsimp only
        split
        · next hempty => rwa [List.isEmpty_iff.mp hempty] at hall
        · rwa [List.flatMap_cons]

theorem switchRule_silent (position : Position) : GivesSilent (d + 1) (switchRule rules position) := by
  refine fun env => after fun _ => (h.exprs.expression env).bind fun value hvalue => after fun _ => after fun _ =>
    (Gives.within (Gives.withSteps fun steps => sectionsRule_gives h _ steps _ _ ⟨by simp, .nil⟩)).bind
      fun found hfound => pure ⟨.switchOn hvalue.bounded hfound.1.1 fun body hbody => (hfound.2.1 body hbody).shallow,
        fun k visible hd => ?_, rfl⟩
  have hd' := hd.beginBreakable .switch
  obtain ⟨sections, otherwise⟩ := found
  obtain ⟨⟨-, hsections⟩, hotherwise, hlabels⟩ := hfound
  have hapart : Section.Apart (k.inside .switch).classes value.ty sections :=
    ⟨fun v hv => hlabels.fits v hv hd', hlabels.differ⟩
  cases otherwise with
  | none => exact ⟨⟨hvalue.made.checked hd, hapart⟩, hsections hd'⟩
  | some body => exact ⟨⟨hvalue.made.checked hd, hapart⟩, hsections hd', (hotherwise body rfl).checked hd'⟩

theorem plainStatement_gives (position : Position) :
    (plainStatement rules position).Gives env (env.Stated (d + 1)) := by
  refine after fun first => after fun second => ?_
  split
  · exact (h.variableDeclaration env).bind fun v hv =>
      pure ⟨.declaration hv.bounded, hv.checked, fun _ _ _ => .variable _ _ _ _ _⟩
  · exact (h.expressionStatement env).bind fun s hs => pure hs.stated

theorem statementRule_gives : (statementRule rules).Gives env (env.Stated (d + 1)) := by
  have hsilent : ∀ {rule : Rule Statement}, GivesSilent d rule → (do return (← rule, none) :
      Rule (Statement × Declared)).Gives env (env.Stated (d + 1)) :=
    fun hrule => (hrule env).bind fun s hs => pure hs.stated
  refine after fun position => after fun next => ?_
  split
  · exact after fun _ => (Gives.within (h.block _)).bind fun body hbody =>
      pure ⟨.block hbody.shallow, fun _ _ hd => hbody.checked hd.beginScope, fun _ _ _ => .none _ _⟩
  · exact after fun _ => pure ⟨.block (.nil d), fun _ _ _ => trivial, fun _ _ _ => .none _ _⟩
  · exact after fun _ => hsilent (h.ifStatement position)
  · exact after fun _ => hsilent (h.whileStatement position)
  · exact after fun _ => hsilent (h.forStatement position)
  · exact after fun _ => hsilent (h.forEachStatement position)
  · exact after fun _ => hsilent (h.switchStatement position)
  · refine ask ?_
    split
    · next hbreak =>
      refine after fun _ => after fun _ => pure ⟨.breakStatement, fun k visible hd => ?_, fun _ _ _ => .none _ _⟩
      simpa [Statement.Checked, ← hd.breakables, Scopes.canBreak] using hbreak
    · exact fail _ _
  · refine ask ?_
    split
    · next hcontinue =>
      refine after fun _ => after fun _ => pure ⟨.continueStatement, fun k visible hd => ?_, fun _ _ _ => .none _ _⟩
      simpa [Statement.Checked, ← hd.breakables, Scopes.canContinue] using hcontinue
    · exact fail _ _
  · exact after fun _ => hsilent (h.returnStatement position)
  · exact after fun _ => (h.constantDeclaration env).bind fun c hc => pure ⟨.block (.nil d), fun _ _ _ => trivial, hc⟩
  · refine after fun next => ?_
    split
    · exact fail _ _
    · exact plainStatement_gives h position
  · exact plainStatement_gives h position

end Rules

theorem GivesSilent.named {d : Nat} {rule : Rule Statement} (h : GivesSilent d rule) (name : RuleName) :
    GivesSilent d (rule.named name) :=
  fun env => (h (env.enter name)).mono fun _ hs => hs.leave

theorem GivesSilent.tooDeep (d : Nat) : GivesSilent d Rule.tooDeep :=
  fun _ => fail _ _

theorem StatementRules.Sound.stuck : StatementRules.stuck.Sound 0 := by
  constructor
  · exact .stuck
  all_goals first | exact fun _ => fail _ _ | exact fun _ => .tooDeep 0

theorem StatementRules.Sound.around (type : Rule Ty) {d : Nat} {rules : StatementRules} (h : rules.Sound d) :
    (StatementRules.around type rules).Sound (d + 1) where
  exprs := .around type h.exprs
  variableDeclaration := fun _ => Gives.within ((variableRule_gives h.exprs type).mono fun _ hv => hv.leave)
  constantDeclaration := fun _ => Gives.within ((constantRule_gives h.exprs type).mono fun _ hc => hc.leave)
  statement := fun _ => Gives.within ((statementRule_gives h).mono fun _ hs =>
    ⟨hs.shallow, hs.checked.leave, hs.declares.leave⟩)
  block := fun _ => Gives.within (withSteps fun steps =>
    (statementsToBrace_gives h.statement steps _).mono fun _ hbody =>
      ⟨hbody.shallow.mono (Nat.le_succ d), hbody.checked.leave⟩)
  ifStatement := fun position => .named (ifRule_silent h position) _
  whileStatement := fun position => .named (whileRule_silent h position) _
  forStatement := fun position => .named (forRule_silent h position) _
  forEachStatement := fun position => .named (forEachRule_silent h type position) _
  switchStatement := fun position => .named (switchRule_silent h position) _
  returnStatement := fun position => .named (returnRule_silent h.exprs position) _
  expressionStatement := .named (expressionStatementRule_silent h.exprs) _

/-- Whatever the rules for statements read is right at its place, and nests no deeper than rules may be entered. -/
theorem statementRules_sound (depth : Nat) : (statementRules depth).Sound depth := by
  induction depth with
  | zero => exact .stuck
  | succ depth ih => exact .around (typeRule depth) ih

def Item.signatures (found : List Item) : List Signature :=
  found.filterMap fun item => match item with
    | .function signature _ _ => some signature
    | .declaration _ => none

/-- The state of the compiler when only functions are known. -/
structure Env.Early (r : Registry) (env : Env) : Prop where
  registry : env.registry = r
  outer : env.scopes.outer = []
  functions : ∀ name symbol, (name, symbol) ∈ env.scopes.inner → ∃ overloads, symbol = .function overloads
  returns : env.scopes.returns = none
  breakables : env.scopes.breakables = []

theorem Env.Early.initial (r : Registry) : (Env.initial r).Early r :=
  ⟨rfl, rfl, by simp [Env.initial, Scopes.empty], rfl, rfl⟩

variable {r : Registry} {env : Env} {tokens : List Token}

theorem Env.Early.declareFunction {env' : Env} {signature : Signature} {position : Position}
    (h : env.Early r) (hdeclare : Grammar.declareFunction env signature position = .ok env') :
    env'.Early r ∧ env'.signatures = env.signatures ++ [signature] := by
  unfold Grammar.declareFunction at hdeclare
  split at hdeclare
  · cases hdeclare
  · split at hdeclare
    · next scopes hscopes =>
      cases hdeclare
      refine ⟨?_, rfl⟩
      unfold Scopes.declareFunction at hscopes
      split at hscopes
      · cases hscopes
        have hset : ∀ scope, env.scopes.setOutermost scope = { env.scopes with inner := scope } := by
          simp [Scopes.setOutermost, h.outer]
        have hinner : env.scopes.outermost = env.scopes.inner := by simp [Scopes.outermost, h.outer]
        refine ⟨h.registry, ?_, ?_, ?_, ?_⟩ <;> simp only [hset, hinner]
        · exact h.outer
        · intro name symbol hmem
          obtain ⟨⟨other, old⟩, hold, heq⟩ := List.mem_map.mp hmem
          obtain ⟨overloads, rfl⟩ := h.functions other old hold
          cases heq
          exact ⟨_, rfl⟩
        · exact h.returns
        · exact h.breakables
      · unfold Scopes.declare at hscopes
        split at hscopes
        · cases hscopes
        · cases hscopes
          refine ⟨h.registry, h.outer, fun name symbol hmem => ?_, h.returns, h.breakables⟩
          rcases List.mem_cons.mp hmem with heq | hmem
          · cases heq
            exact ⟨_, rfl⟩
          · exact h.functions name symbol hmem
    · cases hdeclare

theorem Env.Early.declareFunctions {found : List Item} :
    ∀ {env env' : Env}, env.Early r → Grammar.declareFunctions env found = .ok env' →
      env'.Early r ∧ env'.signatures = env.signatures ++ Item.signatures found := by
  induction found with
  | nil =>
    rintro env _ h ⟨⟩
    exact ⟨h, by simp [Item.signatures]⟩
  | cons item rest ih =>
    intro env env' h hok
    cases item with
    | declaration tokens => exact ih h hok
    | function signature body position =>
      obtain ⟨middle, hdeclare, hrest⟩ := exists_ok_of_bind hok
      obtain ⟨hmiddle, hsignatures⟩ := h.declareFunction hdeclare
      obtain ⟨hend, hall⟩ := ih hmiddle hrest
      refine ⟨hend, ?_⟩
      rw [hall, hsignatures]
      simp [Item.signatures]

theorem Env.Early.describes (h : env.Early r) : env.Describes ⟨r, env.signatures, .void, []⟩ [] := by
  refine ⟨h.registry, rfl, fun name => ?_, by simp [h.returns], h.breakables⟩
  have hlookup : env.scopes.lookup name = env.scopes.inner.lookup name := by
    simp [Scopes.lookup, Scopes.lookupIn, h.outer]
  rw [hlookup]
  cases hname : env.scopes.inner.lookup name with
  | none => rfl
  | some symbol =>
    obtain ⟨before, behind, hinner, _⟩ := List.lookup_eq_some_iff.mp hname
    obtain ⟨overloads, rfl⟩ := h.functions name symbol (by simp [hinner])
    rfl

section Items

variable {env : Env} {k : Checking} {visible : Lexical}

/-- What a declaration at the top gives: a variable that is right at its place, or a constant. -/
def TopChecked (k : Checking) (visible : Lexical) (found : Option Declaration × Declared) : Prop :=
  Declaration.AllChecked k visible found.1.toList ∧
    Declares k.classes visible (Declaration.visibleAfter visible found.1.toList) found.2

variable {d : Nat}

theorem topVariable_gives {rules : StatementRules} (h : rules.Sound d) (storage : Storage)
    (position : Position) : (topVariable rules storage position).Gives env fun found =>
      (∀ d ∈ found.1, ∀ e ∈ d.initial, e.Bounded) ∧ env.Ensures (TopChecked · · found) := by
  refine (h.variableDeclaration env).bind fun v hv => pure ⟨?_, fun k visible hd => ?_⟩
  · rintro _ ⟨⟩
    exact hv.bounded
  · obtain ⟨hfresh, hinitial⟩ := hv.checked hd
    exact ⟨⟨hfresh, hinitial, trivial⟩, .variable _ _ _ _ _⟩

theorem declarationRule_gives {rules : StatementRules} (h : rules.Sound d) :
    (declarationRule rules).Gives env fun found =>
      (∀ d ∈ found.1, ∀ e ∈ d.initial, e.Bounded) ∧ env.Ensures (TopChecked · · found) := by
  refine after fun position => after fun next => ?_
  split
  · exact after fun _ => topVariable_gives h _ _
  · exact after fun _ => topVariable_gives h _ _
  · exact after fun _ => (h.constantDeclaration env).bind fun c hc =>
      pure ⟨by simp, fun _ _ hd => ⟨trivial, hc hd⟩⟩
  · exact topVariable_gives h _ _

theorem compileDeclaration_made {tokens : List Token} {found : Option Declaration × Declared}
    (h : compileDeclaration env tokens = .ok found) :
    (∀ d ∈ found.1, ∀ e ∈ d.initial, e.Bounded) ∧ env.Ensures (TopChecked · · found) := by
  obtain ⟨⟨_, rest⟩, hrule, ⟨⟩⟩ := exists_ok_of_bind h
  obtain ⟨hbounded, hchecked⟩ := Gives.enter (fun _ => Gives.enter (fun depth =>
    declarationRule_gives (statementRules_sound depth)) _) _ _ _ _ hrule
  exact ⟨hbounded, hchecked.leave.leave⟩

theorem compileDeclarations_made {found : List Item} : ∀ {env env' : Env} {declarations : List Declaration},
    compileDeclarations env found = .ok (declarations, env') →
      (∀ d ∈ declarations, ∀ e ∈ d.initial, e.Bounded) ∧ env.Ensures fun k visible =>
        Declaration.AllChecked k visible declarations ∧
          env'.Describes k (Declaration.visibleAfter visible declarations) := by
  induction found with
  | nil =>
    rintro env _ _ ⟨⟩
    exact ⟨by simp, fun _ _ hd => ⟨trivial, hd⟩⟩
  | cons item rest ih =>
    intro env env' declarations h
    cases item with
    | function signature body position => exact ih h
    | declaration tokens =>
      obtain ⟨⟨declaration, declared⟩, hone, h⟩ := exists_ok_of_bind h
      obtain ⟨⟨others, last⟩, hothers, ⟨⟩⟩ := exists_ok_of_bind h
      obtain ⟨hbounded, hchecked⟩ := compileDeclaration_made hone
      obtain ⟨hbehind, hrest⟩ := ih hothers
      refine ⟨fun d hd => ?_, fun k visible hd => ?_⟩
      · rcases List.mem_append.mp hd with hd | hd
        · exact hbounded d (Option.mem_toList.mp hd)
        · exact hbehind d hd
      · obtain ⟨hfirst, hdeclares⟩ := hchecked hd
        obtain ⟨hothers, hlast⟩ := hrest (hd.declare hdeclares)
        cases declaration with
        | none => exact ⟨hothers, hlast⟩
        | some d => exact ⟨⟨hfirst.1, hfirst.2.1, hothers⟩, hlast⟩

theorem withParameters_gives {rule : Rule (List Statement)} (h : ∀ env, rule.Gives env (env.Listed d))
    (parameters : List Parameter) : ∀ (env : Env) (index : Nat), (withParameters rule parameters).Gives env fun body =>
      AllShallow d body ∧ ∀ function, env.Ensures fun k visible =>
        Statement.AllChecked k (Parameter.visible function index parameters visible) body := by
  induction parameters with
  | nil => exact fun env _ => (h env).mono fun _ hbody => ⟨hbody.shallow, fun _ => hbody.checked⟩
  | cons p rest ih =>
    exact fun env index => after fun _ => after fun _ => Gives.within ((ih _ (index + 1)).mono fun _ hbody =>
      ⟨hbody.1, fun function _ _ hd => hbody.2 function (hd.insert _ _ _)⟩)

theorem compileFunction_made {signature : Signature} {body : List Token} {position : Position} {f : Function}
    (h : compileFunction env signature body position = .ok f) :
    f.signature = signature ∧ AllShallow maxDepth f.body ∧ ∀ index, env.Ensures fun k visible =>
      Statement.AllChecked { k with returns := f.signature.returns }
        (Parameter.visible index 0 f.signature.parameters visible) f.body := by
  obtain ⟨⟨statements, rest⟩, hrule, ⟨⟩⟩ := exists_ok_of_bind h
  have hbody : ∀ depth, (functionBody (statementRules depth) signature).Gives (env.enter .function) fun body =>
      AllShallow depth body ∧ ∀ index, env.Ensures fun k visible =>
        Statement.AllChecked { k with returns := signature.returns }
          (Parameter.visible index 0 signature.parameters visible) body :=
    fun depth => Gives.within <| after fun _ =>
      (withParameters_gives (statementRules_sound depth).block signature.parameters _ 0).mono fun body hbody =>
        ⟨hbody.1, fun index k visible hd =>
          hbody.2 index ⟨hd.registry, hd.signatures, hd.scopes, rfl, hd.breakables⟩⟩
  obtain ⟨hshallow, hchecked⟩ := hbody 255 _ _ _ hrule
  exact ⟨rfl, hshallow.mono (by decide), hchecked⟩

theorem compileFunctions_made {found : List Item} : ∀ {functions : List Function},
    compileFunctions env found = .ok functions →
      functions.map (·.signature) = Item.signatures found ∧
        ∀ f ∈ functions, AllShallow maxDepth f.body ∧ ∀ index, env.Ensures fun k visible =>
          Statement.AllChecked { k with returns := f.signature.returns }
            (Parameter.visible index 0 f.signature.parameters visible) f.body := by
  induction found with
  | nil =>
    rintro _ ⟨⟩
    exact ⟨rfl, by simp⟩
  | cons item rest ih =>
    intro functions h
    cases item with
    | declaration tokens => exact ih h
    | function signature body position =>
      obtain ⟨f, hf, h⟩ := exists_ok_of_bind h
      obtain ⟨others, hothers, ⟨⟩⟩ := exists_ok_of_bind h
      obtain ⟨rfl, hbody⟩ := compileFunction_made hf
      obtain ⟨hsignatures, hrest⟩ := ih hothers
      exact ⟨by simpa [Item.signatures] using hsignatures, List.forall_mem_cons.mpr ⟨hbody, hrest⟩⟩

end Items

theorem program_checked {p : Program} (h : program r tokens = .ok p) : p.Checked r := by
  obtain ⟨found, _, h⟩ := exists_ok_of_bind h
  obtain ⟨env, henv, h⟩ := exists_ok_of_bind h
  obtain ⟨⟨declarations, env'⟩, hdeclarations, h⟩ := exists_ok_of_bind h
  obtain ⟨functions, hfunctions, ⟨⟩⟩ := exists_ok_of_bind h
  obtain ⟨hearly, hsignatures⟩ := (Env.Early.initial r).declareFunctions henv
  obtain ⟨hchecked, hlast⟩ := (compileDeclarations_made hdeclarations).2 hearly.describes
  obtain ⟨hmap, hmade⟩ := compileFunctions_made hfunctions
  have hbodies := fun f hf index => (hmade f hf).2 index hlast
  have hall : env.signatures = functions.map (·.signature) := by
    rw [hmap, hsignatures]
    rfl
  rw [hall] at hchecked hbodies
  exact ⟨hchecked, fun index f hf => hbodies f (List.mem_of_getElem? hf) index⟩

theorem wholeExpression_gives {rules : ExprRules} (h : rules.Sound) : (wholeExpression rules).Gives env env.Whole := by
  refine (h.expression env).bind fun e he => after fun next => ?_
  have hend : (do if (← peek).isEnd then return e else Rule.expected "end of expression" : Rule Expr).Gives env
      env.Whole := by
    refine after fun next => ?_
    split
    · exact pure he
    · exact expected _
  split
  · exact after fun _ => hend
  · exact hend

theorem withVariables_gives {rule : Rule Expr} (h : ∀ env, rule.Gives env env.Whole) (inputs : List Parameter) :
    ∀ env, (withVariables rule inputs).Gives env fun e =>
      e.Bounded ∧ env.Ensures fun k _ => ∃ visible, e.Checked k visible := by
  induction inputs with
  | nil => exact fun env => (h env).mono fun _ he => ⟨he.bounded, fun _ _ hd => ⟨_, he.made.checked hd⟩⟩
  | cons p rest ih =>
    exact fun env => after fun _ => Gives.within ((ih _).mono fun _ he =>
      ⟨he.1, fun _ _ hd => he.2 (hd.insert p.name p.ty (.shared p.name))⟩)

theorem expression_made {inputs : List Parameter} {e : Expr} (h : expression r tokens inputs = .ok e) :
    e.Bounded ∧ ∃ visible, e.Checked ⟨r, [], .void, []⟩ visible := by
  obtain ⟨⟨_, rest⟩, hrule, ⟨⟩⟩ := exists_ok_of_bind h
  obtain ⟨hbounded, hchecked⟩ := Gives.enter (fun depth =>
    withVariables_gives (fun _ => wholeExpression_gives (exprRules_sound depth)) inputs _) _ _ _ _ hrule
  exact ⟨hbounded, hchecked ((Env.Early.initial r).describes.enter _)⟩

theorem expression_checked {inputs : List Parameter} {e : Expr}
    (h : expression r tokens inputs = .ok e) : ∃ visible, e.Checked ⟨r, [], .void, []⟩ visible :=
  (expression_made h).2

end Grammar

theorem Script.checked_of_compile {r : Registry} {source : String} {s : Script}
    (h : Script.compile r source = .ok s) : s.registry = r ∧ s.program.Checked r := by
  unfold Script.compile at h
  split at h
  · cases h
  · obtain ⟨p, hprogram, rfl⟩ := exists_ok_of_map h
    exact ⟨rfl, Grammar.program_checked hprogram⟩

theorem Formula.checked_of_compile {r : Registry} {source : String} {inputs : List Parameter} {f : Formula}
    (h : Formula.compile r source inputs = .ok f) :
    f.registry = r ∧ ∃ visible, f.expr.Checked ⟨r, [], .void, []⟩ visible := by
  unfold Formula.compile at h
  split at h
  · cases h
  · obtain ⟨e, hexpr, rfl⟩ := exists_ok_of_map h
    exact ⟨rfl, Grammar.expression_checked hexpr⟩

end Scriptlet
