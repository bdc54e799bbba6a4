import Scriptlet.Proofs.Scoping.Expressions

/-!
# Static scoping in statements and calls

A statement may declare something, so what is visible changes while it runs; what is known besides is only that the
variables that were visible are still what they should be. The body of a function begins in a frame in which nothing
but the top is visible, and then sees its parameters.
-/

namespace Scriptlet

open Recorded

/-- The visible variables are what they should be, and there is a scope for further ones. -/
structure Chronicle.Inside (o : Outlook) (visible : Lexical) (c : Chronicle) : Prop where
  oriented : c.Oriented o visible
  scope : 0 < c.machine.level

namespace Chronicle.Inside

variable {o : Outlook} {visible : Lexical} {c c' : Chronicle}

theorem kept (h : c.Inside o visible) (hk : Kept (c.machine.level + 1) c c') : c'.Inside o visible :=
  ⟨h.oriented.kept hk, hk.level ▸ h.scope⟩

theorem forget {name : String} {v : Variable} (h : c.Inside o ((name, v) :: visible))
    (hfresh : visible.lookup name = none) : c.Inside o visible := by
  refine ⟨⟨h.oriented.ready, fun other w hw => h.oriented.visible other w ?_⟩, h.scope⟩
  have hne : (other == name) = false := by
    rw [beq_eq_false_iff_ne]
    rintro rfl
    rw [hfresh] at hw
    cases hw
  rw [List.lookup_cons, hne]
  exact hw

theorem pushScope (h : c.Inside o visible) : Inside o visible { c with machine := c.machine.pushScope } := by
  obtain ⟨scope, scopes, rest, hf⟩ := Machine.exists_scope h.scope
  have hpush : c.machine.pushScope = { c.machine with frames := ([] :: scope :: scopes) :: rest } := by
    simp [Machine.pushScope, hf]
  have hcount : c.machine.pushScope.frames.length = c.machine.frames.length := by simp [hpush, hf]
  refine ⟨⟨fun name v hv => ?_, fun name v hv => ?_⟩, ?_⟩
  · have htop : c.machine.pushScope.topSite? name = c.machine.topSite? name := by
      rw [hpush]
      rfl
    simpa only [htop, hcount] using h.oriented.ready name v hv
  · simpa only [Machine.site?_pushScope, hcount] using h.oriented.visible name v hv
  · simp [hpush, Machine.level, Machine.frame]

theorem declare (h : c.Inside o visible) (name : String) (origin : Origin) (b : Binding) :
    Inside o ((name, ⟨b.ty, origin⟩) :: visible)
      ⟨c.machine.declare name b, ⟨c.machine, .declaration name origin⟩ :: c.moments⟩ := by
  have hcount := c.machine.count_declare name b
  refine ⟨⟨fun other v hv => ?_, fun other v hv => ?_⟩, ?_⟩
  · -- at the top nothing is declared, since there is a scope
    have htop := h.oriented.ready other v hv
    simp only [Machine.topSite?_declare h.scope, hcount]
    refine htop.cons fun site ty hsite origin' hh => ?_
    have hisTop := Machine.isTop_of_topSite? hsite
    cases site with
    | scope => exact hisTop.elim
    | member => simpa [Moment.at] using Nat.ne_of_gt h.scope
    | global => rfl
  · simp only [Machine.site?_declare h.scope, hcount]
    by_cases hname : other = name
    · subst hname
      rw [List.lookup_cons, beq_self_eq_true] at hv
      cases hv
      refine ⟨fun _ => by simp, fun site ty hsite => ?_, fun _ site ty hsite => ?_⟩
      · simp only [if_true, Option.some.injEq, Prod.mk.injEq] at hsite
        exact hsite.2.symm
      · simp only [if_true, Option.some.injEq, Prod.mk.injEq] at hsite
        simp [← hsite.1, creator, Moment.at, Moment.declaration?]
    · rw [List.lookup_cons, beq_eq_false_iff_ne.mpr hname] at hv
      rw [if_neg hname]
      refine (h.oriented.visible other v hv).cons fun site ty hsite origin' hh => ?_
      cases hh
      exact absurd rfl hname
  · exact (c.machine.level_declare name b) ▸ h.scope

theorem pushFrame (h : c.Ready o) : Inside o o.top { c with machine := c.machine.pushFrame } := by
  have htop : ∀ name v, o.top.lookup name = some v → Identifies o.certain c.moments
      (c.machine.pushFrame.frames.length) name v (c.machine.topSite? name) :=
    fun name v hv => (h name v hv).refocus (fun _ _ hsite => Machine.isTop_of_topSite? hsite) _
  refine ⟨⟨htop, fun name v hv => ?_⟩, ?_⟩
  · simpa only [Machine.site?_pushFrame] using htop name v hv
  · simp [Machine.pushFrame, Machine.level, Machine.frame]

end Chronicle.Inside

/-- A computation that is right where it begins with one property, and then ends with another one. It keeps all
scopes but the innermost one. -/
structure Abides (o : Outlook) (P : Chronicle → Prop) {α : Type} (x : Recorded α) (Q : α → Chronicle → Prop) :
    Prop where
  keeps : Keeps 0 x
  outcome : ∀ c, P c → o.Outcome c (x c)
  leaves : ∀ c, P c → ∀ a c', x c = .ok a c' → Q a c'

theorem Heeds.abides {o : Outlook} {visible : Lexical} {α : Type} {x : Recorded α} (h : Heeds o visible x) :
    Abides o (·.Inside o visible) x fun _ c => c.Inside o visible := by
  refine ⟨h.keeps.weaken, fun c hc => h.outcome c hc.oriented, fun c hc a c' hx => ?_⟩
  have hk := h.keeps c
  rw [hx] at hk
  exact hc.kept hk

namespace Abides

variable {o : Outlook} {α β : Type} {P : Chronicle → Prop} {Q : α → Chronicle → Prop} {S : β → Chronicle → Prop}
  {visible : Lexical}

theorem pure {a : α} (h : ∀ c, P c → Q a c) : Abides o P (Pure.pure a : Recorded α) Q := by
  refine ⟨.pure a, fun _ _ => .ok .refl, ?_⟩
  rintro c hc _ c' ⟨⟩
  exact h c hc

theorem bind {x : Recorded α} {f : α → Recorded β} (hx : Abides o P x Q) (hf : ∀ a, Abides o (Q a) (f a) S) :
    Abides o P (x >>= f) S := by
  refine ⟨hx.keeps.bind fun a => (hf a).keeps, fun c hc => (hx.outcome c hc).bind fun a c' hxc =>
    (hf a).outcome c' (hx.leaves c hc a c' hxc), fun c hc b c' h => ?_⟩
  obtain ⟨a, c₁, hxc, hfa⟩ := ok_of_bind h
  exact (hf a).leaves c₁ (hx.leaves c hc a c₁ hxc) b c' hfa

theorem imp {x : Recorded α} {Q' : α → Chronicle → Prop} (hx : Abides o P x Q) (h : ∀ a c, Q a c → Q' a c) :
    Abides o P x Q' :=
  ⟨hx.keeps, hx.outcome, fun c hc a c' hxc => h a c' (hx.leaves c hc a c' hxc)⟩

theorem gives {x : Recorded α} {R : α → Prop} (hx : Abides o P x Q) (hR : Gives R x) :
    Abides o P x fun a c => R a ∧ Q a c :=
  ⟨hx.keeps, hx.outcome, fun c hc a c' hxc => ⟨hR c a c' hxc, hx.leaves c hc a c' hxc⟩⟩

theorem declare (name : String) (origin : Origin) (ty : Ty) (v : Value) :
    Abides o (·.Inside o visible) (Recorded.declare name origin ty v)
      fun _ c => c.Inside o ((name, ⟨ty, origin⟩) :: visible) := by
  have hdeclare : ∀ c, Recorded.declare name origin ty v c =
      .ok () ⟨c.machine.declare name ⟨ty, v⟩, ⟨c.machine, .declaration name origin⟩ :: c.moments⟩ := fun _ => rfl
  refine ⟨.declare name origin ty v, fun c _ => ?_, fun c hc _ c' h => ?_⟩
  · rw [hdeclare]
    refine .ok (.note .refl ?_)
    rintro ref visible' ⟨⟩
  · rw [hdeclare] at h
    cases h
    exact hc.declare name origin ⟨ty, v⟩

theorem inScope {x : Recorded α} (hx : Abides o (·.Inside o visible) x Q) :
    Abides o (·.Inside o visible) (Recorded.inScope x) fun _ c => c.Inside o visible := by
  refine ⟨.inScope hx.keeps, fun c hc => ?_, fun c hc a c' h => ?_⟩
  · exact .bracket (hx.outcome _ hc.pushScope)
  · have hframes : c.machine.frames ≠ [] := by
      obtain ⟨scope, scopes, rest, hf⟩ := Machine.exists_scope hc.scope
      simp [hf]
    have hk := Keeps.inScope_kept hx.keeps hframes
    rw [h] at hk
    exact hc.kept hk

theorem inFrame {x : Recorded α} (hx : Abides o (·.Inside o o.top) x Q) {c : Chronicle} (hc : c.Ready o) :
    o.Outcome c (Recorded.inFrame x c) :=
  .bracket (hx.outcome _ (.pushFrame hc))

theorem repeatWhile {condition : Recorded Bool} {check after : Recorded Unit} {body : Recorded Flow}
    (hcondition : Abides o P condition fun _ => P) (hcheck : Abides o P check fun _ => P)
    (hbody : Abides o P body fun _ => P) (hafter : Abides o P after fun _ => P) (rounds : Nat) :
    Abides o P (Recorded.repeatWhile condition check body after rounds) fun _ => P := by
  refine repeatWhile_of (R := fun x => Abides o P x fun _ => P) (fun _ => .pure fun _ => id) .bind
    ⟨.throw _, fun c _ => .error .refl fun _ _ => id, ?_⟩ hcondition hcheck hbody hafter rounds
  rintro c hc a c' ⟨⟩

theorem forEach {check : Recorded Unit} {body : Value → Recorded Flow} (hcheck : Abides o P check fun _ => P)
    (hbody : ∀ v, Abides o P (body v) fun _ => P) (items : List Value) :
    Abides o P (Recorded.forEach check body items) fun _ => P := by
  induction items with
  | nil => exact .pure fun _ => id
  | cons v rest ih =>
    refine hcheck.bind fun _ => (hbody v).bind fun flow => ?_
    cases flow with
    | broken => exact .pure fun _ => id
    | returned v => exact .pure fun _ => id
    | normal => exact ih
    | continued => exact ih

end Abides

/-- What is known behind a statement: what was visible is so still, and if control reaches its end, what it declares
is visible as well. -/
def Statement.Leaves (o : Outlook) (visible : Lexical) (statement : Statement) (flow : Flow) (c : Chronicle) : Prop :=
  c.Inside o visible ∧ (flow = .normal → c.Inside o (statement.declares ++ visible))

section Executor

variable {o : Outlook} {s : Setting} {invoke : RecordedInvoke} {rounds : Nat}

theorem Statement.leaves_of_inside {visible : Lexical} {statement : Statement} (h : statement.declares = [])
    {x : Recorded Flow} (hx : Abides o (·.Inside o visible) x fun _ c => c.Inside o visible) :
    Abides o (·.Inside o visible) x (statement.Leaves o visible) :=
  hx.imp fun flow c hc => ⟨hc, fun _ => by rwa [h]⟩

theorem Statement.record_gives_normal {visible : Lexical} {statement : Statement} (h : statement.IsSimple) :
    Gives (· = .normal) (statement.record s invoke rounds visible) := by
  cases statement with
  | expression =>
    rw [Statement.record]
    exact .bind fun _ => .pure rfl
  | declaration =>
    rw [Statement.record]
    exact .bind fun _ => .bind fun _ => .pure rfl
  | _ => exact h.elim

theorem Statement.recordAll_gives_normal {visible : Lexical} {body : List Statement}
    (h : ∀ statement ∈ body, statement.IsSimple) :
    Gives (· = .normal) (Statement.recordAll s invoke rounds visible body) := by
  induction body generalizing visible with
  | nil => exact .pure rfl
  | cons statement rest ih =>
    rw [Statement.recordAll]
    refine .bind_of (Statement.record_gives_normal (h statement List.mem_cons_self)) fun flow hflow => ?_
    subst hflow
    exact ih fun x hx => h x (List.mem_cons_of_mem _ hx)

mutual

/-- Executing a statement is right where the variables that it was checked against are visible. -/
theorem Statement.record_abides (hi : invoke.Heeds o) :
    ∀ (statement : Statement) (k : Checking) (visible : Lexical),
      (o.calm → k.registry.AllMembers Member.SparesVariables) → statement.Checked k visible →
      Abides o (·.Inside o visible) (statement.record s invoke rounds visible) (statement.Leaves o visible)
  | .expression _ e, k, visible, hm, h => by
    rw [Statement.Checked] at h
    rw [Statement.record]
    exact Statement.leaves_of_inside rfl ((Expr.record_heeds hi hm h).abides.bind fun _ => .pure fun _ => id)
  | .declaration position name ty initial, k, visible, hm, h => by
    rw [Statement.Checked] at h
    rw [Statement.record]
    refine (Expr.recordOption_heeds hi hm fun e he => (h.2 e he).1).abides.bind fun v =>
      (Abides.declare name _ ty _).bind fun _ => .pure fun c hc => ⟨hc.forget h.1, fun _ => hc⟩
  | .block _ body, k, visible, hm, h => by
    rw [Statement.Checked] at h
    rw [Statement.record]
    exact Statement.leaves_of_inside rfl (Statement.recordAll_abides hi body k visible hm h).inScope
  | .conditional _ condition thenBranch none, k, visible, hm, h => by
    rw [Statement.Checked] at h
    rw [Statement.record]
    refine Statement.leaves_of_inside rfl ((Expr.recordHolds_heeds hi hm h.1).abides.bind fun b => ?_)
    cases b with
    | true => exact (thenBranch.record_abides hi k visible hm h.2).imp fun _ _ hc => hc.1
    | false => exact .pure fun _ => id
  | .conditional _ condition thenBranch (some elseBranch), k, visible, hm, h => by
    rw [Statement.Checked] at h
    rw [Statement.record]
    refine Statement.leaves_of_inside rfl ((Expr.recordHolds_heeds hi hm h.1).abides.bind fun b => ?_)
    cases b with
    | true => exact (thenBranch.record_abides hi k visible hm h.2.1).imp fun _ _ hc => hc.1
    | false => exact (elseBranch.record_abides hi k visible hm h.2.2).imp fun _ _ hc => hc.1
  | .whileLoop p condition body, k, visible, hm, h => by
    rw [Statement.Checked] at h
    rw [Statement.record]
    exact Statement.leaves_of_inside rfl (.repeatWhile (Expr.recordHolds_heeds hi hm h.1).abides
      (Heeds.checkpoint _ p).abides ((body.record_abides hi (k.inside .loop) visible hm h.2).imp fun _ _ hc => hc.1)
      (.pure fun _ => id) rounds)
  | .forLoop p initial condition increments body, k, visible, hm, h => by
    rw [Statement.Checked] at h
    obtain ⟨hsimple, hinitial, hcondition, hincrements, hbody⟩ := h
    rw [Statement.record]
    -- the statements at the head of the loop run to their end, so all that they declare is visible behind them
    have hhead : Abides o (·.Inside o visible) (Statement.recordAll s invoke rounds visible initial)
        fun _ c => c.Inside o (Statement.visibleAfter visible initial) :=
      ((Statement.recordAll_abides hi initial k visible hm hinitial).gives
        (Statement.recordAll_gives_normal hsimple)).imp fun _ _ hc => hc.2 hc.1
    refine Statement.leaves_of_inside rfl (hhead.bind
      (S := fun _ c => c.Inside o (Statement.visibleAfter visible initial)) fun _ => ?_).inScope
    exact .repeatWhile (Expr.recordHoldsOption_heeds hi hm hcondition).abides (Heeds.checkpoint _ p).abides
      ((body.record_abides hi (k.inside .loop) _ hm hbody).imp fun _ _ hc => hc.1)
      ((Expr.recordAll_heeds hi hm hincrements).abides.bind fun _ => .pure fun _ => id) rounds
  | .forEachLoop p name ty collection body, k, visible, hm, h => by
    rw [Statement.Checked] at h
    obtain ⟨hfresh, hcollection, -, hbody⟩ := h
    rw [Statement.record]
    refine Statement.leaves_of_inside rfl <| (Expr.record_heeds hi hm hcollection).abides.bind fun v =>
      (Heeds.quietly (.bind (.collection _ _) fun _ => .visited _)).abides.bind fun items => ?_
    exact .forEach (Heeds.checkpoint _ p).abides (fun v => ((Abides.declare name _ ty _).bind fun _ =>
      body.record_abides hi (k.inside .loop) _ hm hbody).inScope) items
  | .switchOn _ value sections none, k, visible, hm, h => by
    rw [Statement.Checked] at h
    rw [Statement.record]
    refine Statement.leaves_of_inside rfl ((Expr.record_heeds hi hm h.1.1).abides.bind fun v =>
      (Section.recordMatching_abides hi v sections (k.inside .switch) visible hm h.2).bind fun flow? => ?_)
    cases flow? with
    | some flow => cases flow <;> exact .pure fun _ => id
    | none => exact .pure fun _ => id
  | .switchOn _ value sections (some body), k, visible, hm, h => by
    rw [Statement.Checked] at h
    rw [Statement.record]
    refine Statement.leaves_of_inside rfl ((Expr.record_heeds hi hm h.1.1).abides.bind fun v =>
      (Section.recordMatching_abides hi v sections (k.inside .switch) visible hm h.2.1).bind fun flow? => ?_)
    cases flow? with
    | some flow => cases flow <;> exact .pure fun _ => id
    | none =>
      refine (Statement.recordAll_abides hi body (k.inside .switch) visible hm h.2.2).inScope.bind fun flow => ?_
      cases flow <;> exact .pure fun _ => id
  | .breakStatement _, _, _, _, _ => Statement.leaves_of_inside rfl (.pure fun _ => id)
  | .continueStatement _, _, _, _, _ => Statement.leaves_of_inside rfl (.pure fun _ => id)
  | .returnStatement _ none, _, _, _, _ => by
    rw [Statement.record]
    exact Statement.leaves_of_inside rfl ((Heeds.pure none).abides.bind fun _ => .pure fun _ => id)
  | .returnStatement _ (some e), k, visible, hm, h => by
    rw [Statement.Checked] at h
    rw [Statement.record]
    exact Statement.leaves_of_inside rfl ((Expr.recordOption_heeds hi hm (by
      rintro x ⟨⟩
      exact h.2.1)).abides.bind fun _ => .pure fun _ => id)

theorem Statement.recordAll_abides (hi : invoke.Heeds o) :
    ∀ (body : List Statement) (k : Checking) (visible : Lexical),
      (o.calm → k.registry.AllMembers Member.SparesVariables) → Statement.AllChecked k visible body →
      Abides o (·.Inside o visible) (Statement.recordAll s invoke rounds visible body)
        fun flow c => flow = .normal → c.Inside o (Statement.visibleAfter visible body)
  | [], _, visible, _, _ => by
    rw [Statement.recordAll]
    exact .pure fun c hc _ => hc
  | statement :: rest, k, visible, hm, h => by
    rw [Statement.AllChecked] at h
    rw [Statement.recordAll]
    refine (statement.record_abides hi k visible hm h.1).bind fun flow => ?_
    cases flow with
    | normal =>
      have hrest := Statement.recordAll_abides hi rest k _ hm h.2
      exact ⟨hrest.keeps, fun c hc => hrest.outcome c (hc.2 rfl), fun c hc => hrest.leaves c (hc.2 rfl)⟩
    | broken => exact .pure fun _ _ h => nomatch h
    | continued => exact .pure fun _ _ h => nomatch h
    | returned v => exact .pure fun _ _ h => nomatch h

theorem Section.recordMatching_abides (hi : invoke.Heeds o) (v : Value) :
    ∀ (sections : List Section) (k : Checking) (visible : Lexical),
      (o.calm → k.registry.AllMembers Member.SparesVariables) → Section.AllChecked k visible sections →
      Abides o (·.Inside o visible) (Section.recordMatching s invoke rounds visible v sections)
        fun _ c => c.Inside o visible
  | [], _, _, _, _ => by
    rw [Section.recordMatching]
    exact .pure fun _ => id
  | ⟨labels, body⟩ :: rest, k, visible, hm, h => by
    rw [Section.AllChecked] at h
    rw [Section.recordMatching]
    split
    · exact (Statement.recordAll_abides hi body k visible hm h.1).inScope.bind fun _ => .pure fun _ => id
    · exact Section.recordMatching_abides hi v rest k visible hm h.2

end

theorem recordParameters_abides (function : Nat) (name : String) (p : Position) (index : Nat)
    (parameters : List Parameter) (arguments : List Value) (hlength : arguments.length = parameters.length)
    (visible : Lexical) :
    Abides o (·.Inside o visible) (recordParameters s function name p index parameters arguments)
      fun _ c => c.Inside o (Parameter.visible function index parameters visible) := by
  induction parameters generalizing index arguments visible with
  | nil =>
    cases arguments with
    | nil => exact .pure fun _ => id
    | cons => cases hlength
  | cons parameter ps ih =>
    cases arguments with
    | nil => cases hlength
    | cons v vs =>
      rw [recordParameters]
      split
      · exact (Abides.declare _ _ _ _).bind fun _ => ih (index + 1) vs (Nat.succ.inj hlength) _
      · refine ⟨.quietly (.of_tame (.fail id _)), fun c _ => .error .refl fun _ _ => id, ?_⟩
        rintro c hc a c' ⟨⟩

theorem Function.record_heeds {execute : List Statement → Recorded Flow} (hkeeps : ∀ body, Keeps 0 (execute body))
    (function : Nat) (f : Function) (arguments : List Value) (p : Position) {Q : Flow → Chronicle → Prop}
    (hbody : Abides o (·.Inside o (Parameter.visible function 0 f.signature.parameters o.top)) (execute f.body) Q) :
    Heeds o [] (f.record s function execute arguments p) := by
  refine ⟨Function.record_keeps hkeeps function f arguments p, fun c hc => ?_⟩
  simp only [Function.record]
  split
  · next hlength =>
    have henter : Heeds o [] (Recorded.enterCall p) := .enterCall p
    refine (henter.outcome c hc).bind fun _ c' hc' => ?_
    have hk := henter.keeps c
    rw [hc'] at hk
    refine Abides.inFrame (Q := fun _ _ => True) ?_ (hc.kept hk).ready
    refine (Heeds.note (by simp) (by simp)).abides.bind fun _ =>
      (recordParameters_abides function _ p 0 _ arguments hlength _).bind fun _ => hbody.bind fun flow => ?_
    exact ⟨.quietly (.of_tame (.result f flow)), fun c _ => .quietly (Run.Tame.result f flow).plain c,
      fun _ _ _ _ _ => trivial⟩
  · exact .error .refl fun _ _ => id

/-- Functions whose bodies were checked against the top, their parameters and what they return. -/
def Setting.Checked (s : Setting) (r : Registry) (top : Lexical) : Prop :=
  ∀ index f, s.functions[index]? = some f →
    Statement.AllChecked ⟨r, s.functions.map (·.signature), f.signature.returns, []⟩
      (Parameter.visible index 0 f.signature.parameters top) f.body

theorem Setting.recordInvoke_heeds {r : Registry} (hs : s.Checked r o.top)
    (hm : o.calm → r.AllMembers Member.SparesVariables) (rounds depth : Nat) :
    (s.recordInvoke o.top rounds depth).Heeds o := by
  induction depth with
  | zero =>
    intro index arguments p
    rw [Setting.recordInvoke]
    refine .quietly_of (fun m => .refl m) ?_
    rintro _ _ m m' e ⟨⟩
    exact id
  | succ depth ih =>
    intro index arguments p
    cases hf : s.functions[index]? with
    | none =>
      simp only [Setting.recordInvoke, hf]
      exact .quietly (.fail id _)
    | some f =>
      simp only [Setting.recordInvoke, hf]
      exact Function.record_heeds (fun body => Statement.recordAll_keeps ih.keeps rounds body _) index f arguments p
        (Statement.recordAll_abides ih f.body _ _ hm (hs index f hf))

end Executor

end Scriptlet
