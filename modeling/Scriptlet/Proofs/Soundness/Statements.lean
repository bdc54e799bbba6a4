import Scriptlet.Proofs.Scoping.Statements
import Scriptlet.Proofs.Soundness.Expressions

/-!
# Statements and functions keep types

Executing a checked statement leaves the state typed, and what it returns can be stored as what the function around it
declares. So a call of a function gives a value of the declared type, however deep calls are nested.
-/

namespace Scriptlet

open Recorded

/-- A way to leave a statement whose value, if there is one, can be returned as a type. -/
def Flow.Typed (t : HostTypes) (σ : HeapTyping) (ty : Ty) : Flow → Prop
  | .returned (some v) => (v.coerce ty).Typed t σ ty
  | _ => True

theorem Flow.Typed.mono {t : HostTypes} {σ τ : HeapTyping} {ty : Ty} {flow : Flow} (h : flow.Typed t σ ty)
    (hσ : σ.Grows τ) : flow.Typed t τ ty := by
  cases flow with
  | returned value =>
    cases value with
    | none => trivial
    | some v => exact Value.Typed.mono h hσ
  | _ => trivial

namespace Yields

variable {t : HostTypes} {ty : Ty}

theorem leaving {P : Prop} {σ : HeapTyping} {flow : Flow} (h : P → flow.Typed t σ ty) :
    Yields t P σ (Pure.pure flow) fun σ flow => flow.Typed t σ ty :=
  .pure fun hp _ hσ => (h hp).mono hσ

theorem repeatWhile {P : Prop} {condition : Recorded Bool} {check after : Recorded Unit} {body : Recorded Flow}
    (hcondition : ∀ σ, Yields t P σ condition fun _ _ => True) (hcheck : ∀ σ, Yields t P σ check fun _ _ => True)
    (hbody : ∀ σ, Yields t P σ body fun σ flow => flow.Typed t σ ty)
    (hafter : ∀ σ, Yields t P σ after fun _ _ => True) (rounds : Nat) (σ : HeapTyping) :
    Yields t P σ (Recorded.repeatWhile condition check body after rounds) fun σ flow => flow.Typed t σ ty := by
  induction rounds generalizing σ with
  | zero =>
    refine ⟨fun _ => ⟨[], rfl⟩, fun _ σ₁ c _ hc _ => ⟨σ₁, .refl _, hc, ?_⟩⟩
    rintro _ _ ⟨⟩
  | succ rounds ih =>
    refine (hcondition σ).bind fun b σ₁ _ => ?_
    split
    · refine ((hcheck σ₁).given And.left).bind fun _ σ₂ _ => ((hbody σ₂).given fun h => h.1.1).bind fun flow σ₃ _ => ?_
      have hagain : ∀ σ, Yields t P σ (do after; Recorded.repeatWhile condition check body after rounds)
          fun σ flow => flow.Typed t σ ty :=
        fun σ => (hafter σ).bind fun _ σ₄ _ => (ih σ₄).given And.left
      cases flow with
      | broken => exact leaving fun _ => trivial
      | returned v => exact leaving And.right
      | normal => exact (hagain σ₃).given fun h => h.1.1.1
      | continued => exact (hagain σ₃).given fun h => h.1.1.1
    · exact leaving fun _ => trivial

theorem forEach {element : Ty} {check : Recorded Unit} {body : Value → Recorded Flow}
    (hcheck : ∀ P σ, Yields t P σ check fun _ _ => True)
    (hbody : ∀ σ v, Yields t (v.Typed t σ element) σ (body v) fun σ flow => flow.Typed t σ ty) (items : List Value)
    {P : Prop} (σ : HeapTyping) (hitems : P → ∀ v ∈ items, v.Typed t σ element) :
    Yields t P σ (Recorded.forEach check body items) fun σ flow => flow.Typed t σ ty := by
  induction items generalizing σ P with
  | nil => exact leaving fun _ => trivial
  | cons v rest ih =>
    have hrest : ∀ σ' (Q : Prop), σ.Grows σ' → (Q → P) →
        Yields t Q σ' (Recorded.forEach check body rest) fun σ flow => flow.Typed t σ ty :=
      fun σ' Q hσ hQ => ih σ' fun hq w hw => (hitems (hQ hq) w (List.mem_cons_of_mem _ hw)).mono hσ
    refine (hcheck P σ).bind fun _ σ₁ hσ₁ => ((hbody σ₁ v).given fun h =>
      (hitems h.1 v List.mem_cons_self).mono hσ₁).bind fun flow σ₂ hσ₂ => ?_
    cases flow with
    | broken => exact leaving fun _ => trivial
    | returned v => exact leaving And.right
    | normal => exact hrest σ₂ _ (hσ₁.trans hσ₂) fun h => h.1.1
    | continued => exact hrest σ₂ _ (hσ₁.trans hσ₂) fun h => h.1.1

end Yields

section Executor

variable {t : HostTypes} {s : Setting} {invoke : RecordedInvoke} {rounds : Nat}

section Parts

variable {k : Checking} {visible : Lexical} {P : Prop} {σ : HeapTyping}

theorem Expr.recordHolds_yields (hk : k.Sound t s invoke) {e : Expr} (h : e.Checked k visible) :
    Yields t P σ (e.recordHolds s visible invoke) fun _ _ => True :=
  (e.record_yields hk σ h).bind fun _ _ _ => .quietly fun _ => .located _ fun _ _ _ _ => trivial

theorem Expr.recordHoldsOption_yields (hk : k.Sound t s invoke) {e : Option Expr} (h : ∀ x ∈ e, x.Checked k visible) :
    Yields t P σ (Expr.recordHoldsOption s visible invoke e) fun _ _ => True := by
  cases e with
  | none => exact .pure fun _ _ _ => trivial
  | some e => exact Expr.recordHolds_yields hk (h e rfl)

theorem Expr.recordOption_yields (hk : k.Sound t s invoke) {ty : Ty} {e : Option Expr}
    (h : ∀ x ∈ e, x.CheckedAs k visible ty) :
    Yields t P σ (Expr.recordOption s visible invoke e) fun σ value => ∀ v ∈ value, (v.coerce ty).Typed t σ ty := by
  cases e with
  | none => exact .pure fun _ _ _ => by simp
  | some e =>
    obtain ⟨hchecked, haccepts⟩ := h e rfl
    rw [hk.classes] at haccepts
    refine (e.record_yields hk σ hchecked).bind fun v σ₁ _ => .pure fun hv σ₂ hσ₂ w hw => ?_
    cases hw
    exact (hv.2.coerce hk.wellFormed haccepts).mono hσ₂

end Parts

theorem Checking.Sound.inside {k : Checking} (hk : k.Sound t s invoke) (b : Breakable) : (k.inside b).Sound t s invoke :=
  ⟨hk.setting, hk.host, hk.wellFormed, hk.calls⟩

theorem Value.Typed.getD_default {σ : HeapTyping} {ty : Ty} {value : Option Value}
    (h : ∀ v ∈ value, (v.coerce ty).Typed t σ ty) :
    ((value.map (·.coerce ty)).getD (Value.default ty)).Typed t σ ty := by
  cases value with
  | none => exact .default ty
  | some v => exact h v rfl

mutual

theorem Statement.record_yields : ∀ (statement : Statement) (k : Checking) (visible : Lexical) (P : Prop)
    (σ : HeapTyping), k.Sound t s invoke → statement.Checked k visible →
    Yields t P σ (statement.record s invoke rounds visible) fun σ flow => flow.Typed t σ k.returns
  | .expression _ e, k, visible, P, σ, hk, h => by
    rw [Statement.Checked] at h
    rw [Statement.record]
    exact (e.record_yields hk σ h).bind fun _ _ _ => .leaving fun _ => trivial
  | .declaration position name ty initial, k, visible, P, σ, hk, h => by
    rw [Statement.Checked] at h
    rw [Statement.record]
    exact (Expr.recordOption_yields hk h.2).bind fun value σ₁ _ =>
      (Yields.declare fun hv => .getD_default hv.2).bind fun _ _ _ => .leaving fun _ => trivial
  | .block _ body, k, visible, P, σ, hk, h => by
    rw [Statement.Checked] at h
    rw [Statement.record]
    exact (Statement.recordAll_yields body k visible P σ hk h).inScope
  | .conditional _ condition thenBranch none, k, visible, P, σ, hk, h => by
    rw [Statement.Checked] at h
    rw [Statement.record]
    refine (Expr.recordHolds_yields hk h.1).bind fun b σ₁ _ => ?_
    cases b with
    | true => exact thenBranch.record_yields k visible _ σ₁ hk h.2
    | false => exact .leaving fun _ => trivial
  | .conditional _ condition thenBranch (some elseBranch), k, visible, P, σ, hk, h => by
    rw [Statement.Checked] at h
    rw [Statement.record]
    refine (Expr.recordHolds_yields hk h.1).bind fun b σ₁ _ => ?_
    cases b with
    | true => exact thenBranch.record_yields k visible _ σ₁ hk h.2.1
    | false => exact elseBranch.record_yields k visible _ σ₁ hk h.2.2
  | .whileLoop p condition body, k, visible, P, σ, hk, h => by
    rw [Statement.Checked] at h
    rw [Statement.record]
    exact .repeatWhile (fun _ => Expr.recordHolds_yields hk h.1) (fun _ => .checkpoint _ p)
      (fun σ => body.record_yields (k.inside .loop) visible P σ (hk.inside .loop) h.2)
      (fun _ => .pure fun _ _ _ => trivial) rounds σ
  | .forLoop p initial condition increments body, k, visible, P, σ, hk, h => by
    rw [Statement.Checked] at h
    obtain ⟨-, hinitial, hcondition, hincrements, hbody⟩ := h
    rw [Statement.record]
    refine ((Statement.recordAll_yields initial k visible P σ hk hinitial).bind fun _ σ₁ _ => ?_).inScope
    exact .repeatWhile (fun _ => Expr.recordHoldsOption_yields hk hcondition) (fun _ => .checkpoint _ p)
      (fun σ => body.record_yields (k.inside .loop) _ _ σ (hk.inside .loop) hbody)
      (fun σ => (Expr.recordAll_yields hk increments σ hincrements).bind fun _ _ _ => .pure fun _ _ _ => trivial)
      rounds σ₁
  | .forEachLoop p name ty collection body, k, visible, P, σ, hk, h => by
    rw [Statement.Checked] at h
    obtain ⟨-, hcollection, ⟨element, helement, haccepts⟩, hbody⟩ := h
    rw [hk.classes] at haccepts
    rw [Statement.record]
    refine (collection.record_yields hk σ hcollection).bind fun v σ₁ _ => (Yields.quietly fun hv =>
      (Sustains.collection hv.2 (by rw [helement]; rfl)).bind fun _ _ _ hc => .visited hc helement).bind
        fun items σ₂ _ => .forEach (fun _ _ => .checkpoint _ p) (fun σ v => ?_) items σ₂ And.right
    refine Yields.inScope ((Yields.declare fun hv => hv.coerce hk.wellFormed haccepts).bind fun _ σ₁ _ => ?_)
    exact body.record_yields (k.inside .loop) _ _ σ₁ (hk.inside .loop) hbody
  | .switchOn _ value sections none, k, visible, P, σ, hk, h => by
    rw [Statement.Checked] at h
    rw [Statement.record]
    refine (value.record_yields hk σ h.1.1).bind fun v σ₁ _ => (Section.recordMatching_yields v sections
      (k.inside .switch) visible _ σ₁ (hk.inside .switch) h.2).bind fun found σ₂ _ => ?_
    cases found with
    | some flow =>
      cases flow with
      | returned v => exact .leaving fun hflow => hflow.2 _ rfl
      | _ => exact .leaving fun _ => trivial
    | none => exact .leaving fun _ => trivial
  | .switchOn _ value sections (some body), k, visible, P, σ, hk, h => by
    rw [Statement.Checked] at h
    rw [Statement.record]
    refine (value.record_yields hk σ h.1.1).bind fun v σ₁ _ => (Section.recordMatching_yields v sections
      (k.inside .switch) visible _ σ₁ (hk.inside .switch) h.2.1).bind fun found σ₂ _ => ?_
    cases found with
    | some flow =>
      cases flow with
      | returned v => exact .leaving fun hflow => hflow.2 _ rfl
      | _ => exact .leaving fun _ => trivial
    | none =>
      refine (Statement.recordAll_yields body (k.inside .switch) visible _ σ₂ (hk.inside .switch) h.2.2).inScope.bind
        fun flow σ₃ _ => ?_
      cases flow <;> exact .leaving And.right
  | .breakStatement _, _, _, _, _, _, _ => .leaving fun _ => trivial
  | .continueStatement _, _, _, _, _, _, _ => .leaving fun _ => trivial
  | .returnStatement _ none, _, _, _, _, _, _ => by
    rw [Statement.record]
    exact (Yields.pure (R := fun _ value => value = none) fun _ _ _ => rfl).bind fun value _ _ => .leaving fun h =>
      h.2 ▸ trivial
  | .returnStatement _ (some e), k, visible, P, σ, hk, h => by
    rw [Statement.Checked] at h
    rw [Statement.record]
    refine (Expr.recordOption_yields hk (by rintro x ⟨⟩; exact h.2)).bind fun value σ₁ _ => .leaving fun hv => ?_
    cases value with
    | none => trivial
    | some v => exact hv.2 v rfl

theorem Statement.recordAll_yields : ∀ (body : List Statement) (k : Checking) (visible : Lexical) (P : Prop)
    (σ : HeapTyping), k.Sound t s invoke → Statement.AllChecked k visible body →
    Yields t P σ (Statement.recordAll s invoke rounds visible body) fun σ flow => flow.Typed t σ k.returns
  | [], _, _, _, _, _, _ => by
    rw [Statement.recordAll]
    exact .leaving fun _ => trivial
  | statement :: rest, k, visible, P, σ, hk, h => by
    rw [Statement.AllChecked] at h
    rw [Statement.recordAll]
    refine (statement.record_yields k visible P σ hk h.1).bind fun flow σ₁ _ => ?_
    cases flow with
    | normal => exact Statement.recordAll_yields rest k _ _ σ₁ hk h.2
    | broken => exact .leaving fun _ => trivial
    | continued => exact .leaving fun _ => trivial
    | returned v => exact .leaving And.right

theorem Section.recordMatching_yields (v : Value) : ∀ (sections : List Section) (k : Checking) (visible : Lexical)
    (P : Prop) (σ : HeapTyping), k.Sound t s invoke → Section.AllChecked k visible sections →
    Yields t P σ (Section.recordMatching s invoke rounds visible v sections) fun σ found =>
      ∀ flow ∈ found, flow.Typed t σ k.returns
  | [], _, _, _, _, _, _ => by
    rw [Section.recordMatching]
    exact .pure fun _ _ _ => by simp
  | ⟨labels, body⟩ :: rest, k, visible, P, σ, hk, h => by
    rw [Section.AllChecked] at h
    rw [Section.recordMatching]
    split
    · refine (Statement.recordAll_yields body k visible P σ hk h.1).inScope.bind fun flow σ₁ _ =>
        .pure fun hflow σ₂ hσ₂ found hfound => ?_
      cases hfound
      exact hflow.2.mono hσ₂
    · exact Section.recordMatching_yields v rest k visible P σ hk h.2

end

theorem recordParameters_yields (hclasses : s.classes = t.classes) (function : Nat) (name : String) (p : Position)
    (index : Nat) (parameters : List Parameter) (arguments : List Value) {P : Prop} (σ : HeapTyping)
    (harguments : P → ∀ v ∈ arguments, v.Located σ) :
    Yields t P σ (recordParameters s function name p index parameters arguments) fun _ _ => True := by
  induction parameters generalizing index arguments σ P with
  | nil => exact .pure fun _ _ _ => trivial
  | cons parameter ps ih =>
    cases arguments with
    | nil => exact .pure fun _ _ _ => trivial
    | cons v vs =>
      rw [recordParameters, hclasses]
      split
      · next haccepts =>
        refine (Yields.declare fun hp => .of_accepts haccepts (harguments hp v List.mem_cons_self)).bind
          fun _ σ₁ hσ₁ => ?_
        exact ih (index + 1) vs σ₁ fun h w hw => (harguments h.1 w (List.mem_cons_of_mem _ hw)).mono hσ₁
      · exact .quietly fun _ => .fail _ _

theorem Function.record_yields (hclasses : s.classes = t.classes) {execute : List Statement → Recorded Flow}
    (function : Nat) (f : Function) (arguments : List Value) (p : Position) (σ : HeapTyping)
    (hbody : ∀ P σ, Yields t P σ (execute f.body) fun σ flow => flow.Typed t σ f.signature.returns) :
    Yields t (∀ v ∈ arguments, v.Located σ) σ (f.record s function execute arguments p) fun σ v =>
      v.Typed t σ f.signature.returns := by
  simp only [Function.record]
  split
  · refine (Yields.enterCall p).bind fun _ σ₁ hσ₁ => Yields.inFrame ((Yields.note (by simp)).bind fun _ σ₂ hσ₂ =>
      (recordParameters_yields hclasses function _ p 0 _ arguments σ₂ fun h v hv =>
        (h.1.1 v hv).mono (hσ₁.trans hσ₂)).bind fun _ σ₃ _ => (hbody _ σ₃).bind fun flow σ₄ _ =>
          .quietly fun hflow => ?_)
    have hnothing : Sustains (Machine.Typed t) σ₄ (if f.signature.returns = .void then pure Value.null
        else Run.fail (.missingReturn f.signature.name) f.position) fun σ (v : Value) =>
        v.Typed t σ f.signature.returns := by
      split
      · next hvoid => exact .pure fun _ _ => .of_eq .nothing hvoid
      · exact .fail _ _
    cases flow with
    | returned value =>
      cases value with
      | none => exact hnothing
      | some v => exact .pure fun _ hσ => Value.Typed.mono hflow.2 hσ
    | normal => exact hnothing
    | broken => exact hnothing
    | continued => exact hnothing
  · exact .quietly fun _ => .fail _ _

end Executor

structure Setting.Sound (t : HostTypes) (r : Registry) (top : Lexical) (s : Setting) : Prop where
  classes : s.classes = t.classes
  host : r.Sound t
  wellFormed : t.classes.WellFormed
  checked : s.Checked r top

/-- What the body of a function, or the initial value of a variable at the top, is checked against. -/
def Setting.checking (s : Setting) (r : Registry) (returns : Ty) : Checking :=
  ⟨r, s.functions.map (·.signature), returns, []⟩

theorem Setting.Sound.recordInvoke {t : HostTypes} {r : Registry} {top : Lexical} {s : Setting} (hs : s.Sound t r top)
    (rounds depth : Nat) (returns : Ty) : (s.checking r returns).Sound t s (s.recordInvoke top rounds depth) := by
  induction depth generalizing returns with
  | zero =>
    refine ⟨hs.classes, hs.host, hs.wellFormed, fun function signature _ σ arguments p => ?_⟩
    rw [Setting.recordInvoke]
    refine .quietly fun _ σ₁ m _ hm => ⟨σ₁, .refl _, hm, ?_⟩
    rintro _ _ ⟨⟩
  | succ depth ih =>
    refine ⟨hs.classes, hs.host, hs.wellFormed, fun function signature hsignature σ arguments p => ?_⟩
    rw [Setting.checking, List.getElem?_map] at hsignature
    obtain ⟨f, hf, rfl⟩ := Option.map_eq_some_iff.mp hsignature
    simp only [Setting.recordInvoke, hf]
    exact Function.record_yields hs.classes function f arguments p σ fun P σ =>
      Statement.recordAll_yields f.body _ _ P σ (ih f.signature.returns) (hs.checked function f hf)

end Scriptlet
