import Scriptlet.Proofs.Compiled.Programs
import Scriptlet.Proofs.Scoping.Expressions
import Scriptlet.Proofs.Termination

/-!
# How control leaves statements

The compiler keeps a list of the loops and switches around a place, and the executor decides on its own which of them
takes a `break` or a `continue`. Main statement: the two agree. The body of a function is never left by a `break` or a
`continue`; it returns a value exactly if the function has one to return, and the function misses its return exactly if
its body ends in the usual way.
-/

namespace Scriptlet

mutual

/-- The expressions whose values a statement may return. -/
def Statement.returned : Statement → List Expr
  | .block _ body => Statement.returnedByAll body
  | .conditional _ _ thenBranch none => thenBranch.returned
  | .conditional _ _ thenBranch (some elseBranch) => thenBranch.returned ++ elseBranch.returned
  | .whileLoop _ _ body => body.returned
  | .forLoop _ _ _ _ body => body.returned
  | .forEachLoop _ _ _ _ body => body.returned
  | .switchOn _ _ sections none => Section.returnedByAll sections
  | .switchOn _ _ sections (some body) => Section.returnedByAll sections ++ Statement.returnedByAll body
  | .returnStatement _ (some e) => [e]
  | _ => []

def Statement.returnedByAll : List Statement → List Expr
  | [] => []
  | statement :: rest => statement.returned ++ Statement.returnedByAll rest

def Section.returnedByAll : List Section → List Expr
  | [] => []
  | ⟨_, body⟩ :: rest => Statement.returnedByAll body ++ Section.returnedByAll rest

end

namespace Machine

/-- A state without the frames of the functions at work. -/
def frameless (m : Machine) : Machine :=
  { m with frames := [] }

theorem frameless_popScope (m : Machine) : m.popScope.frameless = m.frameless := by
  unfold popScope
  split <;> rfl

end Machine

/-- The last thing that was done before a state was reached is the evaluation of an expression, which gave a value. -/
def Expr.JustGave (s : Setting) (invoke : Invoke) (e : Expr) (v : Value) (m : Machine) : Prop :=
  ∃ before after, e.evaluate s invoke before = .ok v after ∧ after.frameless = m.frameless

/-- The ways in which control may leave statements that are checked against their place: only what is around the place
can be left, and a value that is returned is that of an expression whose type can be returned. -/
def Flow.Allowed (s : Setting) (invoke : Invoke) (k : Checking) (returned : List Expr) (m : Machine) : Flow → Prop
  | .normal => True
  | .broken => k.breakables ≠ []
  | .continued => .loop ∈ k.breakables
  | .returned none => k.returns = .void
  | .returned (some v) => k.returns ≠ .void ∧
      ∃ e ∈ returned, k.classes.accepts k.returns e.ty = true ∧ e.JustGave s invoke v m

namespace Flow.Allowed

variable {s : Setting} {invoke : Invoke} {k : Checking} {returned more : List Expr} {m : Machine} {flow : Flow}

theorem mono (h : flow.Allowed s invoke k returned m) (hsub : returned ⊆ more) : flow.Allowed s invoke k more m := by
  cases flow with
  | returned value =>
    cases value with
    | none => exact h
    | some v =>
      obtain ⟨hreturns, e, he, hgave⟩ := h
      exact ⟨hreturns, e, hsub he, hgave⟩
  | _ => exact h

theorem popScope (h : flow.Allowed s invoke k returned m) : flow.Allowed s invoke k returned m.popScope := by
  cases flow with
  | returned value =>
    cases value with
    | none => exact h
    | some v =>
      obtain ⟨hreturns, e, he, haccepts, before, after, hgave, hafter⟩ := h
      exact ⟨hreturns, e, he, haccepts, before, after, hgave, by rw [hafter, m.frameless_popScope]⟩
  | _ => exact h

theorem returned_outside {b : Breakable} {value : Option Value}
    (h : (Flow.returned value).Allowed s invoke (k.inside b) returned m) :
    (Flow.returned value).Allowed s invoke k returned m := by
  cases value <;> exact h

end Flow.Allowed

/-- Whether a run, if it succeeds, has a property of what it gives and of the state that it leaves. -/
def Run.Leaves {α : Type} (x : Run α) (P : α → Machine → Prop) : Prop :=
  ∀ m a m', x m = .ok a m' → P a m'

namespace Run.Leaves

variable {α β : Type}

theorem pure {a : α} {P : α → Machine → Prop} (h : ∀ m, P a m) : Run.Leaves (Pure.pure a) P := by
  rintro m _ _ ⟨⟩
  exact h m

theorem bind {x : Run α} {f : α → Run β} {P : β → Machine → Prop} (h : ∀ a, (f a).Leaves P) : (x >>= f).Leaves P := by
  intro m b m' hok
  obtain ⟨a, m₁, -, hf⟩ := ok_of_bind hok
  exact h a m₁ b m' hf

theorem bind_of {x : Run α} {f : α → Run β} {P : α → Machine → Prop} {Q : β → Machine → Prop} (hx : x.Leaves P)
    (hf : ∀ a m, P a m → ∀ b m', f a m = .ok b m' → Q b m') : (x >>= f).Leaves Q := by
  intro m b m' hok
  obtain ⟨a, m₁, hx', hf'⟩ := ok_of_bind hok
  exact hf a m₁ (hx m a m₁ hx') b m' hf'

end Run.Leaves

section Loops

variable {s : Setting} {invoke : Invoke} {k : Checking} {returned : List Expr}

theorem Run.inScope_leaves {x : Run Flow} (h : x.Leaves fun flow m => flow.Allowed s invoke k returned m) :
    (Run.inScope x).Leaves fun flow m => flow.Allowed s invoke k returned m := by
  intro m flow m' hok
  unfold Run.inScope Run.bracket at hok
  split at hok
  · next hx =>
    cases hok
    exact (h _ _ _ hx).popScope
  · cases hok

/-- A loop takes each `break` and each `continue` of its body. -/
theorem Run.repeatWhile_leaves {condition : Run Bool} {check after : Run Unit} {body : Run Flow}
    (hbody : body.Leaves fun flow m => flow.Allowed s invoke (k.inside .loop) returned m) (rounds : Nat) :
    (Run.repeatWhile condition check body after rounds).Leaves fun flow m => flow.Allowed s invoke k returned m := by
  induction rounds with
  | zero => rintro m flow m' ⟨⟩
  | succ rounds ih =>
    refine .bind fun holds => ?_
    split
    · refine .bind fun _ => .bind_of hbody fun flow m hflow => ?_
      have hagain : (do after; Run.repeatWhile condition check body after rounds : Run Flow).Leaves
          fun flow m => flow.Allowed s invoke k returned m := .bind fun _ => ih
      cases flow with
      | broken =>
        rintro _ _ ⟨⟩
        trivial
      | returned value =>
        rintro _ _ ⟨⟩
        exact hflow.returned_outside
      | normal => exact hagain m
      | continued => exact hagain m
    · exact .pure fun _ => trivial

theorem Run.forEach_leaves {check : Run Unit} {body : Value → Run Flow}
    (hbody : ∀ v, (body v).Leaves fun flow m => flow.Allowed s invoke (k.inside .loop) returned m)
    (items : List Value) : (Run.forEach check body items).Leaves fun flow m => flow.Allowed s invoke k returned m := by
  induction items with
  | nil => exact .pure fun _ => trivial
  | cons v rest ih =>
    refine .bind fun _ => .bind_of (hbody v) fun flow m hflow => ?_
    cases flow with
    | broken =>
      rintro _ _ ⟨⟩
      trivial
    | returned value =>
      rintro _ _ ⟨⟩
      exact hflow.returned_outside
    | normal => exact ih m
    | continued => exact ih m

/-- How control leaves a switch from one of its sections. -/
def Flow.behindSwitch : Flow → Flow
  | .broken => .normal
  | flow => flow

theorem Flow.Allowed.behindSwitch {flow : Flow} {m : Machine}
    (h : flow.Allowed s invoke (k.inside .switch) returned m) : flow.behindSwitch.Allowed s invoke k returned m := by
  cases flow with
  | normal => trivial
  | broken => trivial
  | continued =>
    have hloop : Breakable.loop ∈ Breakable.switch :: k.breakables := h
    exact (List.mem_cons.mp hloop).resolve_left (by decide)
  | returned value => exact h.returned_outside

end Loops

section Statements

variable {s : Setting} {invoke : Invoke} {rounds : Nat}

mutual

/-- Control leaves a checked statement only in ways that its place allows. -/
theorem Statement.execute_leaves : ∀ (statement : Statement) (k : Checking) (visible : Lexical),
    statement.Checked k visible → (statement.execute s invoke rounds).Leaves
      fun flow m => flow.Allowed s invoke k statement.returned m
  | .expression _ e, k, visible, _ => by
    rw [Statement.execute]
    exact .bind fun _ => .pure fun _ => trivial
  | .declaration _ name ty initial, k, visible, _ => by
    rw [Statement.execute]
    exact .bind fun _ => .bind fun _ => .pure fun _ => trivial
  | .block _ body, k, visible, h => by
    rw [Statement.Checked] at h
    rw [Statement.execute, Statement.returned]
    exact Run.inScope_leaves (Statement.executeAll_leaves body k visible h)
  | .conditional _ condition thenBranch none, k, visible, h => by
    rw [Statement.Checked] at h
    rw [Statement.execute, Statement.returned]
    refine .bind fun holds => ?_
    split
    · exact Statement.execute_leaves thenBranch k visible h.2
    · exact .pure fun _ => trivial
  | .conditional _ condition thenBranch (some elseBranch), k, visible, h => by
    rw [Statement.Checked] at h
    rw [Statement.execute, Statement.returned]
    refine .bind fun holds => ?_
    split
    · exact fun m flow m' hok => (Statement.execute_leaves thenBranch k visible h.2.1 m flow m' hok).mono
        (List.subset_append_left _ _)
    · exact fun m flow m' hok => (Statement.execute_leaves elseBranch k visible h.2.2 m flow m' hok).mono
        (List.subset_append_right _ _)
  | .whileLoop _ condition body, k, visible, h => by
    rw [Statement.Checked] at h
    rw [Statement.execute, Statement.returned]
    exact Run.repeatWhile_leaves (Statement.execute_leaves body (k.inside .loop) visible h.2) rounds
  | .forLoop _ initial condition increments body, k, visible, h => by
    rw [Statement.Checked] at h
    rw [Statement.execute, Statement.returned]
    obtain ⟨-, -, -, -, hbody⟩ := h
    have hloop := Statement.execute_leaves body (k.inside .loop) _ hbody
    exact Run.inScope_leaves (.bind fun _ => Run.repeatWhile_leaves hloop rounds)
  | .forEachLoop _ name ty collection body, k, visible, h => by
    rw [Statement.Checked] at h
    rw [Statement.execute, Statement.returned]
    obtain ⟨-, -, -, hbody⟩ := h
    have hloop := Statement.execute_leaves body (k.inside .loop) _ hbody
    exact .bind fun _ => .bind fun _ => .bind fun items =>
      Run.forEach_leaves (fun v => Run.inScope_leaves (.bind fun _ => hloop)) items
  | .switchOn _ value sections none, k, visible, h => by
    rw [Statement.Checked] at h
    rw [Statement.execute, Statement.returned]
    have hsections := Section.executeMatching_leaves sections (k.inside .switch) visible h.2
    refine .bind fun v => .bind_of (hsections v) fun found m hfound left m' hleft => ?_
    cases found with
    | some flow =>
      have hflow := (hfound flow rfl).behindSwitch
      cases flow <;> cases hleft <;> exact hflow
    | none =>
      cases hleft
      trivial
  | .switchOn _ value sections (some body), k, visible, h => by
    rw [Statement.Checked] at h
    rw [Statement.execute, Statement.returned]
    have hsections := Section.executeMatching_leaves sections (k.inside .switch) visible h.2.1
    have hbody := Statement.executeAll_leaves body (k.inside .switch) visible h.2.2
    refine .bind fun v => .bind_of (hsections v) fun found m hfound left m' hleft => ?_
    cases found with
    | some flow =>
      have hflow := ((hfound flow rfl).mono (List.subset_append_left _ (Statement.returnedByAll body))).behindSwitch
      cases flow <;> cases hleft <;> exact hflow
    | none =>
      obtain ⟨flow, m₁, hrun, hleft⟩ := ok_of_bind hleft
      have hotherwise := Run.inScope_leaves hbody m flow m₁ hrun
      have hflow := (hotherwise.mono (List.subset_append_right (Section.returnedByAll sections) _)).behindSwitch
      cases flow <;> cases hleft <;> exact hflow
  | .breakStatement _, k, visible, h => by
    rw [Statement.Checked] at h
    rw [Statement.execute]
    exact .pure fun _ => h
  | .continueStatement _, k, visible, h => by
    rw [Statement.Checked] at h
    rw [Statement.execute]
    exact .pure fun _ => h
  | .returnStatement _ none, k, visible, h => by
    rw [Statement.Checked] at h
    rw [Statement.execute]
    rintro m flow m' ⟨⟩
    exact h
  | .returnStatement _ (some e), k, visible, h => by
    rw [Statement.Checked] at h
    rw [Statement.execute, Statement.returned]
    intro m flow m' hok
    obtain ⟨value, m₁, hvalue, ⟨⟩⟩ := ok_of_bind hok
    obtain ⟨v, m₂, hv, ⟨⟩⟩ := ok_of_bind hvalue
    exact ⟨h.1, e, List.mem_singleton.mpr rfl, h.2.2, m, _, hv, rfl⟩

theorem Statement.executeAll_leaves : ∀ (body : List Statement) (k : Checking) (visible : Lexical),
    Statement.AllChecked k visible body → (Statement.executeAll s invoke rounds body).Leaves
      fun flow m => flow.Allowed s invoke k (Statement.returnedByAll body) m
  | [], k, visible, _ => by
    rw [Statement.executeAll]
    exact .pure fun _ => trivial
  | statement :: rest, k, visible, h => by
    rw [Statement.AllChecked] at h
    rw [Statement.executeAll, Statement.returnedByAll]
    have hrest := Statement.executeAll_leaves rest k _ h.2
    refine .bind_of (Statement.execute_leaves statement k visible h.1) fun flow m hflow left m' hleft => ?_
    cases flow with
    | normal => exact (hrest m left m' hleft).mono (List.subset_append_right _ _)
    | broken =>
      cases hleft
      exact hflow
    | continued =>
      cases hleft
      exact hflow
    | returned value =>
      cases hleft
      exact hflow.mono (List.subset_append_left _ _)

theorem Section.executeMatching_leaves : ∀ (sections : List Section) (k : Checking) (visible : Lexical),
    Section.AllChecked k visible sections → ∀ v, (Section.executeMatching s invoke rounds v sections).Leaves
      fun found m => ∀ flow ∈ found, flow.Allowed s invoke k (Section.returnedByAll sections) m
  | [], k, visible, _, v => by
    rw [Section.executeMatching]
    exact .pure fun _ _ hflow => by cases hflow
  | ⟨labels, body⟩ :: rest, k, visible, h, v => by
    rw [Section.AllChecked] at h
    rw [Section.executeMatching, Section.returnedByAll]
    have hbody := Statement.executeAll_leaves body k visible h.1
    split
    · refine .bind_of (Run.inScope_leaves hbody) fun flow m hflow => ?_
      rintro _ _ ⟨⟩ _ ⟨⟩
      exact hflow.mono (List.subset_append_left _ _)
    · exact fun m found m' hok flow hflow => (Section.executeMatching_leaves rest k visible h.2 v m found m' hok flow
        hflow).mono (List.subset_append_right _ _)

end

end Statements

/-- A function is entered and its parameters are bound; its body comes next. -/
def Function.arrive (s : Setting) (f : Function) (arguments : List Value) (p : Position) : Run Unit := do
  if arguments.length = f.signature.parameters.length then
    Run.enterCall p
    modify Machine.pushFrame
    bindParameters s f.signature.name p 0 f.signature.parameters arguments
  else Run.fail (.argumentCount f.signature.name f.signature.parameters.length arguments.length) p

section Calls

variable {s : Setting} {f : Function} {arguments : List Value} {p : Position} {m m' : Machine}
  {execute : List Statement → Run Flow} {i : Interruption} {m₁ : Machine}

theorem Function.call_of_arrive_error (h : f.arrive s arguments p m = .error i m') :
    ∃ m'', f.call s execute arguments p m = .error i m'' := by
  unfold Function.arrive at h
  unfold Function.call
  by_cases hlength : arguments.length = f.signature.parameters.length
  · rw [if_pos hlength] at h ⊢
    cases henter : Run.enterCall p m with
    | error j m₁ =>
      rw [Run.bind_error henter] at h ⊢
      cases h
      exact ⟨_, rfl⟩
    | ok _ m₁ =>
      rw [Run.bind_ok henter] at h ⊢
      have hbind : bindParameters s f.signature.name p 0 f.signature.parameters arguments m₁.pushFrame = .error i m' := h
      refine ⟨m'.popFrame, ?_⟩
      unfold Run.inFrame Run.bracket
      rw [Run.bind_error hbind]
  · rw [if_neg hlength] at h ⊢
    cases h
    exact ⟨_, rfl⟩

theorem Function.call_of_arrive_ok (h : f.arrive s arguments p m = .ok () m') :
    f.call s execute arguments p m = Run.bracket id Machine.popFrame (do f.result (← execute f.body)) m' := by
  unfold Function.arrive at h
  unfold Function.call
  by_cases hlength : arguments.length = f.signature.parameters.length
  · rw [if_pos hlength] at h ⊢
    obtain ⟨_, m₁, henter, h⟩ := ok_of_bind h
    have hbind : bindParameters s f.signature.name p 0 f.signature.parameters arguments m₁.pushFrame = .ok () m' := h
    rw [Run.bind_ok henter]
    unfold Run.inFrame Run.bracket
    rw [Run.bind_ok hbind]
    rfl
  · rw [if_neg hlength] at h
    cases h

/-- Whether a run was interrupted because a function did not return a value. -/
def Interruption.IsMissingReturn (i : Interruption) : Prop :=
  ∃ name q, i = .fault ⟨.missingReturn name, q⟩

theorem bindParameters_not_missingReturn {name : String} : ∀ {parameters : List Parameter}
    {arguments : List Value} {index : Nat} {m m' : Machine},
    bindParameters s name p index parameters arguments m = .error i m' → ¬i.IsMissingReturn
  | [], _, _, _, _, h => by cases h
  | _ :: _, [], _, _, _, h => by cases h
  | parameter :: parameters, v :: arguments, index, m, m', h => by
    rw [bindParameters] at h
    split at h
    · exact bindParameters_not_missingReturn (m := m.declare parameter.name _) h
    · cases h
      rintro ⟨_, _, ⟨⟩⟩

theorem Run.enterCall_not_missingReturn (h : Run.enterCall p m = .error i m') : ¬i.IsMissingReturn := by
  rw [Run.enterCall_eq] at h
  split at h
  · cases h
    rintro ⟨_, _, ⟨⟩⟩
  · rw [Run.checkpoint_eq] at h
    cases hm : (m.check .functionEntry).1 with
    | none => simp [hm] at h
    | some fault =>
      simp only [hm, EStateM.Result.error.injEq] at h
      rw [← h.1]
      rcases Monitor.fault_of_check hm with ⟨limit, rfl⟩ | rfl <;> rintro ⟨_, _, ⟨⟩⟩

theorem Function.arrive_not_missingReturn (h : f.arrive s arguments p m = .error i m') : ¬i.IsMissingReturn := by
  unfold Function.arrive at h
  split at h
  · cases henter : Run.enterCall p m with
    | error j m₁ =>
      rw [Run.bind_error henter] at h
      cases h
      exact Run.enterCall_not_missingReturn henter
    | ok _ m₁ =>
      rw [Run.bind_ok henter] at h
      exact bindParameters_not_missingReturn (m := m₁.pushFrame) h
  · cases h
    rintro ⟨_, _, ⟨⟩⟩

theorem Function.call_of_body_error (h : f.arrive s arguments p m = .ok () m₁)
    (hbody : execute f.body m₁ = .error i m') : f.call s execute arguments p m = .error i m'.popFrame := by
  rw [Function.call_of_arrive_ok h]
  unfold Run.bracket
  rw [id, Run.bind_error hbody]

theorem Function.call_of_body_normal (h : f.arrive s arguments p m = .ok () m₁)
    (hbody : execute f.body m₁ = .ok .normal m') (hreturns : f.signature.returns ≠ .void) :
    f.call s execute arguments p m = .error (.fault ⟨.missingReturn f.signature.name, f.position⟩) m'.popFrame := by
  rw [Function.call_of_arrive_ok h]
  unfold Run.bracket
  rw [id, Run.bind_ok hbody]
  simp only [Function.result, if_neg hreturns]
  rfl

theorem Function.call_of_body_ok {flow : Flow} (h : f.arrive s arguments p m = .ok () m₁)
    (hbody : execute f.body m₁ = .ok flow m') (hflow : f.signature.returns = .void ∨ ∃ v, flow = .returned (some v)) :
    ∃ v, f.call s execute arguments p m = .ok v m'.popFrame := by
  rw [Function.call_of_arrive_ok h]
  unfold Run.bracket
  rw [id, Run.bind_ok hbody]
  rcases hflow with hvoid | ⟨v, rfl⟩
  · cases flow with
    | returned value => cases value <;> simp only [Function.result, if_pos hvoid] <;> exact ⟨_, rfl⟩
    | _ =>
      simp only [Function.result, if_pos hvoid]
      exact ⟨_, rfl⟩
  · exact ⟨_, rfl⟩

theorem Setting.invoke_succ {rounds depth index : Nat} (h : s.functions[index]? = some f) :
    s.invoke rounds (depth + 1) index arguments p =
      f.call s (Statement.executeAll s (s.invoke rounds depth) rounds) arguments p := by
  simp only [Setting.invoke, h]

end Calls

/-- The body of a function of a checked program is left only by its end or by a return that suits the function. -/
theorem flow_of_body {r : Registry} {program : Program} (h : program.Checked r) {index : Nat} {f : Function}
    (hf : program.functions[index]? = some f) {s : Setting} {invoke : Invoke} {rounds : Nat} {m m' : Machine}
    {flow : Flow} (hok : Statement.executeAll s invoke rounds f.body m = .ok flow m') :
    flow = .normal ∨ (f.signature.returns = .void ∧ flow = .returned none) ∨
      (f.signature.returns ≠ .void ∧ ∃ v, flow = .returned (some v) ∧ ∃ e ∈ Statement.returnedByAll f.body,
        r.classes.accepts f.signature.returns e.ty = true ∧ e.JustGave s invoke v m') := by
  have hallowed := Statement.executeAll_leaves f.body _ _ (h.functions index f hf) m flow m' hok
  cases flow with
  | normal => exact .inl rfl
  | broken => exact absurd rfl hallowed
  | continued => cases (hallowed : Breakable.loop ∈ ([] : List Breakable))
  | returned value =>
    cases value with
    | none => exact .inr (.inl ⟨hallowed, rfl⟩)
    | some v =>
      obtain ⟨hreturns, e, he, haccepts, hgave⟩ := hallowed
      exact .inr (.inr ⟨hreturns, v, rfl, e, he, haccepts, hgave⟩)

/-- Control never leaves the body of a function by a `break` or a `continue`. It leaves by its end, by a return without
a value if the function has none to return, and otherwise by a return with the value of an expression whose type can be
returned. A call that does not reach the body, or whose body fails, fails in the same way; for the others the function
misses its return exactly if it has a value to return and its body ends in the usual way. Which classes there are where
the script runs makes no difference. -/
theorem control_flow_contained {r : Registry} {source : String} {script : Script}
    (h : Script.compile r source = .ok script) {index : Nat} {f : Function}
    (hf : script.program.functions[index]? = some f) {s : Setting} (hs : s.functions = script.program.functions)
    (rounds : Nat) :
    (∀ invoke m flow m', Statement.executeAll s invoke rounds f.body m = .ok flow m' →
      flow = .normal ∨ (f.signature.returns = .void ∧ flow = .returned none) ∨
        (f.signature.returns ≠ .void ∧ ∃ v, flow = .returned (some v) ∧ ∃ e ∈ Statement.returnedByAll f.body,
          r.classes.accepts f.signature.returns e.ty = true ∧ e.JustGave s invoke v m')) ∧
    ∀ depth arguments p m,
      (∀ i m', f.arrive s arguments p m = .error i m' → ¬i.IsMissingReturn ∧
        ∃ m'', s.invoke rounds (depth + 1) index arguments p m = .error i m'') ∧
      ∀ m₁, f.arrive s arguments p m = .ok () m₁ →
        (∀ i m', Statement.executeAll s (s.invoke rounds depth) rounds f.body m₁ = .error i m' →
          s.invoke rounds (depth + 1) index arguments p m = .error i m'.popFrame) ∧
        ∀ flow m', Statement.executeAll s (s.invoke rounds depth) rounds f.body m₁ = .ok flow m' →
          (f.signature.returns ≠ .void ∧ flow = .normal → s.invoke rounds (depth + 1) index arguments p m =
            .error (.fault ⟨.missingReturn f.signature.name, f.position⟩) m'.popFrame) ∧
          (¬(f.signature.returns ≠ .void ∧ flow = .normal) →
            ∃ v, s.invoke rounds (depth + 1) index arguments p m = .ok v m'.popFrame) := by
  obtain ⟨-, hchecked⟩ := Script.checked_of_compile h
  have hcall : ∀ depth arguments p, s.invoke rounds (depth + 1) index arguments p =
      f.call s (Statement.executeAll s (s.invoke rounds depth) rounds) arguments p :=
    fun depth arguments p => Setting.invoke_succ (hs ▸ hf)
  refine ⟨fun invoke m flow m' hok => flow_of_body hchecked hf hok, fun depth arguments p m =>
    ⟨fun i m' harrive => ?_, fun m₁ harrive => ⟨fun i m' hrun => ?_,
      fun flow m' hrun => ⟨fun hmissing => ?_, fun hmissing => ?_⟩⟩⟩⟩
  · rw [hcall]
    exact ⟨Function.arrive_not_missingReturn harrive, Function.call_of_arrive_error harrive⟩
  · rw [hcall]
    exact Function.call_of_body_error harrive hrun
  · rw [hcall]
    exact Function.call_of_body_normal harrive (hmissing.2 ▸ hrun) hmissing.1
  · rw [hcall]
    refine Function.call_of_body_ok harrive hrun ?_
    rcases flow_of_body hchecked hf hrun with hnormal | ⟨hvoid, -⟩ | ⟨-, v, hv, -⟩
    · exact .inl (Decidable.not_not.mp fun hreturns => hmissing ⟨hreturns, hnormal⟩)
    · exact .inl hvoid
    · exact .inr ⟨v, hv⟩

/-- A function whose loop is continued and whose switch is broken from inside of one another; it returns from both, but
not if the loop ends. -/
def Script.winding : String :=
  "int f(int n)\x7bwhile(n<3)\x7bn++;switch(n)\x7bcase 1:continue;case 2:break;default:return n;\x7d\x7d\x7d"

/-- Whether the body of the first function of a script is reached with some arguments and ends in the usual way. -/
def Script.endsNormally (script : Script) (arguments : List Value) : Bool :=
  match script.program.functions[0]? with
  | none => false
  | some f =>
    match f.arrive script.setting arguments .start (.fresh ⟨none, none, 5⟩) with
    | .error _ _ => false
    | .ok _ m =>
      match Statement.executeAll script.setting (script.setting.invoke 10 4) 10 f.body m with
      | .ok .normal _ => f.signature.returns ≠ .void
      | _ => false

theorem control_flow_contained_winding : ∃ script f, Script.compile .standard Script.winding = .ok script ∧
    script.program.functions[0]? = some f ∧
    (∀ invoke m m', Statement.executeAll script.setting invoke 10 f.body m ≠ .ok .continued m') ∧
    ∃ m, script.setting.invoke 10 5 0 [.int 7] .start (.fresh ⟨none, none, 5⟩) =
      .error (.fault ⟨.missingReturn f.signature.name, f.position⟩) m := by
  have hrun : (Script.compile .standard Script.winding).toOption.any (·.endsNormally [.int 7]) = true := by
    decide +kernel
  obtain ⟨script, hs, hrun⟩ := exists_ok_of_any hrun
  unfold Script.endsNormally at hrun
  split at hrun
  · cases hrun
  · next f hf =>
    split at hrun
    · cases hrun
    · next m₁ harrive =>
      split at hrun
      · next m₂ hbody =>
        obtain ⟨hflow, hcall⟩ := control_flow_contained hs hf (s := script.setting) rfl 10
        obtain ⟨hmissing, -⟩ := ((hcall 4 _ _ _).2 m₁ harrive).2 .normal m₂ hbody
        refine ⟨script, f, hs, hf, fun invoke m m' hok => ?_, _, hmissing ⟨of_decide_eq_true hrun, rfl⟩⟩
        rcases hflow invoke m _ m' hok with ⟨⟨⟩⟩ | ⟨-, ⟨⟩⟩ | ⟨-, _, ⟨⟩, -⟩
      · cases hrun

end Scriptlet
