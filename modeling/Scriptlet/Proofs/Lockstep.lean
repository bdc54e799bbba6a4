import Scriptlet.Proofs.Concord

/-!
# Runs in lockstep

A recorded run beside a plain one of the same program. The two states are related at every step, and a fault
ends both; only where the first run is cut short by its limits may the second one go on. A relation between
the states has to be kept by the few actions that consult the monitor and the limits; that it is kept by all
expressions, statements and calls follows by one induction for all such relations.
-/

namespace Scriptlet

/-- A way to relate a recorded run with a plain one: the states while both go on, the states after a fault that
both meet, and what is known once only the first one has been stopped. In the second run every loop may take
`rounds` more rounds, and calls may be nested `depth` deeper. -/
structure Lockstep where
  now : Chronicle → Machine → Prop
  ended : Interruption → Chronicle → Machine → Prop
  cut : Interruption → Chronicle → Machine → Prop
  grows : Machine → Machine → Prop
  rounds : Nat
  depth : Nat

namespace Lockstep

/-- How two related computations end. -/
inductive Outcome (L : Lockstep) {α : Type} :
    EStateM.Result Interruption Chronicle α → EStateM.Result Interruption Machine α → Prop
  | ok {a : α} {c : Chronicle} {m : Machine} (h : L.now c m) : Outcome L (.ok a c) (.ok a m)
  | error {e : Interruption} {c : Chronicle} {m : Machine} (h : L.ended e c m) :
      Outcome L (.error e c) (.error e m)
  | cut {e : Interruption} {c : Chronicle} {r : EStateM.Result Interruption Machine α}
      (h : L.cut e c (finalState r)) : Outcome L (.error e c) r

/-- However the computation ends, its state has grown. -/
def Grows (L : Lockstep) {α : Type} (y : Run α) : Prop :=
  ∀ m, L.grows m (finalState (y m))

/-- The second computation follows the first one. -/
structure Follows (L : Lockstep) {α : Type} (x : Recorded α) (y : Run α) : Prop where
  grows : L.Grows y
  outcome : ∀ c m, L.now c m → L.Outcome (x c) (y m)

def Admits (L : Lockstep) (member : Member) : Prop :=
  ∀ p arguments, L.Follows (Recorded.quietly (Run.host p (member.call arguments)))
    (Run.host p (member.call arguments))

def Calls (L : Lockstep) (recorded : RecordedInvoke) (invoke : Invoke) : Prop :=
  ∀ index arguments p, L.Follows (recorded index arguments p) (invoke index arguments p)

/-- What a relation has to fulfil so that whole runs follow each other: it is kept by actions that have nothing
to do with limits, and by those that do. -/
structure Lawful (L : Lockstep) : Prop where
  grows_refl : ∀ m, L.grows m m
  grows_trans : ∀ {m m' m''}, L.grows m m' → L.grows m' m'' → L.grows m m''
  grows_inner : ∀ {f m}, Machine.Inner f → L.grows m (f m)
  cut_grows : ∀ {e c m m'}, L.cut e c m → L.grows m m' → L.cut e c m'
  now_inner : ∀ {f c m}, Machine.Inner f → L.now c m → L.now { c with machine := f c.machine } (f m)
  ended_inner : ∀ {f e c m}, Machine.Inner f → L.ended e c m → L.ended e { c with machine := f c.machine } (f m)
  cut_inner : ∀ {f e c m}, Machine.Inner f → L.cut e c m → L.cut e { c with machine := f c.machine } (f m)
  now_note : ∀ {c m h}, (∀ e, h ≠ .passed e) → L.now c m →
    L.now { c with moments := ⟨c.machine, h⟩ :: c.moments } m
  plain : ∀ {α : Type} {x : Run α}, x.Plain Fault.IsLimit → L.Follows (Recorded.quietly x) x
  checkpoint : ∀ e p, L.Follows (Recorded.checkpoint e p) (Run.checkpoint e p)
  enterCall : ∀ p, L.Follows (Recorded.enterCall p) (Run.enterCall p)
  exhausted : ∀ {α : Type} {y : Run α}, L.Grows y →
    (L.rounds = 0 → y = throw .outOfRounds) → L.Follows (throw .outOfRounds) y
  now_eq : ∀ {c m}, L.now c m → m = c.machine.watched m.monitor m.limits
  now_depth : ∀ {c m}, L.now c m → m.limits.maxCallDepth = c.machine.limits.maxCallDepth + L.depth
  deepest : ∀ {α : Type} {y : Run α} {p : Position}, L.Grows y →
    (L.depth = 0 → y = do Run.fail (.callDepthExceeded (← get).limits.maxCallDepth) p) →
    L.Follows (Recorded.quietly (do Run.fail (.callDepthExceeded (← get).limits.maxCallDepth) p)) y

theorem Lawful.quiet {L : Lockstep} (hL : L.Lawful) {α : Type} {x : Run α} (hx : x.Plain Fault.IsAmbient) :
    L.Follows (Recorded.quietly x) x :=
  hL.plain hx.limits

section

variable {L : Lockstep} (hL : L.Lawful) {α β : Type}

include hL

theorem Grows.pure (a : α) : L.Grows (Pure.pure a : Run α) :=
  fun m => hL.grows_refl m

theorem Grows.bind {y : Run α} {g : α → Run β} (hy : L.Grows y) (hg : ∀ a, L.Grows (g a)) :
    L.Grows (y >>= g) := by
  exact fun m => finalState_bind_of _ (hy m) fun a m' _ h => hL.grows_trans h (hg a m')

theorem Grows.repeatWhile {condition : Run Bool} {check after : Run Unit} {body : Run Flow}
    (hcondition : L.Grows condition) (hcheck : L.Grows check) (hbody : L.Grows body) (hafter : L.Grows after)
    (rounds : Nat) : L.Grows (Run.repeatWhile condition check body after rounds) := by
  induction rounds with
  | zero => exact fun m => hL.grows_refl m
  | succ rounds ih =>
    refine bind hL hcondition fun b => ?_
    split
    · refine bind hL hcheck fun _ => bind hL hbody fun flow => ?_
      cases flow with
      | broken => exact pure hL _
      | returned v => exact pure hL _
      | normal => exact bind hL hafter fun _ => ih
      | continued => exact bind hL hafter fun _ => ih
    · exact pure hL _

end

namespace Follows

variable {L : Lockstep} (hL : L.Lawful) {α β : Type}

include hL

theorem pure (a : α) : L.Follows (Pure.pure a) (Pure.pure a) where
  grows m := hL.grows_refl m
  outcome _ _ h := .ok h

theorem bind {x : Recorded α} {y : Run α} {f : α → Recorded β} {g : α → Run β} (hx : L.Follows x y)
    (hf : ∀ a, L.Follows (f a) (g a)) : L.Follows (x >>= f) (y >>= g) where
  grows := Grows.bind hL hx.grows fun a => (hf a).grows
  outcome c m hnow := by
    have h := hx.outcome c m hnow
    change L.Outcome (EStateM.bind x f c) (EStateM.bind y g m)
    unfold EStateM.bind
    generalize x c = r, y m = r' at h
    cases h with
    | @ok a c m h => exact (hf a).outcome c m h
    | error h => exact .error h
    | cut h =>
      refine .cut ?_
      cases r' with
      | ok a m => exact hL.cut_grows h ((hf a).grows m)
      | error e m => exact h

theorem note_bind {h : Happening} (hh : ∀ e, h ≠ .passed e) {f : Unit → Recorded α} {y : Run α}
    (hf : L.Follows (f ()) y) : L.Follows (Recorded.note h >>= f) y where
  grows := hf.grows
  outcome _ m hnow := hf.outcome _ m (hL.now_note hh hnow)

theorem giving {e : Expr} {x : Recorded Value} {y : Run Value} (hx : L.Follows x y) :
    L.Follows (Recorded.giving e x) y := by
  have h : L.Follows (Recorded.giving e x) (y >>= fun v => Pure.pure v) :=
    bind hL hx fun v => note_bind hL (by simp) (pure hL v)
  rwa [bind_pure] at h

theorem bracket {before after : Machine → Machine} (hb : Machine.Inner before) (ha : Machine.Inner after)
    {x : Recorded α} {y : Run α} (hx : L.Follows x y) :
    L.Follows (Recorded.bracket before after x) (Run.bracket before after y) where
  grows m := by
    have h := hx.grows (before m)
    unfold Run.bracket
    cases hy : y (before m) with
    | ok a m' =>
      rw [hy] at h
      exact hL.grows_trans (hL.grows_inner hb) (hL.grows_trans h (hL.grows_inner ha))
    | error e m' =>
      rw [hy] at h
      exact hL.grows_trans (hL.grows_inner hb) (hL.grows_trans h (hL.grows_inner ha))
  outcome c m hnow := by
    have h := hx.outcome _ _ (hL.now_inner hb hnow)
    unfold Recorded.bracket Run.bracket
    generalize x { c with machine := before c.machine } = r, y (before m) = r' at h
    cases h with
    | ok h => exact .ok (hL.now_inner ha h)
    | error h => exact .error (hL.ended_inner ha h)
    | cut h =>
      refine .cut ?_
      cases r' with
      | ok a m => exact hL.cut_inner ha h
      | error e m => exact hL.cut_inner ha h

theorem inScope {x : Recorded α} {y : Run α} (hx : L.Follows x y) :
    L.Follows (Recorded.inScope x) (Run.inScope y) :=
  bracket hL .pushScope .popScope hx

theorem inFrame {x : Recorded α} {y : Run α} (hx : L.Follows x y) :
    L.Follows (Recorded.inFrame x) (Run.inFrame y) :=
  bracket hL .pushFrame .popFrame hx

theorem access_bind (visible : Lexical) (slot : Slot) {f : Unit → Recorded α} {y : Run α}
    (hf : L.Follows (f ()) y) : L.Follows (Recorded.access visible slot >>= f) y := by
  cases slot with
  | «variable» ref => exact note_bind hL (by simp) hf
  | item => exact ⟨hf.grows, hf.outcome⟩
  | entry => exact ⟨hf.grows, hf.outcome⟩

theorem read (visible : Lexical) (p : Position) (slot : Slot) :
    L.Follows (Recorded.read visible p slot) (slot.read p) :=
  access_bind hL visible slot (hL.plain (.slot_read p slot))

theorem write (visible : Lexical) (classes : Hierarchy) (p : Position) (slot : Slot) (v : Value) :
    L.Follows (Recorded.write visible classes p slot v) (slot.write classes p v) :=
  access_bind hL visible slot (hL.plain (.slot_write classes p slot v))

theorem declare (name : String) (origin : Origin) (ty : Ty) (v : Value) :
    L.Follows (Recorded.declare name origin ty v) (Run.declare name ty v) :=
  note_bind hL (by simp) (hL.quiet (.declare name ty v))

theorem repeatWhile {condition : Recorded Bool} {condition' : Run Bool} {check after : Recorded Unit}
    {check' after' : Run Unit} {body : Recorded Flow} {body' : Run Flow}
    (hcondition : L.Follows condition condition') (hcheck : L.Follows check check')
    (hbody : L.Follows body body') (hafter : L.Follows after after') (rounds : Nat) :
    L.Follows (Recorded.repeatWhile condition check body after rounds)
      (Run.repeatWhile condition' check' body' after' (rounds + L.rounds)) := by
  induction rounds with
  | zero =>
    refine hL.exhausted (Grows.repeatWhile hL hcondition.grows hcheck.grows hbody.grows hafter.grows _) fun h => ?_
    rw [h]
    rfl
  | succ rounds ih =>
    rw [Nat.add_right_comm]
    refine bind hL hcondition fun b => ?_
    split
    · refine bind hL hcheck fun _ => bind hL hbody fun flow => ?_
      cases flow with
      | broken => exact pure hL _
      | returned v => exact pure hL _
      | normal => exact bind hL hafter fun _ => ih
      | continued => exact bind hL hafter fun _ => ih
    · exact pure hL _

end Follows

def Lawful.concord {L : Lockstep} (hL : L.Lawful) (s : Setting) (rounds : Nat) : Concord s where
  inner _ x y := L.Follows x y
  outer x y := L.Follows x y
  seen _ _ := True
  rounds := rounds
  rounds' := rounds + L.rounds
  loops := True
  pure := .pure hL
  bind := .bind hL
  place hx _ _ hf := .bind hL hx fun slot => hf slot fun _ _ => trivial
  map _ hx := .bind hL hx fun _ => .pure hL _
  quietly h := hL.quiet h.plain
  giving := .giving hL
  read visible p slot _ := .read hL visible p slot
  write visible p slot v _ := .write hL visible s.classes p slot v
  weaken := id
  andThen := .bind hL
  repeatWhile e p _ hcondition hbody hafter := .repeatWhile hL hcondition (hL.checkpoint e p) hbody hafter rounds
  checkpoint := hL.checkpoint
  declare := .declare hL
  inScope := .inScope hL

theorem Lawful.concord_permits {L : Lockstep} (hL : L.Lawful) {s : Setting} {rounds : Nat} {e : Expr}
    (h : e.All (Expr.Uses L.Admits)) (visible : Lexical) : e.All ((hL.concord s rounds).Permits visible) :=
  h.mono fun _ he => ⟨he, fun _ _ => trivial⟩

theorem Lawful.follows_call {L : Lockstep} (hL : L.Lawful) {α : Type} {x : Recorded α} {y : Run α} (p : Position)
    (function : Nat) (hx : L.Follows x y) :
    L.Follows (do Recorded.enterCall p; Recorded.inFrame do Recorded.note (.entry function); x)
      (do Run.enterCall p; Run.inFrame y) :=
  .bind hL (hL.enterCall p) fun _ => .inFrame hL (.note_bind hL (by simp) hx)

end Lockstep

section Evaluator

variable {L : Lockstep} (hL : L.Lawful) {s : Setting} {recorded : RecordedInvoke} {invoke : Invoke}

include hL

theorem Expr.record_follows (hi : L.Calls recorded invoke) (visible : Lexical) (e : Expr)
    (h : e.All (Expr.Uses L.Admits)) : L.Follows (e.record s visible recorded) (e.evaluate s invoke) :=
  e.record_related (C := hL.concord s 0) hi visible (hL.concord_permits h visible)

theorem Statement.record_follows (hi : L.Calls recorded invoke) (rounds : Nat) (statement : Statement)
    (visible : Lexical) (h : ∀ e ∈ statement.exprs, e.All (Expr.Uses L.Admits)) :
    L.Follows (statement.record s recorded rounds visible) (statement.execute s invoke (rounds + L.rounds)) :=
  statement.record_related (C := hL.concord s rounds) hi visible
    ⟨fun e he => hL.concord_permits (h e he), fun _ => trivial⟩

theorem Statement.recordAll_follows (hi : L.Calls recorded invoke) (rounds : Nat) (body : List Statement)
    (visible : Lexical) (h : ∀ e ∈ Statement.exprsOfAll body, e.All (Expr.Uses L.Admits)) :
    L.Follows (Statement.recordAll s recorded rounds visible body)
      (Statement.executeAll s invoke (rounds + L.rounds) body) :=
  Statement.recordAll_related (C := hL.concord s rounds) hi body visible
    ⟨fun e he => hL.concord_permits (h e he), fun _ => trivial⟩

end Evaluator

namespace Lockstep

/-- What is left of a relation when nothing is known of the first run. -/
def blindfolded (L : Lockstep) : Lockstep :=
  { L with now := fun _ _ => False, rounds := 0, depth := 0 }

variable {L : Lockstep}

theorem blindfolded_follows {α : Type} {x : Recorded α} {y : Run α} (h : L.Grows y) :
    L.blindfolded.Follows x y :=
  ⟨h, fun _ _ hnow => hnow.elim⟩

theorem Lawful.blindfolded (hL : L.Lawful) : L.blindfolded.Lawful where
  grows_refl := hL.grows_refl
  grows_trans := hL.grows_trans
  grows_inner := hL.grows_inner
  cut_grows := hL.cut_grows
  now_inner _ hnow := hnow.elim
  ended_inner := hL.ended_inner
  cut_inner := hL.cut_inner
  now_note _ hnow := hnow.elim
  plain hx := blindfolded_follows (hL.plain hx).grows
  checkpoint e p := blindfolded_follows (hL.checkpoint e p).grows
  enterCall p := blindfolded_follows (hL.enterCall p).grows
  exhausted hy _ := blindfolded_follows hy
  now_eq hnow := hnow.elim
  now_depth hnow := hnow.elim
  deepest hy _ := blindfolded_follows hy

theorem Admits.blindfolded {member : Member} (h : L.Admits member) : L.blindfolded.Admits member :=
  fun p arguments => blindfolded_follows (h p arguments).grows

end Lockstep

theorem Declaration.prepare_eq (s : Setting) (rounds : Nat) (d : Declaration) (m : Machine) :
    d.prepare s rounds m = d.prepareGiven s rounds ((m.globals.lookup d.name).map (·.ty)) m := rfl

/-- Programs of which every member that is called is admitted. -/
def Setting.Admitted (L : Lockstep) (s : Setting) : Prop :=
  ∀ f ∈ s.functions, ∀ e ∈ f.exprs, e.All (Expr.Uses L.Admits)

section Calls

open Lockstep Lockstep.Follows

variable {L : Lockstep} (hL : L.Lawful) {s : Setting}

include hL

/-- The depth to which calls may be nested is read off two related states. -/
theorem Lockstep.Follows.with_depth {α : Type} {x : Nat → Recorded α} {y : Nat → Run α}
    (hx : ∀ depth, L.Follows (x depth) (y (depth + L.depth))) (hy : ∀ depth, L.Grows (y depth)) :
    L.Follows (do x ((← get).machine.limits.maxCallDepth + 1)) (do y ((← get).limits.maxCallDepth + 1)) where
  grows m := hy _ m
  outcome c m hnow := by
    have h := (hx (c.machine.limits.maxCallDepth + 1)).outcome c m hnow
    rw [Nat.add_right_comm, ← hL.now_depth hnow] at h
    exact h

variable (hs : s.Admitted L)

include hs

theorem Setting.invoke_grows (rounds depth index : Nat) (arguments : List Value)
    (p : Position) : L.Grows (s.invoke rounds depth index arguments p) := by
  induction depth generalizing index arguments p with
  | zero => exact fun m => hL.grows_refl m
  | succ depth ih =>
    cases hf : s.functions[index]? with
    | none =>
      simp only [Setting.invoke, hf]
      exact fun m => hL.grows_refl m
    | some f =>
      simp only [Setting.invoke, hf]
      -- growth is a case of following where the first run does not matter, so nothing has to be shown of it
      have hcalls : L.blindfolded.Calls (fun _ _ _ => Pure.pure .null) (s.invoke rounds depth) :=
        fun index arguments p => blindfolded_follows (ih index arguments p)
      have hbody := Statement.recordAll_follows hL.blindfolded (s := s) hcalls rounds f.body []
        fun e he => (hs f (List.mem_of_getElem? hf) e he).mono (Expr.Uses.mono fun _ => Admits.blindfolded)
      exact (Function.record_related (C := hL.blindfolded.concord s rounds) hL.blindfolded.follows_call 0 f hbody
        arguments p).grows

theorem Setting.recordInvoke_follows (top : Lexical) (rounds depth : Nat) :
    L.Calls (s.recordInvoke top rounds depth) (s.invoke (rounds + L.rounds) (depth + L.depth)) := by
  induction depth with
  | zero =>
    intro index arguments p
    refine hL.deepest (Setting.invoke_grows hL hs _ _ _ _ _) fun h => ?_
    rw [h]
    rfl
  | succ depth ih =>
    intro index arguments p
    rw [Nat.add_right_comm]
    cases hf : s.functions[index]? with
    | none =>
      simp only [Setting.recordInvoke, Setting.invoke, hf]
      exact hL.quiet (.fail id _)
    | some f =>
      simp only [Setting.recordInvoke, Setting.invoke, hf]
      exact Function.record_related (C := hL.concord s rounds) hL.follows_call _ f
        (Statement.recordAll_follows hL ih rounds f.body _ (hs f (List.mem_of_getElem? hf))) arguments p

theorem Setting.recordCall_follows (top : Lexical) (rounds index : Nat) (arguments : List Value) (p : Position) :
    L.Follows (s.recordCall top rounds index arguments p) (s.call (rounds + L.rounds) index arguments p) :=
  with_depth hL (x := fun depth => s.recordInvoke top rounds depth index arguments p)
    (y := fun depth => s.invoke (rounds + L.rounds) depth index arguments p)
    (fun depth => Setting.recordInvoke_follows hL hs top rounds depth index arguments p)
    fun depth => Setting.invoke_grows hL hs _ depth index arguments p

theorem Setting.recordEvaluate_follows (top visible : Lexical) (rounds : Nat) (e : Expr)
    (he : e.All (Expr.Uses L.Admits)) :
    L.Follows (s.recordEvaluate top visible rounds e) (s.evaluate (rounds + L.rounds) e) := by
  refine with_depth hL (x := fun depth => e.record s visible (s.recordInvoke top rounds depth))
    (y := fun depth => e.evaluate s (s.invoke (rounds + L.rounds) depth))
    (fun depth => e.record_follows hL (Setting.recordInvoke_follows hL hs top rounds depth) visible he)
    fun depth => ?_
  have hcalls : L.blindfolded.Calls (fun _ _ _ => Pure.pure .null) (s.invoke (rounds + L.rounds) depth) :=
    fun index arguments p => blindfolded_follows (Setting.invoke_grows hL hs _ depth index arguments p)
  exact (e.record_follows hL.blindfolded (s := s) hcalls []
    (he.mono (Expr.Uses.mono fun _ => Admits.blindfolded))).grows

theorem Setting.recordExecute_follows (top visible : Lexical) (rounds : Nat)
    (statement : Statement) (he : ∀ e ∈ statement.exprs, e.All (Expr.Uses L.Admits)) :
    L.Follows (s.recordExecute top visible rounds statement) (s.execute (rounds + L.rounds) statement) := by
  refine with_depth hL
    (x := fun depth => statement.record s (s.recordInvoke top rounds depth) rounds visible)
    (y := fun depth => statement.execute s (s.invoke (rounds + L.rounds) depth) (rounds + L.rounds))
    (fun depth =>
      statement.record_follows hL (Setting.recordInvoke_follows hL hs top rounds depth) rounds visible he)
    fun depth => ?_
  have hcalls : L.blindfolded.Calls (fun _ _ _ => Pure.pure .null) (s.invoke (rounds + L.rounds) depth) :=
    fun index arguments p => blindfolded_follows (Setting.invoke_grows hL hs _ depth index arguments p)
  exact (statement.record_follows hL.blindfolded (s := s) hcalls (rounds + L.rounds) []
    fun e h => (he e h).mono (Expr.Uses.mono fun _ => Admits.blindfolded)).grows

theorem Declaration.recordInitial_follows (top visible : Lexical) (rounds : Nat)
    (d : Declaration) (hd : ∀ e ∈ d.initial.toList, e.All (Expr.Uses L.Admits)) :
    L.Follows (d.recordInitial s top visible rounds) (d.initialValue s (rounds + L.rounds)) := by
  unfold Declaration.recordInitial Declaration.initialValue
  cases hinitial : d.initial with
  | none => exact pure hL _
  | some e =>
    exact bind hL (Setting.recordEvaluate_follows hL hs top visible rounds e (hd e (by simp [hinitial])))
      fun _ => pure hL _

theorem Declaration.recordGlobal_follows (top visible : Lexical) (rounds : Nat)
    (d : Declaration) (hd : ∀ e ∈ d.initial.toList, e.All (Expr.Uses L.Admits)) :
    L.Follows (d.recordGlobal s top visible rounds) (d.defineGlobal s (rounds + L.rounds)) :=
  bind hL (Declaration.recordInitial_follows hL hs top visible rounds d hd) fun _ => hL.quiet (.define _ _ _ _ _)

theorem Declaration.recordGiven_follows (top visible : Lexical) (rounds : Nat)
    (d : Declaration) (hd : ∀ e ∈ d.initial.toList, e.All (Expr.Uses L.Admits)) (existing : Option Ty) :
    L.Follows (d.recordGiven s top visible rounds existing) (d.prepareGiven s (rounds + L.rounds) existing) := by
  have hglobal := Declaration.recordGlobal_follows hL hs top visible rounds d hd
  unfold Declaration.recordGiven Declaration.prepareGiven
  cases d.storage with
  | member =>
    exact bind hL (Declaration.recordInitial_follows hL hs top visible rounds d hd) fun v =>
      note_bind hL (by simp) (hL.quiet (.modifies ⟨fun _ _ _ => rfl, fun _ => rfl⟩))
  | shared =>
    cases existing with
    | none => exact hglobal
    | some existing =>
      dsimp only
      split
      · exact pure hL _
      · exact hL.quiet (.fail id _)
  | required =>
    cases existing with
    | none =>
      dsimp only
      split
      · exact hL.quiet (.fail id _)
      · exact hglobal
    | some existing =>
      dsimp only
      split
      · exact pure hL _
      · exact hL.quiet (.fail id _)

theorem Declaration.record_follows (top visible : Lexical) (rounds : Nat)
    (d : Declaration) (hd : ∀ e ∈ d.initial.toList, e.All (Expr.Uses L.Admits)) :
    L.Follows (d.record s top visible rounds) (d.prepare s (rounds + L.rounds)) := by
  have hgiven := Declaration.recordGiven_follows hL hs top visible rounds d hd
  refine ⟨fun m => ?_, fun c m hnow => ?_⟩
  · rw [Declaration.prepare_eq]
    exact (hgiven _).grows m
  · -- the globals are the same on both sides, so the two runs take the same branch
    have hglobals : m.globals = c.machine.globals := by rw [hL.now_eq hnow]; rfl
    rw [Declaration.prepare_eq, hglobals]
    exact (hgiven _).outcome c m hnow

theorem Declaration.recordAll_follows (top : Lexical) (rounds : Nat)
    (declarations : List Declaration) (visible : Lexical)
    (hd : ∀ e ∈ declarations.flatMap (·.initial.toList), e.All (Expr.Uses L.Admits)) :
    L.Follows (Declaration.recordAll s top rounds visible declarations)
      (Declaration.prepareAll s (rounds + L.rounds) declarations) := by
  induction declarations generalizing visible with
  | nil => exact pure hL _
  | cons d rest ih =>
    exact bind hL (Declaration.record_follows hL hs top visible rounds d fun e he => hd e (by simp [he]))
      fun _ => ih _ fun e he => hd e (by simp only [List.flatMap_cons, List.mem_append]; exact .inr he)

end Calls

end Scriptlet
