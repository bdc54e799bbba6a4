import Scriptlet.Proofs.FrameDiscipline
import Scriptlet.Proofs.TighterLimits

/-!
# Runs that agree

The evaluator is given a number of rounds that each loop may take and a number of calls that may be open inside one
another. Two evaluators that are given different numbers do exactly the same, and neither is broken off, once the
numbers are only a matter of form: no more calls can be opened than the limits allow, so whatever stands in for the
calls beyond them is never reached; and where a loop can be run at all, there are more rounds than checkpoints left.
What neither number bounds is a text: that of a collection that contains itself has no end.
-/

namespace Scriptlet

/-- The checkpoints that can still be passed under a budget. -/
def Budget.left (b : Budget) : Nat :=
  b.limit.toNat + 1 - (b.used + 1).toNat

theorem Budget.left_le (b : Budget) : b.left ≤ b.limit.toNat + 1 :=
  Nat.sub_le _ _

theorem Budget.left_spend {b : Budget} (hout : b.RunsOut) (hpassed : b.spend.1 = none) : b.spend.2.left < b.left := by
  have hle := b.spend_eq_none_iff.mp hpassed
  unfold Budget.RunsOut at hout
  -- What is passed is within the limit, so the next step does not start the count over.
  have hnext : (b.used + 1 + 1).toNat = (b.used + 1).toNat + 1 := by
    rw [UInt64.toNat_add, UInt64.toNat_one]
    omega
  simp only [Budget.left, Budget.spend, hnext]
  omega

/-- A member that comes to a text without end only where a collection contains itself. -/
def Member.Ends (m : Member) : Prop :=
  ∀ arguments w w', m.call arguments w = .error .endlessText w' → w'.heap.Circular

theorem Member.Orderly.ends {m : Member} (h : m.Orderly) : m.Ends :=
  fun arguments w w' hcall => ((h arguments).faults w _ w' hcall trivial).2

/-- All members that an expression uses do so. -/
def Expr.Ends (e : Expr) : Prop :=
  e.All (Expr.Uses Member.Ends)

namespace Machine

/-- A budget that can run out is kept, and fewer than `n` checkpoints can still be passed. -/
def Spare (n : Nat) (m : Machine) : Prop :=
  ∃ b ∈ m.monitor.budget, b.RunsOut ∧ b.left < n

/-- A property of states besides which fewer than `d` calls can still be opened inside one another. -/
structure Within (J : Machine → Prop) (d : Nat) (m : Machine) : Prop where
  here : J m
  room : m.limits.maxCallDepth - m.frames.length < d

/-- The second state is under the same limits, has as many frames, and no more is left of its budget. -/
structure Spends (m m' : Machine) : Prop where
  limits : m'.limits = m.limits
  count : m'.frames.length = m.frames.length
  left : ∀ b ∈ m.monitor.budget, b.RunsOut → ∃ b' ∈ m'.monitor.budget, b'.RunsOut ∧ b'.left ≤ b.left

namespace Spends

theorem of_eq {m m' : Machine} (hl : m'.limits = m.limits) (hf : m'.frames.length = m.frames.length)
    (hm : m'.monitor = m.monitor) : m.Spends m' :=
  ⟨hl, hf, fun b hb hout => ⟨b, by rwa [hm], hout, Nat.le_refl _⟩⟩

theorem refl (m : Machine) : m.Spends m :=
  of_eq rfl rfl rfl

theorem trans {m m' m'' : Machine} (h : m.Spends m') (h' : m'.Spends m'') : m.Spends m'' := by
  refine ⟨h'.limits.trans h.limits, h'.count.trans h.count, fun b hb hout => ?_⟩
  obtain ⟨b', hb', hout', hle⟩ := h.left b hb hout
  obtain ⟨b'', hb'', hout'', hle'⟩ := h'.left b' hb' hout'
  exact ⟨b'', hb'', hout'', Nat.le_trans hle' hle⟩

theorem pushScope (m : Machine) : m.Spends m.pushScope := by
  cases hf : m.frames <;> exact of_eq (by simp [Machine.pushScope, hf]) (by simp [Machine.pushScope, hf])
    (by simp [Machine.pushScope, hf])

theorem popScope (m : Machine) : m.Spends m.popScope := by
  cases hf : m.frames <;> exact of_eq (by simp [Machine.popScope, hf]) (by simp [Machine.popScope, hf])
    (by simp [Machine.popScope, hf])

end Spends

/-- A property that stays true while a budget is spent. -/
def Lasting (I : Machine → Prop) : Prop :=
  ∀ {m m'}, I m → m.Spends m' → I m'

/-- A property that besides is not lost when a frame is opened. -/
structure Enduring (J : Machine → Prop) : Prop where
  lasting : Lasting J
  pushFrame : ∀ m : Machine, J m → J m.pushFrame

theorem spare_lasting (n : Nat) : Lasting (Spare n) := by
  rintro m m' ⟨b, hb, hout, hlt⟩ h
  obtain ⟨b', hb', hout', hle⟩ := h.left b hb hout
  exact ⟨b', hb', hout', by omega⟩

theorem spare_enduring (n : Nat) : Enduring (Spare n) :=
  ⟨spare_lasting n, fun _ h => h⟩

variable {J : Machine → Prop}

theorem within_lasting (hJ : Lasting J) (d : Nat) : Lasting (Within J d) := by
  intro m m' h hspends
  exact ⟨hJ h.here hspends, by rw [hspends.limits, hspends.count]; exact h.room⟩

/-- A loop with so many rounds has more of them than checkpoints are left, in all states of a kind. -/
def Outlasted (I : Machine → Prop) (rounds : Nat) : Prop :=
  ∀ m, I m → m.Spare rounds

theorem Outlasted.within {rounds : Nat} (h : Outlasted J rounds) (d : Nat) : Outlasted (Within J d) rounds :=
  fun m hm => h m hm.here

/-- At most as many calls can be opened as the limits allow altogether. -/
theorem within_maxCallDepth {m : Machine} (h : J m) : m.Within J (m.limits.maxCallDepth + 1) :=
  ⟨h, by omega⟩

end Machine

namespace Run

/-- A run that is not broken off: it gives a value, ends with a fault, or comes to a text without end, where some
collection contains itself. -/
inductive Completed {α : Type} : EStateM.Result Interruption Machine α → Prop
  | value (a : α) (m : Machine) : Completed (.ok a m)
  | fault (error : RuntimeError) (m : Machine) : Completed (.error (.fault error) m)
  | endless (m : Machine) (h : m.world.heap.Circular) : Completed (.error .endlessText m)

theorem Completed.of_spares {α : Type} {spared : Fault → Prop} {e : Interruption} {m : Machine}
    (h : e.Spares spared m.world.heap) : Completed (.error e m : EStateM.Result Interruption Machine α) := by
  cases e with
  | fault error => exact .fault error m
  | outOfRounds => exact h.elim
  | endlessText => exact .endless m h

/-- Two computations do the same in a state, are not broken off there, and have no more left when they give a
value. -/
structure AgreeAt {α : Type} (x y : Run α) (m : Machine) : Prop where
  same : x m = y m
  completed : Completed (x m)
  spends : ∀ a m', x m = .ok a m' → m.Spends m'

/-- Two computations agree in all states of a kind. -/
def Agree {α : Type} (I : Machine → Prop) (x y : Run α) : Prop :=
  ∀ m, I m → AgreeAt x y m

def CallsAgree (I : Machine → Prop) (invoke invoke' : Invoke) : Prop :=
  ∀ index arguments p, Agree I (invoke index arguments p) (invoke' index arguments p)

variable {α β : Type} {m : Machine} {x y : Run α} {f : α → Run β}

theorem bind_ok {m' : Machine} {a : α} (h : x m = .ok a m') : (x >>= f) m = f a m' := by
  change EStateM.bind x f m = _
  simp only [EStateM.bind, h]

theorem bind_error {m' : Machine} {e : Interruption} (h : x m = .error e m') : (x >>= f) m = .error e m' := by
  change EStateM.bind x f m = _
  simp only [EStateM.bind, h]

theorem AgreeAt.bind {g : α → Run β} (h : AgreeAt x y m)
    (hf : ∀ a m', x m = .ok a m' → m.Spends m' → AgreeAt (f a) (g a) m') : AgreeAt (x >>= f) (y >>= g) m := by
  obtain ⟨hsame, hcompleted, hspends⟩ := h
  cases hx : x m with
  | ok a m' =>
    have hy : y m = .ok a m' := hsame.symm.trans hx
    obtain ⟨hsame', hcompleted', hspends'⟩ := hf a m' hx (hspends a m' hx)
    refine ⟨?_, ?_, ?_⟩
    · rw [bind_ok hx, bind_ok hy, hsame']
    · rwa [bind_ok hx]
    · intro b m'' hok
      rw [bind_ok hx] at hok
      exact (hspends a m' hx).trans (hspends' b m'' hok)
  | error e m' =>
    have hy : y m = .error e m' := hsame.symm.trans hx
    rw [hx] at hcompleted
    refine ⟨?_, ?_, ?_⟩
    · rw [bind_error hx, bind_error hy]
    · rw [bind_error hx]
      cases hcompleted with
      | fault error => exact .fault error m'
      | endless _ h => exact .endless m' h
    · intro b m'' hok
      rw [bind_error hx] at hok
      cases hok

/-- Runs between two changes of the state, which leave the collections alone, agree if what is left in the end is no
more than at first. -/
theorem AgreeAt.bracket {before after : Machine → Machine} (h : AgreeAt x y (before m))
    (hworld : ∀ m : Machine, (after m).world = m.world)
    (hspends : ∀ m', (before m).Spends m' → m.Spends (after m')) :
    AgreeAt (Run.bracket before after x) (Run.bracket before after y) m := by
  obtain ⟨hsame, hcompleted, hspent⟩ := h
  refine ⟨?_, ?_, ?_⟩ <;> unfold Run.bracket
  · rw [hsame]
  · generalize x (before m) = r at hcompleted
    cases hcompleted with
    | value a m' => exact .value a _
    | fault error m' => exact .fault error _
    | endless m' h => exact .endless _ (by rwa [hworld])
  · intro a m' hok
    cases hx : x (before m) with
    | error e m'' => simp [hx] at hok
    | ok b m'' =>
      simp only [hx, EStateM.Result.ok.injEq] at hok
      exact hok.2 ▸ hspends m'' (hspent b m'' hx)

theorem AgreeAt.inFrame (h : AgreeAt x y m.pushFrame) : AgreeAt (Run.inFrame x) (Run.inFrame y) m := by
  refine h.bracket (fun _ => rfl) fun m' hspends => ⟨hspends.limits, ?_, hspends.left⟩
  have hcount : m'.frames.length = m.frames.length + 1 := hspends.count
  simp only [Machine.popFrame, List.length_tail, hcount]
  rfl

namespace Agree

variable {I : Machine → Prop} {α β : Type}

theorem bind (hI : Machine.Lasting I) {x y : Run α} {f g : α → Run β} (h : Agree I x y)
    (hf : ∀ a, Agree I (f a) (g a)) : Agree I (x >>= f) (y >>= g) :=
  fun m hm => (h m hm).bind fun a m' _ hspends => hf a m' (hI hm hspends)

theorem plain {x : Run α} (h : x.Plain Fault.IsLimit) (hframes : x.Balanced) : Agree I x x := by
  intro m _
  refine ⟨rfl, ?_, ?_⟩
  · cases hx : x m with
    | ok a m' => exact .value a m'
    | error e m' => exact .of_spares (h.mild m m' e hx)
  · intro a m' hok
    have hcount := hframes m
    have hwatch := h.watch m
    rw [hok] at hcount hwatch
    refine .of_eq ?_ hcount ?_ <;> rw [show m' = _ from hwatch] <;> rfl

theorem quiet {x : Run α} (h : x.Tame) : Agree I x x :=
  plain h.plain.limits (.of_shapely (.of_tame h))

theorem pure (a : α) : Agree I (Pure.pure a) (Pure.pure a) :=
  quiet (.pure a)

theorem host (p : Position) {action : Host α}
    (hends : ∀ w w', action w = .error .endlessText w' → w'.heap.Circular) :
    Agree I (Run.host p action) (Run.host p action) := by
  intro m _
  unfold Run.host
  cases haction : action m.world with
  | ok a w =>
    refine ⟨rfl, by simp only [haction]; exact .value _ _, fun b m' hok => ?_⟩
    simp only [haction, EStateM.Result.ok.injEq] at hok
    exact hok.2 ▸ .of_eq rfl rfl rfl
  | error fault w =>
    refine ⟨rfl, ?_, fun b m' hok => by simp [haction] at hok⟩
    simp only [haction]
    cases fault with
    | endlessText => exact .endless _ (hends _ _ haction)
    | _ => exact .fault _ _

theorem read (p : Position) (slot : Slot) : Agree I (slot.read p) (slot.read p) :=
  plain (.slot_read p slot) (.of_shapely (.slot_read p slot))

theorem write (classes : Hierarchy) (p : Position) (slot : Slot) (v : Value) :
    Agree I (slot.write classes p v) (slot.write classes p v) :=
  plain (.slot_write classes p slot v) (.of_shapely (.slot_write classes p slot v))

theorem declare (name : String) (ty : Ty) (v : Value) :
    Agree I (Run.declare name ty v) (Run.declare name ty v) := by
  refine plain (Plain.declare name ty v).limits fun m => ?_
  change (m.declare name ⟨ty, v⟩).frames.length = _
  unfold Machine.declare
  split
  · next hframes => simp [hframes]
  · rfl

theorem inScope (hI : Machine.Lasting I) {x y : Run α} (h : Agree I x y) :
    Agree I (Run.inScope x) (Run.inScope y) := by
  intro m hm
  have hat := h m.pushScope (hI hm (.pushScope m))
  refine hat.bracket (fun m' => ?_) fun m' hspends => (Machine.Spends.pushScope m).trans (hspends.trans (.popScope m'))
  unfold Machine.popScope
  split <;> rfl

end Agree

/-- Behind a checkpoint that is passed, less is left of a budget that can run out. -/
theorem checkpoint_spends {e : Event} {p : Position} {u : Unit} {m' : Machine}
    (hok : Run.checkpoint e p m = .ok u m') :
    m.Spends m' ∧ ∀ b ∈ m.monitor.budget, b.RunsOut → ∃ b' ∈ m'.monitor.budget, b'.RunsOut ∧ b'.left < b.left := by
  have hcheck : ∀ b, m.monitor.budget = some b → (m.check e).1 = none →
      (m.check e).2.monitor.budget = some b.spend.2 ∧ b.spend.1 = none := by
    intro b hb hpassed
    simp only [Machine.check, Monitor.check, Monitor.record, hb] at hpassed ⊢
    cases hspend : b.spend.1 with
    | none =>
      rw [Monitor.checkDeadline_eq]
      exact ⟨rfl, rfl⟩
    | some fault => simp [hspend] at hpassed
  rw [Run.checkpoint_eq] at hok
  cases hfault : (m.check e).1 with
  | some fault => simp [hfault] at hok
  | none =>
    simp only [hfault, EStateM.Result.ok.injEq] at hok
    obtain ⟨-, rfl⟩ := hok
    have hless : ∀ b ∈ m.monitor.budget, b.RunsOut →
        ∃ b' ∈ (m.check e).2.monitor.budget, b'.RunsOut ∧ b'.left < b.left := by
      intro b hb hout
      obtain ⟨hbudget, hpassed⟩ := hcheck b hb hfault
      exact ⟨_, hbudget, hout, Budget.left_spend hout hpassed⟩
    refine ⟨⟨rfl, rfl, fun b hb hout => ?_⟩, hless⟩
    obtain ⟨b', hb', hout', hlt⟩ := hless b hb hout
    exact ⟨b', hb', hout', Nat.le_of_lt hlt⟩

namespace Agree

variable {I : Machine → Prop}

theorem checkpoint (e : Event) (p : Position) : Agree I (Run.checkpoint e p) (Run.checkpoint e p) := by
  intro m _
  refine ⟨rfl, ?_, fun _ _ hok => (checkpoint_spends hok).1⟩
  rw [Run.checkpoint_eq]
  cases (m.check e).1
  · exact .value _ _
  · exact .fault _ _

theorem enterCall (p : Position) : Agree I (Run.enterCall p) (Run.enterCall p) := by
  intro m hm
  by_cases hfull : m.limits.maxCallDepth ≤ m.frames.length
  · have h : Run.enterCall p m = .error (.fault ⟨.callDepthExceeded m.limits.maxCallDepth, p⟩) m := by
      rw [Run.enterCall_eq, if_pos hfull]
    exact ⟨rfl, by rw [h]; exact .fault _ _, fun a m' hok => by simp [h] at hok⟩
  · obtain ⟨-, hcompleted, hspends⟩ := checkpoint (I := I) .functionEntry p m hm
    have h : Run.enterCall p m = Run.checkpoint .functionEntry p m := by
      rw [Run.enterCall_eq, if_neg hfull]
    exact ⟨rfl, by rw [h]; exact hcompleted, by rw [h]; exact hspends⟩

/-- Two loops with different numbers of rounds agree if both have more rounds than checkpoints are left. The
induction is on the rounds of the first one: each round that is begun passes a checkpoint, so there is one less
left. -/
theorem repeatWhile (hI : Machine.Lasting I) {condition condition' : Run Bool} {body body' : Run Flow}
    {after after' : Run Unit} {e : Event} {p : Position} (hcondition : Agree I condition condition')
    (hbody : Agree I body body') (hafter : Agree I after after') (rounds rounds' : Nat) (m : Machine) (hm : I m)
    (hrounds : m.Spare rounds) (hrounds' : m.Spare rounds') :
    AgreeAt (Run.repeatWhile condition (Run.checkpoint e p) body after rounds)
      (Run.repeatWhile condition' (Run.checkpoint e p) body' after' rounds') m := by
  induction rounds generalizing rounds' m with
  | zero =>
    obtain ⟨b, -, -, hb⟩ := hrounds
    omega
  | succ rounds ih =>
    cases rounds' with
    | zero =>
      obtain ⟨b, -, -, hb⟩ := hrounds'
      omega
    | succ rounds' =>
      refine (hcondition m hm).bind fun holds m₁ _ hspends₁ => ?_
      have hm₁ := hI hm hspends₁
      cases holds with
      | false => exact pure _ m₁ hm₁
      | true =>
        refine (checkpoint e p m₁ hm₁).bind fun u m₂ hpassed hspends₂ => ?_
        have hm₂ := hI hm₁ hspends₂
        have hless : ∀ {k}, m.Spare (k + 1) → m₂.Spare k := by
          intro k hk
          obtain ⟨b, hb, hout, hlt⟩ := Machine.spare_lasting _ hk hspends₁
          obtain ⟨b', hb', hout', hlt'⟩ := (checkpoint_spends hpassed).2 b hb hout
          exact ⟨b', hb', hout', by omega⟩
        refine (hbody m₂ hm₂).bind fun flow m₃ _ hspends₃ => ?_
        have hm₃ := hI hm₂ hspends₃
        have hagain : AgreeAt
            (after >>= fun _ => Run.repeatWhile condition (Run.checkpoint e p) body after rounds)
            (after' >>= fun _ => Run.repeatWhile condition' (Run.checkpoint e p) body' after' rounds') m₃ :=
          (hafter m₃ hm₃).bind fun _ m₄ _ hspends₄ => ih _ m₄ (hI hm₃ hspends₄)
            (Machine.spare_lasting _ (hless hrounds) (hspends₃.trans hspends₄))
            (Machine.spare_lasting _ (hless hrounds') (hspends₃.trans hspends₄))
        cases flow with
        | broken => exact pure _ m₃ hm₃
        | returned v => exact pure _ m₃ hm₃
        | normal => exact hagain
        | continued => exact hagain

end Agree

end Run

open Lockstep in
/-- The second computation agrees with one that the recorded computation follows exactly. -/
def Run.AgreeBeside {α : Type} (I : Machine → Prop) (x : Recorded α) (y : Run α) : Prop :=
  ∃ x', exact.Follows x x' ∧ Agree I x' y

namespace Run.AgreeBeside

open Lockstep

variable {I : Machine → Prop} {α β : Type}

theorem bind (hI : Machine.Lasting I) {x : Recorded α} {y : Run α} {f : α → Recorded β} {g : α → Run β}
    (hx : AgreeBeside I x y) (hf : ∀ a, AgreeBeside I (f a) (g a)) : AgreeBeside I (x >>= f) (y >>= g) := by
  obtain ⟨x', hx', hxy⟩ := hx
  exact ⟨x' >>= fun a => (hf a).choose, .bind exact_lawful hx' fun a => (hf a).choose_spec.1,
    .bind hI hxy fun a => (hf a).choose_spec.2⟩

theorem agree {x : Recorded α} {x' y : Run α} (h : AgreeBeside I x y) (hx : exact.Follows x x') : Agree I x' y := by
  obtain ⟨x'', hx'', hxy⟩ := h
  have hsame : x' = x'' := funext fun m =>
    (Recorded.Erases.of_follows hx ⟨m, []⟩).symm.trans (Recorded.Erases.of_follows hx'' ⟨m, []⟩)
  rwa [hsame]

/-- Agreement as a relation that all expressions and statements have, if there are more rounds than checkpoints are
left for their loops. -/
def concord (hI : Machine.Lasting I) (s : Setting) {rounds rounds' : Nat} {loops : Prop}
    (hloops : loops → Machine.Outlasted I rounds ∧ Machine.Outlasted I rounds') : Concord s where
  inner _ x y := AgreeBeside I x y
  outer x y := AgreeBeside I x y
  seen _ _ := True
  rounds := rounds
  rounds' := rounds'
  loops := loops
  pure a := ⟨_, .pure exact_lawful a, .pure a⟩
  bind := .bind hI
  place hx _ _ hf := .bind hI hx fun slot => hf slot fun _ _ => trivial
  map _ hx := .bind hI hx fun _ => ⟨_, .pure exact_lawful _, .pure _⟩
  quietly {_ x} h := ⟨x, exact_quietly x, .quiet h⟩
  giving := fun ⟨x', hx', hxy⟩ => ⟨x', .giving exact_lawful hx', hxy⟩
  read visible p slot _ := ⟨_, .read exact_lawful visible p slot, .read p slot⟩
  write visible p slot v _ := ⟨_, .write exact_lawful visible s.classes p slot v, .write s.classes p slot v⟩
  weaken := id
  andThen := .bind hI
  repeatWhile e _ hl := fun ⟨_, hc, hcondition⟩ ⟨_, hb, hbody⟩ ⟨_, ha, hafter⟩ =>
    ⟨_, .repeatWhile exact_lawful hc (exact_passed e) hb ha rounds, fun m hm =>
      Agree.repeatWhile hI hcondition hbody hafter rounds rounds' m hm ((hloops hl).1 m hm) ((hloops hl).2 m hm)⟩
  checkpoint e p := ⟨_, exact_passed e, .checkpoint e p⟩
  declare name origin ty v := ⟨_, .declare exact_lawful name origin ty v, .declare name ty v⟩
  inScope := fun ⟨x', hx', hxy⟩ => ⟨Run.inScope x', .inScope exact_lawful hx', .inScope hI hxy⟩

theorem permits (hI : Machine.Lasting I) {s : Setting} {rounds rounds' : Nat} {loops : Prop}
    (hloops : loops → Machine.Outlasted I rounds ∧ Machine.Outlasted I rounds') {e : Expr} (he : e.Ends)
    (visible : Lexical) : e.All ((concord hI s hloops).Permits visible) :=
  he.mono fun e he => ⟨he.mono (fun _ hm p arguments => ⟨_, exact_quietly _, .host p (hm arguments)⟩) e,
    fun _ _ => trivial⟩

end Run.AgreeBeside

section Evaluator

open Run Run.Agree Lockstep

variable {I : Machine → Prop} (hI : Machine.Lasting I) {s : Setting} {invoke invoke' : Invoke}

include hI

theorem Expr.evaluate_agree (hi : CallsAgree I invoke invoke') {e : Expr} (he : e.Ends) :
    Agree I (e.evaluate s invoke) (e.evaluate s invoke') := by
  have hloops : False → Machine.Outlasted I 0 ∧ Machine.Outlasted I 0 := False.elim
  have hrelated : AgreeBeside I (e.record s [] fun i a p => Recorded.quietly (invoke i a p)) (e.evaluate s invoke') :=
    e.record_related (C := AgreeBeside.concord hI s hloops) (fun i a p => ⟨_, exact_quietly _, hi i a p⟩) []
      (AgreeBeside.permits hI hloops he [])
  exact hrelated.agree (e.record_follows exact_lawful (fun _ _ _ => exact_quietly _) [] (exact_uses e))

/-- Statements agree if calls do, and if there are more rounds than checkpoints are left for the loops in them. -/
theorem Statement.executeAll_agree {rounds rounds' : Nat} (hi : CallsAgree I invoke invoke') {body : List Statement}
    (hbody : ∀ e ∈ Statement.exprsOfAll body, e.Ends)
    (hr : Statement.anyLoops body = true → Machine.Outlasted I rounds ∧ Machine.Outlasted I rounds') :
    Agree I (Statement.executeAll s invoke rounds body) (Statement.executeAll s invoke' rounds' body) := by
  have hrelated : AgreeBeside I (Statement.recordAll s (fun i a p => Recorded.quietly (invoke i a p)) rounds [] body)
      (Statement.executeAll s invoke' rounds' body) :=
    Statement.recordAll_related (C := AgreeBeside.concord hI s hr) (fun i a p => ⟨_, exact_quietly _, hi i a p⟩) body []
      ⟨fun e he => AgreeBeside.permits hI hr (hbody e he), id⟩
  exact hrelated.agree (Statement.recordAll_follows exact_lawful (fun _ _ _ => exact_quietly _) rounds body []
    fun e _ => exact_uses e)

theorem bindParameters_agree (name : String) (p : Position) (index : Nat) (parameters : List Parameter)
    (arguments : List Value) :
    Agree I (bindParameters s name p index parameters arguments)
      (bindParameters s name p index parameters arguments) := by
  induction parameters generalizing index arguments with
  | nil => exact pure _
  | cons parameter ps ih =>
    cases arguments with
    | nil => exact pure _
    | cons v vs =>
      rw [bindParameters]
      split
      · exact bind hI (declare _ _ _) fun _ => ih (index + 1) vs
      · exact quiet (.fail id _)

end Evaluator

open Run Run.Agree Machine

/-- Calls of a function agree if executions of its body do where one more frame is open. -/
theorem Function.call_agree {J : Machine → Prop} (hJ : Enduring J) {d : Nat} {s : Setting}
    {execute execute' : List Statement → Run Flow} {f : Function}
    (he : Agree (Within J d) (execute f.body) (execute' f.body)) (arguments : List Value) (p : Position) :
    Agree (Within J (d + 1)) (f.call s execute arguments p) (f.call s execute' arguments p) := by
  have hlasting := within_lasting hJ.lasting
  intro m hm
  simp only [Function.call]
  split
  · refine (enterCall p m hm).bind fun u m₁ hentered hspends => AgreeAt.inFrame ?_
    have hroom : m.frames.length < m.limits.maxCallDepth := by
      rw [Run.enterCall_eq] at hentered
      split at hentered
      · cases hentered
      · omega
    have hinside : m₁.pushFrame.Within J d := by
      have hm₁ := hlasting (d + 1) hm hspends
      refine ⟨hJ.pushFrame m₁ hm₁.here, ?_⟩
      have hbefore := hm₁.room
      rw [← hspends.limits, ← hspends.count] at hroom
      simp only [Machine.pushFrame, List.length_cons]
      omega
    exact (bindParameters_agree (hlasting d) _ _ _ _ _ _ hinside).bind fun _ m₂ _ hspends₂ =>
      (he m₂ (hlasting d hinside hspends₂)).bind fun flow m₃ _ _ =>
        quiet (I := fun _ => True) (.result f flow) m₃ trivial
  · exact quiet (.fail id _) m hm

namespace Setting

/-- Calls the function of an index, when so many calls may be opened inside one another; what is called deeper is left
to another way to call functions. -/
def invokeOver (s : Setting) (rounds : Nat) (beyond : Invoke) : Nat → Invoke
  | 0 => beyond
  | depth + 1 => fun index arguments p =>
    match s.functions[index]? with
    | none => Run.fail (.unknownFunction ("#" ++ toString index)) p
    | some f => f.call s (Statement.executeAll s (s.invokeOver rounds beyond depth) rounds) arguments p

theorem invoke_eq_invokeOver (s : Setting) (rounds depth : Nat) :
    s.invoke rounds depth = s.invokeOver rounds (s.invoke rounds 0) depth := by
  induction depth with
  | zero => rfl
  | succ depth ih =>
    funext index arguments p
    cases hf : s.functions[index]? with
    | none => simp only [invoke, invokeOver, hf]
    | some f => simp only [invoke, invokeOver, hf, ih]

/-- For the loops in functions there are more rounds than checkpoints are left, in all states of a kind. -/
def Outlasts (s : Setting) (J : Machine → Prop) (rounds : Nat) : Prop :=
  ∀ f ∈ s.functions, Statement.anyLoops f.body = true → Outlasted J rounds

/-- All members that functions use come to a text without end only where a collection contains itself. -/
def Ends (s : Setting) : Prop :=
  ∀ f ∈ s.functions, ∀ e ∈ f.exprs, e.Ends

end Setting

section Requests

variable {J : Machine → Prop} (hJ : Enduring J) {s : Setting} (hs : s.Ends) {rounds rounds' : Nat}
  (hr : s.Outlasts J rounds) (hr' : s.Outlasts J rounds')

include hJ hs hr hr'

variable {depth : Nat} {e : Expr} (he : e.Ends) {d : Declaration} (hd : ∀ e ∈ d.initial, e.Ends)

/-- Calls agree once there are more of them than can be opened, whatever stands in for those that are too deep. The
induction is on the calls that can still be opened. -/
theorem Setting.invokeOver_agree (beyond beyond' : Invoke) {d depth' : Nat} (hd : d ≤ depth) (hd' : d ≤ depth') :
    CallsAgree (Within J d) (s.invokeOver rounds beyond depth) (s.invokeOver rounds' beyond' depth') := by
  induction d generalizing depth depth' with
  | zero =>
    intro index arguments p m hm
    exact absurd hm.room (Nat.not_lt_zero _)
  | succ d ih =>
    obtain ⟨depth, rfl⟩ := Nat.exists_eq_add_of_le' hd
    obtain ⟨depth', rfl⟩ := Nat.exists_eq_add_of_le' hd'
    intro index arguments p
    rw [show depth + (d + 1) = depth + d + 1 from rfl, show depth' + (d + 1) = depth' + d + 1 from rfl]
    cases hf : s.functions[index]? with
    | none =>
      simp only [invokeOver, hf]
      exact quiet (.fail id _)
    | some f =>
      have hmem : f ∈ s.functions := List.mem_of_getElem? hf
      simp only [invokeOver, hf]
      have hinner := ih (Nat.le_add_left d depth) (Nat.le_add_left d depth')
      have hbody := Statement.executeAll_agree (within_lasting hJ.lasting d) (s := s) hinner (hs f hmem)
        fun h => ⟨(hr f hmem h).within d, (hr' f hmem h).within d⟩
      exact Function.call_agree hJ hbody arguments p

include he in
/-- The value of an expression does not depend on how many more calls than the limits allow could be opened. -/
theorem Setting.evaluateOver_agreeAt {m : Machine} (hm : J m) (beyond : Invoke)
    (hdepth : m.limits.maxCallDepth < depth) :
    AgreeAt (e.evaluate s (s.invokeOver rounds beyond depth)) (s.evaluate rounds' e) m := by
  have hcalls := Setting.invokeOver_agree hJ hs hr hr' beyond (s.invoke rounds' 0) hdepth (Nat.le_refl _)
  rw [← invoke_eq_invokeOver] at hcalls
  obtain ⟨hsame, hcompleted, hspends⟩ := Expr.evaluate_agree (within_lasting hJ.lasting _) hcalls he m
    (within_maxCallDepth hm)
  exact ⟨hsame, hcompleted, hspends⟩

theorem Setting.callOver_agreeAt {m : Machine} (hm : J m) (beyond : Invoke)
    (hdepth : m.limits.maxCallDepth < depth) (index : Nat) (arguments : List Value) (p : Position) :
    AgreeAt (s.invokeOver rounds beyond depth index arguments p) (s.call rounds' index arguments p) m := by
  obtain ⟨hsame, hcompleted, hspends⟩ := Setting.invokeOver_agree hJ hs hr hr' beyond (s.invoke rounds' 0) hdepth
    (Nat.le_refl _) index arguments p m (within_maxCallDepth hm)
  rw [← invoke_eq_invokeOver] at hsame
  exact ⟨hsame, hcompleted, hspends⟩

include he in
theorem Setting.evaluate_agree : Agree J (s.evaluate rounds e) (s.evaluate rounds' e) := by
  intro m hm
  obtain ⟨hsame, hcompleted, hspends⟩ := Setting.evaluateOver_agreeAt hJ hs hr hr' he hm (s.invoke rounds 0)
    (Nat.lt_succ_self _)
  rw [← invoke_eq_invokeOver] at hsame hcompleted hspends
  exact ⟨hsame, hcompleted, hspends⟩

theorem Setting.call_agree (index : Nat) (arguments : List Value) (p : Position) :
    Agree J (s.call rounds index arguments p) (s.call rounds' index arguments p) := by
  intro m hm
  obtain ⟨hsame, hcompleted, hspends⟩ := Setting.callOver_agreeAt hJ hs hr hr' hm (s.invoke rounds 0)
    (Nat.lt_succ_self _) index arguments p
  rw [← invoke_eq_invokeOver] at hsame hcompleted hspends
  exact ⟨hsame, hcompleted, hspends⟩

include hd in
theorem Declaration.initialValue_agree : Agree J (d.initialValue s rounds) (d.initialValue s rounds') := by
  unfold Declaration.initialValue
  split
  · next e he => exact bind hJ.lasting (Setting.evaluate_agree hJ hs hr hr' (hd e he)) fun _ => pure _
  · exact pure _

omit hJ hs hr hr' in
theorem Run.Agree.modify {f : Machine → Machine} (h : ∀ m : Machine, m.Spends (f m)) :
    Agree J (MonadState.modifyGet fun m => ((), f m) : Run Unit) (MonadState.modifyGet fun m => ((), f m)) :=
  fun m _ => ⟨rfl, .value () (f m), by rintro _ _ ⟨⟩; exact h m⟩

include hd in
theorem Declaration.defineGlobal_agree : Agree J (d.defineGlobal s rounds) (d.defineGlobal s rounds') :=
  bind hJ.lasting (d.initialValue_agree hJ hs hr hr' hd) fun _ =>
    bind hJ.lasting (fun m _ => ⟨rfl, .value m m, by rintro _ _ ⟨⟩; exact .refl m⟩) fun _ =>
      bind hJ.lasting (quiet (.located _ (.define _ _ _ _ _))) fun _ =>
        .modify fun _ => .of_eq rfl rfl rfl

include hd in
theorem Declaration.prepare_agree : Agree J (d.prepare s rounds) (d.prepare s rounds') := by
  have hgiven : ∀ existing, Agree J (d.prepareGiven s rounds existing) (d.prepareGiven s rounds' existing) := by
    intro existing
    unfold Declaration.prepareGiven
    split
    · exact bind hJ.lasting (d.initialValue_agree hJ hs hr hr' hd) fun _ => .modify fun _ => .of_eq rfl rfl rfl
    · split
      · exact pure _
      · exact quiet (.fail id _)
    · split
      · exact pure _
      · exact quiet (.fail id _)
    · exact d.defineGlobal_agree hJ hs hr hr' hd
    · split
      · exact quiet (.fail id _)
      · exact d.defineGlobal_agree hJ hs hr hr' hd
  intro m hm
  obtain ⟨hsame, hcompleted, hspends⟩ := hgiven ((m.globals.lookup d.name).map (·.ty)) m hm
  refine ⟨?_, ?_, ?_⟩ <;> rw [Declaration.prepare_eq]
  · rwa [Declaration.prepare_eq]
  · exact hcompleted
  · exact hspends

theorem Declaration.prepareAll_agree {declarations : List Declaration}
    (hds : ∀ d ∈ declarations, ∀ e ∈ d.initial, e.Ends) :
    Agree J (Declaration.prepareAll s rounds declarations) (Declaration.prepareAll s rounds' declarations) := by
  induction declarations with
  | nil => exact pure _
  | cons d rest ih =>
    have hrest := ih fun d hd => hds d (List.mem_cons_of_mem _ hd)
    exact bind hJ.lasting (d.prepare_agree hJ hs hr hr' (hds d List.mem_cons_self)) fun _ => hrest

end Requests

def Request.setting : Request → Setting
  | .prepare script => script.setting
  | .call script _ _ => script.setting
  | .evaluate formula => ⟨formula.registry.classes, []⟩

theorem Request.setting_ends {request : Request} (h : ∀ e ∈ request.exprs, e.Ends) : request.setting.Ends := by
  cases request with
  | evaluate formula => simp [Request.setting, Setting.Ends]
  | prepare script | call script name arguments =>
    exact fun f hf e he => h e (List.mem_append_right _ (List.mem_flatMap.mpr ⟨f, hf, he⟩))

def Machine.begun (m : Machine) : Machine :=
  if m.isIdle then m.resetMonitor else m

theorem Run.begin_bind {α : Type} (x : Run α) (m : Machine) : (do Run.begin; x : Run α) m = x m.begun :=
  bind_ok rfl

/-- A request is not broken off and does not depend on the number of rounds if, once it has begun, there are enough of
them for the functions that it can call. -/
theorem Request.run_agree_of_outlasts {J : Machine → Prop} (hJ : Enduring J) {request : Request}
    (hends : ∀ e ∈ request.exprs, e.Ends) {m : Machine} (hm : J m.begun) {rounds rounds' : Nat}
    (hr : request.setting.Outlasts J rounds) (hr' : request.setting.Outlasts J rounds') :
    request.run rounds m = request.run rounds' m ∧ Completed (request.run rounds m) := by
  have hs := Request.setting_ends hends
  have hbegun : ∀ {x y : Run (Option Value)}, Agree J x y →
      (do Run.begin; x : Run (Option Value)) m = (do Run.begin; y : Run (Option Value)) m ∧
        Completed ((do Run.begin; x : Run (Option Value)) m) := by
    intro x y h
    rw [Run.begin_bind, Run.begin_bind]
    exact ⟨(h m.begun hm).same, (h m.begun hm).completed⟩
  cases request with
  | prepare script =>
    have hrun : ∀ k, (Request.prepare script).run k = do
        Run.begin
        Declaration.prepareAll script.setting k script.program.declarations
        return none := fun k => bind_assoc _ _ _
    have hds : ∀ d ∈ script.program.declarations, ∀ e ∈ d.initial, e.Ends := fun d hd e he =>
      hends e (List.mem_append_left _ (List.mem_flatMap.mpr ⟨d, hd, Option.mem_toList.mpr he⟩))
    rw [hrun, hrun]
    exact hbegun (bind hJ.lasting (Declaration.prepareAll_agree hJ hs hr hr' hds) fun _ => pure _)
  | evaluate formula =>
    have hrun : ∀ k, (Request.evaluate formula).run k = do
        Run.begin
        return some (← Setting.evaluate ⟨formula.registry.classes, []⟩ k formula.expr) := fun k => bind_assoc _ _ _
    rw [hrun, hrun]
    exact hbegun (bind hJ.lasting (Setting.evaluate_agree hJ hs hr hr' (hends _ List.mem_cons_self)) fun _ => pure _)
  | call script name arguments =>
    cases hresolve : script.resolve name arguments with
    | error fault =>
      have hrun : ∀ k, (Request.call script name arguments).run k m = .error (.of .start fault) m := by
        intro k
        apply bind_error
        rw [hresolve]
        rfl
      rw [hrun, hrun]
      exact ⟨rfl, .of_spares ((script.resolve_mild name arguments fault hresolve).spares .start)⟩
    | ok chosen =>
      have hrun : ∀ k, (Request.call script name arguments).run k m = (do
          Run.begin
          let v ← script.setting.call k chosen.1 arguments chosen.2.position
          return if chosen.2.signature.returns = .void then none else some v : Run (Option Value)) m := by
        intro k
        apply bind_ok
        rw [hresolve]
        rfl
      rw [hrun, hrun]
      exact hbegun (bind hJ.lasting (Setting.call_agree hJ hs hr hr' _ _ _) fun _ => pure _)

end Scriptlet
