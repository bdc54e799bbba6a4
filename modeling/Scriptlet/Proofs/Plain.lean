import Scriptlet.Proofs.Chronicle
import Scriptlet.Proofs.EndlessTexts

/-!
# Actions without regard to limits

Most of what a run does has nothing to do with the monitor and the limits: it gives the same under all of them,
leaves them alone, writes no output and never reports that a limit was exceeded. Operations on values do not look
at variables either, and never report that one is missing. That a text has no end is found only where a collection
contains itself.
-/

namespace Scriptlet

/-- The state that a computation ends in, whether it succeeds or fails. -/
def finalState {ε σ α : Type} : EStateM.Result ε σ α → σ
  | .ok _ s => s
  | .error _ s => s

section Outcomes

variable {ε σ α : Type}

/-- A run that ends with such a result. -/
def Run.endsWith (p : α → σ → Bool) : EStateM.Result ε σ α → Bool
  | .ok a s => p a s
  | .error _ _ => false

theorem exists_ok_of_endsWith {result : EStateM.Result ε σ α} {p : α → σ → Bool} (h : Run.endsWith p result = true) :
    ∃ a s, result = .ok a s ∧ p a s = true := by
  cases result with
  | ok a s => exact ⟨a, s, rfl, h⟩
  | error e s => cases h

/-- A run that this fault ends, in such a state. -/
def Run.stopsWith (fault : Fault) (p : Machine → Bool) : EStateM.Result Interruption Machine α → Bool
  | .error (.fault error) m => error.fault = fault && p m
  | _ => false

theorem exists_error_of_stopsWith {fault : Fault} {p : Machine → Bool} {result : EStateM.Result Interruption Machine α}
    (h : Run.stopsWith fault p result = true) :
    ∃ position m, result = .error (.fault ⟨fault, position⟩) m ∧ p m = true := by
  unfold Run.stopsWith at h
  split at h
  · next error m =>
    obtain ⟨hfault, hm⟩ := Bool.and_eq_true_iff.mp h
    exact ⟨error.position, m, by rw [← of_decide_eq_true hfault], hm⟩
  · cases h

/-- A run that is broken off in this way. -/
def Run.breaksOff (e : Interruption) : EStateM.Result Interruption Machine α → Bool
  | .error e' _ => e' = e
  | .ok _ _ => false

theorem exists_error_of_breaksOff {e : Interruption} {result : EStateM.Result Interruption Machine α}
    (h : Run.breaksOff e result = true) : ∃ m, result = .error e m := by
  cases result with
  | ok a m => cases h
  | error e' m => exact ⟨m, by rw [of_decide_eq_true h]⟩

/-- A result that is this integer. -/
def Value.isInt (n : Int32) : Option Value → Bool
  | some (.int m) => m = n
  | _ => false

theorem Value.eq_of_isInt {n : Int32} {v : Option Value} (h : isInt n v = true) : v = some (.int n) := by
  unfold isInt at h
  split at h
  · rw [of_decide_eq_true h]
  · cases h

end Outcomes

section Bind

variable {ε σ α β : Type} {x : EStateM ε σ α} {f : α → EStateM ε σ β} {s s' : σ}

@[simp] theorem finalState_ok (a : α) (s : σ) : finalState (.ok a s : EStateM.Result ε σ α) = s := rfl

@[simp] theorem finalState_error (e : ε) (s : σ) : finalState (.error e s : EStateM.Result ε σ α) = s := rfl

theorem finalState_bind (x : EStateM ε σ α) (f : α → EStateM ε σ β) (s : σ) :
    finalState ((x >>= f) s) = match x s with
      | .ok a s' => finalState (f a s')
      | .error _ s' => s' := by
  change finalState (EStateM.bind x f s) = _
  unfold EStateM.bind
  cases x s <;> rfl

/-- What holds of the state behind an action, and is kept by what follows its result, holds behind both of them. -/
theorem finalState_bind_of (P : σ → Prop)
    (hx : P (finalState (x s))) (hf : ∀ a s', x s = .ok a s' → P s' → P (finalState (f a s'))) :
    P (finalState ((x >>= f) s)) := by
  rw [finalState_bind]
  cases hxs : x s with
  | ok a s' =>
    rw [hxs] at hx
    exact hf a s' hxs hx
  | error e s' => rwa [hxs] at hx

theorem ok_of_bind {b : β} (h : (x >>= f) s = .ok b s') : ∃ a s₁, x s = .ok a s₁ ∧ f a s₁ = .ok b s' := by
  change EStateM.bind x f s = _ at h
  unfold EStateM.bind at h
  cases hx : x s with
  | ok a s₁ =>
    rw [hx] at h
    exact ⟨a, s₁, rfl, h⟩
  | error e s₁ => simp [hx] at h

theorem error_of_bind {e : ε}
    (h : (x >>= f) s = .error e s') : x s = .error e s' ∨ ∃ a s₁, x s = .ok a s₁ ∧ f a s₁ = .error e s' := by
  change EStateM.bind x f s = _ at h
  unfold EStateM.bind at h
  cases hx : x s with
  | ok a s₁ =>
    rw [hx] at h
    exact .inr ⟨a, s₁, rfl, h⟩
  | error e₁ s₁ =>
    rw [hx] at h
    cases h
    exact .inl rfl

end Bind

namespace Machine

/-- The state under another monitor and other limits. -/
def watched (m : Machine) (monitor : Monitor) (limits : Limits) : Machine :=
  { m with monitor := monitor, limits := limits }

@[simp] theorem watched_world (m : Machine) (monitor : Monitor) (limits : Limits) :
    (m.watched monitor limits).world = m.world := rfl

@[simp] theorem watched_frames (m : Machine) (monitor : Monitor) (limits : Limits) :
    (m.watched monitor limits).frames = m.frames := rfl

@[simp] theorem watched_self (m : Machine) : m.watched m.monitor m.limits = m := rfl

/-- A change of the state that has nothing to do with the world, the monitor or the limits. -/
structure Inner (f : Machine → Machine) : Prop where
  watched : ∀ m monitor limits, f (m.watched monitor limits) = (f m).watched monitor limits
  world : ∀ m, (f m).world = m.world

theorem Inner.pushScope : Inner Machine.pushScope := by
  constructor
  · intro m monitor limits
    cases hf : m.frames <;> simp [Machine.pushScope, Machine.watched, hf]
  · intro m
    cases hf : m.frames <;> simp [Machine.pushScope, hf]

theorem Inner.popScope : Inner Machine.popScope := by
  constructor
  · intro m monitor limits
    cases hf : m.frames <;> simp [Machine.popScope, Machine.watched, hf]
  · intro m
    cases hf : m.frames <;> simp [Machine.popScope, hf]

theorem Inner.pushFrame : Inner Machine.pushFrame :=
  ⟨fun _ _ _ => rfl, fun _ => rfl⟩

theorem Inner.popFrame : Inner Machine.popFrame :=
  ⟨fun _ _ _ => rfl, fun _ => rfl⟩

theorem Inner.declare (name : String) (b : Binding) : Inner (Machine.declare · name b) := by
  constructor
  · intro m monitor limits
    simp only [Machine.declare, Machine.watched]
    split <;> rfl
  · intro m
    simp only [Machine.declare]
    split <;> rfl

end Machine

theorem VariableRef.get_eq (ref : VariableRef) (m : Machine) :
    ref.get m = match m.lookup ref.name with
      | some v => .ok v m
      | none => .error (.fault ⟨.undefinedVariable ref.name, ref.position⟩) m := by
  change (match m.lookup ref.name with
    | some v => Pure.pure v
    | none => Run.fail (.undefinedVariable ref.name) ref.position : Run Value) m = _
  cases m.lookup ref.name <;> rfl

theorem VariableRef.set_eq (classes : Hierarchy) (ref : VariableRef) (v : Value) (m : Machine) :
    ref.set classes v m =
      if classes.accepts ref.declared v.runtimeType then
        match m.assign? ref.name (v.coerce ref.declared) with
        | some m' => .ok () m'
        | none => .error (.fault ⟨.undefinedVariable ref.name, ref.position⟩) m
      else .error (.fault ⟨.typeMismatch ref.name ref.declared v.runtimeType .write, ref.position⟩) m := by
  unfold VariableRef.set
  split
  · change (match m.assign? ref.name (v.coerce ref.declared) with
      | some m' => MonadState.set m'
      | none => Run.fail (.undefinedVariable ref.name) ref.position : Run Unit) m = _
    cases m.assign? ref.name (v.coerce ref.declared) <;> rfl
  · rfl

theorem Slot.write_variable_eq (classes : Hierarchy) (p : Position) (ref : VariableRef) (v : Value) (m : Machine) :
    Slot.write classes p (.variable ref) v m =
      if classes.accepts ref.declared (v.coerce ref.declared).runtimeType then
        match m.assign? ref.name ((v.coerce ref.declared).coerce ref.declared) with
        | some m' => .ok (v.coerce ref.declared) m'
        | none => .error (.fault ⟨.undefinedVariable ref.name, ref.position⟩) m
      else
        .error (.fault ⟨.typeMismatch ref.name ref.declared (v.coerce ref.declared).runtimeType .write, ref.position⟩)
          m := by
  change EStateM.bind (ref.set classes (v.coerce ref.declared)) _ m = _
  unfold EStateM.bind
  rw [ref.set_eq]
  by_cases haccepts : classes.accepts ref.declared (v.coerce ref.declared).runtimeType = true
  · rw [if_pos haccepts, if_pos haccepts]
    cases m.assign? ref.name ((v.coerce ref.declared).coerce ref.declared) <;> rfl
  · rw [if_neg haccepts, if_neg haccepts]

theorem Run.checkpoint_eq (e : Event) (p : Position) (m : Machine) :
    Run.checkpoint e p m = match (m.check e).1 with
      | some fault => .error (.fault ⟨fault, p⟩) (m.check e).2
      | none => .ok () (m.check e).2 := by
  change (match (m.check e).1 with
    | some fault => Run.fail fault p
    | none => Pure.pure () : Run Unit) (m.check e).2 = _
  cases (m.check e).1 <;> rfl

theorem Run.enterCall_eq (p : Position) (m : Machine) :
    Run.enterCall p m =
      if m.limits.maxCallDepth ≤ m.frames.length then
        .error (.fault ⟨.callDepthExceeded m.limits.maxCallDepth, p⟩) m
      else Run.checkpoint .functionEntry p m := by
  change (if m.limits.maxCallDepth ≤ m.frames.length then
    Run.fail (.callDepthExceeded m.limits.maxCallDepth) p else Run.checkpoint .functionEntry p : Run Unit) m = _
  split <;> rfl

/-- Faults that say that a limit was exceeded. -/
def Fault.IsLimit : Fault → Prop
  | .stepLimitExceeded _ | .callDepthExceeded _ => True
  | _ => False

/-- Faults that are about the run and not about the values at work: a limit, a variable, or a text without end. -/
def Fault.IsAmbient : Fault → Prop
  | .stepLimitExceeded _ | .callDepthExceeded _ | .undefinedVariable _ | .endlessText => True
  | _ => False

theorem Fault.IsLimit.isAmbient {fault : Fault} (h : fault.IsLimit) : fault.IsAmbient := by
  cases fault <;> trivial

/-- A fault that is not about the run, unless a text has no end where a collection contains itself. -/
def Fault.Proper (h : Heap) (fault : Fault) : Prop :=
  fault.IsAmbient → fault = .endlessText ∧ h.Circular

theorem Fault.Proper.of_not_isAmbient {h : Heap} {fault : Fault} (hf : ¬ fault.IsAmbient) : fault.Proper h :=
  fun ha => absurd ha hf

/-- A plain result, with a proper fault if it is none. -/
def Mild (h : Heap) {α : Type} : Except Fault α → Prop :=
  Fails (Fault.Proper h)

namespace Mild

open Fails (ok)

variable {α : Type} {h : Heap}

theorem error {fault : Fault} (hf : ¬ fault.IsAmbient) : Mild h (.error fault : Except Fault α) :=
  Fails.error (.of_not_isAmbient hf)

theorem finite {o : Option α} (ho : o = none → h.Circular) : Mild h (Scriptlet.finite o) :=
  Fails.finite fun hnone _ => ⟨rfl, ho hnone⟩

theorem text (v : Value) : Mild h (Scriptlet.finite (h.text v)) :=
  finite fun hnone => (Heap.text_eq_none_iff.mp hnone).circular

theorem scriptText (v : Value) : Mild h (Scriptlet.finite (h.scriptText v)) :=
  finite fun hnone => (Heap.endless_of_scriptText hnone).circular

theorem asBool (v : Value) : Mild h v.asBool := by
  cases v <;> first | exact ok _ | exact error id

theorem asInt (v : Value) : Mild h v.asInt := by
  cases v <;> first | exact ok _ | exact error id

theorem unary (op : UnaryOp) (v : Value) : Mild h (op.apply v) := by
  cases op with
  | not => exact (asBool v).bind fun _ => ok _
  | negate =>
    simp only [UnaryOp.apply]
    split <;> first | exact ok _ | exact error id

theorem exact (least : Int) (op : InfixOp) (a b : Int) : Mild h (Arithmetic.exact least op a b) := by
  unfold Arithmetic.exact
  split <;> (repeat' split) <;> first | exact ok _ | exact error id

theorem integers (least : Int) (fit : Int → Option Value) (op : InfixOp) (a b : Int) :
    Mild h (Arithmetic.integers least fit op a b) := by
  unfold Arithmetic.integers
  split
  · exact ok _
  · refine (exact least op a b).bind fun r => ?_
    split
    · exact ok _
    · exact error id

theorem numbers (op : InfixOp) (operand : Ty) (left right : Value) :
    Mild h (Arithmetic.numbers op operand left right) := by
  unfold Arithmetic.numbers
  split
  · exact integers _ _ _ _ _
  · exact integers _ _ _ _ _
  · unfold Arithmetic.floats
    (repeat' split) <;> first | exact ok _ | exact error id
  · unfold Arithmetic.doubles
    (repeat' split) <;> first | exact ok _ | exact error id
  · exact error id
  · exact error id
  · exact error id

theorem join (left right : Value) : Mild h (Arithmetic.join h left right) :=
  (scriptText left).bind fun _ => (scriptText right).bind fun _ => ok _

theorem infixed (op : InfixOp) (operand : Ty) (left right : Value) : Mild h (op.apply h operand left right) := by
  simp only [InfixOp.apply]
  split
  · exact ok _
  · split
    · exact join _ _
    · exact numbers _ _ _ _

theorem compound (op : CompoundOp) (operand : Ty) (current value : Value) :
    Mild h (op.apply h operand current value) := by
  cases op with
  | arithmetic op => exact infixed op operand current value
  | and => exact (asBool current).bind fun _ => (asBool value).bind fun _ => ok _
  | or => exact (asBool current).bind fun _ => (asBool value).bind fun _ => ok _

theorem cast (classes : Hierarchy) (v : Value) (target : Ty) : Mild h (v.cast classes target) := by
  simp only [Value.cast]
  (repeat' split) <;> first | exact ok _ | exact error id

theorem checkedIndex (index : Int32) (length : Nat) : Mild h (Scriptlet.checkedIndex index length) := by
  unfold Scriptlet.checkedIndex
  split
  · exact ok _
  · exact error id

theorem place (heap : Heap) (address : Address) (index : Int32) : Mild h (heap.place address index) :=
  checkedIndex index _

theorem item (heap : Heap) (address : Address) (index : Int32) : Mild h (heap.item address index) :=
  (place heap address index).bind fun _ => ok _

theorem prepareKey (d : Dictionary) (key : Value) : Mild h (d.prepareKey key) := by
  unfold Dictionary.prepareKey
  split
  · exact error id
  · exact ok _

theorem dictionary_get (d : Dictionary) (key : Value) : Mild h (d.get h key) := by
  refine (prepareKey d key).bind fun k => ?_
  split
  · exact ok _
  · exact (text k).bind fun _ => error id

theorem dictionary_set (d : Dictionary) (key value : Value) : Mild h (d.set key value) :=
  (prepareKey d key).bind fun _ => ok _

theorem dictionary_add (d : Dictionary) (key value : Value) : Mild h (d.add h key value) := by
  refine (prepareKey d key).bind fun k => ?_
  split
  · exact (text k).bind fun _ => error id
  · exact ok _

theorem define (classes : Hierarchy) (globals : Bindings) (name : String) (ty : Ty) (v : Value) :
    Mild h (Bindings.define classes globals name ty v) := by
  have hput : ∀ ty : Ty, Mild h (if classes.accepts ty v.runtimeType then
      Except.ok (Bindings.put name ⟨ty, v.coerce ty⟩ globals)
      else Except.error (.typeMismatch name ty v.runtimeType .write)) := by
    intro ty
    split
    · exact ok _
    · exact error id
  unfold Bindings.define
  cases globals.lookup name with
  | none => exact hput ty
  | some existing =>
    dsimp only
    split
    · exact hput existing.ty
    · exact error id

end Mild

theorem Script.resolve_mild {h : Heap} (s : Script) (name : String) (arguments : List Value) :
    Mild h (s.resolve name arguments) := by
  unfold Script.resolve
  split
  · exact .error id
  · exact .ok _
  · dsimp only
    split
    · exact .ok _
    · exact .error id

theorem Interruption.of_eq_fault_iff {p : Position} {fault : Fault} {error : RuntimeError} :
    Interruption.of p fault = .fault error ↔ error.fault = fault ∧ error.position = p ∧ fault ≠ .endlessText := by
  obtain ⟨cause, position⟩ := error
  cases fault <;> simp [Interruption.of, eq_comm]

/-- An interruption by no fault of a certain kind, and by a text without end only where a collection contains
itself. -/
def Interruption.Spares (spared : Fault → Prop) (h : Heap) : Interruption → Prop
  | .fault error => ¬ spared error.fault
  | .outOfRounds => False
  | .endlessText => h.Circular

theorem Fault.Proper.spares {h : Heap} {fault : Fault} (hf : fault.Proper h) (p : Position) :
    (Interruption.of p fault).Spares Fault.IsAmbient h := by
  unfold Interruption.of
  split
  · exact (hf trivial).2
  · next hne => exact fun ha => hne (hf ha).1

theorem Interruption.Spares.limits {h : Heap} {e : Interruption} (he : e.Spares Fault.IsAmbient h) :
    e.Spares Fault.IsLimit h := by
  cases e with
  | fault error => exact fun hlimit => he hlimit.isAmbient
  | outOfRounds => exact he
  | endlessText => exact he

/-- A result with its state changed. -/
def mapState {ε σ τ α : Type} (f : σ → τ) : EStateM.Result ε σ α → EStateM.Result ε τ α
  | .ok a s => .ok a (f s)
  | .error e s => .error e (f s)

namespace Run

theorem define_eq (classes : Hierarchy) (p : Position) (name : String) (ty : Ty) (v : Value) (m : Machine) :
    (do
      let globals ← Run.located p (Bindings.define classes (← get).globals name ty v)
      modify ({ · with globals := globals }) : Run Unit) m =
      match Bindings.define classes m.globals name ty v with
      | .ok globals => .ok () { m with globals := globals }
      | .error fault => .error (.of p fault) m := by
  change (Run.located p (Bindings.define classes m.globals name ty v) >>= fun globals =>
    (modify ({ · with globals := globals }) : Run Unit)) m = _
  cases Bindings.define classes m.globals name ty v <;> rfl

/-- A computation that neither looks at the monitor or the limits nor changes them, writes no output, and is not
interrupted by a fault of a certain kind, nor by a text without end unless a collection contains itself. -/
structure Plain (spared : Fault → Prop) {α : Type} (x : Run α) : Prop where
  blind : ∀ (m : Machine) monitor limits,
    x (m.watched monitor limits) = mapState (·.watched monitor limits) (x m)
  mute : ∀ m : Machine, (finalState (x m)).world.output = m.world.output
  mild : ∀ (m m' : Machine) e, x m = .error e m' → e.Spares spared m'.world.heap

namespace Plain

variable {spared : Fault → Prop} {α : Type}

theorem limits {x : Run α} (h : Plain Fault.IsAmbient x) : Plain Fault.IsLimit x where
  blind := h.blind
  mute := h.mute
  mild m m' e hx := (h.mild m m' e hx).limits

theorem pure (a : α) : Plain spared (Pure.pure a : Run α) where
  blind _ _ _ := rfl
  mute _ := rfl
  mild := by
    rintro m m' e ⟨⟩

theorem fail {fault : Fault} (h : ¬ spared fault) (p : Position) : Plain spared (Run.fail fault p : Run α) where
  blind _ _ _ := rfl
  mute _ := rfl
  mild := by
    rintro m m' e ⟨⟩
    exact h

theorem bind {β : Type} {x : Run α} {f : α → Run β} (hx : Plain spared x) (hf : ∀ a, Plain spared (f a)) :
    Plain spared (x >>= f) where
  blind m monitor limits := by
    change EStateM.bind x f _ = mapState _ (EStateM.bind x f m)
    unfold EStateM.bind
    rw [hx.blind]
    cases x m with
    | ok a m' => exact (hf a).blind m' monitor limits
    | error e m' => rfl
  mute m := finalState_bind_of (·.world.output = m.world.output) (hx.mute m) fun a m' _ h => ((hf a).mute m').trans h
  mild m m' e h := by
    rcases error_of_bind h with h | ⟨a, m₁, -, h⟩
    · exact hx.mild m m' e h
    · exact (hf a).mild m₁ m' e h

theorem modifies {f : Machine → Machine} (h : Machine.Inner f) : Plain spared (modify f : Run Unit) where
  blind m monitor limits := by
    change EStateM.Result.ok () (f _) = _
    rw [h.watched]
    rfl
  mute m := by
    change (f m).world.output = _
    rw [h.world]
  mild := by
    rintro m m' e ⟨⟩

theorem host (p : Position) {action : Host α} (hmute : ∀ w : World, (finalState (action w)).output = w.output)
    (hmild : ∀ (w w' : World) fault, action w = .error fault w' → fault.Proper w'.heap) :
    Plain Fault.IsAmbient (Run.host p action) where
  blind m monitor limits := by
    simp only [Run.host, Machine.watched_world]
    cases action m.world <;> rfl
  mute m := by
    have h := hmute m.world
    simp only [Run.host]
    cases hm : action m.world <;> simpa [hm] using h
  mild m m' e h := by
    simp only [Run.host] at h
    cases hm : action m.world with
    | ok a w => simp [hm] at h
    | error fault w =>
      simp only [hm, EStateM.Result.error.injEq] at h
      obtain ⟨rfl, rfl⟩ := h
      exact (hmild _ _ _ hm).spares p

theorem variable_get (ref : VariableRef) : Plain Fault.IsLimit ref.get where
  blind m monitor limits := by
    rw [ref.get_eq, ref.get_eq]
    change (match m.lookup ref.name with | some v => _ | none => _) = _
    cases m.lookup ref.name <;> rfl
  mute m := by
    rw [ref.get_eq]
    cases m.lookup ref.name <;> rfl
  mild m m' e h := by
    rw [ref.get_eq] at h
    cases hm : m.lookup ref.name with
    | some v => simp [hm] at h
    | none =>
      simp only [hm, EStateM.Result.error.injEq] at h
      exact h.1 ▸ id

theorem assign_watched (m : Machine) (name : String) (v : Value) (monitor : Monitor) (limits : Limits) :
    (m.watched monitor limits).assign? name v = (m.assign? name v).map (·.watched monitor limits) := by
  simp only [Machine.assign?, Machine.watched]
  split
  · rfl
  · split
    · rfl
    · cases Bindings.assign? name v m.globals <;> rfl

theorem assign_world {m m' : Machine} {name : String} {v : Value} (h : m.assign? name v = some m') :
    m'.world = m.world := by
  simp only [Machine.assign?] at h
  split at h
  · cases h
    rfl
  · split at h
    · cases h
      rfl
    · obtain ⟨globals, _, rfl⟩ := Option.map_eq_some_iff.mp h
      rfl

theorem variable_set (classes : Hierarchy) (ref : VariableRef) (v : Value) :
    Plain Fault.IsLimit (ref.set classes v) where
  blind m monitor limits := by
    rw [ref.set_eq, ref.set_eq]
    split
    · rw [assign_watched]
      cases m.assign? ref.name (v.coerce ref.declared) <;> rfl
    · rfl
  mute m := by
    rw [ref.set_eq]
    split
    · cases hm : m.assign? ref.name (v.coerce ref.declared) with
      | some m' => exact congrArg World.output (assign_world hm)
      | none => rfl
    · rfl
  mild m m' e h := by
    rw [ref.set_eq] at h
    split at h
    · cases hm : m.assign? ref.name (v.coerce ref.declared) with
      | some m₁ => simp [hm] at h
      | none =>
        simp only [hm, EStateM.Result.error.injEq] at h
        exact h.1 ▸ id
    · simp only [EStateM.Result.error.injEq] at h
      exact h.1 ▸ id

theorem declare (name : String) (ty : Ty) (v : Value) : Plain Fault.IsAmbient (Run.declare name ty v) :=
  modifies (.declare name ⟨ty, v⟩)

theorem define (classes : Hierarchy) (p : Position) (name : String) (ty : Ty) (v : Value) :
    Plain Fault.IsAmbient (do
      let globals ← Run.located p (Bindings.define classes (← get).globals name ty v)
      modify ({ · with globals := globals }) : Run Unit) := by
  constructor
  · intro m monitor limits
    refine (define_eq classes p name ty v _).trans (Eq.trans ?_ (congrArg _ (define_eq classes p name ty v m).symm))
    change (match Bindings.define classes m.globals name ty v with | .ok _ => _ | .error _ => _) = _
    cases Bindings.define classes m.globals name ty v <;> rfl
  · intro m
    refine (congrArg (fun r => (finalState r).world.output) (define_eq classes p name ty v m)).trans ?_
    cases Bindings.define classes m.globals name ty v <;> rfl
  · intro m m' e h
    have h := (define_eq classes p name ty v m).symm.trans h
    cases hm : Bindings.define classes m.globals name ty v with
    | ok globals => simp [hm] at h
    | error fault =>
      simp only [hm, EStateM.Result.error.injEq] at h
      exact h.1 ▸ (Mild.define _ _ _ _ _ _ hm).spares p

end Plain

/-- A plain computation that changes nothing but the world. -/
structure Tame {α : Type} (x : Run α) : Prop where
  plain : x.Plain Fault.IsAmbient
  still : ∀ m : Machine, ∃ world, finalState (x m) = { m with world := world }

namespace Tame

variable {α : Type}

theorem pure (a : α) : Tame (Pure.pure a : Run α) :=
  ⟨.pure a, fun m => ⟨m.world, rfl⟩⟩

theorem fail {fault : Fault} (h : ¬ fault.IsAmbient) (p : Position) : Tame (Run.fail fault p : Run α) :=
  ⟨.fail h p, fun m => ⟨m.world, rfl⟩⟩

theorem bind {β : Type} {x : Run α} {f : α → Run β} (hx : Tame x) (hf : ∀ a, Tame (f a)) : Tame (x >>= f) := by
  refine ⟨hx.plain.bind fun a => (hf a).plain, fun m => ?_⟩
  refine finalState_bind_of (∃ world, · = { m with world := world }) (hx.still m) ?_
  rintro a _ - ⟨world, rfl⟩
  exact (hf a).still { m with world := world }

/-- A plain result that depends on the heap. -/
theorem located_heap (p : Position) {f : Heap → Except Fault α} (hf : ∀ h, Mild h (f h)) :
    Tame (Run.heap >>= fun h => Run.located p (f h)) := by
  have heq (m : Machine) : (Run.heap >>= fun h => Run.located p (f h)) m = Run.located p (f m.world.heap) m := rfl
  refine ⟨⟨fun m monitor limits => ?_, fun m => ?_, fun m m' e h => ?_⟩, fun m => ⟨m.world, ?_⟩⟩
  · rw [heq, heq, Machine.watched_world]
    cases f m.world.heap <;> rfl
  · rw [heq]
    cases f m.world.heap <;> rfl
  · rw [heq] at h
    cases hr : f m.world.heap with
    | ok a =>
      rw [hr] at h
      cases h
    | error fault =>
      rw [hr] at h
      cases h
      exact (hf _ fault hr).spares p
  · rw [heq]
    cases f m.world.heap <;> rfl

theorem located (p : Position) {r : Except Fault α} (h : ∀ {h : Heap}, Mild h r) : Tame (Run.located p r) :=
  located_heap p fun _ => h

theorem heap : Tame Run.heap where
  plain := ⟨fun _ _ _ => rfl, fun _ => rfl, by rintro m m' e ⟨⟩⟩
  still m := ⟨m.world, rfl⟩

theorem host (p : Position) {action : Host α} (hmute : ∀ w : World, (finalState (action w)).output = w.output)
    (hmild : ∀ (w w' : World) fault, action w = .error fault w' → fault.Proper w'.heap) : Tame (Run.host p action) := by
  refine ⟨.host p hmute hmild, fun m => ?_⟩
  unfold Run.host
  cases action m.world with
  | ok a w => exact ⟨w, rfl⟩
  | error fault w => exact ⟨w, rfl⟩

theorem truth (p : Position) (v : Value) : Tame (Run.truth p v) :=
  located p (.asBool v)

theorem collection (e : Expr) (v : Value) : Tame (Run.collection e v) := by
  cases v <;> first | exact pure _ | exact fail id _

theorem item (p : Position) (address : Address) (index : Int32) : Tame (Run.item p address index) :=
  heap.bind fun _ => located p (.item _ _ _)

theorem dictionary (key value : Ty) (address : Address) : Tame (Run.dictionary key value address) :=
  heap.bind fun _ => pure _

theorem entry (p : Position) (key value : Ty) (address : Address) (k : Value) :
    Tame (Run.entry p key value address k) :=
  located_heap p (f := fun h => Dictionary.get h ⟨key, value, h.entries address⟩ k) fun _ => .dictionary_get _ _

theorem stored (classes : Hierarchy) (p : Position) (ty : Ty) (v : Value) :
    Tame (Run.stored classes p ty v) := by
  unfold Run.stored
  split
  · exact pure _
  · exact fail id _

theorem visited (c : Collection) : Tame (Run.visited c) := by
  cases c <;> exact heap.bind fun _ => pure _

theorem modifyHeap (p : Position) (f : Heap → Heap) : Tame (Run.host p (Host.modifyHeap f)) :=
  host p (fun _ => rfl) (by rintro w w' fault ⟨⟩)

theorem newSequence (p : Position) (kind : SequenceKind) (element : Ty) (items : Array Value) :
    Tame (Run.host p (Host.newSequence kind element items)) :=
  host p (fun _ => rfl) (by rintro w w' fault ⟨⟩)

theorem newDictionary (p : Position) (key value : Ty) (entries : List (Value × Value)) :
    Tame (Run.host p (Host.newDictionary key value entries)) :=
  host p (fun _ => rfl) (by rintro w w' fault ⟨⟩)

theorem newArray (p : Position) (element : Ty) (length : Int32) : Tame (Run.newArray p element length) := by
  unfold Run.newArray
  split
  · exact fail id _
  · exact newSequence p _ _ _

theorem item_write (classes : Hierarchy) (p : Position) (element : Ty) (address : Address) (index : Int32)
    (v : Value) : Tame (Slot.write classes p (.item element address index) v) :=
  (stored classes p element v).bind fun _ => heap.bind fun _ => (located p (.place _ _ _)).bind fun _ =>
    (modifyHeap p _).bind fun _ => pure _

theorem entry_write (classes : Hierarchy) (p : Position) (key value : Ty) (address : Address) (k v : Value) :
    Tame (Slot.write classes p (.entry key value address k) v) :=
  (stored classes p value v).bind fun _ => (dictionary key value address).bind fun _ =>
    (located p (.dictionary_set _ _ _)).bind fun _ => (modifyHeap p _).bind fun _ => pure _

theorem result (f : Function) (flow : Flow) : Tame (f.result flow) := by
  unfold Function.result
  split
  · exact pure _
  · split
    · exact pure _
    · exact fail id _

end Tame

namespace Plain

theorem slot_read (p : Position) (slot : Slot) : Plain Fault.IsLimit (slot.read p) := by
  cases slot with
  | «variable» ref => exact variable_get ref
  | item _ address index => exact (Tame.item p address index).plain.limits
  | entry key value address k => exact (Tame.entry p key value address k).plain.limits

theorem slot_write (classes : Hierarchy) (p : Position) (slot : Slot) (v : Value) :
    Plain Fault.IsLimit (slot.write classes p v) := by
  cases slot with
  | «variable» ref => exact (variable_set classes ref _).bind fun _ => pure _
  | item element address index => exact (Tame.item_write classes p element address index v).plain.limits
  | entry key value address k => exact (Tame.entry_write classes p key value address k v).plain.limits

end Plain

end Run

end Scriptlet
