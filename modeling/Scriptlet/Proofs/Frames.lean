import Scriptlet.Proofs.Concord

/-!
# Frames and scopes over a run

What a run leaves of the frames it found. Assignments change values and nothing else; declarations change the
innermost scope; everything opened is closed again, however the run ends. All this is one relation between the
state before and the state after, which says besides where the declarations written down in between were made
and how many frames were open.
-/

namespace Scriptlet

/-- The names of some bindings with their types. -/
def Bindings.shape (b : Bindings) : List (String × Ty) :=
  b.map fun e => (e.1, e.2.ty)

theorem Bindings.shape_assign {name : String} {v : Value} {b b' : Bindings}
    (h : b.assign? name v = some b') : b'.shape = b.shape := by
  induction b generalizing b' with
  | nil => simp [Bindings.assign?] at h
  | cons entry rest ih =>
    simp only [Bindings.assign?] at h
    split at h
    · rename_i heq
      cases h
      simp [Bindings.shape, heq]
    · obtain ⟨rest', hrest, rfl⟩ := Option.map_eq_some_iff.mp h
      simpa [Bindings.shape] using ih hrest

theorem Bindings.shapes_assignFirst {name : String} {v : Value} {scopes scopes' : List Bindings}
    (h : Bindings.assignFirst? name v scopes = some scopes') :
    scopes'.map Bindings.shape = scopes.map Bindings.shape := by
  induction scopes generalizing scopes' with
  | nil => simp [Bindings.assignFirst?] at h
  | cons scope rest ih =>
    simp only [Bindings.assignFirst?] at h
    split at h
    · rename_i scope' hscope
      cases h
      simp [Bindings.shape_assign hscope]
    · obtain ⟨rest', hrest, rfl⟩ := Option.map_eq_some_iff.mp h
      simp [ih hrest]

namespace Machine

def frame (m : Machine) : Frame :=
  m.frames.headD []

def level (m : Machine) : Nat :=
  m.frame.length

/-- The state of a context that was just opened, with a clock that stands still. -/
def fresh (limits : Limits) : Machine where
  world := ⟨.empty, ⟨"", none⟩, (limits.monitor ⟨fun _ => 0, 0⟩).2⟩
  globals := []
  members := []
  frames := []
  monitor := (limits.monitor ⟨fun _ => 0, 0⟩).1
  limits := limits

/-- Two states that differ at most in the values of variables, in the world and in the monitor. -/
structure Alike (m m' : Machine) : Prop where
  limits : m'.limits = m.limits
  beneath : m'.frames.tail = m.frames.tail
  count : m'.frames.length = m.frames.length
  scopes : m'.frame.map Bindings.shape = m.frame.map Bindings.shape
  members : m'.members.shape = m.members.shape
  globals : m'.globals.shape = m.globals.shape

namespace Alike

theorem refl (m : Machine) : m.Alike m :=
  ⟨rfl, rfl, rfl, rfl, rfl, rfl⟩

variable {m m' : Machine}

theorem trans {m'' : Machine} (h : m.Alike m') (h' : m'.Alike m'') : m.Alike m'' :=
  ⟨h'.limits.trans h.limits, h'.beneath.trans h.beneath, h'.count.trans h.count, h'.scopes.trans h.scopes,
    h'.members.trans h.members, h'.globals.trans h.globals⟩

theorem of_eq (hl : m'.limits = m.limits) (hf : m'.frames = m.frames)
    (hm : m'.members = m.members) (hg : m'.globals = m.globals) : m.Alike m' := by
  refine ⟨hl, ?_, ?_, ?_, ?_, ?_⟩ <;> simp [frame, hf, hm, hg]

theorem level (h : m.Alike m') : m'.level = m.level := by
  simpa [Machine.level] using congrArg List.length h.scopes

theorem assign {name : String} {v : Value} (h : m.assign? name v = some m') : m.Alike m' := by
  simp only [assign?] at h
  split at h
  · rename_i frame hframe
    cases h
    refine ⟨rfl, rfl, ?_, ?_, rfl, rfl⟩
    · cases hm : m.frames with
      | nil => simp [hm, Bindings.assignFirst?] at hframe
      | cons => simp
    · simpa [Machine.frame] using Bindings.shapes_assignFirst hframe
  · split at h
    · rename_i members hmembers
      cases h
      exact ⟨rfl, rfl, rfl, rfl, Bindings.shape_assign hmembers, rfl⟩
    · obtain ⟨globals, hglobals, rfl⟩ := Option.map_eq_some_iff.mp h
      exact ⟨rfl, rfl, rfl, rfl, rfl, Bindings.shape_assign hglobals⟩

end Alike

end Machine

namespace Run

def Shapely {α : Type} (x : Run α) : Prop :=
  ∀ m : Machine, m.Alike (finalState (x m))

namespace Shapely

variable {α : Type}

theorem of_tame {x : Run α} (h : x.Tame) : Shapely x := by
  intro m
  obtain ⟨world, hworld⟩ := h.still m
  rw [hworld]
  exact .of_eq rfl rfl rfl rfl

theorem bind {β : Type} {x : Run α} {f : α → Run β} (hx : Shapely x) (hf : ∀ a, Shapely (f a)) : Shapely (x >>= f) :=
  fun m => finalState_bind_of _ (hx m) fun a m' _ h => h.trans (hf a m')

theorem get : Shapely (MonadState.get : Run Machine) :=
  fun m => .refl m

theorem host (p : Position) (action : Host α) : Shapely (Run.host p action) := by
  intro m
  unfold Run.host
  cases action m.world <;> exact .of_eq rfl rfl rfl rfl

theorem checkpoint (e : Event) (p : Position) : Shapely (Run.checkpoint e p) := by
  intro m
  rw [Run.checkpoint_eq]
  cases (m.check e).1 <;> exact .of_eq rfl rfl rfl rfl

theorem enterCall (p : Position) : Shapely (Run.enterCall p) := by
  intro m
  rw [Run.enterCall_eq]
  split
  · exact .refl m
  · exact checkpoint _ p m

theorem variable_get (ref : VariableRef) : Shapely ref.get := by
  intro m
  rw [ref.get_eq]
  cases m.lookup ref.name <;> exact .refl m

theorem variable_set (classes : Hierarchy) (ref : VariableRef) (v : Value) : Shapely (ref.set classes v) := by
  intro m
  rw [ref.set_eq]
  split
  · cases hm : m.assign? ref.name (v.coerce ref.declared) with
    | some m' => exact .assign hm
    | none => exact .refl m
  · exact .refl m

theorem slot_read (p : Position) (slot : Slot) : Shapely (slot.read p) := by
  cases slot with
  | «variable» ref => exact variable_get ref
  | item _ address index => exact of_tame (.item p address index)
  | entry key value address k => exact of_tame (.entry p key value address k)

theorem slot_write (classes : Hierarchy) (p : Position) (slot : Slot) (v : Value) :
    Shapely (slot.write classes p v) := by
  cases slot with
  | «variable» ref => exact (variable_set classes ref _).bind fun _ => of_tame (.pure _)
  | item element address index => exact of_tame (.item_write classes p element address index v)
  | entry key value address k => exact of_tame (.entry_write classes p key value address k v)

theorem begin : Shapely Run.begin := by
  intro m
  change m.Alike (if m.isIdle then m.resetMonitor else m)
  split
  · exact .of_eq rfl rfl rfl rfl
  · exact .refl m

end Shapely

end Run

/-- Where a moment may lie that is written down between a state and a later one: no more frames are open than
before or than the limits allow, and a declaration is made in a frame above or in a scope from `k` on. -/
structure Moment.Within (k : Nat) (m : Machine) (t : Moment) : Prop where
  depth : t.machine.frames.length ≤ max m.frames.length m.limits.maxCallDepth
  declares : ∀ name origin, t.happening = .declaration name origin →
    (m.frames.length < t.machine.frames.length ∧ 0 < t.machine.level) ∨
      (t.machine.frames.length = m.frames.length ∧ k ≤ t.machine.level)

/-- What a run keeps: the frames beneath the innermost one are as they were, the innermost one has as many
scopes, and those below the scope that is the `k`-th from the bottom have the names and types they had. If `k`
is not zero, so have the members. -/
structure Kept (k : Nat) (c c' : Chronicle) : Prop where
  limits : c'.machine.limits = c.machine.limits
  beneath : c'.machine.frames.tail = c.machine.frames.tail
  count : c'.machine.frames.length = c.machine.frames.length
  level : c'.machine.level = c.machine.level
  scopes : (c'.machine.frame.map Bindings.shape).drop (c.machine.level + 1 - k) =
    (c.machine.frame.map Bindings.shape).drop (c.machine.level + 1 - k)
  members : 0 < k → c'.machine.members.shape = c.machine.members.shape
  globals : c'.machine.globals.shape = c.machine.globals.shape
  record : ∃ new, c'.moments = new ++ c.moments ∧ ∀ t ∈ new, Moment.Within k c.machine t

namespace Kept

variable {k : Nat} {c : Chronicle}

theorem of_alike {m : Machine} (h : c.machine.Alike m) :
    Kept k c { c with machine := m } :=
  ⟨h.limits, h.beneath, h.count, h.level, by simp [h.scopes], fun _ => h.members, h.globals, [], rfl, by simp⟩

theorem refl (k : Nat) (c : Chronicle) : Kept k c c :=
  of_alike (.refl _)

theorem mono {j : Nat} {c' : Chronicle} (h : Kept k c c') (hj : j ≤ k) : Kept j c c' where
  limits := h.limits
  beneath := h.beneath
  count := h.count
  level := h.level
  scopes := by
    have hd : c.machine.level + 1 - j =
        c.machine.level + 1 - k + (c.machine.level + 1 - j - (c.machine.level + 1 - k)) := by omega
    rw [hd, ← List.drop_drop, h.scopes, List.drop_drop]
  members := fun hj' => h.members (by omega)
  globals := h.globals
  record := by
    obtain ⟨new, hnew, hw⟩ := h.record
    refine ⟨new, hnew, fun t ht => ⟨(hw t ht).depth, fun name origin hh => ?_⟩⟩
    rcases (hw t ht).declares name origin hh with habove | ⟨hsame, hk⟩
    · exact .inl habove
    · exact .inr ⟨hsame, by omega⟩

theorem trans {c' c'' : Chronicle} (h : Kept k c c') (h' : Kept k c' c'') : Kept k c c'' where
  limits := h'.limits.trans h.limits
  beneath := h'.beneath.trans h.beneath
  count := h'.count.trans h.count
  level := h'.level.trans h.level
  scopes := by rw [← h.scopes, ← h.level, h'.scopes]
  members := fun hk => (h'.members hk).trans (h.members hk)
  globals := h'.globals.trans h.globals
  record := by
    obtain ⟨new, hnew, hw⟩ := h.record
    obtain ⟨new', hnew', hw'⟩ := h'.record
    refine ⟨new' ++ new, by rw [hnew', hnew, List.append_assoc], fun t ht => ?_⟩
    rcases List.mem_append.mp ht with ht | ht
    · obtain ⟨hdepth, hdeclares⟩ := hw' t ht
      rw [h.count, h.limits] at hdepth
      rw [h.count] at hdeclares
      exact ⟨hdepth, hdeclares⟩
    · exact hw t ht

end Kept

namespace Recorded

/-- A computation that keeps what lies below the scope that is `d` above the number of scopes found: with
`d = 1` everything that is there, with `d = 0` everything but the innermost scope. -/
def Keeps {α : Type} (d : Nat) (x : Recorded α) : Prop :=
  ∀ c : Chronicle, Kept (c.machine.level + d) c (finalState (x c))

namespace Keeps

variable {α : Type} {d : Nat} {x : Recorded α}

theorem pure (a : α) : Keeps d (Pure.pure a : Recorded α) :=
  fun c => .refl _ c

theorem throw (e : Interruption) : Keeps d (MonadExcept.throw e : Recorded α) :=
  fun c => .refl _ c

theorem weaken (h : Keeps 1 x) : Keeps 0 x :=
  fun c => (h c).mono (by omega)

theorem bind_of {β : Type} {R : α → Prop} {f : α → Recorded β} (hx : Keeps d x)
    (hR : Gives R x) (hf : ∀ a, R a → Keeps d (f a)) : Keeps d (x >>= f) := by
  refine fun c => finalState_bind_of _ (hx c) fun a c' hxc h => ?_
  have h' := hf a (hR c a c' hxc) c'
  rw [h.level] at h'
  exact h.trans h'

theorem bind {β : Type} {f : α → Recorded β} (hx : Keeps d x) (hf : ∀ a, Keeps d (f a)) : Keeps d (x >>= f) :=
  hx.bind_of (R := fun _ => True) (fun _ _ _ _ => trivial) fun a _ => hf a

theorem quietly {x : Run α} (h : x.Shapely) : Keeps d (Recorded.quietly x) := by
  intro c
  have hc := h c.machine
  unfold Recorded.quietly
  cases hx : x c.machine with
  | ok a m =>
    rw [hx] at hc
    exact .of_alike hc
  | error e m =>
    rw [hx] at hc
    exact .of_alike hc

theorem note {h : Happening} (hh : ∀ name origin, h ≠ .declaration name origin) : Keeps d (Recorded.note h) := by
  intro c
  refine ⟨rfl, rfl, rfl, rfl, rfl, fun _ => rfl, rfl, [⟨c.machine, h⟩], rfl, ?_⟩
  intro t ht
  obtain rfl := List.mem_singleton.mp ht
  exact ⟨Nat.le_max_left _ _, fun name origin hdecl => absurd hdecl (hh name origin)⟩

theorem giving {e : Expr} {x : Recorded Value} (h : Keeps d x) : Keeps d (Recorded.giving e x) :=
  h.bind fun _ => (note (by simp)).bind fun _ => pure _

theorem checkpoint (e : Event) (p : Position) : Keeps d (Recorded.checkpoint e p) :=
  (quietly (Run.Shapely.checkpoint e p)).bind fun _ => note (by simp)

theorem enterCall (p : Position) : Keeps d (Recorded.enterCall p) :=
  (quietly (Run.Shapely.enterCall p)).bind fun _ => note (by simp)

theorem access (visible : Lexical) (slot : Slot) : Keeps d (Recorded.access visible slot) := by
  cases slot with
  | «variable» ref => exact note (by simp)
  | item => exact pure ()
  | entry => exact pure ()

theorem read (visible : Lexical) (p : Position) (slot : Slot) : Keeps d (Recorded.read visible p slot) :=
  (access visible slot).bind fun _ => quietly (Run.Shapely.slot_read p slot)

theorem write (visible : Lexical) (classes : Hierarchy) (p : Position) (slot : Slot) (v : Value) :
    Keeps d (Recorded.write visible classes p slot v) :=
  (access visible slot).bind fun _ => quietly (Run.Shapely.slot_write classes p slot v)

/-- A declaration changes the innermost scope, or the members if there is none. -/
theorem declare (name : String) (origin : Origin) (ty : Ty) (v : Value) :
    Keeps 0 (Recorded.declare name origin ty v) := by
  intro c
  have hnew : ∀ t ∈ [(⟨c.machine, .declaration name origin⟩ : Moment)],
      Moment.Within (c.machine.level + 0) c.machine t := by
    intro t ht
    obtain rfl := List.mem_singleton.mp ht
    exact ⟨Nat.le_max_left _ _, fun _ _ _ => .inr ⟨rfl, Nat.le_refl _⟩⟩
  change Kept _ c ⟨c.machine.declare name ⟨ty, v⟩, ⟨c.machine, .declaration name origin⟩ :: c.moments⟩
  unfold Machine.declare
  split
  · rename_i scope scopes rest hframes
    refine ⟨rfl, ?_, ?_, ?_, ?_, fun _ => rfl, rfl, _, rfl, hnew⟩ <;>
      simp [Machine.level, Machine.frame, hframes]
  · rename_i hframes
    have hlevel : c.machine.level = 0 := by
      cases hf : c.machine.frames with
      | nil => simp [Machine.level, Machine.frame, hf]
      | cons frame rest =>
        cases frame with
        | nil => simp [Machine.level, Machine.frame, hf]
        | cons scope scopes => exact absurd hf (hframes scope scopes rest)
    exact ⟨rfl, rfl, rfl, rfl, rfl, by omega, rfl, _, rfl, hnew⟩

theorem finalState_bracket (before after : Machine → Machine) (x : Recorded α) (c : Chronicle) :
    finalState (Recorded.bracket before after x c) =
      { finalState (x { c with machine := before c.machine }) with
        machine := after (finalState (x { c with machine := before c.machine })).machine } := by
  unfold Recorded.bracket
  cases x { c with machine := before c.machine } <;> rfl

theorem inScope_kept (h : Keeps 0 x) {c : Chronicle} (hc : c.machine.frames ≠ []) :
    Kept (c.machine.level + 1) c (finalState (Recorded.inScope x c)) := by
  obtain ⟨frame, rest, hf⟩ := List.exists_cons_of_ne_nil hc
  have hk := h { c with machine := c.machine.pushScope }
  rw [Recorded.inScope, finalState_bracket]
  generalize finalState (x { c with machine := c.machine.pushScope }) = c' at hk ⊢
  have hpush : c.machine.pushScope = { c.machine with frames := ([] :: frame) :: rest } := by
    simp [Machine.pushScope, hf]
  simp only [hpush] at hk
  have hlevel : c.machine.level = frame.length := by simp [Machine.level, Machine.frame, hf]
  obtain ⟨frame', rest', hf'⟩ : ∃ frame' rest', c'.machine.frames = frame' :: rest' :=
    List.exists_cons_of_length_pos (by have := hk.count; simp at this; omega)
  have hrest : rest' = rest := by simpa [hf'] using hk.beneath
  have hscopes : frame'.tail.map Bindings.shape = frame.map Bindings.shape := by
    simpa [Machine.level, Machine.frame, hf'] using hk.scopes
  have hpop : c'.machine.popScope = { c'.machine with frames := frame'.tail :: rest } := by
    simp [Machine.popScope, hf', hrest]
  rw [hpop]
  refine ⟨hk.limits, by simp [hf], by simp [hf], ?_, ?_, fun _ => hk.members ?_, hk.globals, ?_⟩
  · simpa [hf, Machine.level, Machine.frame] using congrArg List.length hscopes
  · simpa [hlevel, Machine.frame, hf] using hscopes
  · simp [Machine.level, Machine.frame]
  · obtain ⟨new, hnew, hw⟩ := hk.record
    refine ⟨new, hnew, fun t ht => ?_⟩
    obtain ⟨hdepth, hdeclares⟩ := hw t ht
    simp only [Machine.level, Machine.frame, List.headD_cons, List.length_cons] at hdepth hdeclares
    refine ⟨by simpa [hf] using hdepth, ?_⟩
    simpa [hf, hlevel, Machine.level, Machine.frame] using hdeclares

theorem inScope (h : Keeps 0 x) : Keeps 0 (Recorded.inScope x) := by
  intro c
  by_cases hc : c.machine.frames = []
  · -- without a frame there is no scope to open, and nothing is opened
    have hk := h c
    have hpush : c.machine.pushScope = c.machine := by simp [Machine.pushScope, hc]
    rw [Recorded.inScope, finalState_bracket, hpush]
    have hf' : (finalState (x c)).machine.frames = [] := by
      simpa [hc] using hk.count
    have hpop : (finalState (x c)).machine.popScope = (finalState (x c)).machine := by
      simp [Machine.popScope, hf']
    rw [hpop]
    exact hk
  · exact (inScope_kept h hc).mono (by omega)

theorem inFrame_frames (h : Keeps 0 x) (c : Chronicle) :
    (finalState (Recorded.inFrame x c)).machine.frames = c.machine.frames := by
  have hk := h { c with machine := c.machine.pushFrame }
  rw [Recorded.inFrame, finalState_bracket]
  simpa [Machine.popFrame, Machine.pushFrame] using hk.beneath

/-- What happens in a frame of its own keeps everything, if one more frame may be opened. -/
theorem inFrame_kept (h : Keeps 0 x) {c : Chronicle} (hc : c.machine.frames.length < c.machine.limits.maxCallDepth) :
    Kept (c.machine.level + 1) c (finalState (Recorded.inFrame x c)) := by
  have hframes := inFrame_frames h c
  have hk := h { c with machine := c.machine.pushFrame }
  rw [Recorded.inFrame, finalState_bracket] at hframes ⊢
  generalize finalState (x { c with machine := c.machine.pushFrame }) = c' at hk hframes ⊢
  simp only at hframes
  refine ⟨hk.limits, by rw [hframes], by rw [hframes], ?_, ?_, fun _ => hk.members (by simp [Machine.level,
    Machine.frame, Machine.pushFrame]), hk.globals, ?_⟩
  · simp [Machine.level, Machine.frame, hframes]
  · simp [Machine.level, Machine.frame, hframes]
  · obtain ⟨new, hnew, hw⟩ := hk.record
    refine ⟨new, hnew, fun t ht => ?_⟩
    obtain ⟨hdepth, hdeclares⟩ := hw t ht
    simp only [Machine.pushFrame, List.length_cons] at hdepth hdeclares
    refine ⟨by omega, fun name origin hh => .inl ?_⟩
    rcases hdeclares name origin hh with habove | ⟨hsame, hlevel⟩
    · exact ⟨by omega, habove.2⟩
    · have : 1 ≤ t.machine.level := by simpa [Machine.level, Machine.frame] using hlevel
      exact ⟨by omega, by omega⟩

end Keeps

end Recorded

open Recorded

def RecordedInvoke.Keeps (invoke : RecordedInvoke) : Prop :=
  ∀ index arguments p, Recorded.Keeps 1 (invoke index arguments p)

theorem Recorded.checkpoint_frames (e : Event) (p : Position) (m : Machine) :
    (finalState (Run.checkpoint e p m)).frames = m.frames := by
  rw [Run.checkpoint_eq]
  cases (m.check e).1 <;> rfl

theorem Recorded.enterCall_frames (p : Position) (c : Chronicle) :
    (finalState (Recorded.enterCall p c)).machine.frames = c.machine.frames := by
  have h : (finalState (Run.enterCall p c.machine)).frames = c.machine.frames := by
    rw [Run.enterCall_eq]
    split
    · rfl
    · exact checkpoint_frames _ _ _
  rw [Recorded.enterCall, finalState_bind]
  unfold Recorded.quietly
  cases hx : Run.enterCall p c.machine with
  | ok a m =>
    rw [hx] at h
    exact h
  | error e m =>
    rw [hx] at h
    exact h

theorem Recorded.room_of_enterCall {p : Position} {c c' : Chronicle} {u : Unit}
    (h : Recorded.enterCall p c = .ok u c') :
    c.machine.frames.length < c.machine.limits.maxCallDepth := by
  rcases Nat.lt_or_ge c.machine.frames.length c.machine.limits.maxCallDepth with hroom | hfull
  · exact hroom
  have herror : Run.enterCall p c.machine =
      .error (.fault ⟨.callDepthExceeded c.machine.limits.maxCallDepth, p⟩) c.machine := by
    rw [Run.enterCall_eq, if_pos hfull]
  change EStateM.bind (quietly (Run.enterCall p)) _ c = _ at h
  simp [EStateM.bind, quietly, herror] at h

theorem Recorded.Keeps.call {α : Type} {x : Recorded α} (hx : Keeps 0 x) (p : Position) (function : Nat) :
    Keeps 1 (do Recorded.enterCall p; Recorded.inFrame do Recorded.note (.entry function); x) := by
  refine fun c => finalState_bind_of _ (Keeps.enterCall (d := 1) p c) fun u c' hc hk => ?_
  have hroom := room_of_enterCall hc
  rw [← hk.limits, ← hk.count] at hroom
  have hin := Keeps.inFrame_kept ((Keeps.note (h := .entry function) (by simp)).bind fun _ => hx) hroom
  rw [hk.level] at hin
  exact hk.trans hin

/-- Expressions keep every scope, and statements every scope but the innermost one. -/
def Concord.keeping (s : Setting) (rounds : Nat) : Concord s where
  inner _ x _ := Keeps 1 x
  outer x _ := Keeps 0 x
  seen _ _ := True
  rounds := rounds
  rounds' := rounds
  loops := True
  pure := .pure
  bind := .bind
  place hx _ _ hf := hx.bind fun slot => hf slot fun _ _ => trivial
  map _ hx := hx.bind fun _ => .pure _
  quietly h := .quietly (.of_tame h)
  giving := .giving
  read visible p slot _ := .read visible p slot
  write visible p slot v _ := .write visible s.classes p slot v
  weaken := .weaken
  andThen := .bind
  repeatWhile e p _ hcondition hbody hafter :=
    repeatWhile_of (R := fun x => Keeps 0 x) .pure .bind (.throw _) hcondition (.checkpoint e p) hbody hafter rounds
  checkpoint := .checkpoint
  declare := .declare
  inScope := .inScope

section Evaluator

variable {s : Setting} {invoke : RecordedInvoke} {visible : Lexical} {rounds : Nat}

theorem Concord.keeping_permits (e : Expr) (visible : Lexical) : e.All ((Concord.keeping s rounds).Permits visible) :=
  .of_forall (fun e => ⟨by cases e <;> first | trivial | exact fun p _ => Keeps.quietly (.host p _),
    fun _ _ => trivial⟩) e

theorem RecordedInvoke.Keeps.calls (hi : invoke.Keeps) :
    (Concord.keeping s rounds).Calls invoke fun _ _ _ => Pure.pure .null :=
  hi

theorem Statement.recordAll_keeps (hi : invoke.Keeps) (rounds : Nat) (body : List Statement) (visible : Lexical) :
    Keeps 0 (Statement.recordAll s invoke rounds visible body) :=
  Statement.recordAll_related (C := .keeping s rounds) hi.calls body visible
    ⟨fun e _ => Concord.keeping_permits e, fun _ => trivial⟩

variable {execute : List Statement → Recorded Flow}

theorem Function.inside_keeps (he : ∀ body, Keeps 0 (execute body))
    (f : Function) (arguments : List Value) (function : Nat) (p : Position) :
    Keeps 0 (do
      recordParameters s function f.signature.name p 0 f.signature.parameters arguments
      let flow ← execute f.body
      quietly (f.result flow)) :=
  (recordParameters_related (C := .keeping s 0) _ _ _ _ _ _).bind fun _ =>
    (he f.body).bind fun _ => .quietly (.of_tame (.result _ _))

theorem Function.record_keeps (he : ∀ body, Keeps 0 (execute body))
    (function : Nat) (f : Function) (arguments : List Value) (p : Position) :
    Keeps 1 (f.record s function execute arguments p) := by
  simp only [Function.record]
  split
  · exact (Function.inside_keeps he f arguments function p).call p function
  · exact .quietly (.of_tame (.fail id _))

theorem Function.record_frames (he : ∀ body, Keeps 0 (execute body))
    (function : Nat) (f : Function) (arguments : List Value) (p : Position) (c : Chronicle) :
    (finalState (f.record s function execute arguments p c)).machine.frames = c.machine.frames := by
  simp only [Function.record]
  split
  · refine finalState_bind_of (fun c' : Chronicle => c'.machine.frames = c.machine.frames)
      (Recorded.enterCall_frames p c) fun u c' _ hframes => ?_
    exact (Keeps.inFrame_frames ((Keeps.note (by simp)).bind fun _ =>
      Function.inside_keeps he f arguments function p) c').trans hframes
  · rfl

end Evaluator

theorem Setting.recordInvoke_keeps (s : Setting) (top : Lexical) (rounds depth : Nat) :
    (s.recordInvoke top rounds depth).Keeps := by
  induction depth with
  | zero =>
    intro index arguments p
    rw [Setting.recordInvoke]
    exact .quietly fun m => .refl m
  | succ depth ih =>
    intro index arguments p
    cases hf : s.functions[index]? with
    | none =>
      simp only [Setting.recordInvoke, hf]
      exact .quietly (.of_tame (.fail id _))
    | some f =>
      simp only [Setting.recordInvoke, hf]
      exact Function.record_keeps (fun body => Statement.recordAll_keeps ih rounds body _) _ _ _ _

theorem Setting.recordInvoke_frames (s : Setting) (top : Lexical) (rounds depth index : Nat)
    (arguments : List Value) (p : Position) (c : Chronicle) :
    (finalState (s.recordInvoke top rounds depth index arguments p c)).machine.frames = c.machine.frames := by
  cases depth with
  | zero => rfl
  | succ depth =>
    cases hf : s.functions[index]? with
    | none =>
      simp only [Setting.recordInvoke, hf]
      rfl
    | some f =>
      simp only [Setting.recordInvoke, hf]
      exact Function.record_frames (fun body =>
        Statement.recordAll_keeps (s.recordInvoke_keeps top rounds depth) rounds body _) _ _ _ _ c

theorem Setting.recordCall_keeps (s : Setting) (top : Lexical) (rounds index : Nat) (arguments : List Value)
    (p : Position) : Keeps 1 (s.recordCall top rounds index arguments p) :=
  fun c => s.recordInvoke_keeps top rounds _ index arguments p c

theorem Setting.recordEvaluate_keeps (s : Setting) (top visible : Lexical) (rounds : Nat) (e : Expr) :
    Keeps 1 (s.recordEvaluate top visible rounds e) :=
  fun c => e.record_related (C := .keeping s rounds) (s.recordInvoke_keeps top rounds _).calls visible
    (Concord.keeping_permits e visible) c

theorem Setting.recordExecute_keeps (s : Setting) (top visible : Lexical) (rounds : Nat)
    (statement : Statement) : Keeps 0 (s.recordExecute top visible rounds statement) :=
  fun c => statement.record_related (C := .keeping s rounds) (s.recordInvoke_keeps top rounds _).calls visible
    ⟨fun e _ => Concord.keeping_permits e, fun _ => trivial⟩ c

end Scriptlet
