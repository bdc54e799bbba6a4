import Scriptlet.Proofs.Erasure
import Scriptlet.Proofs.Frames
import Scriptlet.Proofs.Hierarchy

/-!
# Frame discipline

However a run ends, it leaves as many frames and scopes as it found, all frames beneath the innermost one
untouched, and at no moment are more frames open than the limits allow. A context that is idle before an
operation of the host is therefore idle after it, whatever the outcome.
-/

namespace Scriptlet

/-- As many frames, as many scopes in each of them, and nothing changed beneath the innermost one. -/
structure Machine.SameFrames (m m' : Machine) : Prop where
  frames : m'.frames.length = m.frames.length
  scopes : m'.frames.map List.length = m.frames.map List.length
  beneath : m'.frames.tail = m.frames.tail

theorem Kept.sameFrames {k : Nat} {c c' : Chronicle} (h : Kept k c c') : c.machine.SameFrames c'.machine := by
  refine ⟨h.count, ?_, h.beneath⟩
  have hcount := h.count
  have hlevel := h.level
  have hbeneath := h.beneath
  cases hc : c.machine.frames with
  | nil =>
    rw [hc, List.length_nil] at hcount
    rw [List.eq_nil_of_length_eq_zero hcount]
  | cons frame rest =>
    obtain ⟨frame', rest', hc'⟩ := List.exists_cons_of_length_pos (l := c'.machine.frames) (by simp [hcount, hc])
    simp only [Machine.level, Machine.frame, hc, hc', List.headD_cons, List.tail_cons] at hlevel hbeneath
    rw [hc', List.map_cons, List.map_cons, hlevel, hbeneath]

/-- At no moment of a recorded run are more than `n` frames open. Every frame is written down when it is opened. -/
def Recorded.AtMost {α : Type} (n : Nat) (x : Recorded α) (m : Machine) : Prop :=
  ∀ t ∈ (finalState (x ⟨m, []⟩)).moments, t.machine.frames.length ≤ n

theorem Recorded.Keeps.atMost {α : Type} {d : Nat} {x : Recorded α} (h : Recorded.Keeps d x) {m : Machine}
    (hm : m.frames.length ≤ m.limits.maxCallDepth) : Recorded.AtMost m.limits.maxCallDepth x m := by
  intro t ht
  obtain ⟨new, hnew, hw⟩ := (h ⟨m, []⟩).record
  rw [List.append_nil] at hnew
  have hdepth := (hw t (hnew ▸ ht)).depth
  simp only at hdepth
  omega

namespace Run

/-- A computation that leaves as many frames as it finds. -/
def Balanced {α : Type} (x : Run α) : Prop :=
  ∀ m, (finalState (x m)).frames.length = m.frames.length

namespace Balanced

theorem of_shapely {α : Type} {x : Run α} (h : x.Shapely) : Balanced x :=
  fun m => (h m).count

theorem bind {α β : Type} {x : Run α} {f : α → Run β} (hx : Balanced x) (hf : ∀ a, Balanced (f a)) :
    Balanced (x >>= f) :=
  fun m => finalState_bind_of (·.frames.length = m.frames.length) (hx m) fun a m' _ h => (hf a m').trans h

theorem located {α : Type} (p : Position) (r : Except Fault α) : Balanced (Run.located p r) := by
  cases r <;> exact fun _ => rfl

theorem of_keeps {α : Type} {d : Nat} {x : Recorded α} {y : Run α} (hx : Recorded.Keeps d x)
    (he : Recorded.Erases x y) : Balanced y := by
  intro m
  have h := (hx ⟨m, []⟩).count
  rwa [he.finalState] at h

theorem evaluate (s : Setting) (rounds : Nat) (e : Expr) : Balanced (s.evaluate rounds e) :=
  of_keeps (s.recordEvaluate_keeps [] [] rounds e) (s.recordEvaluate_erases [] [] rounds e)

theorem call (s : Setting) (rounds index : Nat) (arguments : List Value) (p : Position) :
    Balanced (s.call rounds index arguments p) :=
  of_keeps (s.recordCall_keeps [] rounds index arguments p) (s.recordCall_erases [] rounds index arguments p)

theorem initialValue (s : Setting) (rounds : Nat) (d : Declaration) : Balanced (d.initialValue s rounds) := by
  unfold Declaration.initialValue
  split
  · exact (evaluate s rounds _).bind fun _ _ => rfl
  · exact fun _ => rfl

theorem defineGlobal (s : Setting) (rounds : Nat) (d : Declaration) : Balanced (d.defineGlobal s rounds) :=
  (initialValue s rounds d).bind fun _ => (of_shapely .get).bind fun _ =>
    (located _ _).bind fun _ _ => rfl

theorem prepare (s : Setting) (rounds : Nat) (d : Declaration) : Balanced (d.prepare s rounds) := by
  have hgiven : ∀ existing, Balanced (d.prepareGiven s rounds existing) := by
    intro existing
    unfold Declaration.prepareGiven
    split
    · exact (initialValue s rounds d).bind fun _ _ => rfl
    · split
      · exact fun _ => rfl
      · exact fun _ => rfl
    · split
      · exact fun _ => rfl
      · exact fun _ => rfl
    · exact defineGlobal s rounds d
    · split
      · exact fun _ => rfl
      · exact defineGlobal s rounds d
  intro m
  rw [Declaration.prepare_eq]
  exact hgiven _ m

theorem prepareAll (s : Setting) (rounds : Nat) (declarations : List Declaration) :
    Balanced (Declaration.prepareAll s rounds declarations) := by
  induction declarations with
  | nil => exact fun _ => rfl
  | cons d rest ih => exact (prepare s rounds d).bind fun _ => ih

theorem script_prepare (s : Script) (rounds : Nat) : Balanced (s.prepare rounds) :=
  (of_shapely .begin).bind fun _ => prepareAll _ _ _

theorem script_call (s : Script) (rounds : Nat) (name : String) (arguments : List Value) :
    Balanced (s.call rounds name arguments) :=
  (located _ _).bind fun _ => (of_shapely .begin).bind fun _ =>
    (call _ _ _ _ _).bind fun _ _ => rfl

theorem formula_evaluate (f : Formula) (rounds : Nat) : Balanced (f.evaluate rounds) :=
  (of_shapely .begin).bind fun _ => evaluate _ _ _

end Balanced

end Run

theorem Machine.isIdle_of_balanced {α : Type} {x : Run α} (h : x.Balanced) {m : Machine} (hm : m.isIdle = true) :
    (finalState (x m)).isIdle = true := by
  have hcount := h m
  simp only [Machine.isIdle, List.isEmpty_iff] at hm ⊢
  rw [hm, List.length_nil] at hcount
  exact List.eq_nil_of_length_eq_zero hcount

/-- However they end, statements, expressions and calls leave the frames and scopes as they found them; a call
leaves every frame exactly as it was; no more frames are open at any moment than the limits allow; and an idle
context is idle again after every operation of the host. -/
theorem frames_restored (s : Setting) (rounds : Nat) (m : Machine) :
    (∀ statement, m.SameFrames (finalState (s.execute rounds statement m))) ∧
    (∀ e, m.SameFrames (finalState (s.evaluate rounds e m))) ∧
    (∀ index arguments p, m.SameFrames (finalState (s.call rounds index arguments p m)) ∧
      (finalState (s.call rounds index arguments p m)).frames = m.frames) ∧
    (m.frames.length ≤ m.limits.maxCallDepth → ∀ top visible,
      (∀ statement, (s.recordExecute top visible rounds statement).Erases (s.execute rounds statement) ∧
        (s.recordExecute top visible rounds statement).AtMost m.limits.maxCallDepth m) ∧
      (∀ e, (s.recordEvaluate top visible rounds e).Erases (s.evaluate rounds e) ∧
        (s.recordEvaluate top visible rounds e).AtMost m.limits.maxCallDepth m) ∧
      ∀ index arguments p,
        (s.recordCall top rounds index arguments p).Erases (s.call rounds index arguments p) ∧
        (s.recordCall top rounds index arguments p).AtMost m.limits.maxCallDepth m) ∧
    (m.isIdle = true →
      (∀ script : Script, (finalState (script.prepare rounds m)).isIdle = true) ∧
      (∀ (script : Script) name arguments, (finalState (script.call rounds name arguments m)).isIdle = true) ∧
      ∀ f : Formula, (finalState (f.evaluate rounds m)).isIdle = true) := by
  refine ⟨fun statement => ?_, fun e => ?_, fun index arguments p => ⟨?_, ?_⟩, fun hm top visible => ?_,
    fun hm => ?_⟩
  · rw [← (s.recordExecute_erases [] [] rounds statement).finalState ⟨m, []⟩]
    exact (s.recordExecute_keeps [] [] rounds statement ⟨m, []⟩).sameFrames
  · rw [← (s.recordEvaluate_erases [] [] rounds e).finalState ⟨m, []⟩]
    exact (s.recordEvaluate_keeps [] [] rounds e ⟨m, []⟩).sameFrames
  · rw [← (s.recordCall_erases [] rounds index arguments p).finalState ⟨m, []⟩]
    exact (s.recordCall_keeps [] rounds index arguments p ⟨m, []⟩).sameFrames
  · rw [← (s.recordCall_erases [] rounds index arguments p).finalState ⟨m, []⟩]
    exact s.recordInvoke_frames [] rounds _ index arguments p ⟨m, []⟩
  · exact ⟨fun statement => ⟨s.recordExecute_erases top visible rounds statement,
        (s.recordExecute_keeps top visible rounds statement).atMost hm⟩,
      fun e => ⟨s.recordEvaluate_erases top visible rounds e,
        (s.recordEvaluate_keeps top visible rounds e).atMost hm⟩,
      fun index arguments p => ⟨s.recordCall_erases top rounds index arguments p,
        (s.recordCall_keeps top rounds index arguments p).atMost hm⟩⟩
  · exact ⟨fun script => Machine.isIdle_of_balanced (.script_prepare script rounds) hm,
      fun script name arguments => Machine.isIdle_of_balanced (.script_call script rounds name arguments) hm,
      fun f => Machine.isIdle_of_balanced (.formula_evaluate f rounds) hm⟩

/-- A script that calls itself, inside of a loop and a block, until the limits stop it. -/
def Script.descending : String :=
  "int f(int n)\x7bfor(int i=0;i<9;i++)\x7bif(n>=0)return f(n+1);\x7dreturn 0;\x7d"

theorem frames_restored_descending :
    ∃ s, Script.compile .standard Script.descending = .ok s ∧
      (∃ p m, s.call 10 "f" [.int 0] (.fresh ⟨none, none, 5⟩) = .error (.fault ⟨.callDepthExceeded 5, p⟩) m) ∧
      (finalState (s.call 10 "f" [.int 0] (.fresh ⟨none, none, 5⟩))).isIdle = true ∧
      ∀ index arguments p, (s.setting.recordCall s.top 10 index arguments p).AtMost 5 (.fresh ⟨none, none, 5⟩) := by
  have hrun : (Script.compile .standard Script.descending).toOption.any (fun s =>
      Run.stopsWith (.callDepthExceeded 5) (fun _ => true) (s.call 10 "f" [.int 0] (.fresh ⟨none, none, 5⟩))) =
      true := by
    decide +kernel
  obtain ⟨s, hs, hrun⟩ := exists_ok_of_any hrun
  obtain ⟨p, m, hcall, -⟩ := exists_error_of_stopsWith hrun
  obtain ⟨-, -, -, hdepth, hidle⟩ := frames_restored s.setting 10 (.fresh ⟨none, none, 5⟩)
  exact ⟨s, hs, ⟨p, m, hcall⟩, (hidle rfl).2.1 s "f" [.int 0], fun index arguments p =>
    ((hdepth (Nat.zero_le _) s.top []).2.2 index arguments p).2⟩

end Scriptlet
