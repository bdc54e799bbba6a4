import Scriptlet.Session
import Scriptlet.Proofs.Compiled.Programs
import Scriptlet.Proofs.GuardedGlobals

/-!
# Typed globals

A host opens stores and contexts, defines globals, carries out requests and sets variables, in any order and in
any of the contexts. The value of a global is of the type of the global as long as no write has reached it through
a variable of a type that it does not accept. Such writes exist: an input of a formula is a variable of whatever
type the host says, and finds the global of its name.
-/

namespace Scriptlet

/-- The write that setting a variable is, if it succeeds. -/
def VariableRef.writes (classes : Hierarchy) (ref : VariableRef) (v : Value) (m : Machine) : List Write :=
  match ref.set classes v m with
  | .ok _ m' => [⟨ref, m'⟩]
  | .error _ _ => []

theorem VariableRef.guarded_of_set {classes : Hierarchy} (hwf : classes.WellFormed) (ref : VariableRef) (v : Value)
    {m : Machine} {log : List Write} (h : m.globals.Guarded classes log) :
    (finalState (ref.set classes v m)).globals.Guarded classes (ref.writes classes v m ++ log) := by
  unfold writes
  rw [ref.set_eq]
  by_cases haccepts : classes.accepts ref.declared v.runtimeType = true
  · rw [if_pos haccepts]
    cases hassign : m.assign? ref.name (v.coerce ref.declared) with
    | some m' => exact Machine.guarded_of_assign hwf h (Hierarchy.accepts_coerce haccepts) hassign
    | none => exact h
  · rw [if_neg haccepts]
    exact h

namespace Session

/-- The sessions that a host can bring about with one registry, each with the writes to variables that were made on
the way and the store that the context of the write was over, the newest first. What a run has changed stays also
if it fails. -/
inductive Reached (r : Registry) : Session → List (Nat × Write) → Prop
  | start (clock : Clock) : Reached r (.start clock) []
  | openStore {s : Session} {log : List (Nat × Write)} (h : Reached r s log) : Reached r s.openStore.2 log
  | openContext {s : Session} {log : List (Nat × Write)} (h : Reached r s log) (store : Nat) (limits : Limits)
      (output : Output) (traced : Bool) : Reached r (s.openContext store limits output traced).2 log
  | collect {s : Session} {log : List (Nat × Write)} (h : Reached r s log) (id : Nat) : Reached r (s.collect id).2 log
  | define {s s' : Session} {log : List (Nat × Write)} (h : Reached r s log) {id : Nat} {name : String} {ty : Ty}
      {v : Value} (hs : s.define r.classes id name ty v = .ok s') : Reached r s' log
  | request {s s' : Session} {log : List (Nat × Write)} (h : Reached r s log) {id : Nat} {c : Context}
      (hc : s.contexts[id]? = some c) {request : Request} (hr : request.registry = r) {rounds : Nat}
      {outcome : Except Interruption (Option Value)} (hs : s.run id (request.run rounds) = some (outcome, s')) :
      Reached r s' ((request.writes rounds (s.machine c)).map (c.store, ·) ++ log)
  | set {s s' : Session} {log : List (Nat × Write)} (h : Reached r s log) {id : Nat} {c : Context}
      (hc : s.contexts[id]? = some c) {ref : VariableRef} {v : Value} {outcome : Except Interruption Unit}
      (hs : s.run id (ref.set r.classes v) = some (outcome, s')) :
      Reached r s' ((ref.writes r.classes v (s.machine c)).map (c.store, ·) ++ log)

def writesTo (id : Nat) (log : List (Nat × Write)) : List Write :=
  (log.filter (·.1 = id)).map (·.2)

theorem writesTo_append (id : Nat) (log more : List (Nat × Write)) :
    writesTo id (more ++ log) = writesTo id more ++ writesTo id log := by
  simp [writesTo]

theorem writesTo_map (id store : Nat) (new : List Write) :
    writesTo id (new.map (store, ·)) = if store = id then new else [] := by
  by_cases h : store = id <;> simp [writesTo, h, List.filter_map, Function.comp_def]

variable {id : Nat} {s s' : Session}

theorem mem_writesTo {w : Write} {log : List (Nat × Write)} : w ∈ writesTo id log ↔ (id, w) ∈ log := by
  simp [writesTo]

theorem store_openStore (s : Session) (id : Nat) : s.openStore.2.store id = s.store id := by
  unfold Session.store Session.openStore
  rcases Nat.lt_trichotomy id s.stores.length with hlt | rfl | hgt
  · simp [List.getD_eq_getElem?_getD, List.getElem?_append_left hlt]
  · simp [List.getD_eq_getElem?_getD]
  · simp [List.getD_eq_getElem?_getD, List.getElem?_append_right (Nat.le_of_lt hgt),
      List.getElem?_eq_none (Nat.le_of_lt hgt), Nat.sub_ne_zero_of_lt hgt]

theorem stores_collect (s : Session) (id : Nat) : (s.collect id).2.stores = s.stores := by
  unfold Session.collect
  split <;> rfl

theorem eq_settle_of_run {α : Type} {c : Context} {action : Run α}
    {outcome : Except Interruption α} (hc : s.contexts[id]? = some c)
    (hs : s.run id action = some (outcome, s')) : s' = s.settle id c (finalState (action (s.machine c))) := by
  simp only [run, hc] at hs
  cases haction : action (s.machine c) <;> simp only [haction, Option.some.injEq, Prod.mk.injEq] at hs <;>
    rw [← hs.2] <;> rfl

theorem stores_of_run {α : Type} {c : Context} {action : Run α}
    {outcome : Except Interruption α} (hc : s.contexts[id]? = some c) (hs : s.run id action = some (outcome, s')) :
    s'.stores = s.stores.set c.store (finalState (action (s.machine c))).globals := by
  rw [eq_settle_of_run hc hs]
  rfl

theorem store_of_stores {store : Nat} {globals : Bindings} (h : s'.stores = s.stores.set store globals) (id : Nat) :
    s'.store id = s.store id ∨ (store = id ∧ s'.store id = globals) := by
  unfold Session.store
  rw [h, List.getD_eq_getElem?_getD, List.getD_eq_getElem?_getD, List.getElem?_set]
  by_cases hid : store = id
  · subst hid
    by_cases hlt : store < s.stores.length
    · exact .inr ⟨rfl, by simp [hlt]⟩
    · exact .inl (by simp [hlt])
  · exact .inl (by rw [if_neg hid])

/-- The stores are guarded by the writes that were made over them. -/
def Guarded (classes : Hierarchy) (log : List (Nat × Write)) (s : Session) : Prop :=
  ∀ id, (s.store id).Guarded classes (writesTo id log)

namespace Guarded

variable {classes : Hierarchy} {s s' : Session} {log : List (Nat × Write)}

theorem of_stores (h : s.Guarded classes log) (hstores : s'.stores = s.stores) : s'.Guarded classes log := by
  intro id
  unfold Session.store
  rw [hstores]
  exact h id

/-- If one store is replaced, only the writes over that store matter. -/
theorem replaced {store : Nat} {globals : Bindings} {new : List Write} (h : s.Guarded classes log)
    (hstores : s'.stores = s.stores.set store globals) (hglobals : globals.Guarded classes (new ++ writesTo store log)) :
    s'.Guarded classes (new.map (store, ·) ++ log) := by
  intro id
  rw [writesTo_append, writesTo_map]
  rcases store_of_stores hstores id with hsame | ⟨rfl, hreplaced⟩
  · rw [hsame]
    exact (h id).mono (List.subset_append_right _ _)
  · rw [hreplaced, if_pos rfl]
    exact hglobals

end Guarded

theorem Reached.guarded {r : Registry} {log : List (Nat × Write)} (hwf : r.classes.WellFormed)
    (h : Reached r s log) : s.Guarded r.classes log := by
  induction h with
  | start clock =>
    intro id entry hentry
    simp [Session.start, Session.store] at hentry
  | openStore _ ih =>
    intro id
    rw [store_openStore]
    exact ih id
  | openContext _ _ _ _ _ ih => exact ih.of_stores rfl
  | collect _ id ih => exact ih.of_stores (stores_collect _ id)
  | @define s s' log _ id name ty v hs ih =>
    obtain ⟨globals, hglobals, ⟨⟩⟩ := exists_ok_of_bind hs
    have hdefined : globals.Guarded r.classes ([] ++ writesTo id log) := (ih id).define hglobals
    exact ih.replaced rfl hdefined
  | @request s s' log _ id c hc request hr rounds outcome hs ih =>
    subst hr
    exact ih.replaced (stores_of_run hc hs) (request.guarded_of_run hwf rounds (ih c.store))
  | @set s s' log _ id c hc ref v outcome hs ih =>
    exact ih.replaced (stores_of_run hc hs) (ref.guarded_of_set hwf v (ih c.store))

end Session

/-- The value of a global is of the type of the global, unless a write over its store has strayed to it. -/
theorem globals_keep_types {r : Registry} (hr : r.Built) {s : Session} {log : List (Nat × Write)}
    (h : s.Reached r log) {id : Nat} {name : String} {b : Binding} (hb : (name, b) ∈ s.store id)
    (hstray : ∀ w, (id, w) ∈ log → ¬ w.Strays r.classes name b.ty) :
    r.classes.accepts b.ty b.value.runtimeType = true := by
  rcases h.guarded hr.wellFormed id (name, b) hb with hfits | ⟨w, hw, hstrays⟩
  · exact hfits
  · exact absurd hstrays (hstray w (Session.mem_writesTo.mp hw))

def Context.opened : Context :=
  ⟨0, [], [], ⟨"", none⟩, { (Limits.standard.monitor ⟨fun _ => 0, 0⟩).1 with journal := none }, .standard⟩

/-- A session with one context and one global, which is an `int`. -/
def Session.counting : Session where
  heap := .empty
  clock := (Limits.standard.monitor ⟨fun _ => 0, 0⟩).2
  stores := [[("x", ⟨.int, .int 1⟩)]]
  contexts := [.opened]

theorem Session.define_counting : ((start ⟨fun _ => 0, 0⟩).openStore.2.openContext 0 .standard ⟨"", none⟩ false).2.define
    Registry.standard.classes 0 "x" .int (.int 1) = .ok counting :=
  rfl

theorem Session.counting_reached : counting.Reached .standard [] := by
  have hopened := (Reached.start (r := .standard) ⟨fun _ => 0, 0⟩).openStore.openContext 0 .standard ⟨"", none⟩ false
  exact hopened.define define_counting

/-- The session after the value of a formula over `x` has been asked for, with the writes to variables. -/
def Session.afterFormula (source : String) (ty : Ty) : Option (Session × List (Nat × Write)) := do
  let formula ← (Formula.compile .standard source [⟨"x", ty⟩]).toOption
  let request := Request.evaluate formula
  let (_, s) ← counting.run 0 (request.run 10)
  return (s, (request.writes 10 (counting.machine .opened)).map (0, ·))

theorem Session.afterFormula_reached {source : String} {ty : Ty} {s : Session} {log : List (Nat × Write)}
    (h : afterFormula source ty = some (s, log)) : s.Reached .standard log := by
  obtain ⟨formula, hcompiled, h⟩ := Option.bind_eq_some_iff.mp h
  obtain ⟨⟨outcome, s'⟩, hrun, ⟨⟩⟩ := Option.bind_eq_some_iff.mp h
  have hregistry : (Request.evaluate formula).registry = .standard :=
    (Formula.checked_of_compile (eq_ok_of_toOption hcompiled)).1
  have hreached := counting_reached.request (c := .opened) rfl hregistry hrun
  rwa [List.append_nil] at hreached

theorem globals_keep_types_incremented : ∃ s log b, Session.Reached .standard s log ∧ log ≠ [] ∧
    ("x", b) ∈ s.store 0 ∧ (∀ w, (0, w) ∈ log → ¬ w.Strays Registry.standard.classes "x" b.ty) ∧
    Registry.standard.classes.accepts b.ty b.value.runtimeType = true := by
  have hrun : (Session.afterFormula "x+=1" .int).any (fun done => !done.2.isEmpty &&
      (done.1.store 0).any fun entry => entry.1 = "x" &&
        done.2.all fun w => Registry.standard.classes.accepts entry.2.ty w.2.ref.declared) = true := by
    decide +kernel
  cases hdone : Session.afterFormula "x+=1" .int with
  | none => simp [hdone] at hrun
  | some done =>
    obtain ⟨s, log⟩ := done
    rw [hdone, Option.any_some, Bool.and_eq_true, List.any_eq_true] at hrun
    obtain ⟨hwritten, ⟨name, b⟩, hb, haccepted⟩ := hrun
    simp only [Bool.and_eq_true, decide_eq_true_eq, List.all_eq_true] at haccepted
    obtain ⟨rfl, haccepted⟩ := haccepted
    have hreached := Session.afterFormula_reached hdone
    have hstray : ∀ w, (0, w) ∈ log → ¬ w.Strays Registry.standard.classes "x" b.ty := by
      intro w hw hstrays
      have hrefused := hstrays.refused
      rw [haccepted _ hw] at hrefused
      cases hrefused
    exact ⟨s, log, b, hreached, by simpa using hwritten, hb, hstray, globals_keep_types .standard hreached hb hstray⟩

/-- An input that is a `string` finds a global that is an `int`. -/
theorem text_in_int_global : ∃ s log b, Session.Reached .standard s log ∧ ("x", b) ∈ s.store 0 ∧
    Registry.standard.classes.accepts b.ty b.value.runtimeType = false := by
  have hrun : (Session.afterFormula "x=\"a\"" .string).any (fun done => (done.1.store 0).any fun entry =>
      entry.1 = "x" && !Registry.standard.classes.accepts entry.2.ty entry.2.value.runtimeType) = true := by
    decide +kernel
  cases hdone : Session.afterFormula "x=\"a\"" .string with
  | none => simp [hdone] at hrun
  | some done =>
    obtain ⟨s, log⟩ := done
    rw [hdone, Option.any_some, List.any_eq_true] at hrun
    obtain ⟨⟨name, b⟩, hb, hmisfit⟩ := hrun
    simp only [Bool.and_eq_true, decide_eq_true_eq, Bool.not_eq_true'] at hmisfit
    obtain ⟨rfl, hrefused⟩ := hmisfit
    exact ⟨s, log, b, Session.afterFormula_reached hdone, hb, hrefused⟩

end Scriptlet
