import Scriptlet.Proofs.StaticScoping
import Scriptlet.Proofs.TighterLimits

/-!
# Writes to globals

While a request is carried out, globals change in two ways. An assignment to a variable gives one of them another
value, and a declaration defines a new one. The record of the run tells of the assignments, each with the state right
after it. So a property of the globals and of the writes that were made holds after a request if it held before and is
kept up by a single write and by a single definition, however the request ends.
-/

namespace Scriptlet

/-- A write to a variable, and the state right after it. -/
structure Write where
  ref : VariableRef
  machine : Machine

def Moment.write? (t : Moment) : Option Write :=
  match t.happening with
  | .value e _ => e.assigned?.map (⟨·, t.machine⟩)
  | _ => none

def Chronicle.writes (c : Chronicle) : List Write :=
  c.moments.filterMap Moment.write?

/-- A property of globals and of the writes to variables that were made, which is kept up. It does not mind further
writes, it holds again when a value that a variable accepts has been written, and it holds when a new global has been
defined. -/
structure Upkeep (classes : Hierarchy) where
  holds : List Write → Bindings → Prop
  mono : ∀ {log more : List Write} {b : Bindings}, log ⊆ more → holds log b → holds more b
  assign : ∀ {log : List Write} {ref : VariableRef} {v : Value} {m m' : Machine}, holds log m.globals →
    classes.accepts ref.declared v.runtimeType = true → m.assign? ref.name v = some m' →
      holds (⟨ref, m'⟩ :: log) m'.globals
  define : ∀ {log : List Write} {b b' : Bindings} {name : String} {ty : Ty} {v : Value}, holds log b →
    b.lookup name = none → Bindings.define classes b name ty v = .ok b' → holds log b'

namespace Machine

variable {m m' : Machine} {name : String} {v : Value}

theorem Alike.site? (h : m.Alike m') (name : String) : m'.site? name = m.site? name := by
  rw [site?_eq, site?_eq, Bindings.locate?_congr h.scopes, topSite?_eq, topSite?_eq, h.members, h.globals]

/-- An assignment that reaches the globals does so because nothing nearer has the name. -/
theorem globals_assign (h : m.assign? name v = some m') :
    m'.globals = m.globals ∨ (m.globals.assign? name v = some m'.globals ∧
      ∀ found, m.globals.lookup name = some found → m'.site? name = some (.global, found.ty)) := by
  have halike := Alike.assign h
  have hscopes := Bindings.assignFirst?_isSome name v m.frame
  have hmembers := Bindings.assign?_isSome name v m.members
  have hframe : m.frames.headD [] = m.frame := rfl
  rw [assign?, hframe] at h
  split at h
  · cases h
    exact .inl rfl
  · next hnoScope =>
    split at h
    · cases h
      exact .inl rfl
    · next hnoMember =>
      obtain ⟨globals, hglobals, rfl⟩ := Option.map_eq_some_iff.mp h
      refine .inr ⟨hglobals, fun found hfound => ?_⟩
      rw [hnoScope, Option.isSome_none, eq_comm, Option.isSome_eq_false_iff, Option.isNone_iff_eq_none] at hscopes
      rw [hnoMember, Option.isSome_none, eq_comm, Option.isSome_eq_false_iff, Option.isNone_iff_eq_none] at hmembers
      rw [halike.site?, Machine.site?, locate?, top?, hscopes, hmembers, hfound]
      rfl

end Machine

namespace Run

/-- A computation that does not touch the globals. -/
def SparesGlobals {α : Type} (x : Run α) : Prop :=
  ∀ m : Machine, (finalState (x m)).globals = m.globals

namespace SparesGlobals

variable {α : Type}

theorem of_tame {x : Run α} (h : x.Tame) : SparesGlobals x := by
  intro m
  obtain ⟨world, hworld⟩ := h.still m
  rw [hworld]

theorem fail (fault : Fault) (p : Position) : SparesGlobals (Run.fail fault p : Run α) :=
  fun _ => rfl

theorem located (p : Position) (r : Except Fault α) : SparesGlobals (Run.located p r) := by
  cases r <;> exact fun _ => rfl

theorem host (p : Position) (action : Host α) : SparesGlobals (Run.host p action) := by
  intro m
  unfold Run.host
  cases action m.world <;> rfl

theorem checkpoint (e : Event) (p : Position) : SparesGlobals (Run.checkpoint e p) := by
  intro m
  rw [Run.checkpoint_eq]
  cases (m.check e).1 <;> rfl

theorem enterCall (p : Position) : SparesGlobals (Run.enterCall p) := by
  intro m
  rw [Run.enterCall_eq]
  split
  · rfl
  · exact checkpoint _ p m

theorem begin : SparesGlobals Run.begin := by
  intro m
  change (if m.isIdle then m.resetMonitor else m).globals = _
  split <;> rfl

theorem slot_read (p : Position) (slot : Slot) : SparesGlobals (slot.read p) := by
  cases slot with
  | «variable» ref =>
    intro m
    change (finalState (ref.get m)).globals = _
    rw [ref.get_eq]
    cases m.lookup ref.name <;> rfl
  | item _ address index => exact of_tame (.item p address index)
  | entry key value address k => exact of_tame (.entry p key value address k)

theorem slot_write {classes : Hierarchy} {p : Position} {slot : Slot} {v : Value} (h : slot.ref? = none) :
    SparesGlobals (slot.write classes p v) := by
  cases slot with
  | «variable» ref => cases h
  | item element address index => exact of_tame (.item_write classes p element address index v)
  | entry key value address k => exact of_tame (.entry_write classes p key value address k v)

theorem declare (name : String) (ty : Ty) (v : Value) : SparesGlobals (Run.declare name ty v) := by
  intro m
  change (m.declare name ⟨ty, v⟩).globals = m.globals
  unfold Machine.declare
  split <;> rfl

end SparesGlobals

end Run

/-- The property holds of the globals and of earlier writes, those of the record, and one that has just been made but
not yet been written down. -/
def Chronicle.Guards {classes : Hierarchy} (P : Upkeep classes) (log : List Write) (pending : Option VariableRef)
    (c : Chronicle) : Prop :=
  P.holds ((pending.map fun ref => Write.mk ref c.machine).toList ++ (c.writes ++ log)) c.machine.globals

namespace Chronicle.Guards

variable {classes : Hierarchy} {P : Upkeep classes} {log : List Write} {pending : Option VariableRef} {c : Chronicle}

theorem expecting (h : c.Guards P log none) : c.Guards P log pending :=
  P.mono (List.subset_append_right _ _) h

theorem onMachine {m : Machine} (h : c.Guards P log none) (hm : m.globals = c.machine.globals) :
    Guards P log none { c with machine := m } := by
  unfold Guards
  rw [hm]
  exact h

theorem writes_noted (c : Chronicle) (t : Moment) :
    writes { c with moments := t :: c.moments } = t.write?.toList ++ c.writes := by
  unfold writes
  rw [List.filterMap_cons]
  cases t.write? <;> rfl

theorem noted (h : c.Guards P log none) (happening : Happening) :
    Guards P log none { c with moments := ⟨c.machine, happening⟩ :: c.moments } := by
  refine P.mono ?_ h
  rw [writes_noted, List.append_assoc]
  exact List.append_subset.mpr ⟨List.nil_subset _, List.subset_append_right _ _⟩

theorem valued {e : Expr} (h : c.Guards P log e.assigned?) (v : Value) :
    Guards P log none { c with moments := ⟨c.machine, .value e v⟩ :: c.moments } := by
  refine P.mono ?_ h
  rw [writes_noted, List.append_assoc]
  exact fun _ hw => hw

end Chronicle.Guards

namespace Recorded

/-- A computation that keeps the property up, however it ends. If it succeeds, a write to the given
variable may be left to be written down. -/
def Guards {α : Type} {classes : Hierarchy} (P : Upkeep classes) (pending : Option VariableRef) (x : Recorded α) :
    Prop :=
  ∀ (log : List Write) (c : Chronicle), c.Guards P log none →
    (∀ a c', x c = .ok a c' → c'.Guards P log pending) ∧
      ∀ e c', x c = .error e c' → c'.Guards P log none

namespace Guards

variable {α β : Type} {classes : Hierarchy} {P : Upkeep classes} {log : List Write} {pending : Option VariableRef}

theorem of_finalState {x : Recorded α}
    (h : ∀ log c, c.Guards P log none → (finalState (x c)).Guards P log none) :
    Guards P pending x := by
  intro log c hc
  have hfinal := h log c hc
  refine ⟨fun a c' hx => ?_, fun e c' hx => ?_⟩
  · rw [hx] at hfinal
    exact hfinal.expecting
  · rwa [hx] at hfinal

theorem finalState {x : Recorded α} (h : Guards P none x) {c : Chronicle} (hc : c.Guards P log none) :
    (Scriptlet.finalState (x c)).Guards P log none := by
  cases hx : x c with
  | ok a c' => exact (h log c hc).1 a c' hx
  | error e c' => exact (h log c hc).2 e c' hx

theorem pure (a : α) : Guards P pending (Pure.pure a : Recorded α) :=
  .of_finalState fun _ _ hc => hc

theorem throw (e : Interruption) : Guards P pending (MonadExcept.throw e : Recorded α) :=
  .of_finalState fun _ _ hc => hc

theorem bind_of {R : α → Prop} {x : Recorded α} {f : α → Recorded β} (hx : Guards P none x)
    (hR : Gives R x) (hf : ∀ a, R a → Guards P pending (f a)) : Guards P pending (x >>= f) := by
  intro log c hc
  change (∀ a c', EStateM.bind x f c = .ok a c' → _) ∧ ∀ e c', EStateM.bind x f c = .error e c' → _
  unfold EStateM.bind
  cases hxc : x c with
  | ok a c₁ => exact hf a (hR c a c₁ hxc) log c₁ ((hx log c hc).1 a c₁ hxc)
  | error e c₁ =>
    refine ⟨by simp, ?_⟩
    rintro _ _ ⟨⟩
    exact (hx log c hc).2 e c₁ hxc

theorem bind {x : Recorded α} {f : α → Recorded β} (hx : Guards P none x)
    (hf : ∀ a, Guards P pending (f a)) : Guards P pending (x >>= f) :=
  hx.bind_of (R := fun _ => True) (fun _ _ _ _ => trivial) fun a _ => hf a

theorem map {x : Recorded α} (hx : Guards P pending x) (g : α → β) :
    Guards P pending (x >>= fun a => Pure.pure (g a)) := by
  intro log c hc
  change (∀ a c', EStateM.bind x _ c = .ok a c' → _) ∧ ∀ e c', EStateM.bind x _ c = .error e c' → _
  unfold EStateM.bind
  cases hxc : x c with
  | ok a c₁ =>
    refine ⟨?_, by rintro _ _ ⟨⟩⟩
    rintro _ _ ⟨⟩
    exact (hx log c hc).1 a c₁ hxc
  | error e c₁ =>
    refine ⟨by simp, ?_⟩
    rintro _ _ ⟨⟩
    exact (hx log c hc).2 e c₁ hxc

theorem quietly {x : Run α} (h : x.SparesGlobals) : Guards P pending (Recorded.quietly x) := by
  refine .of_finalState fun log c hc => ?_
  have hm := h c.machine
  unfold Recorded.quietly
  cases hx : x c.machine with
  | ok a m =>
    rw [hx] at hm
    exact hc.onMachine hm
  | error e m =>
    rw [hx] at hm
    exact hc.onMachine hm

theorem note (happening : Happening) : Guards P pending (Recorded.note happening) :=
  .of_finalState fun _ _ hc => hc.noted happening

theorem giving {e : Expr} {x : Recorded Value} (hx : Guards P e.assigned? x) :
    Guards P pending (Recorded.giving e x) := by
  refine .of_finalState fun log c hc => ?_
  change (Scriptlet.finalState (EStateM.bind x _ c)).Guards P log none
  unfold EStateM.bind
  cases hxc : x c with
  | ok v c' => exact ((hx log c hc).1 v c' hxc).valued v
  | error i c' => exact (hx log c hc).2 i c' hxc

theorem bracket {before after : Machine → Machine} {x : Recorded α} (hx : Guards P none x)
    (hbefore : ∀ m, (before m).globals = m.globals) (hafter : ∀ m, (after m).globals = m.globals) :
    Guards P pending (Recorded.bracket before after x) := by
  refine .of_finalState fun log c hc => ?_
  rw [Keeps.finalState_bracket]
  exact (hx.finalState (hc.onMachine (hbefore _))).onMachine (hafter _)

theorem inScope {x : Recorded α} (hx : Guards P none x) : Guards P pending (Recorded.inScope x) := by
  refine hx.bracket (fun m => ?_) fun m => ?_
  · unfold Machine.pushScope
    split <;> rfl
  · unfold Machine.popScope
    split <;> rfl

theorem inFrame {x : Recorded α} (hx : Guards P none x) : Guards P pending (Recorded.inFrame x) :=
  hx.bracket (fun _ => rfl) fun _ => rfl

theorem checkpoint (e : Event) (p : Position) : Guards P pending (Recorded.checkpoint e p) :=
  (quietly (.checkpoint e p)).bind fun _ => note _

theorem enterCall (p : Position) : Guards P pending (Recorded.enterCall p) :=
  (quietly (.enterCall p)).bind fun _ => note _

theorem declare (name : String) (origin : Origin) (ty : Ty) (v : Value) :
    Guards P pending (Recorded.declare name origin ty v) :=
  (note _).bind fun _ => quietly (.declare name ty v)

theorem access (visible : Lexical) (slot : Slot) : Guards P pending (Recorded.access visible slot) := by
  cases slot with
  | «variable» ref => exact note _
  | item => exact pure ()
  | entry => exact pure ()

theorem read (visible : Lexical) (p : Position) (slot : Slot) :
    Guards P pending (Recorded.read visible p slot) :=
  (access visible slot).bind fun _ => quietly (.slot_read p slot)

theorem write (visible : Lexical) (p : Position) (slot : Slot) (v : Value) :
    Guards P slot.ref? (Recorded.write visible classes p slot v) := by
  refine (access visible slot).bind fun _ => ?_
  cases slot with
  | item => exact quietly (.slot_write rfl)
  | entry => exact quietly (.slot_write rfl)
  | «variable» ref =>
    intro log c hc
    unfold Recorded.quietly
    rw [Slot.write_variable_eq]
    by_cases haccepts : classes.accepts ref.declared (v.coerce ref.declared).runtimeType = true
    · rw [if_pos haccepts, Value.coerce_coerce]
      cases hassign : c.machine.assign? ref.name (v.coerce ref.declared) with
      | some m =>
        refine ⟨?_, by rintro _ _ ⟨⟩⟩
        rintro _ _ ⟨⟩
        exact P.assign hc haccepts hassign
      | none =>
        refine ⟨by rintro _ _ ⟨⟩, ?_⟩
        rintro _ _ ⟨⟩
        exact hc
    · rw [if_neg haccepts]
      refine ⟨by rintro _ _ ⟨⟩, ?_⟩
      rintro _ _ ⟨⟩
      exact hc

end Guards

end Recorded

open Recorded Run.SparesGlobals

def RecordedInvoke.Guards {classes : Hierarchy} (P : Upkeep classes) (invoke : RecordedInvoke) : Prop :=
  ∀ index arguments p, Recorded.Guards P none (invoke index arguments p)

variable {s : Setting} {P : Upkeep s.classes}

def Upkeep.concord (P : Upkeep s.classes) (rounds : Nat) : Concord s where
  inner pending x _ := Guards P pending x
  outer x _ := Guards P none x
  seen _ _ := True
  rounds := rounds
  rounds' := rounds
  loops := True
  pure := .pure
  bind := .bind
  place hx hgives _ hf := hx.bind_of hgives fun slot hslot => hslot ▸ hf slot fun _ _ => trivial
  map f hx := hx.map f
  quietly h := .quietly (of_tame h)
  giving := .giving
  read visible p slot _ := .read visible p slot
  write visible p slot v _ := .write visible p slot v
  weaken := id
  andThen := .bind
  repeatWhile e p _ hcondition hbody hafter :=
    repeatWhile_of (R := fun x => Guards P none x) .pure .bind (.throw _) hcondition (.checkpoint e p) hbody hafter
      rounds
  checkpoint := .checkpoint
  declare := .declare
  inScope := .inScope

theorem Upkeep.concord_permits (P : Upkeep s.classes) {rounds : Nat} (e : Expr) (visible : Lexical) :
    e.All ((P.concord rounds).Permits visible) :=
  .of_forall (fun e => ⟨by cases e <;> first | trivial | exact fun p _ => Guards.quietly (.host p _),
    fun _ _ => trivial⟩) e

theorem RecordedInvoke.Guards.calls {invoke : RecordedInvoke} {rounds : Nat} (hi : invoke.Guards P) :
    (P.concord rounds).Calls invoke fun _ _ _ => Pure.pure .null :=
  hi

theorem Setting.recordInvoke_guards (top : Lexical) (rounds depth : Nat) :
    (s.recordInvoke top rounds depth).Guards P := by
  induction depth with
  | zero =>
    intro index arguments p
    rw [Setting.recordInvoke]
    exact .quietly fun _ => rfl
  | succ depth ih =>
    intro index arguments p
    cases hf : s.functions[index]? with
    | none =>
      simp only [Setting.recordInvoke, hf]
      exact .quietly (fail _ _)
    | some f =>
      simp only [Setting.recordInvoke, hf]
      exact Function.record_related (C := P.concord rounds)
        (fun p _ hx => (Guards.enterCall p).bind fun _ => .inFrame <| (Guards.note _).bind fun _ => hx) index f
        (Statement.recordAll_related ih.calls f.body _ ⟨fun e _ => P.concord_permits e, fun _ => trivial⟩) arguments p

theorem Setting.recordCall_guards (top : Lexical) (rounds index : Nat)
    (arguments : List Value) (p : Position) :
    Guards P none (s.recordCall top rounds index arguments p) :=
  fun log c => s.recordInvoke_guards top rounds _ index arguments p log c

theorem Setting.recordEvaluate_guards (top visible : Lexical) (rounds : Nat) (e : Expr) :
    Guards P none (s.recordEvaluate top visible rounds e) :=
  fun log c => e.record_related (C := P.concord rounds) (s.recordInvoke_guards top rounds _).calls visible
    (P.concord_permits e visible) log c

namespace Declaration

theorem recordInitial_guards (top visible : Lexical) (rounds : Nat) (d : Declaration) :
    Guards P none (d.recordInitial s top visible rounds) := by
  unfold recordInitial
  cases d.initial with
  | none => exact .pure _
  | some e => exact (s.recordEvaluate_guards top visible rounds e).bind fun _ => .pure _

/-- A declaration defines a global only if there is none of its name, also when the initial value is there. -/
theorem recordGlobal_guards {top visible : Lexical} {rounds : Nat} {d : Declaration} {log : List Write} {c : Chronicle}
    (hc : c.Guards P log none) (hnone : c.machine.globals.lookup d.name = none) :
    (finalState (d.recordGlobal s top visible rounds c)).Guards P log none := by
  unfold recordGlobal
  refine finalState_bind_of (Chronicle.Guards P log none) ((d.recordInitial_guards top visible rounds).finalState hc)
    fun v c₁ hv hinitial => ?_
  have hnone₁ := absent_of_recordInitial hv hnone
  simp only [Recorded.quietly, Run.define_eq]
  cases hdefined : Bindings.define s.classes c₁.machine.globals d.name d.ty v with
  | ok globals => exact P.define hinitial hnone₁ hdefined
  | error fault => exact hinitial

theorem record_guards (top visible : Lexical) (rounds : Nat) (d : Declaration) :
    Guards P none (d.record s top visible rounds) := by
  refine .of_finalState fun log c hc => ?_
  change (finalState (d.recordGiven s top visible rounds ((c.machine.globals.lookup d.name).map (·.ty)) c)).Guards P
    log none
  have hkept : ∀ {x : Recorded Unit}, Guards P none x → (finalState (x c)).Guards P log none := fun h => h.finalState hc
  generalize hglobal : (c.machine.globals.lookup d.name).map (·.ty) = existing
  unfold recordGiven
  cases d.storage with
  | member =>
    exact hkept <| (d.recordInitial_guards top visible rounds).bind fun _ => (Guards.note _).bind fun _ =>
      .quietly fun _ => rfl
  | shared =>
    cases existing with
    | none => exact recordGlobal_guards hc (Option.map_eq_none_iff.mp hglobal)
    | some ty =>
      dsimp only
      split
      · exact hc
      · exact hkept (.quietly (fail _ _))
  | required =>
    cases existing with
    | none =>
      dsimp only
      split
      · exact hkept (.quietly (fail _ _))
      · exact recordGlobal_guards hc (Option.map_eq_none_iff.mp hglobal)
    | some ty =>
      dsimp only
      split
      · exact hc
      · exact hkept (.quietly (fail _ _))

theorem recordAll_guards (top : Lexical) (rounds : Nat) (declarations : List Declaration) (visible : Lexical) :
    Guards P none (Declaration.recordAll s top rounds visible declarations) := by
  induction declarations generalizing visible with
  | nil => exact .pure _
  | cons d rest ih => exact (d.record_guards top visible rounds).bind fun _ => ih _

end Declaration

namespace Request

def registry : Request → Registry
  | .prepare script => script.registry
  | .call script _ _ => script.registry
  | .evaluate formula => formula.registry

def writes (request : Request) (rounds : Nat) (m : Machine) : List Write :=
  (finalState (request.record rounds ⟨m, []⟩)).writes

theorem record_guards {request : Request} {P : Upkeep request.registry.classes} (rounds : Nat) :
    Guards P none (request.record rounds) := by
  cases request with
  | prepare script =>
    have hall : Guards P none (Declaration.recordAll script.setting script.top rounds [] script.program.declarations) :=
      Declaration.recordAll_guards (s := script.setting) script.top rounds script.program.declarations []
    exact ((Guards.quietly begin).bind fun _ => hall).bind fun _ => .pure _
  | call script name arguments =>
    exact (Guards.quietly (located _ _)).bind fun _ => (Guards.quietly begin).bind fun _ =>
      (Setting.recordCall_guards (s := script.setting) _ _ _ _ _).bind fun _ => .pure _
  | evaluate formula =>
    have hexpr : Guards P none (Setting.recordEvaluate ⟨formula.registry.classes, []⟩ [] [] rounds formula.expr) :=
      Setting.recordEvaluate_guards (s := ⟨formula.registry.classes, []⟩) [] [] rounds formula.expr
    exact ((Guards.quietly begin).bind fun _ => hexpr).bind fun _ => .pure _

/-- What holds of the globals and of earlier writes holds after a request, its own writes being the newest. -/
theorem holds_of_run {request : Request} (P : Upkeep request.registry.classes) (rounds : Nat) {m : Machine}
    {log : List Write} (h : P.holds log m.globals) :
    P.holds (request.writes rounds m ++ log) (finalState (request.run rounds m)).globals := by
  have hfinal := (request.record_guards (P := P) rounds).finalState (c := ⟨m, []⟩) h
  rw [← (request.record_erases rounds).finalState ⟨m, []⟩]
  exact hfinal

end Request

end Scriptlet
