import Mathlib.Logic.Relation
import Scriptlet.Proofs.Scoping.Preparation
import Scriptlet.Proofs.TypedGlobals

/-!
# Lasting globals

Whatever a host does with a session, a global that is there once stays, and keeps its type. A script that has been
prepared therefore finds the globals it has declared from then on, also those that other contexts over the same store
have defined before. The preparation itself leaves the globals that it finds alone: only an assignment that is carried
out while an initial value is evaluated gives one of them another value.
-/

namespace Scriptlet

/-- A write that found a global of this name and left it as it is here. -/
structure Write.Leaves (name : String) (b : Binding) (w : Write) : Prop where
  named : w.ref.name = name
  found : w.machine.site? name = some (.global, b.ty)
  left : w.machine.globals.lookup name = some b

namespace Bindings

variable {old b b' : Bindings} {log more : List Write} {name : String} {v : Value}

/-- The names are all bound again, with the types they had. -/
def Stay (b b' : Bindings) : Prop :=
  ∀ name ty, b.shape.lookup name = some ty → b'.shape.lookup name = some ty

/-- The old names are all bound with the types they had. A value is the old one, or one of the writes has left it. -/
def Traced (old : Bindings) (log : List Write) (b : Bindings) : Prop :=
  ∀ name found, old.lookup name = some found → ∃ now, b.lookup name = some now ∧ now.ty = found.ty ∧
    (now.value = found.value ∨ ∃ w ∈ log, w.Leaves name now)

theorem lookup_assign (h : b.assign? name v = some b') (other : String) :
    b'.lookup other = if other = name then (b.lookup name).map ({ · with value := v }) else b.lookup other := by
  induction b generalizing b' with
  | nil => cases h
  | cons first rest ih =>
    obtain ⟨key, found⟩ := first
    rw [assign?] at h
    by_cases hkey : key = name
    · subst hkey
      rw [if_pos rfl, Option.some.injEq] at h
      subst h
      by_cases hother : other = key
      · simp [hother]
      · simp [List.lookup_cons, hother, beq_eq_false_iff_ne.mpr hother]
    · rw [if_neg hkey] at h
      obtain ⟨rest', hrest', rfl⟩ := Option.map_eq_some_iff.mp h
      have hrest := ih hrest'
      have hskip : List.lookup name ((key, found) :: rest) = rest.lookup name := by
        rw [List.lookup_cons, beq_eq_false_iff_ne.mpr (Ne.symm hkey)]
      rw [hskip, List.lookup_cons, List.lookup_cons, hrest]
      by_cases hother : other = key
      · subst hother
        simp [hkey]
      · simp [beq_eq_false_iff_ne.mpr hother]

namespace Stay

theorem refl (b : Bindings) : b.Stay b :=
  fun _ _ => id

theorem of_shape (h : b'.shape = b.shape) : b.Stay b' :=
  fun _ _ hty => h ▸ hty

theorem define {classes : Hierarchy} {ty : Ty} (h : Bindings.define classes b name ty v = .ok b') : b.Stay b' := by
  obtain ⟨kept, hkept, -, rfl⟩ := put_of_define h
  intro other ty hty
  rw [shape_put]
  split
  · next heq =>
    rw [heq, lookup_shape] at hty
    rw [hkept, hty, Option.getD_some]
  · exact hty

end Stay

namespace Traced

theorem refl (b : Bindings) : b.Traced [] b :=
  fun _ found hfound => ⟨found, hfound, rfl, .inl rfl⟩

theorem stay (h : old.Traced log b) : old.Stay b := by
  intro name ty hty
  rw [lookup_shape] at hty
  obtain ⟨found, hfound, rfl⟩ := Option.map_eq_some_iff.mp hty
  obtain ⟨now, hnow, hsame, -⟩ := h name found hfound
  rw [lookup_shape, hnow, Option.map_some, hsame]

theorem mono (h : old.Traced log b) (hlog : log ⊆ more) : old.Traced more b := by
  intro name found hfound
  obtain ⟨now, hnow, hty, hvalue⟩ := h name found hfound
  refine ⟨now, hnow, hty, hvalue.imp_right ?_⟩
  rintro ⟨w, hw, hleaves⟩
  exact ⟨w, hlog hw, hleaves⟩

theorem assign {ref : VariableRef} {m m' : Machine} (h : old.Traced log m.globals)
    (hassign : m.assign? ref.name v = some m') : old.Traced (⟨ref, m'⟩ :: log) m'.globals := by
  have hmore : log ⊆ ⟨ref, m'⟩ :: log := List.subset_cons_self _ _
  rcases Machine.globals_assign hassign with hsame | ⟨hglobals, hsite⟩
  · rw [hsame]
    exact h.mono hmore
  intro name found hfound
  by_cases hname : name = ref.name
  · subst hname
    obtain ⟨now, hnow, hty, -⟩ := h _ found hfound
    have hleft : m'.globals.lookup ref.name = some { now with value := v } := by
      rw [lookup_assign hglobals, if_pos rfl, hnow, Option.map_some]
    exact ⟨_, hleft, hty, .inr ⟨_, List.mem_cons_self, rfl, hsite now hnow, hleft⟩⟩
  · obtain ⟨now, hnow, hrest⟩ := h.mono hmore name found hfound
    exact ⟨now, by rw [lookup_assign hglobals, if_neg hname, hnow], hrest⟩

theorem define {classes : Hierarchy} {ty : Ty} (h : old.Traced log b) (hnone : b.lookup name = none)
    (hdefined : Bindings.define classes b name ty v = .ok b') : old.Traced log b' := by
  obtain rfl := define_new hnone hdefined
  intro other found hfound
  obtain ⟨now, hnow, hrest⟩ := h other found hfound
  have hother : other ≠ name := by
    rintro rfl
    rw [hnone] at hnow
    cases hnow
  exact ⟨now, by rw [lookup_put, if_neg hother, hnow], hrest⟩

end Traced

end Bindings

/-- What has become of some globals is kept up by what is written and what is defined. -/
def Upkeep.traced (classes : Hierarchy) (old : Bindings) : Upkeep classes where
  holds log b := old.Traced log b
  mono hlog h := h.mono hlog
  assign h _ hassign := h.assign hassign
  define h hnone hdefined := h.define hnone hdefined

/-- A request leaves the globals that it finds, apart from the values that its own writes leave. -/
theorem Request.traced_of_run (request : Request) (rounds : Nat) (m : Machine) :
    m.globals.Traced (request.writes rounds m) (finalState (request.run rounds m)).globals := by
  have h := request.holds_of_run (.traced _ m.globals) rounds (Bindings.Traced.refl m.globals)
  rwa [List.append_nil] at h

theorem Script.traced_of_prepare (script : Script) (rounds : Nat) (m : Machine) :
    m.globals.Traced ((Request.prepare script).writes rounds m) (finalState (script.prepare rounds m)).globals := by
  have h := (Request.prepare script).traced_of_run rounds m
  have hsame : finalState ((Request.prepare script).run rounds m) = finalState (script.prepare rounds m) := by
    change finalState ((script.prepare rounds >>= fun _ => pure none) m) = _
    rw [finalState_bind]
    cases script.prepare rounds m <;> rfl
  rwa [hsame] at h

namespace Declaration

variable {s : Setting} {top visible : Lexical} {rounds : Nat} {d : Declaration} {declarations : List Declaration}
  {c c' : Chronicle} {u : Unit} {k : Checking} {name : String}

/-- What is declared is there with its type: a member among the members, and a variable that is shared with the host
among the globals. -/
structure Present (d : Declaration) (m : Machine) : Prop where
  member : d.storage = .member → m.members.shape.lookup d.name = some d.ty
  shared : d.storage ≠ .member → m.globals.shape.lookup d.name = some d.ty

structure Untouched (name : String) (m m' : Machine) : Prop where
  members : m'.members.shape.lookup name = m.members.shape.lookup name
  globals : m'.globals.shape.lookup name = m.globals.shape.lookup name

theorem Untouched.trans {m m' m'' : Machine} (h : Untouched name m m') (h' : Untouched name m' m'') :
    Untouched name m m'' :=
  ⟨h'.members.trans h.members, h'.globals.trans h.globals⟩

theorem Present.untouched {m m' : Machine} (h : d.Present m) (hsame : Untouched d.name m m') : d.Present m' :=
  ⟨fun hstorage => hsame.members.trans (h.member hstorage), fun hstorage => hsame.globals.trans (h.shared hstorage)⟩

theorem present_of_record (h : d.record s top visible rounds c = .ok u c') : d.Present c'.machine := by
  cases effect_of_record h with
  | member hstorage _ => exact ⟨fun _ => by rw [Bindings.shape_put, if_pos rfl], fun hne => absurd hstorage hne⟩
  | existing hstorage hfound => exact ⟨fun hmember => absurd hmember hstorage, fun _ => hfound⟩
  | defined hstorage _ _ =>
    exact ⟨fun hmember => absurd hmember hstorage, fun _ => by rw [Bindings.shape_put, if_pos rfl]⟩

theorem untouched_of_record (hname : name ≠ d.name) (h : d.record s top visible rounds c = .ok u c') :
    Untouched name c.machine c'.machine := by
  have hinitial : ∀ v c₁, d.recordInitial s top visible rounds c = .ok v c₁ →
      Untouched name c.machine c₁.machine := by
    intro v c₁ hv
    have hk := d.recordInitial_keeps s top visible rounds c
    rw [hv, finalState_ok] at hk
    exact ⟨by rw [hk.members (Nat.succ_pos _)], by rw [hk.globals]⟩
  cases effect_of_record h with
  | @member v c₁ _ hv => exact (hinitial v c₁ hv).trans ⟨by rw [Bindings.shape_put, if_neg hname], rfl⟩
  | existing => exact ⟨rfl, rfl⟩
  | @defined v c₁ _ _ hv => exact (hinitial v c₁ hv).trans ⟨rfl, by rw [Bindings.shape_put, if_neg hname]⟩

theorem untouched_of_recordAll (hname : ∀ d ∈ declarations, name ≠ d.name)
    (h : recordAll s top rounds visible declarations c = .ok u c') : Untouched name c.machine c'.machine := by
  induction declarations generalizing visible c with
  | nil =>
    cases h
    exact ⟨rfl, rfl⟩
  | cons d rest ih =>
    obtain ⟨_, c₁, hd, h⟩ := ok_of_bind h
    obtain ⟨hfirst, hrest⟩ := List.forall_mem_cons.mp hname
    exact (untouched_of_record hfirst hd).trans (ih hrest h)

theorem present_of_recordAll (hchecked : AllChecked k visible declarations)
    (h : recordAll s top rounds visible declarations c = .ok u c') : ∀ d ∈ declarations, d.Present c'.machine := by
  induction declarations generalizing visible c with
  | nil => simp
  | cons d rest ih =>
    obtain ⟨-, -, hrest⟩ := hchecked
    obtain ⟨_, c₁, hd, h⟩ := ok_of_bind h
    -- no declaration after this one has its name
    have hlater : ∀ other ∈ rest, d.name ≠ other.name := by
      intro other hother hname
      have hfresh := hrest.fresh other hother
      rw [hname, List.lookup_cons, beq_self_eq_true] at hfresh
      cases hfresh
    refine List.forall_mem_cons.mpr ⟨?_, ih hrest h⟩
    exact (present_of_record hd).untouched (untouched_of_recordAll hlater h)

end Declaration

theorem Script.present_of_prepare {r : Registry} {script : Script} (hchecked : script.program.Checked r) {rounds : Nat}
    {m m' : Machine} (h : script.prepare rounds m = .ok () m') :
    ∀ d ∈ script.program.declarations, d.Present m' := by
  have herases := script.recordPrepare_erases rounds ⟨m, []⟩
  rw [h] at herases
  cases hrecord : script.recordPrepare rounds ⟨m, []⟩ with
  | error e c => simp [hrecord, mapState] at herases
  | ok u c =>
    simp only [hrecord, mapState, EStateM.Result.ok.injEq, true_and] at herases
    subst herases
    obtain ⟨_, c₁, -, hall⟩ := ok_of_bind hrecord
    exact Declaration.present_of_recordAll hchecked.declarations hall

/-- Gives the nearest variable of a name another value, without a look at its type, and tells whether there is one. -/
def Run.assign (name : String) (v : Value) : Run Bool :=
  modifyGet fun m => ((m.assign? name v).isSome, (m.assign? name v).getD m)

theorem Run.assign_shapely (name : String) (v : Value) : Run.Shapely (Run.assign name v) := by
  intro m
  change m.Alike ((m.assign? name v).getD m)
  cases hassign : m.assign? name v with
  | some m' => exact .assign hassign
  | none => exact .refl m

namespace Session

/-- One thing that a host may do. What a run has changed stays also if it fails, and a definition that fails changes
nothing. Scripts, formulas and variables may come from different registries. -/
inductive Step : Session → Session → Prop
  | openStore (s : Session) : Step s s.openStore.2
  | openContext {s : Session} {store : Nat} (h : store < s.stores.length) (limits : Limits) (output : Output)
      (traced : Bool) : Step s (s.openContext store limits output traced).2
  | collect (s : Session) (id : Nat) : Step s (s.collect id).2
  | define {s s' : Session} {classes : Hierarchy} {id : Nat} {name : String} {ty : Ty} {v : Value}
      (hs : s.define classes id name ty v = .ok s') : Step s s'
  | request {s s' : Session} {id : Nat} {request : Request} {rounds : Nat}
      {outcome : Except Interruption (Option Value)} (hs : s.run id (request.run rounds) = some (outcome, s')) :
      Step s s'
  | set {s s' : Session} {id : Nat} {classes : Hierarchy} {ref : VariableRef} {v : Value}
      {outcome : Except Interruption Unit} (hs : s.run id (ref.set classes v) = some (outcome, s')) : Step s s'
  | assign {s s' : Session} {id : Nat} {name : String} {v : Value} {outcome : Except Interruption Bool}
      (hs : s.run id (Run.assign name v) = some (outcome, s')) : Step s s'

/-- What a host may do, one thing after the other. -/
abbrev Steps : Session → Session → Prop :=
  Relation.ReflTransGen Step

variable {s s' : Session} {α : Type} {id : Nat} {c : Context} {action : Run α} {outcome : Except Interruption α}

theorem stay_of_run (hs : s.run id action = some (outcome, s'))
    (haction : ∀ m : Machine, m.globals.Stay (finalState (action m)).globals) (store : Nat) :
    (s.store store).Stay (s'.store store) := by
  cases hc : s.contexts[id]? with
  | none => simp [run, hc] at hs
  | some c =>
    rcases store_of_stores (stores_of_run hc hs) store with hsame | ⟨rfl, hreplaced⟩
    · rw [hsame]
      exact .refl _
    · rw [hreplaced]
      exact haction (s.machine c)

theorem Step.stay (h : Step s s') (store : Nat) : (s.store store).Stay (s'.store store) := by
  cases h with
  | openStore =>
    rw [store_openStore]
    exact .refl _
  | openContext => exact .refl _
  | collect id =>
    unfold Session.store
    rw [stores_collect]
    exact .refl _
  | @define _ classes id name ty v hs =>
    obtain ⟨globals, hglobals, ⟨⟩⟩ := exists_ok_of_bind hs
    have hreplaces : { s with stores := s.stores.set id globals }.stores = s.stores.set id globals := rfl
    rcases store_of_stores hreplaces store with hsame | ⟨rfl, hreplaced⟩
    · rw [hsame]
      exact .refl _
    · rw [hreplaced]
      exact .define hglobals
  | @request _ _ request rounds _ hs => exact stay_of_run hs (fun m => (request.traced_of_run rounds m).stay) store
  | set hs => exact stay_of_run hs (fun m => .of_shape (Run.Shapely.variable_set _ _ _ m).globals) store
  | assign hs => exact stay_of_run hs (fun m => .of_shape (Run.assign_shapely _ _ m).globals) store

theorem Steps.stay (h : Steps s s') (store : Nat) : (s.store store).Stay (s'.store store) := by
  induction h with
  | refl => exact .refl _
  | tail _ hstep ih => exact fun name ty hty => hstep.stay store name ty (ih name ty hty)

/-- Every context is over a store that exists. -/
def Founded (s : Session) : Prop :=
  ∀ c ∈ s.contexts, c.store < s.stores.length

namespace Founded

theorem replaced {id : Nat} {c c' : Context} (h : s.Founded) (hc : s.contexts[id]? = some c)
    (hcontexts : s'.contexts = s.contexts.set id c') (hstore : c'.store = c.store)
    (hstores : s'.stores.length = s.stores.length) : s'.Founded := by
  intro found hfound
  rw [hcontexts] at hfound
  rw [hstores]
  rcases List.mem_or_eq_of_mem_set hfound with hold | rfl
  · exact h found hold
  · rw [hstore]
    exact h c (List.mem_of_getElem? hc)

theorem run {α : Type} {id : Nat} {action : Run α} {outcome : Except Interruption α} (h : s.Founded)
    (hs : s.run id action = some (outcome, s')) : s'.Founded := by
  cases hc : s.contexts[id]? with
  | none => simp [Session.run, hc] at hs
  | some c =>
    rw [eq_settle_of_run hc hs]
    exact h.replaced hc rfl rfl (List.length_set ..)

theorem step (h : s.Founded) (hstep : Step s s') : s'.Founded := by
  cases hstep with
  | openStore =>
    intro c hc
    have hlt := h c hc
    simp only [openStore, List.length_append, List.length_singleton]
    omega
  | openContext hstore =>
    intro c hc
    rcases List.mem_append.mp hc with hold | hnew
    · exact h c hold
    · rw [List.mem_singleton] at hnew
      subst hnew
      exact hstore
  | collect id =>
    cases hc : s.contexts[id]? with
    | none =>
      simp only [collect, hc]
      exact h
    | some c =>
      simp only [collect, hc]
      exact h.replaced hc rfl rfl rfl
  | define hs =>
    obtain ⟨globals, -, ⟨⟩⟩ := exists_ok_of_bind hs
    intro c hc
    rw [List.length_set]
    exact h c hc
  | request hs => exact h.run hs
  | set hs => exact h.run hs
  | assign hs => exact h.run hs

theorem steps (h : s.Founded) (hsteps : Steps s s') : s'.Founded := by
  induction hsteps with
  | refl => exact h
  | tail _ hstep ih => exact ih.step hstep

end Founded

theorem start_founded (clock : Clock) : (start clock).Founded := by
  intro c hc
  cases hc

theorem store_of_run (h : s.Founded) (hc : s.contexts[id]? = some c) (hs : s.run id action = some (outcome, s')) :
    s'.store c.store = (finalState (action (s.machine c))).globals := by
  have hlt := h c (List.mem_of_getElem? hc)
  unfold Session.store
  rw [stores_of_run hc hs, List.getD_eq_getElem?_getD, List.getElem?_set_self hlt, Option.getD_some]

theorem context_of_run (hc : s.contexts[id]? = some c) (hs : s.run id action = some (outcome, s')) :
    ∃ c', s'.contexts[id]? = some c' ∧ c'.members = (finalState (action (s.machine c))).members := by
  obtain ⟨hlt, -⟩ := List.getElem?_eq_some_iff.mp hc
  rw [eq_settle_of_run hc hs]
  exact ⟨_, List.getElem?_set_self hlt, rfl⟩

theorem ok_of_run {a : α} (hc : s.contexts[id]? = some c) (hs : s.run id action = some (.ok a, s')) :
    action (s.machine c) = .ok a (finalState (action (s.machine c))) := by
  simp only [run, hc] at hs
  cases haction : action (s.machine c) with
  | ok a' m =>
    simp only [haction, Option.some.injEq, Prod.mk.injEq, Except.ok.injEq] at hs
    rw [hs.1]
    rfl
  | error e m => simp [haction] at hs

end Session

/-- Globals last. In a session that a host has brought about, by whatever it may do and with whatever outcome, a global
is never lost and never changes its type. When a script is prepared, the globals that exist are not defined anew: each
keeps its value or has one that an assignment, made while the script was being prepared, has left there. When that
succeeds, each member that the script declares is a member of exactly that type, and each global that it declares is a
global of exactly that type, now and whatever happens later. -/
theorem globals_last {clock : Clock} {s : Session} (hs : Session.Steps (.start clock) s) :
    (∀ s', Session.Steps s s' → ∀ store name ty, (s.store store).shape.lookup name = some ty →
      (s'.store store).shape.lookup name = some ty) ∧
    ∀ r source script, Script.compile r source = .ok script → ∀ id c, s.contexts[id]? = some c →
      ∀ rounds outcome s₁, s.run id (script.prepare rounds) = some (outcome, s₁) →
        (s.store c.store).Traced ((Request.prepare script).writes rounds (s.machine c)) (s₁.store c.store) ∧
        (outcome = .ok () → ∀ d ∈ script.program.declarations,
          (d.storage = .member →
            ∃ c₁, s₁.contexts[id]? = some c₁ ∧ c₁.members.shape.lookup d.name = some d.ty) ∧
          (d.storage ≠ .member → ∀ s', Session.Steps s₁ s' →
            (s'.store c.store).shape.lookup d.name = some d.ty)) := by
  refine ⟨fun s' hsteps store => hsteps.stay store, fun r source script hcompile id c hc rounds outcome s₁ hrun => ?_⟩
  have hfounded := (Session.start_founded clock).steps hs
  have hstore := Session.store_of_run hfounded hc hrun
  refine ⟨?_, ?_⟩
  · rw [hstore]
    exact script.traced_of_prepare rounds (s.machine c)
  · rintro rfl d hd
    obtain ⟨-, hchecked⟩ := Script.checked_of_compile hcompile
    have hpresent := Script.present_of_prepare hchecked (Session.ok_of_run hc hrun) d hd
    refine ⟨fun hmember => ?_, fun hshared s' hsteps => ?_⟩
    · obtain ⟨c₁, hc₁, hmembers⟩ := Session.context_of_run hc hrun
      exact ⟨c₁, hc₁, by rw [hmembers, hpresent.member hmember]⟩
    · refine hsteps.stay c.store _ _ ?_
      rw [hstore]
      exact hpresent.shared hshared

/-- A script that needs a global of the host and changes its value while it is being prepared. -/
def Script.sharing : String :=
  "extern int x;global int y=x+=4;int z=y;"

def Session.afterPreparation (source : String) : Option (Script × Session) := do
  let script ← (Script.compile .standard source).toOption
  let (outcome, s) ← counting.run 0 (script.prepare 10)
  if outcome.isOk then return (script, s) else none

theorem Session.run_of_afterPreparation {source : String} {script : Script} {s : Session}
    (h : afterPreparation source = some (script, s)) :
    Script.compile .standard source = .ok script ∧ counting.run 0 (script.prepare 10) = some (.ok (), s) := by
  obtain ⟨found, hcompiled, h⟩ := Option.bind_eq_some_iff.mp h
  obtain ⟨⟨outcome, s'⟩, hrun, h⟩ := Option.bind_eq_some_iff.mp h
  cases outcome with
  | error e => cases h
  | ok u =>
    cases h
    exact ⟨eq_ok_of_toOption hcompiled, hrun⟩

theorem Session.counting_steps : Steps (.start ⟨fun _ => 0, 0⟩) counting := by
  have hopened : Steps (.start ⟨fun _ => 0, 0⟩) (start ⟨fun _ => 0, 0⟩).openStore.2 := .single (.openStore _)
  have hstore : 0 < (start ⟨fun _ => 0, 0⟩).openStore.2.stores.length := Nat.zero_lt_one
  have hcontext := hopened.tail (.openContext hstore .standard ⟨"", none⟩ false)
  exact hcontext.tail (.define define_counting)

theorem globals_last_sharing : Session.Steps (.start ⟨fun _ => 0, 0⟩) Session.counting ∧
    ∃ script s₁, Script.compile .standard Script.sharing = .ok script ∧
      Session.counting.run 0 (script.prepare 10) = some (.ok (), s₁) ∧
      (∃ w ∈ (Request.prepare script).writes 10 (Session.counting.machine .opened), ∃ b, w.Leaves "x" b ∧
        b.value.scriptEquals (.int 5) = true) ∧
      (∃ c₁, s₁.contexts[0]? = some c₁ ∧ c₁.members.shape.lookup "z" = some .int) ∧
      ∀ s', Session.Steps s₁ s' →
        (s'.store 0).shape.lookup "x" = some .int ∧ (s'.store 0).shape.lookup "y" = some .int := by
  have hruns : (Session.afterPreparation Script.sharing).any (fun done =>
      decide (done.1.program.declarations.map (fun d => (d.storage, d.name, d.ty)) =
        [(.required, "x", .int), (.shared, "y", .int), (.member, "z", .int)]) &&
      ((done.2.store 0).lookup "x").any (·.value.scriptEquals (.int 5))) = true := by
    decide +kernel
  cases hdone : Session.afterPreparation Script.sharing with
  | none => simp [hdone] at hruns
  | some done =>
    obtain ⟨script, s₁⟩ := done
    rw [hdone, Option.any_some, Bool.and_eq_true, decide_eq_true_eq] at hruns
    obtain ⟨hdeclared, hwritten⟩ := hruns
    obtain ⟨hcompile, hrun⟩ := Session.run_of_afterPreparation hdone
    obtain ⟨-, hprepared⟩ := globals_last Session.counting_steps
    obtain ⟨htraced, hpresent⟩ := hprepared _ _ script hcompile 0 .opened rfl 10 _ s₁ hrun
    have hdeclares : ∀ storage name, (storage, name, Ty.int) ∈
        script.program.declarations.map (fun d => (d.storage, d.name, d.ty)) →
        ∃ d ∈ script.program.declarations, d.storage = storage ∧ d.name = name ∧ d.ty = .int := by
      intro storage name hmem
      obtain ⟨d, hd, heq⟩ := List.mem_map.mp hmem
      simp only [Prod.mk.injEq] at heq
      exact ⟨d, hd, heq⟩
    rw [hdeclared] at hdeclares
    refine ⟨Session.counting_steps, script, s₁, hcompile, hrun, ?_, ?_, fun s' hsteps => ⟨?_, ?_⟩⟩
    · obtain ⟨now, hnow, -, hsame | ⟨w, hw, hleaves⟩⟩ := htraced "x" ⟨.int, .int 1⟩ rfl
      · change (List.lookup "x" (s₁.store 0)) = _ at hnow
        rw [hnow, Option.any_some, hsame] at hwritten
        exact absurd hwritten (by decide)
      · change (List.lookup "x" (s₁.store 0)) = _ at hnow
        rw [hnow, Option.any_some] at hwritten
        exact ⟨w, hw, now, hleaves, hwritten⟩
    · obtain ⟨d, hd, hstorage, hname, hty⟩ := hdeclares .member "z" (by simp)
      rw [← hname, ← hty]
      exact (hpresent rfl d hd).1 hstorage
    · obtain ⟨d, hd, hstorage, hname, hty⟩ := hdeclares .required "x" (by simp)
      rw [← hname, ← hty]
      exact (hpresent rfl d hd).2 (by simp [hstorage]) s' hsteps
    · obtain ⟨d, hd, hstorage, hname, hty⟩ := hdeclares .shared "y" (by simp)
      rw [← hname, ← hty]
      exact (hpresent rfl d hd).2 (by simp [hstorage]) s' hsteps

end Scriptlet
