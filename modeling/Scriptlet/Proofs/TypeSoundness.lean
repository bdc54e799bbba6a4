import Scriptlet.Proofs.Soundness.Programs

/-!
# Type soundness

A host prepares a script in a fresh context and then calls its functions, with values that it made or was given. All
along, the value of every expression fits the type of the expression, and what is bound to a variable or stored in a
collection fits the type it is kept under.

This takes one condition. Functions that run while the script is being prepared may meet the name of a member that is
not there yet, and then find a global of that name. It has to have the type of the member.
-/

namespace Scriptlet

namespace Machine

/-- A variable that is bound somewhere. -/
def Binds (m : Machine) (b : Binding) : Prop :=
  ∃ name, (name, b) ∈ m.globals ∨ (name, b) ∈ m.members ∨ ∃ frame ∈ m.frames, ∃ scope ∈ frame, (name, b) ∈ scope

/-- The values that can be reached from the variables and from those that the host holds. -/
inductive Reaches (m : Machine) (held : List Value) : Value → Prop
  | held {v : Value} (h : v ∈ held) : Reaches m held v
  | bound {b : Binding} (h : m.Binds b) : Reaches m held b.value
  | item {kind : SequenceKind} {element : Ty} {a : Address} {v : Value}
      (h : Reaches m held (.sequence kind element a)) (hv : v ∈ m.world.heap.items a) : Reaches m held v
  | key {key value : Ty} {a : Address} {p : Value × Value} (h : Reaches m held (.dictionary key value a))
      (hp : p ∈ m.world.heap.entries a) : Reaches m held p.1
  | value {key value : Ty} {a : Address} {p : Value × Value} (h : Reaches m held (.dictionary key value a))
      (hp : p ∈ m.world.heap.entries a) : Reaches m held p.2

/-- Every variable, and every item, key and value of a collection that can be reached, fits its type. -/
structure FitsThroughout (classes : Hierarchy) (held : List Value) (m : Machine) : Prop where
  «variables» : ∀ b, m.Binds b → b.value.Fits classes b.ty
  items : ∀ kind element a, m.Reaches held (.sequence kind element a) →
    ∀ v ∈ m.world.heap.items a, v.Fits classes element
  entries : ∀ key value a, m.Reaches held (.dictionary key value a) →
    ∀ p ∈ m.world.heap.entries a, p.1.Fits classes key ∧ p.2.Fits classes value

/-- A state that is typed together with the values that the host holds. -/
def WellTyped (t : HostTypes) (held : List Value) (m : Machine) : Prop :=
  ∃ σ, m.Typed t σ ∧ ∀ v ∈ held, v.Located σ

variable {t : HostTypes} {σ : HeapTyping} {held : List Value} {m : Machine}

theorem Typed.of_binds (h : m.Typed t σ) {b : Binding} (hb : m.Binds b) : b.value.Typed t σ b.ty := by
  obtain ⟨name, hglobal | hmember | ⟨frame, hframe, scope, hscope, hlocal⟩⟩ := hb
  · exact h.globals _ hglobal
  · exact h.members _ hmember
  · exact h.frames frame hframe scope hscope _ hlocal

theorem Typed.located_of_reaches (h : m.Typed t σ) (hheld : ∀ v ∈ held, v.Located σ) {v : Value}
    (hv : m.Reaches held v) : v.Located σ := by
  induction hv with
  | held hv => exact hheld _ hv
  | bound hb => exact (h.of_binds hb).located
  | item _ hv ih => exact (h.heap.items ih _ hv).located
  | key _ hp ih => exact (h.heap.entries ih _ hp).1.located
  | value _ hp ih => exact (h.heap.entries ih _ hp).2.located

theorem WellTyped.fitsThroughout (h : m.WellTyped t held) : m.FitsThroughout t.classes held := by
  obtain ⟨σ, htyped, hheld⟩ := h
  refine ⟨fun b hb => (htyped.of_binds hb).fits, fun kind element a ha v hv => ?_, fun key value a ha p hp => ?_⟩
  · exact (htyped.heap.items (htyped.located_of_reaches hheld ha) v hv).fits
  · have hentries := htyped.heap.entries (htyped.located_of_reaches hheld ha) p hp
    exact ⟨hentries.1.fits, hentries.2.fits⟩

end Machine

theorem Moment.Scoped.trusted {certain : Prop} {before : List Moment} {moment : Moment}
    (h : moment.Scoped certain before) : moment.Trusted := by
  intro ref visible hh site b hlocate
  obtain ⟨v, -, hty, hidentifies⟩ := h ref visible hh
  have hsite : moment.machine.site? ref.name = some (site, b.ty) := by
    rw [Machine.site?, hlocate]
    rfl
  exact (hidentifies.type _ _ hsite).trans hty

theorem Since.trusted {certain : Prop} {base moments : List Moment} (h : Since (Moment.Scoped certain) base moments)
    (hbase : ∀ moment ∈ base, moment.Trusted) : ∀ moment ∈ moments, moment.Trusted := by
  induction h with
  | refl => exact hbase
  | note _ ht ih => exact List.forall_mem_cons.mpr ⟨ht.trusted, ih⟩

namespace Script

variable {t : HostTypes} {r : Registry} {s : Script}

def returned {ε τ : Type} : EStateM.Result ε τ (Option Value) → List Value
  | .ok v _ => v.toList
  | .error _ _ => []

theorem returned_mapState {ε τ τ' : Type} (f : τ → τ') (result : EStateM.Result ε τ (Option Value)) :
    returned (mapState f result) = returned result := by
  cases result <;> rfl

/-- A script that was prepared in a context of its own, for the first time or once more, and the calls since then, along
with the values that the host holds. While the script was being prepared, what was found under a name had the type that
the name was declared with. Before each call the host may do what it can, as long as it leaves the state typed; it
passes values that it holds. -/
inductive Session (t : HostTypes) (s : Script) : Chronicle → List Value → Prop
  | prepared {rounds : Nat} {m : Machine} {held : List Value} {c : Chronicle} (hidle : m.frames = [])
      (hown : m.Belongs s.top) (htyped : m.WellTyped t held) (h : s.recordPrepare rounds ⟨m, []⟩ = .ok () c)
      (hresolved : ∀ moment ∈ c.moments, moment.Trusted) : Session t s c held
  | hosted {c : Chronicle} {m : Machine} {held held' : List Value} (h : Session t s c held)
      (hm : c.machine.Resumes m) (htyped : m.WellTyped t held') : Session t s ⟨m, c.moments⟩ held'
  | called {c : Chronicle} {held arguments : List Value} (h : Session t s c held) (harguments : arguments ⊆ held)
      (rounds : Nat) (name : String) :
      Session t s (finalState (s.recordCall rounds name arguments c))
        (returned (s.recordCall rounds name arguments c) ++ held)

/-- What holds all along: the variables at the top are there, every access found the type it expected, and the state,
the record and the values that the host holds are typed. -/
structure Upheld (t : HostTypes) (s : Script) (c : Chronicle) (held : List Value) : Prop where
  settled : c.Settled s.top s.top
  trusted : ∀ moment ∈ c.moments, moment.Trusted
  typed : ∃ σ, c.Typed t σ ∧ ∀ v ∈ held, v.Located σ

theorem setting_sound {source : String} (hr : r.Built) (hsound : r.Sound t) (hs : Script.compile r source = .ok s) :
    s.setting.Sound t s.registry s.top := by
  obtain ⟨rfl, hchecked⟩ := Script.checked_of_compile hs
  exact ⟨hsound.classes.symm, hsound, hsound.classes ▸ hr.wellFormed, setting_checked hchecked⟩

section

variable (hs : s.setting.Sound t s.registry s.top) (hchecked : s.program.Checked s.registry)

include hs hchecked

theorem upheld_of_prepared {rounds : Nat} {m : Machine} {held : List Value} {c : Chronicle} (hidle : m.frames = [])
    (hown : m.Belongs s.top) (htyped : m.WellTyped t held) (h : s.recordPrepare rounds ⟨m, []⟩ = .ok () c)
    (hresolved : ∀ moment ∈ c.moments, moment.Trusted) : s.Upheld t c held := by
  obtain ⟨σ, hm, hheld⟩ := htyped
  have hyields := (recordPrepare_yields (P := True) (σ := σ) hs hchecked rounds).holds trivial σ ⟨m, []⟩ (.refl σ)
    ⟨hm, fun _ h => (nomatch h)⟩
  rw [h, finalState_ok] at hyields
  obtain ⟨σ', hgrows, hc, -⟩ := hyields hresolved
  exact ⟨settled_of_recordPrepare hchecked hidle hown h, hresolved, σ', hc, fun v hv => (hheld v hv).mono hgrows⟩

theorem Upheld.called {c : Chronicle} {held arguments : List Value} (h : s.Upheld t c held)
    (harguments : arguments ⊆ held) (rounds : Nat) (name : String) :
    s.Upheld t (finalState (s.recordCall rounds name arguments c))
      (returned (s.recordCall rounds name arguments c) ++ held) := by
  have hheeds : Heeds ⟨True, False, s.top⟩ [] (s.recordCall rounds name arguments) :=
    recordCall_heeds hchecked (fun h => h.elim) rounds name arguments
  have htrusted := (hheeds.outcome c (h.settled.ready False).oriented).since.trusted h.trusted
  obtain ⟨σ, hc, hheld⟩ := h.typed
  obtain ⟨σ', hgrows, hc', hresult⟩ := (recordCall_yields (σ := σ) hs rounds name arguments).holds
    (fun v hv => hheld v (harguments hv)) σ c (.refl σ) hc htrusted
  refine ⟨h.settled.kept (hheeds.keeps c), htrusted, σ', hc', fun v hv => ?_⟩
  rcases List.mem_append.mp hv with hreturned | hv
  · cases hcall : s.recordCall rounds name arguments c with
    | ok result c' =>
      rw [hcall] at hreturned
      exact hresult result c' hcall v (Option.mem_toList.mp hreturned)
    | error e c' =>
      rw [hcall] at hreturned
      cases hreturned
  · exact (hheld v hv).mono hgrows

theorem Session.upheld {c : Chronicle} {held : List Value} (h : s.Session t c held) : s.Upheld t c held := by
  induction h with
  | prepared hidle hown htyped h hresolved => exact upheld_of_prepared hs hchecked hidle hown htyped h hresolved
  | hosted _ hm htyped ih =>
    obtain ⟨σ, hc, -⟩ := ih.typed
    obtain ⟨σ', hm', hheld⟩ := htyped
    exact ⟨ih.settled.resumes hm, ih.trusted, σ', ⟨hm', hc.values⟩, hheld⟩
  | called _ harguments rounds name ih => exact ih.called hs hchecked harguments rounds name

end

/-- Globals that have the names of members have their types. -/
def NamesAgree (s : Script) (m : Machine) : Prop :=
  ∀ d ∈ s.program.declarations, d.storage = .member → ∀ b, m.globals.lookup d.name = some b → b.ty = d.ty

/-- A preparation that succeeds shows that the names the script shares with the host have the right types. Where this
is so for the names of its members as well, nothing can be found that has a wrong type. -/
theorem trusted_of_namesAgree {rounds : Nat} {m : Machine} {c : Chronicle} (hchecked : s.program.Checked r)
    (hidle : m.frames = []) (hown : m.Belongs s.top) (hagree : s.NamesAgree m)
    (h : s.recordPrepare rounds ⟨m, []⟩ = .ok () c) : ∀ moment ∈ c.moments, moment.Trusted := by
  obtain ⟨_, c₁, hbegin, hall⟩ := ok_of_bind h
  have hsettled : c₁.Settled s.top [] := settled_of_begin hidle hown hbegin
  have hc₁ : c₁.moments = [] ∧ c₁.machine.globals = m.globals := by
    cases hbegin
    refine ⟨rfl, ?_⟩
    dsimp only
    split <;> rfl
  have hforetells : c₁.machine.Foretells s.program.declarations := by
    intro d hd ty hty
    by_cases hstorage : d.storage = .member
    · rw [Bindings.lookup_shape, hc₁.2] at hty
      obtain ⟨b, hb, rfl⟩ := Option.map_eq_some_iff.mp hty
      exact hagree d hd hstorage b hb
    · exact Declaration.ty_eq_of_recordAll hsettled hchecked.declarations.lookup_of_mem hall d hd hstorage ty hty
  have hsince := Declaration.since_of_recordAll (k := s.program.checking r) (setting_checked hchecked) hsettled
    hchecked.declarations rfl hforetells hall
  exact hsince.trusted (by simp [hc₁.1])

end Script

/-- In every session with a compiled script, the value of every expression fits the type of the expression, and after
every call all that is bound to a variable or stored in a collection fits the type it is kept under. -/
theorem values_fit_types {t : HostTypes} {r : Registry} {source : String} {s : Script} (hr : r.Built)
    (hsound : r.Sound t) (hs : Script.compile r source = .ok s) {c : Chronicle} {held arguments : List Value}
    (hc : s.Session t c held) (harguments : arguments ⊆ held) (rounds : Nat) (name : String) :
    mapState Chronicle.machine (s.recordCall rounds name arguments c) = s.call rounds name arguments c.machine ∧
    (∀ moment ∈ (finalState (s.recordCall rounds name arguments c)).moments, moment.Fits r.classes) ∧
    (finalState (s.call rounds name arguments c.machine)).FitsThroughout r.classes
      (Script.returned (s.call rounds name arguments c.machine) ++ held) := by
  obtain ⟨rfl, hchecked⟩ := Script.checked_of_compile hs
  have hupheld := (hc.called harguments rounds name).upheld (Script.setting_sound hr hsound hs) hchecked
  obtain ⟨σ, htyped, hheld⟩ := hupheld.typed
  have herases := s.recordCall_erases rounds name arguments
  refine ⟨herases c, fun moment hm => hsound.classes ▸ htyped.values moment hm, ?_⟩
  rw [← herases.finalState c, ← herases c, Script.returned_mapState, ← hsound.classes]
  exact Machine.WellTyped.fitsThroughout ⟨σ, htyped.machine, hheld⟩

/-- A script in which a function is run before a member is there that it reads, while the host has a global of that
name. -/
def Script.readingAhead : String :=
  "int a=f();int x=1;List<long> xs=new List<long>();int f()\x7breturn x;\x7d" ++
    "long g(List<long> ys)\x7bys.Add(a);foreach(long y in ys)xs.Add(y);return xs[1];\x7dint h()\x7breturn a-a;\x7d"

/-- A fresh context with a global and a list that the host has made. -/
def Machine.hosting (x : Binding) : Machine :=
  { fresh .standard with
    world := { (fresh .standard).world with heap := ⟨#[.items #[.long 7]]⟩ }
    globals := [("x", x)] }

theorem Machine.hosting_wellTyped {t : HostTypes} {x : Binding} (hx : x.value.runtimeType = x.ty)
    (hplain : x.value.IsPlain) : (hosting x).WellTyped t [.sequence .list .long 0] := by
  refine ⟨fun a => if a = 0 then some (.items .long) else none, ⟨?_, ?_, ?_, ?_⟩, by simp [Value.Located]⟩
  · intro a content ha
    dsimp only at ha
    split at ha
    · next hzero =>
      cases ha
      subst hzero
      refine ⟨.items #[.long 7], rfl, fun v hv => ?_⟩
      rw [Array.mem_singleton.mp hv]
      exact .of_runtimeType rfl trivial
    · cases ha
  · intro entry he
    rw [List.mem_singleton.mp he]
    exact .of_runtimeType hx hplain
  · exact fun _ he => (nomatch he)
  · exact fun _ hf => (nomatch hf)

/-- A result that is this long integer. -/
def Value.isLong (n : Int64) : Option Value → Bool
  | some (.long m) => m = n
  | _ => false

theorem Value.eq_of_isLong {n : Int64} {v : Option Value} (h : isLong n v = true) : v = some (.long n) := by
  unfold isLong at h
  split at h
  · rw [of_decide_eq_true h]
  · cases h

theorem values_fit_types_readingAhead :
    ∃ s c, Script.compile .standard Script.readingAhead = .ok s ∧
      s.Session ⟨[], fun _ => []⟩ c [.sequence .list .long 0] ∧
      (∃ m, s.call 10 "g" [.sequence .list .long 0] c.machine = .ok (some (.long 5)) m) ∧
      (∀ moment ∈ (finalState (s.recordCall 10 "g" [.sequence .list .long 0] c)).moments,
        moment.Fits Registry.standard.classes) ∧
      (finalState (s.call 10 "g" [.sequence .list .long 0] c.machine)).FitsThroughout Registry.standard.classes
        (Script.returned (s.call 10 "g" [.sequence .list .long 0] c.machine) ++ [.sequence .list .long 0]) := by
  have hrun : (Script.compile .standard Script.readingAhead).toOption.any (fun s =>
      s.program.declarations.all (fun d => d.name ≠ "x" || d.ty = .int) &&
        Run.endsWith (fun _ c => Run.endsWith (fun v _ => Value.isLong 5 v)
          (s.call 10 "g" [.sequence .list .long 0] c.machine)) (s.recordPrepare 10 ⟨.hosting ⟨.int, .int 5⟩, []⟩)) =
      true := by
    decide +kernel
  obtain ⟨s, hs, hrun⟩ := exists_ok_of_any hrun
  obtain ⟨hnames, hprepared⟩ := Bool.and_eq_true_iff.mp hrun
  obtain ⟨_, c, hc, hcalled⟩ := exists_ok_of_endsWith hprepared
  obtain ⟨v, m, hcall, hv⟩ := exists_ok_of_endsWith hcalled
  have hagree : s.NamesAgree (.hosting ⟨.int, .int 5⟩) := by
    intro d hd _ b hb
    have hname := List.all_eq_true.mp hnames d hd
    simp only [Machine.hosting, List.lookup_cons, List.lookup_nil] at hb
    split at hb
    · next heq =>
      cases hb
      have hty : d.ty = .int := by simpa [eq_of_beq heq] using hname
      exact hty.symm
    · cases hb
  have hown : (Machine.hosting ⟨.int, .int 5⟩).Belongs s.top := Machine.belongs_of_fresh rfl
  have hresolved := Script.trusted_of_namesAgree (Script.checked_of_compile hs).2 rfl hown hagree hc
  have htyped : (Machine.hosting ⟨.int, .int 5⟩).WellTyped ⟨[], fun _ => []⟩ [.sequence .list .long 0] :=
    Machine.hosting_wellTyped rfl (by trivial)
  have hsession : s.Session ⟨[], fun _ => []⟩ c [.sequence .list .long 0] :=
    .prepared rfl hown htyped hc hresolved
  obtain ⟨-, hmoments, hfits⟩ := values_fit_types .standard (Registry.standard_sound _) hs hsession
    (List.Subset.refl _) 10 "g"
  exact ⟨s, c, hs, hsession, ⟨m, Value.eq_of_isLong hv ▸ hcall⟩, hmoments, hfits⟩

theorem Value.not_fits_int_long (n : Int64) : ¬ (Value.long n).Fits Registry.standard.classes .int := by
  rintro (⟨haccepts, -⟩ | ⟨hvoid, -⟩)
  · cases haccepts
  · cases hvoid

/-- A long integer where one of type `int` should be. -/
def Value.strays (ty : Ty) : Value → Bool
  | .long _ => ty = .int
  | _ => false

theorem Value.not_fits_of_strays {ty : Ty} {v : Value} (h : v.strays ty = true) :
    ¬ v.Fits Registry.standard.classes ty := by
  unfold strays at h
  split at h
  · next n => exact of_decide_eq_true h ▸ not_fits_int_long n
  · cases h

def Happening.strays : Happening → Bool
  | .value e v => v.strays e.ty
  | _ => false

/-- Without the condition it fails: a global of another type gets into a member, and from there into the values of
expressions. -/
theorem readingAhead_misfits :
    ∃ s c, Script.compile .standard Script.readingAhead = .ok s ∧
      (Machine.hosting ⟨.long, .long 5⟩).WellTyped ⟨[], fun _ => []⟩ [.sequence .list .long 0] ∧
      s.recordPrepare 10 ⟨.hosting ⟨.long, .long 5⟩, []⟩ = .ok () c ∧
      (∃ m, s.call 10 "h" [] c.machine = .ok (some (.long 0)) m) ∧
      (∃ moment ∈ (finalState (s.recordCall 10 "h" [] c)).moments, ¬ moment.Fits Registry.standard.classes) ∧
      ¬ c.machine.FitsThroughout Registry.standard.classes [] := by
  have hrun : (Script.compile .standard Script.readingAhead).toOption.any (fun s =>
      Run.endsWith (fun _ c => Run.endsWith (fun v _ => Value.isLong 0 v) (s.call 10 "h" [] c.machine) &&
          (finalState (s.recordCall 10 "h" [] c)).moments.any (·.happening.strays) &&
          c.machine.members.any fun entry => entry.2.value.strays entry.2.ty)
        (s.recordPrepare 10 ⟨.hosting ⟨.long, .long 5⟩, []⟩)) = true := by
    decide +kernel
  obtain ⟨s, hs, hrun⟩ := exists_ok_of_any hrun
  obtain ⟨_, c, hc, hrun⟩ := exists_ok_of_endsWith hrun
  simp only [Bool.and_eq_true] at hrun
  obtain ⟨⟨hcalled, hmoment⟩, hmember⟩ := hrun
  refine ⟨s, c, hs, Machine.hosting_wellTyped rfl (by trivial), hc, ?_, ?_, ?_⟩
  · obtain ⟨v, m, hcall, hv⟩ := exists_ok_of_endsWith hcalled
    exact ⟨m, Value.eq_of_isLong hv ▸ hcall⟩
  · obtain ⟨moment, hm, hstrays⟩ := List.any_eq_true.mp hmoment
    refine ⟨moment, hm, fun hfits => ?_⟩
    unfold Happening.strays at hstrays
    split at hstrays
    · next e v hhappening => exact Value.not_fits_of_strays hstrays (hfits e v hhappening)
    · cases hstrays
  · intro hfits
    obtain ⟨entry, he, hstrays⟩ := List.any_eq_true.mp hmember
    exact Value.not_fits_of_strays hstrays (hfits.variables entry.2 ⟨entry.1, .inr (.inl he)⟩)

end Scriptlet
