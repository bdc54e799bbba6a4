import Scriptlet.Proofs.Compiled.Programs
import Scriptlet.Proofs.Erasure
import Scriptlet.Proofs.Scoping.Statements

/-!
# Compiled scripts are statically scoped

Once a script has been prepared, all its variables at the top are there, each made by its own declaration. From then
on every access of every call finds the variable that is visible at its place, and none is ever missing.
-/

namespace Scriptlet

open Recorded

/-- The globals of the first state are there in the second one, with the types they had. -/
def Machine.GlobalsStay (m m' : Machine) : Prop :=
  ∀ name ty, m.globals.shape.lookup name = some ty → m'.globals.shape.lookup name = some ty

/-- The second state has the globals of the first one and perhaps one more. -/
structure Machine.Adds (name : String) (m m' : Machine) : Prop where
  stay : m.GlobalsStay m'
  others : ∀ other, other ≠ name → m'.globals.shape.lookup other = m.globals.shape.lookup other

theorem Machine.Adds.of_eq {m m' : Machine} {name : String} (h : m'.globals.shape = m.globals.shape) : m.Adds name m' :=
  ⟨fun _ _ hty => h ▸ hty, fun _ _ => by rw [h]⟩

/-- All members are among the variables at the top of a script, with their types. This is so in a fresh context, and
in one where this script was prepared before. -/
def Machine.Belongs (top : Lexical) (m : Machine) : Prop :=
  ∀ name ty, m.members.shape.lookup name = some ty → ∃ p, top.lookup name = some ⟨ty, .member p⟩

theorem Machine.belongs_of_fresh {top : Lexical} {m : Machine} (h : m.members = []) : m.Belongs top := by
  simp [Belongs, h, Bindings.shape]

/-- The state while a script is being prepared, when some of its declarations have been run: no function is at work,
and what they declare is there. All members are the script's own. -/
structure Chronicle.Settled (top visible : Lexical) (c : Chronicle) : Prop where
  idle : c.machine.frames = []
  known : ∀ name v, visible.lookup name = some v → Identifies True c.moments 0 name v (c.machine.topSite? name)
  members : c.machine.Belongs top

namespace Chronicle.Settled

variable {top visible : Lexical} {c c' : Chronicle}

theorem level (h : c.Settled top visible) : c.machine.level = 0 := by
  simp [Machine.level, Machine.frame, h.idle]

theorem kept (h : c.Settled top visible) (hk : Kept (c.machine.level + 1) c c') : c'.Settled top visible := by
  have hidle : c'.machine.frames = [] := by
    have hcount := hk.count
    rw [h.idle] at hcount
    exact List.length_eq_zero_iff.mp hcount
  refine ⟨hidle, fun name v hv => ?_, fun name ty hty => h.members name ty ?_⟩
  · have hknown := h.known name v hv
    rw [hk.topSite? (Nat.succ_pos _)]
    have hcount : c.machine.frames.length = 0 := by simp [h.idle]
    have hcount' : c'.machine.frames.length = 0 := by simp [hidle]
    rw [← hcount] at hknown
    rw [← hcount']
    exact hknown.kept hk fun _ _ hsite => (Machine.isTop_of_topSite? hsite).below (Nat.succ_pos _)
  · rwa [hk.members (Nat.succ_pos _)] at hty

/-- What is shared with the host is not among the members. -/
theorem member_eq_none (h : c.Settled top visible) {name : String} {ty : Ty}
    (hname : top.lookup name = some ⟨ty, .shared name⟩) : c.machine.members.shape.lookup name = none := by
  cases hm : c.machine.members.shape.lookup name with
  | none => rfl
  | some ty =>
    obtain ⟨p, hp⟩ := h.members name ty hm
    simp [hname] at hp

theorem lookup_ne {name other : String} {v w : Variable} (hne : other ≠ name)
    (h : List.lookup other ((name, v) :: visible) = some w) : visible.lookup other = some w := by
  rwa [List.lookup_cons, beq_eq_false_iff_ne.mpr hne] at h

theorem declareMember (h : c.Settled top visible) {name : String} {p : Position} (b : Binding)
    (hname : top.lookup name = some ⟨b.ty, .member p⟩) :
    Settled top ((name, ⟨b.ty, .member p⟩) :: visible)
      ⟨{ c.machine with members := Bindings.put name b c.machine.members },
        ⟨c.machine, .declaration name (.member p)⟩ :: c.moments⟩ := by
  refine ⟨h.idle, fun other v hv => ?_, fun other ty hother => ?_⟩
  · by_cases hsame : other = name
    · subst hsame
      rw [List.lookup_cons, beq_self_eq_true] at hv
      cases hv
      rw [Machine.topSite?_eq, Bindings.shape_put, if_pos rfl]
      refine ⟨fun _ => rfl, fun site ty hsite => ?_, fun _ site ty hsite => ?_⟩
      · cases hsite
        rfl
      · cases hsite
        simp [creator, Moment.at, Moment.declaration?, h.level]
    · have hknown := h.known other v (lookup_ne hsame hv)
      rw [Machine.topSite?_eq] at hknown ⊢
      rw [Bindings.shape_put, if_neg hsame]
      refine hknown.cons fun site ty hsite origin hh => ?_
      cases hh
      exact absurd rfl hsame
  · rw [Bindings.shape_put] at hother
    split at hother
    · next hsame =>
      cases hother
      exact ⟨p, hsame ▸ hname⟩
    · exact h.members other ty hother

theorem declareGlobal (h : c.Settled top visible) {name : String} {ty : Ty} {globals : Bindings}
    (htop : top.lookup name = some ⟨ty, .shared name⟩) (hname : globals.shape.lookup name = some ty)
    (hothers : ∀ other, other ≠ name → globals.shape.lookup other = c.machine.globals.shape.lookup other) :
    Settled top ((name, ⟨ty, .shared name⟩) :: visible)
      { c with machine := { c.machine with globals := globals } } := by
  refine ⟨h.idle, fun other v hv => ?_, h.members⟩
  by_cases hsame : other = name
  · subst hsame
    rw [List.lookup_cons, beq_self_eq_true] at hv
    cases hv
    rw [Machine.topSite?_eq, h.member_eq_none htop, hname]
    refine ⟨fun _ => rfl, fun site ty hsite => ?_, fun _ site ty hsite => ?_⟩ <;>
      · cases hsite
        rfl
  · have hknown := h.known other v (lookup_ne hsame hv)
    rw [Machine.topSite?_eq] at hknown ⊢
    rwa [hothers other hsame]

end Chronicle.Settled

/-- What a definition stores: a value that fits, under the type of the global, which an existing one keeps. -/
theorem Bindings.put_of_define {classes : Hierarchy} {globals globals' : Bindings} {name : String} {ty : Ty} {v : Value}
    (h : Bindings.define classes globals name ty v = .ok globals') :
    ∃ kept, kept = ((globals.lookup name).map (·.ty)).getD ty ∧ classes.accepts kept v.runtimeType = true ∧
      globals' = Bindings.put name ⟨kept, v.coerce kept⟩ globals := by
  have hstored : ∀ kept : Ty, (if classes.accepts kept v.runtimeType then
      Except.ok (Bindings.put name ⟨kept, v.coerce kept⟩ globals)
      else Except.error (Fault.typeMismatch name kept v.runtimeType .write)) = .ok globals' →
      classes.accepts kept v.runtimeType = true ∧ globals' = Bindings.put name ⟨kept, v.coerce kept⟩ globals := by
    intro kept hkept
    split at hkept
    · next haccepts => exact ⟨haccepts, (Except.ok.inj hkept).symm⟩
    · cases hkept
  unfold Bindings.define at h
  cases hfound : globals.lookup name with
  | none =>
    rw [hfound] at h
    exact ⟨ty, rfl, hstored ty h⟩
  | some existing =>
    simp only [hfound] at h
    split at h
    · exact ⟨existing.ty, rfl, hstored existing.ty h⟩
    · cases h

theorem Bindings.define_new {classes : Hierarchy} {globals globals' : Bindings} {name : String} {ty : Ty} {v : Value}
    (hnone : globals.lookup name = none) (h : Bindings.define classes globals name ty v = .ok globals') :
    globals' = Bindings.put name ⟨ty, v.coerce ty⟩ globals := by
  obtain ⟨kept, hkept, -, hput⟩ := put_of_define h
  rw [hnone] at hkept
  subst hkept
  exact hput

namespace Declaration

variable {s : Setting} {top visible : Lexical} {rounds : Nat} {d : Declaration} {c c' : Chronicle} {u : Unit}

theorem recordInitial_keeps (d : Declaration) (s : Setting) (top visible : Lexical) (rounds : Nat) :
    Keeps 1 (d.recordInitial s top visible rounds) := by
  unfold recordInitial
  cases d.initial with
  | none => exact .pure _
  | some e => exact (s.recordEvaluate_keeps top visible rounds e).bind fun _ => .pure _

/-- A name that no global has is still none when the initial value is there. -/
theorem absent_of_recordInitial {v : Value} {name : String} (h : d.recordInitial s top visible rounds c = .ok v c')
    (hnone : c.machine.globals.lookup name = none) : c'.machine.globals.lookup name = none := by
  have hk := d.recordInitial_keeps s top visible rounds c
  rw [h, finalState_ok] at hk
  have hshape := Bindings.lookup_shape name c'.machine.globals
  rw [hk.globals, Bindings.lookup_shape, hnone] at hshape
  exact Option.map_eq_none_iff.mp hshape.symm

/-- What a declaration does if it succeeds. A member is put in its place. A global of the right type is left as it is,
and one that does not exist is defined. -/
inductive Effect (s : Setting) (top visible : Lexical) (rounds : Nat) (d : Declaration) (c : Chronicle) :
    Chronicle → Prop
  | member {v : Value} {c₁ : Chronicle} (hstorage : d.storage = .member)
      (hinitial : d.recordInitial s top visible rounds c = .ok v c₁) :
      Effect s top visible rounds d c
        ⟨{ c₁.machine with members := Bindings.put d.name ⟨d.ty, v⟩ c₁.machine.members },
          ⟨c₁.machine, .declaration d.name (.member d.position)⟩ :: c₁.moments⟩
  | existing (hstorage : d.storage ≠ .member) (hfound : c.machine.globals.shape.lookup d.name = some d.ty) :
      Effect s top visible rounds d c c
  | defined {v : Value} {c₁ : Chronicle} (hstorage : d.storage ≠ .member)
      (hnone : c.machine.globals.shape.lookup d.name = none)
      (hinitial : d.recordInitial s top visible rounds c = .ok v c₁) :
      Effect s top visible rounds d c
        { c₁ with machine :=
          { c₁.machine with globals := Bindings.put d.name ⟨d.ty, v.coerce d.ty⟩ c₁.machine.globals } }

/-- A declaration that defines a global finds none of its name when it does so. -/
theorem effect_of_recordGlobal (hstorage : d.storage ≠ .member) (hnone : c.machine.globals.lookup d.name = none)
    (h : d.recordGlobal s top visible rounds c = .ok u c') : d.Effect s top visible rounds c c' := by
  obtain ⟨v, c₁, hv, hdefine⟩ := ok_of_bind h
  unfold Recorded.quietly at hdefine
  rw [Run.define_eq] at hdefine
  cases hglobals : Bindings.define s.classes c₁.machine.globals d.name d.ty v with
  | error fault => simp [hglobals] at hdefine
  | ok globals =>
    simp only [hglobals, EStateM.Result.ok.injEq, true_and] at hdefine
    obtain rfl := Bindings.define_new (absent_of_recordInitial hv hnone) hglobals
    subst hdefine
    have hshape : c.machine.globals.shape.lookup d.name = none := by rw [Bindings.lookup_shape, hnone, Option.map_none]
    exact .defined hstorage hshape hv

theorem effect_of_record (h : d.record s top visible rounds c = .ok u c') : d.Effect s top visible rounds c c' := by
  change d.recordGiven s top visible rounds ((c.machine.globals.lookup d.name).map (·.ty)) c = _ at h
  have hshape := Bindings.lookup_shape d.name c.machine.globals
  generalize hglobal : (c.machine.globals.lookup d.name).map (·.ty) = existing at h hshape
  unfold recordGiven at h
  cases hstorage : d.storage with
  | member =>
    simp only [hstorage] at h
    obtain ⟨v, c₁, hv, h⟩ := ok_of_bind h
    obtain ⟨_, c₂, hnote, h⟩ := ok_of_bind h
    cases hnote
    cases h
    exact .member hstorage hv
  | shared =>
    have hne : d.storage ≠ .member := by simp [hstorage]
    cases existing with
    | none =>
      simp only [hstorage] at h
      exact effect_of_recordGlobal hne (Option.map_eq_none_iff.mp hglobal) h
    | some ty =>
      simp only [hstorage] at h
      split at h
      · next heq =>
        cases h
        exact .existing hne (heq ▸ hshape)
      · cases h
  | required =>
    have hne : d.storage ≠ .member := by simp [hstorage]
    cases existing with
    | none =>
      simp only [hstorage] at h
      split at h
      · cases h
      · exact effect_of_recordGlobal hne (Option.map_eq_none_iff.mp hglobal) h
    | some ty =>
      simp only [hstorage] at h
      split at h
      · next heq =>
        cases h
        exact .existing hne (heq ▸ hshape)
      · cases h

theorem toVariable_of_member (h : d.storage = .member) : d.toVariable = ⟨d.ty, .member d.position⟩ := by
  simp [toVariable, h]

theorem toVariable_of_ne_member (h : d.storage ≠ .member) : d.toVariable = ⟨d.ty, .shared d.name⟩ := by
  unfold toVariable
  cases hs : d.storage with
  | member => exact absurd hs h
  | shared => rfl
  | required => rfl

theorem settled_of_record (hc : c.Settled top visible) (hd : top.lookup d.name = some d.toVariable)
    (h : d.record s top visible rounds c = .ok u c') :
    c'.Settled top ((d.name, d.toVariable) :: visible) ∧ c.machine.Adds d.name c'.machine := by
  cases effect_of_record h with
  | @member v c₁ hstorage hv =>
    have hk := d.recordInitial_keeps s top visible rounds c
    rw [hv, finalState_ok] at hk
    rw [toVariable_of_member hstorage] at hd ⊢
    exact ⟨(hc.kept hk).declareMember ⟨d.ty, v⟩ hd, .of_eq hk.globals⟩
  | existing hstorage hfound =>
    rw [toVariable_of_ne_member hstorage] at hd ⊢
    exact ⟨hc.declareGlobal hd hfound fun _ _ => rfl, .of_eq rfl⟩
  | @defined v c₁ hstorage hnone hv =>
    have hk := d.recordInitial_keeps s top visible rounds c
    rw [hv, finalState_ok] at hk
    rw [toVariable_of_ne_member hstorage] at hd ⊢
    refine ⟨(hc.kept hk).declareGlobal hd ?_ fun other hother => ?_, fun name ty hty => ?_, fun other hother => ?_⟩
    · rw [Bindings.shape_put, if_pos rfl]
    · rw [Bindings.shape_put, if_neg hother]
    · rw [Bindings.shape_put, hk.globals]
      split
      · next heq =>
        rw [heq, hnone] at hty
        cases hty
      · exact hty
    · rw [Bindings.shape_put, if_neg hother, hk.globals]

theorem settled_of_recordAll {declarations : List Declaration} (hc : c.Settled top visible)
    (htop : ∀ d ∈ declarations, top.lookup d.name = some d.toVariable)
    (h : recordAll s top rounds visible declarations c = .ok u c') :
    c'.Settled top (visibleAfter visible declarations) := by
  induction declarations generalizing visible c with
  | nil =>
    cases h
    exact hc
  | cons d rest ih =>
    obtain ⟨hfirst, hrest⟩ := List.forall_mem_cons.mp htop
    obtain ⟨_, c₁, hd, h⟩ := ok_of_bind h
    exact ih (settled_of_record hc hfirst hd).1 hrest h

/-- No declaration takes the place of a variable that is there. -/
theorem AllChecked.lookup_of_visible {k : Checking} {declarations : List Declaration}
    (h : AllChecked k visible declarations) {name : String} {v : Variable} (hv : visible.lookup name = some v) :
    (visibleAfter visible declarations).lookup name = some v := by
  induction declarations generalizing visible with
  | nil => exact hv
  | cons d rest ih =>
    obtain ⟨hfresh, -, hrest⟩ := h
    refine ih hrest ?_
    have hne : name ≠ d.name := by
      rintro rfl
      simp [hfresh] at hv
    rwa [List.lookup_cons, beq_eq_false_iff_ne.mpr hne]

theorem AllChecked.lookup_of_mem {k : Checking} {declarations : List Declaration}
    (h : AllChecked k visible declarations) :
    ∀ d ∈ declarations, (visibleAfter visible declarations).lookup d.name = some d.toVariable := by
  induction declarations generalizing visible with
  | nil => simp
  | cons d rest ih =>
    obtain ⟨-, -, hrest⟩ := h
    exact List.forall_mem_cons.mpr ⟨hrest.lookup_of_visible (by simp), ih hrest⟩

end Declaration

/-- What the host may do to a state between two calls: it may give variables other values and define new globals,
and has a free hand with the world, the monitor and the limits. -/
structure Machine.Resumes (m m' : Machine) : Prop where
  frames : m'.frames = m.frames
  members : m'.members.shape = m.members.shape
  globals : m.GlobalsStay m'

theorem Machine.Resumes.refl (m : Machine) : m.Resumes m :=
  ⟨rfl, rfl, fun _ _ => id⟩

theorem Chronicle.Settled.resumes {top visible : Lexical} {c : Chronicle} {m : Machine} (h : c.Settled top visible)
    (hr : c.machine.Resumes m) : Chronicle.Settled top visible ⟨m, c.moments⟩ := by
  refine ⟨hr.frames.trans h.idle, fun name v hv => ?_, fun name ty hty => h.members name ty (hr.members ▸ hty)⟩
  have hknown := h.known name v hv
  have hsite : m.topSite? name = c.machine.topSite? name := by
    have hsome := hknown.exists_site trivial
    rw [Machine.topSite?_eq] at hsome ⊢
    rw [Machine.topSite?_eq, hr.members]
    cases hm : c.machine.members.shape.lookup name with
    | some ty => rfl
    | none =>
      cases hg : c.machine.globals.shape.lookup name with
      | some ty => rw [hr.globals name ty hg]
      | none => simp [hm, hg] at hsome
  rwa [hsite]

theorem Chronicle.Settled.ready {c : Chronicle} {top : Lexical} (h : c.Settled top top) (calm : Prop) :
    c.Ready ⟨True, calm, top⟩ := by
  intro name v hv
  rw [h.idle]
  exact h.known name v hv

namespace Script

variable {s : Script} {r : Registry}

/-- A script that was prepared in a context of its own, for the first time or once more, and the calls since then.
Each call may end as it likes, and before each the host may do what it can. -/
inductive Underway (s : Script) : Chronicle → Prop
  | prepared {rounds : Nat} {m : Machine} {c : Chronicle} (hidle : m.frames = []) (hown : m.Belongs s.top)
      (h : s.recordPrepare rounds ⟨m, []⟩ = .ok () c) : Underway s c
  | called {c : Chronicle} {m : Machine} (h : Underway s c) (hm : c.machine.Resumes m) (rounds : Nat) (name : String)
      (arguments : List Value) : Underway s (finalState (s.recordCall rounds name arguments ⟨m, c.moments⟩))

theorem setting_checked (hs : s.program.Checked r) : s.setting.Checked r s.top :=
  hs.functions

theorem recordCall_heeds {calm : Prop} {certain : Prop} (hs : s.program.Checked r)
    (hm : calm → r.AllMembers Member.SparesVariables) (rounds : Nat) (name : String) (arguments : List Value) :
    Heeds ⟨certain, calm, s.top⟩ [] (s.recordCall rounds name arguments) := by
  unfold recordCall
  refine (Heeds.quietly (.located _ (s.resolve_mild name arguments))).bind fun found =>
    (Heeds.quietly_of .begin (by rintro _ _ m m' e ⟨⟩)).bind fun _ => Heeds.bind ?_ fun v => .pure _
  exact ⟨s.setting.recordCall_keeps s.top rounds _ arguments _, fun c hc =>
    (Setting.recordInvoke_heeds (setting_checked hs) hm rounds _ _ _ _).outcome c hc⟩

theorem settled_of_begin {top : Lexical} {c₀ c : Chronicle} {u : Unit} (hidle : c₀.machine.frames = [])
    (hown : c₀.machine.Belongs top) (h : Recorded.quietly Run.begin c₀ = .ok u c) : c.Settled top [] := by
  have hc₀ : c₀.Settled top [] := ⟨hidle, fun _ _ hv => (nomatch hv), hown⟩
  have hkeeps : Keeps 1 (Recorded.quietly Run.begin) := .quietly .begin
  have hk := hkeeps c₀
  rw [h] at hk
  exact hc₀.kept hk

theorem settled_of_recordPrepare {rounds : Nat} {c₀ c : Chronicle} (hs : s.program.Checked r)
    (hidle : c₀.machine.frames = []) (hown : c₀.machine.Belongs s.top)
    (h : s.recordPrepare rounds c₀ = .ok () c) : c.Settled s.top s.top := by
  obtain ⟨_, c₁, hbegin, h⟩ := ok_of_bind h
  exact Declaration.settled_of_recordAll (settled_of_begin hidle hown hbegin) hs.declarations.lookup_of_mem h

/-- All variables at the top are there from the preparation on. -/
theorem Underway.settled {c : Chronicle} (hs : s.program.Checked r) (h : s.Underway c) : c.Settled s.top s.top := by
  induction h with
  | prepared hidle hown h => exact settled_of_recordPrepare hs hidle hown h
  | called h hm rounds name arguments ih =>
    have hheeds : Heeds ⟨True, False, s.top⟩ [] (s.recordCall rounds name arguments) :=
      recordCall_heeds hs (fun h => h.elim) rounds name arguments
    exact (ih.resumes hm).kept (hheeds.keeps _)

/-- What holds of calls after a preparation holds of those after a second one as well. -/
theorem Underway.again {c c' : Chronicle} (hs : s.program.Checked r) (h : s.Underway c) {m : Machine}
    (hm : c.machine.Resumes m) {rounds : Nat} (hagain : s.recordPrepare rounds ⟨m, []⟩ = .ok () c') :
    s.Underway c' :=
  have hsettled := (h.settled hs).resumes hm
  .prepared hsettled.idle hsettled.members hagain

end Script

/-- An access finds, by looking from the innermost scope outward, a variable of the type that it expects, and this
variable was made by the declaration that is visible where the access stands. -/
def Moment.FindsDeclaration (before : List Moment) (t : Moment) : Prop :=
  ∀ ref visible, t.happening = .access ref visible → ∃ v site b, visible = some v ∧
    t.machine.locate? ref.name = some (site, b) ∧ t.machine.lookup ref.name = some b.value ∧ b.ty = ref.declared ∧
    v.ty = ref.declared ∧ creator before t.machine.frames.length ref.name site = some v.origin

theorem Moment.Scoped.findsDeclaration {before : List Moment} {t : Moment} (h : t.Scoped True before) :
    t.FindsDeclaration before := by
  intro ref visible hh
  obtain ⟨v, hv, hty, hidentifies⟩ := h ref visible hh
  obtain ⟨⟨site, ty⟩, hsite⟩ := Option.isSome_iff_exists.mp (hidentifies.exists_site trivial)
  obtain ⟨⟨_, b⟩, hlocate, ⟨⟩⟩ := Option.map_eq_some_iff.mp hsite
  refine ⟨v, _, b, hv, hlocate, ?_, (hidentifies.type _ _ hsite).trans hty, hty,
    hidentifies.origin trivial _ _ hsite⟩
  rw [Machine.lookup_eq, hlocate]
  rfl

theorem Since.mono {P Q : List Moment → Moment → Prop} {base moments : List Moment} (h : Since P base moments)
    (hPQ : ∀ before t, P before t → Q before t) : Since Q base moments := by
  induction h with
  | refl => exact .refl
  | note _ ht ih => exact .note ih (hPQ _ _ ht)

/-- A script in which a name is declared again after an unbraced body has left it behind. -/
def Script.leavingBehind : String :=
  "int a=3;int f(int n)\x7bif(n>0)int x=n;string x=\"a\";for(int i=0;i<2;i++)int y=i+a;return a+n;\x7d"

end Scriptlet
