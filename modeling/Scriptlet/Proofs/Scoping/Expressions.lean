import Scriptlet.Proofs.Checked
import Scriptlet.Proofs.OrderlyMembers
import Scriptlet.Proofs.Places

/-!
# Static scoping

Every access to a variable finds what is declared at the place that is visible there by the nesting of the source.
The scopes of a run are not those of the source: a declaration that is the body of a branch or of a loop has no
scope of its own, and what it declares stays behind. Such a name is not visible any more, so what is known of the
visible ones is kept; the invariant of a run is about these only.

Calls that are made while a script is being prepared may look for variables that have not been declared yet. For
them less is known: what is found has the right type, if anything is found.
-/

namespace Scriptlet

/-- Whether all that was written down since a record was at `base` has a property, which may depend on what was
written down before it. -/
inductive Since (P : List Moment → Moment → Prop) (base : List Moment) : List Moment → Prop
  | refl : Since P base base
  | note {t : Moment} {moments : List Moment} (h : Since P base moments) (ht : P moments t) :
      Since P base (t :: moments)

theorem Since.trans {P : List Moment → Moment → Prop} {base middle last : List Moment} (h : Since P base middle)
    (h' : Since P middle last) : Since P base last := by
  induction h' with
  | refl => exact h
  | note _ ht ih => exact .note ih ht

/-- An access finds the variable that is visible at its place, with the type that it expects. -/
def Moment.Scoped (certain : Prop) (before : List Moment) (t : Moment) : Prop :=
  ∀ ref visible, t.happening = .access ref visible → ∃ v, visible = some v ∧ v.ty = ref.declared ∧
    Identifies certain before t.machine.frames.length ref.name v (t.machine.site? ref.name)

/-- The end of a run that missed a variable. -/
def Interruption.IsUndefined : Interruption → Prop
  | .fault ⟨.undefinedVariable _, _⟩ => True
  | _ => False

theorem Interruption.Spares.not_isUndefined {h : Heap} {e : Interruption} (he : e.Spares Fault.IsAmbient h) :
    ¬ e.IsUndefined := by
  cases e with
  | fault error =>
    obtain ⟨fault, p⟩ := error
    cases fault <;> first | exact id | exact absurd trivial he
  | outOfRounds => exact id
  | endlessText => exact id

/-- A member that never reports that a variable is missing. -/
def Member.SparesVariables (m : Member) : Prop :=
  ∀ arguments w name w', m.call arguments w ≠ .error (.undefinedVariable name) w'

theorem Member.Orderly.sparesVariables {m : Member} (h : m.Orderly) : m.SparesVariables :=
  fun arguments w _ w' hcall => nomatch ((h arguments).faults w _ w' hcall trivial).1

/-- What a run is watched for: whether all variables at the top, which are listed, are there with certainty, and
whether the members of the host are free of faults about variables. -/
structure Outlook where
  certain : Prop
  calm : Prop
  top : Lexical

/-- The variables at the top are what they should be. -/
def Chronicle.Ready (o : Outlook) (c : Chronicle) : Prop :=
  ∀ name v, o.top.lookup name = some v →
    Identifies o.certain c.moments c.machine.frames.length name v (c.machine.topSite? name)

structure Chronicle.Oriented (o : Outlook) (visible : Lexical) (c : Chronicle) : Prop where
  ready : c.Ready o
  visible : ∀ name v, visible.lookup name = some v →
    Identifies o.certain c.moments c.machine.frames.length name v (c.machine.site? name)

namespace Chronicle

variable {o : Outlook} {visible : Lexical} {c c' : Chronicle}

theorem Ready.kept {k : Nat} (h : c.Ready o) (hk : Kept k c c') (hpos : 0 < k) : c'.Ready o := by
  intro name v hv
  rw [hk.topSite? hpos]
  exact (h name v hv).kept hk fun _ _ hsite => (Machine.isTop_of_topSite? hsite).below hpos

theorem Oriented.kept (h : c.Oriented o visible) (hk : Kept (c.machine.level + 1) c c') : c'.Oriented o visible := by
  refine ⟨h.ready.kept hk (Nat.succ_pos _), fun name v hv => ?_⟩
  rw [hk.site?]
  exact (h.visible name v hv).kept hk fun _ _ hsite => Machine.below_of_site? hsite

theorem Ready.oriented (h : c.Ready o) : c.Oriented o [] :=
  ⟨h, fun _ _ hv => nomatch hv⟩

end Chronicle

/-- How a computation that began with a record ends: its accesses are right, and if it has to be so it does not miss
a variable. -/
structure Outlook.Outcome (o : Outlook) {α : Type} (c : Chronicle)
    (r : EStateM.Result Interruption Chronicle α) : Prop where
  since : Since (Moment.Scoped o.certain) c.moments (finalState r).moments
  found : o.certain → o.calm → ∀ e c', r = .error e c' → ¬ e.IsUndefined

namespace Outlook.Outcome

variable {o : Outlook} {α β : Type} {c c' : Chronicle}

theorem ok {a : α} (h : Since (Moment.Scoped o.certain) c.moments c'.moments) :
    o.Outcome c (.ok a c' : EStateM.Result Interruption Chronicle α) :=
  ⟨h, fun _ _ _ _ h => nomatch h⟩

theorem error {e : Interruption} (h : Since (Moment.Scoped o.certain) c.moments c'.moments)
    (he : o.certain → o.calm → ¬ e.IsUndefined) :
    o.Outcome c (.error e c' : EStateM.Result Interruption Chronicle α) := by
  refine ⟨h, fun hcertain hcalm e' c'' h' => ?_⟩
  cases h'
  exact he hcertain hcalm

theorem bind {x : Recorded α} {f : α → Recorded β} (hx : o.Outcome c (x c))
    (hf : ∀ a c', x c = .ok a c' → o.Outcome c' (f a c')) : o.Outcome c ((x >>= f) c) := by
  change o.Outcome c (EStateM.bind x f c)
  unfold EStateM.bind
  cases hxc : x c with
  | ok a c' =>
    rw [hxc] at hx
    have h := hf a c' hxc
    exact ⟨hx.since.trans h.since, h.found⟩
  | error e c' =>
    rw [hxc] at hx
    exact error hx.since fun hcertain hcalm => hx.found hcertain hcalm e c' rfl

/-- What the state is changed to around a computation does not matter. -/
theorem bracket {before after : Machine → Machine} {x : Recorded α}
    (h : o.Outcome { c with machine := before c.machine } (x { c with machine := before c.machine })) :
    o.Outcome c (Recorded.bracket before after x c) := by
  unfold Recorded.bracket
  cases hx : x { c with machine := before c.machine } with
  | ok a c' =>
    rw [hx] at h
    exact ok h.since
  | error e c' =>
    rw [hx] at h
    exact error h.since fun hcertain hcalm => h.found hcertain hcalm e c' rfl

theorem quietly_of {x : Run α}
    (h : o.certain → o.calm → ∀ m m' e, x m = .error e m' → ¬ e.IsUndefined) (c : Chronicle) :
    o.Outcome c (Recorded.quietly x c) := by
  unfold Recorded.quietly
  cases hx : x c.machine with
  | ok a m => exact ok .refl
  | error e m => exact error .refl fun hcertain hcalm => h hcertain hcalm _ _ _ hx

theorem quietly {x : Run α} (h : x.Plain Fault.IsAmbient) (c : Chronicle) : o.Outcome c (Recorded.quietly x c) := by
  refine quietly_of (fun _ _ m m' e hx => ?_) c
  exact (h.mild m m' e hx).not_isUndefined

end Outlook.Outcome

open Recorded

/-- A computation that keeps every scope and is right wherever some variables are visible. -/
structure Heeds (o : Outlook) (visible : Lexical) {α : Type} (x : Recorded α) : Prop where
  keeps : Keeps 1 x
  outcome : ∀ c, c.Oriented o visible → o.Outcome c (x c)

namespace Heeds

variable {o : Outlook} {visible : Lexical} {α β : Type}

theorem pure (a : α) : Heeds o visible (Pure.pure a : Recorded α) :=
  ⟨.pure a, fun _ _ => .ok .refl⟩

theorem bind {x : Recorded α} {f : α → Recorded β} (hx : Heeds o visible x) (hf : ∀ a, Heeds o visible (f a)) :
    Heeds o visible (x >>= f) := by
  refine ⟨hx.keeps.bind fun a => (hf a).keeps, fun c hc => (hx.outcome c hc).bind fun a c' hxc => ?_⟩
  have hk := hx.keeps c
  rw [hxc] at hk
  exact (hf a).outcome c' (hc.kept hk)

theorem widen {x : Recorded α} (h : Heeds o [] x) : Heeds o visible x :=
  ⟨h.keeps, fun c hc => h.outcome c hc.ready.oriented⟩

theorem quietly_of {x : Run α} (hs : x.Shapely)
    (he : o.certain → o.calm → ∀ m m' e, x m = .error e m' → ¬ e.IsUndefined) :
    Heeds o visible (Recorded.quietly x) :=
  ⟨.quietly hs, fun c _ => .quietly_of he c⟩

theorem quietly {x : Run α} (h : x.Tame) : Heeds o visible (Recorded.quietly x) :=
  ⟨.quietly (.of_tame h), fun c _ => .quietly h.plain c⟩

theorem note {h : Happening} (hdecl : ∀ name origin, h ≠ .declaration name origin)
    (haccess : ∀ ref visible, h ≠ .access ref visible) : Heeds o visible (Recorded.note h) := by
  refine ⟨.note hdecl, fun c _ => .ok (.note .refl ?_)⟩
  intro ref visible heq
  exact absurd heq (haccess ref visible)

theorem giving {e : Expr} {x : Recorded Value} (h : Heeds o visible x) : Heeds o visible (Recorded.giving e x) :=
  h.bind fun _ => (note (by simp) (by simp)).bind fun _ => pure _

end Heeds

theorem Monitor.fault_of_check {m : Monitor} {e : Event} {clock : Clock} {fault : Fault}
    (h : (m.check e clock).1 = some fault) :
    (∃ limit, fault = .stepLimitExceeded limit) ∨ fault = .deadlineExceeded := by
  have hdeadline : ∀ m : Monitor, (m.checkDeadline clock).1 = some fault → fault = .deadlineExceeded := by
    intro m hm
    unfold Monitor.checkDeadline at hm
    cases hd : m.deadline with
    | none => simp [hd] at hm
    | some d =>
      simp only [hd, Deadline.check] at hm
      split at hm
      · exact (Option.some.inj hm).symm
      · cases hm
  unfold Monitor.check at h
  cases hb : (m.record e).budget with
  | none =>
    simp only [hb] at h
    exact .inr (hdeadline _ h)
  | some b =>
    simp only [hb, Budget.spend] at h
    split at h
    · next heq =>
      split at heq
      · cases heq
        exact .inl ⟨_, (Option.some.inj h).symm⟩
      · cases heq
    · exact .inr (hdeadline _ h)

theorem Run.checkpoint_not_isUndefined {e : Event} {p : Position} {m m' : Machine} {i : Interruption}
    (h : Run.checkpoint e p m = .error i m') : ¬ i.IsUndefined := by
  rw [Run.checkpoint_eq] at h
  cases hm : (m.check e).1 with
  | none => simp [hm] at h
  | some fault =>
    simp only [hm, EStateM.Result.error.injEq] at h
    rw [← h.1]
    rcases Monitor.fault_of_check hm with ⟨limit, rfl⟩ | rfl <;> exact id

namespace Heeds

variable {o : Outlook} {visible : Lexical} {α β : Type}

theorem checkpoint (e : Event) (p : Position) : Heeds o visible (Recorded.checkpoint e p) :=
  (quietly_of (.checkpoint e p) fun _ _ _ _ _ h => Run.checkpoint_not_isUndefined h).bind fun _ =>
    note (by simp) (by simp)

theorem enterCall (p : Position) : Heeds o visible (Recorded.enterCall p) := by
  refine (quietly_of (.enterCall p) fun _ _ m m' i h => ?_).bind fun _ => note (by simp) (by simp)
  rw [Run.enterCall_eq] at h
  split at h
  · cases h
    exact id
  · exact Run.checkpoint_not_isUndefined h

theorem host {p : Position} {action : Host α}
    (h : o.calm → ∀ w name w', action w ≠ .error (.undefinedVariable name) w') :
    Heeds o visible (Recorded.quietly (Run.host p action)) := by
  refine quietly_of (.host p action) fun _ hcalm m m' i hm => ?_
  unfold Run.host at hm
  cases haction : action m.world with
  | ok a w => simp [haction] at hm
  | error fault w =>
    simp only [haction, EStateM.Result.error.injEq] at hm
    rw [← hm.1]
    cases fault with
    | undefinedVariable name => exact absurd haction (h hcalm _ _ _)
    | _ => exact id

end Heeds

namespace Heeds

variable {o : Outlook} {visible : Lexical} {ref : VariableRef}

theorem isSome_of_oriented {c : Chronicle} (hc : c.Oriented o visible) (hcertain : o.certain)
    (hv : ref.Visible visible) : (c.machine.locate? ref.name).isSome = true := by
  obtain ⟨origin, hlookup⟩ := hv
  simpa [Machine.site?] using (hc.visible _ _ hlookup).exists_site hcertain

theorem since_access {c : Chronicle} (hc : c.Oriented o visible) (hv : ref.Visible visible) :
    Since (Moment.Scoped o.certain) c.moments
      (⟨c.machine, .access ref (visible.lookup ref.name)⟩ :: c.moments) := by
  obtain ⟨origin, hlookup⟩ := hv
  refine .note .refl fun ref' visible' heq => ?_
  cases heq
  exact ⟨_, hlookup, rfl, hc.visible _ _ hlookup⟩

/-- An action on a visible variable that misses nothing where the variable is found. -/
theorem accessing {α : Type} {x : Run α} (hv : ref.Visible visible) (hs : x.Shapely)
    (hx : ∀ m m' e, (m.locate? ref.name).isSome = true → x m = .error e m' → ¬ e.IsUndefined) :
    Heeds o visible (do access visible (.variable ref); Recorded.quietly x) := by
  refine ⟨(Keeps.access visible _).bind fun _ => .quietly hs, fun c hc => ?_⟩
  have haccess : access visible (.variable ref) c =
      .ok () ⟨c.machine, ⟨c.machine, .access ref (visible.lookup ref.name)⟩ :: c.moments⟩ := rfl
  refine Outlook.Outcome.bind (haccess ▸ .ok (since_access hc hv)) fun _ c' hc' => ?_
  rw [haccess] at hc'
  cases hc'
  unfold Recorded.quietly
  cases hm : x c.machine with
  | ok a m => exact .ok .refl
  | error e m => exact .error .refl fun hcertain _ => hx _ _ _ (isSome_of_oriented hc hcertain hv) hm

theorem read {slot : Slot} {visible' : Lexical} (h : ∀ ref ∈ slot.ref?, visible' = visible ∧ ref.Visible visible)
    (p : Position) : Heeds o visible (Recorded.read visible' p slot) := by
  cases slot with
  | «variable» ref =>
    obtain ⟨rfl, hv⟩ := h ref rfl
    refine accessing hv (.slot_read p _) fun m m' e hsome hm => ?_
    rw [Slot.read, ref.get_eq, Machine.lookup_eq] at hm
    obtain ⟨l, hl⟩ := Option.isSome_iff_exists.mp hsome
    simp [hl] at hm
  | item element address index => exact quietly (.item p address index)
  | entry key value address k => exact quietly (.entry p key value address k)

theorem write {slot : Slot} {visible' : Lexical} (h : ∀ ref ∈ slot.ref?, visible' = visible ∧ ref.Visible visible)
    (classes : Hierarchy) (p : Position) (v : Value) :
    Heeds o visible (Recorded.write visible' classes p slot v) := by
  cases slot with
  | «variable» ref =>
    obtain ⟨rfl, hv⟩ := h ref rfl
    refine accessing hv (.slot_write classes p _ v) fun m m' e hsome hm => ?_
    have hassign := Machine.assign?_isSome m ref.name ((v.coerce ref.declared).coerce ref.declared)
    obtain ⟨m₁, hm₁⟩ := Option.isSome_iff_exists.mp (hassign.trans hsome)
    rw [Slot.write_variable_eq, hm₁] at hm
    split at hm
    · cases hm
    · cases hm
      exact id
  | item element address index => exact quietly (.item_write classes p element address index v)
  | entry key value address k => exact quietly (.entry_write classes p key value address k v)

theorem bind_of {α β : Type} {R : α → Prop} {x : Recorded α} {f : α → Recorded β} (hx : Heeds o visible x)
    (hR : Gives R x) (hf : ∀ a, R a → Heeds o visible (f a)) : Heeds o visible (x >>= f) := by
  refine ⟨hx.keeps.bind_of hR fun a ha => (hf a ha).keeps, fun c hc => (hx.outcome c hc).bind fun a c' hxc => ?_⟩
  have hk := hx.keeps c
  rw [hxc] at hk
  exact (hf a (hR c a c' hxc)).outcome c' (hc.kept hk)

/-- To be right where some variables are visible is a property that all expressions over these variables have. Nothing
is said of statements, which change what is visible. -/
def concord (o : Outlook) (visible : Lexical) (s : Setting) : Concord s where
  inner _ x _ := Heeds o visible x
  outer _ _ := True
  seen visible' ref := visible' = visible ∧ ref.Visible visible
  rounds := 0
  rounds' := 0
  loops := False
  pure := .pure
  bind := .bind
  place hx hgives hseen hf := hx.bind_of hgives fun slot hslot => hf slot (hslot ▸ hseen)
  map _ hx := hx.bind fun _ => .pure _
  quietly := .quietly
  giving := .giving
  read _ p _ h := .read h p
  write _ p _ v h := .write h s.classes p v
  weaken _ := trivial
  andThen _ _ := trivial
  repeatWhile _ _ h := h.elim
  checkpoint _ _ := trivial
  declare _ _ _ _ := trivial
  inScope _ := trivial

end Heeds

def RecordedInvoke.Heeds (o : Outlook) (invoke : RecordedInvoke) : Prop :=
  ∀ index arguments p, Scriptlet.Heeds o [] (invoke index arguments p)

theorem RecordedInvoke.Heeds.keeps {o : Outlook} {invoke : RecordedInvoke} (h : invoke.Heeds o) : invoke.Keeps :=
  fun index arguments p => (h index arguments p).keeps

section Evaluator

variable {o : Outlook} {s : Setting} {invoke : RecordedInvoke} {k : Checking} {visible : Lexical}

theorem RecordedInvoke.Heeds.calls (hi : invoke.Heeds o) :
    (Heeds.concord o visible s).Calls invoke fun _ _ _ => Pure.pure .null :=
  fun index arguments p => (hi index arguments p).widen

theorem Place.Holds.seen {classes : Hierarchy} {place : Place} {ty : Ty} (h : place.Holds classes visible ty) :
    ∀ ref ∈ place.ref?, visible = visible ∧ ref.Visible visible := by
  cases place with
  | «variable» ref =>
    rintro _ ⟨⟩
    exact ⟨rfl, h.2⟩
  | index collection key => rintro _ ⟨⟩

/-- What was checked accesses visible variables only. -/
theorem Expr.Checked.permits {e : Expr} (hm : o.calm → k.registry.AllMembers Member.SparesVariables)
    (h : e.Checked k visible) : e.All ((Heeds.concord o visible s).Permits visible) := by
  refine Expr.All.mono (fun e he => ?_) h
  cases e with
  | staticMember info member arguments =>
    obtain ⟨-, owner, howner, -⟩ := he
    exact ⟨fun _ _ => Heeds.host fun hcalm => (hm hcalm).1 _ howner _, by rintro _ ⟨⟩⟩
  | instanceMember info member receiver arguments =>
    obtain ⟨-, -, name, hmember⟩ := he
    exact ⟨fun _ _ => Heeds.host fun hcalm =>
      (hm hcalm).valueMembers (fun _ => Member.Orderly.sparesVariables) hmember _, by rintro _ ⟨⟩⟩
  | «variable» info ref =>
    refine ⟨trivial, ?_⟩
    rintro _ ⟨⟩
    exact ⟨rfl, he.2⟩
  | assign info target => exact ⟨trivial, Place.Holds.seen he⟩
  | increment info target => exact ⟨trivial, Place.Holds.seen he⟩
  | _ => exact ⟨trivial, by rintro _ ⟨⟩⟩

variable (hi : invoke.Heeds o) (hm : o.calm → k.registry.AllMembers Member.SparesVariables)

include hi hm

/-- Evaluating an expression is right where the variables that it was checked against are visible. -/
theorem Expr.record_heeds {e : Expr} (h : e.Checked k visible) : Heeds o visible (e.record s visible invoke) :=
  e.record_related (C := Heeds.concord o visible s) hi.calls visible (h.permits hm)

theorem Expr.recordAll_heeds {es : List Expr} (h : ∀ e ∈ es, e.Checked k visible) :
    Heeds o visible (Expr.recordAll s visible invoke es) :=
  Expr.recordAll_related (C := Heeds.concord o visible s) hi.calls visible es fun e he => (h e he).permits hm

theorem Expr.recordHolds_heeds {e : Expr} (h : e.Checked k visible) :
    Heeds o visible (e.recordHolds s visible invoke) :=
  e.recordHolds_related (C := Heeds.concord o visible s) hi.calls visible (h.permits hm)

theorem Expr.recordOption_heeds {e : Option Expr} (h : ∀ x ∈ e, x.Checked k visible) :
    Heeds o visible (Expr.recordOption s visible invoke e) :=
  Expr.recordOption_related (C := Heeds.concord o visible s) hi.calls visible e fun x hx =>
    (h x (Option.mem_toList.mp hx)).permits hm

theorem Expr.recordHoldsOption_heeds {e : Option Expr} (h : ∀ x ∈ e, x.Checked k visible) :
    Heeds o visible (Expr.recordHoldsOption s visible invoke e) :=
  Expr.recordHoldsOption_related (C := Heeds.concord o visible s) hi.calls visible e fun x hx =>
    (h x (Option.mem_toList.mp hx)).permits hm

end Evaluator

end Scriptlet
