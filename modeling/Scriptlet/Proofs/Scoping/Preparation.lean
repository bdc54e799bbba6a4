import Scriptlet.Proofs.StaticScoping

/-!
# Scoping while a script is being prepared

The declarations at the top are run in their order, and the functions that their initial values call see all of them,
also those that have not been run yet. Such a variable is not there, but the host may have a global of its name, and
then this is what is found. A preparation that succeeds shows that the globals the script shares with the host have the
right types. Nothing of the kind is checked for members: where a member has the name of a global of another type, what
is found may have the wrong type.
-/

namespace Scriptlet

open Recorded

/-- Globals that have the names of declarations have their types as well. -/
def Machine.Foretells (m : Machine) (declarations : List Declaration) : Prop :=
  ∀ d ∈ declarations, ∀ ty, m.globals.shape.lookup d.name = some ty → ty = d.ty

namespace Declaration

variable {s : Setting} {top visible : Lexical} {rounds : Nat} {d : Declaration} {declarations : List Declaration}
  {c c' : Chronicle} {u : Unit} {k : Checking}

theorem AllChecked.fresh (h : AllChecked k visible declarations) :
    ∀ d ∈ declarations, visible.lookup d.name = none := by
  induction declarations generalizing visible with
  | nil => simp
  | cons d rest ih =>
    obtain ⟨hfresh, -, hrest⟩ := h
    refine List.forall_mem_cons.mpr ⟨hfresh, fun other hother => ?_⟩
    have hnone := ih hrest other hother
    rw [List.lookup_cons] at hnone
    split at hnone
    · cases hnone
    · exact hnone

theorem AllChecked.lookup_visibleAfter (h : AllChecked k visible declarations) {name : String} {v : Variable}
    (hv : (visibleAfter visible declarations).lookup name = some v) :
    visible.lookup name = some v ∨ ∃ d ∈ declarations, d.name = name ∧ d.ty = v.ty := by
  induction declarations generalizing visible with
  | nil => exact .inl hv
  | cons d rest ih =>
    obtain ⟨-, -, hrest⟩ := h
    rcases ih hrest hv with hhere | ⟨other, hother, hname, hty⟩
    · rw [List.lookup_cons] at hhere
      split at hhere
      · next heq =>
        cases hhere
        exact .inr ⟨d, List.mem_cons_self, (eq_of_beq heq).symm, rfl⟩
      · exact .inl hhere
    · exact .inr ⟨other, List.mem_cons_of_mem _ hother, hname, hty⟩

/-- A declaration that is run leaves the type of a global alone, and fails if it is not the right one. -/
theorem ty_eq_of_record (hstorage : d.storage ≠ .member) (h : d.record s top visible rounds c = .ok u c') {ty : Ty}
    (hty : c.machine.globals.shape.lookup d.name = some ty) : ty = d.ty := by
  cases effect_of_record h with
  | member hmember _ => exact absurd hmember hstorage
  | existing _ hfound => exact Option.some.inj (hty.symm.trans hfound)
  | defined _ hnone _ =>
    rw [hnone] at hty
    cases hty

/-- Where all declarations succeed, the globals they share had the right types from the beginning. -/
theorem ty_eq_of_recordAll (hc : c.Settled top visible)
    (htop : ∀ d ∈ declarations, top.lookup d.name = some d.toVariable)
    (h : recordAll s top rounds visible declarations c = .ok u c') :
    ∀ d ∈ declarations, d.storage ≠ .member → ∀ ty, c.machine.globals.shape.lookup d.name = some ty → ty = d.ty := by
  induction declarations generalizing visible c with
  | nil => simp
  | cons d rest ih =>
    obtain ⟨hfirst, hrest⟩ := List.forall_mem_cons.mp htop
    obtain ⟨_, c₁, hd, h⟩ := ok_of_bind h
    obtain ⟨hc₁, hadds⟩ := settled_of_record hc hfirst hd
    refine List.forall_mem_cons.mpr ⟨fun hstorage ty hty => ty_eq_of_record hstorage hd hty, ?_⟩
    exact fun other hother hstorage ty hty => ih hc₁ hrest h other hother hstorage ty (hadds.stay _ _ hty)

end Declaration

/-- What is found of a variable at the top has its type, whether or not it has been declared. -/
theorem Chronicle.Settled.oriented {visible : Lexical} {c : Chronicle} {k : Checking} {declarations : List Declaration}
    (hc : c.Settled (Declaration.visibleAfter visible declarations) visible)
    (hchecked : Declaration.AllChecked k visible declarations)
    (hforetells : c.machine.Foretells declarations) :
    c.Oriented ⟨False, False, Declaration.visibleAfter visible declarations⟩ visible := by
  have hknown : ∀ name v, visible.lookup name = some v → ∀ site ty, c.machine.topSite? name = some (site, ty) →
      ty = v.ty := fun name v hv => (hc.known name v hv).type
  refine ⟨fun name v hv => ⟨False.elim, ?_, False.elim⟩, fun name v hv => ⟨False.elim, ?_, False.elim⟩⟩
  · rcases hchecked.lookup_visibleAfter hv with hhere | ⟨d, hd, rfl, hty⟩
    · exact hknown name v hhere
    · intro site ty hsite
      rw [Machine.topSite?_eq] at hsite
      cases hmember : c.machine.members.shape.lookup d.name with
      | some found =>
        -- an earlier preparation has made it
        obtain ⟨p, hp⟩ := hc.members _ _ hmember
        rw [hv] at hp
        cases hp
        rw [hmember] at hsite
        cases hsite
        rfl
      | none =>
        rw [hmember, Option.map_none, Option.none_or] at hsite
        obtain ⟨found, hfound, ⟨⟩⟩ := Option.map_eq_some_iff.mp hsite
        exact (hforetells d hd _ hfound).trans hty
  · rw [Machine.site?_of_idle hc.idle]
    exact hknown name v hv

theorem Setting.recordEvaluate_heeds {s : Setting} {k : Checking} {o : Outlook} {visible : Lexical} {e : Expr}
    (hs : s.Checked k.registry o.top) (hcalm : ¬ o.calm) (he : e.Checked k visible) (rounds : Nat) :
    Heeds o visible (s.recordEvaluate o.top visible rounds e) := by
  refine ⟨s.recordEvaluate_keeps o.top visible rounds e, fun c hc => ?_⟩
  have hinvoke := Setting.recordInvoke_heeds hs (fun h => absurd h hcalm) rounds (c.machine.limits.maxCallDepth + 1)
  exact (Expr.record_heeds (s := s) hinvoke (fun h => absurd h hcalm) he).outcome c hc

namespace Declaration

variable {s : Setting} {visible : Lexical} {rounds : Nat} {d : Declaration} {declarations : List Declaration}
  {c c' : Chronicle} {u : Unit} {k : Checking} {o : Outlook}

theorem recordInitial_heeds (hs : s.Checked k.registry o.top) (hcalm : ¬ o.calm)
    (hinitial : ∀ e ∈ d.initial, e.Checked k visible) (rounds : Nat) :
    Heeds o visible (d.recordInitial s o.top visible rounds) := by
  unfold recordInitial
  cases he : d.initial with
  | none => exact .pure _
  | some e =>
    have hvalue := Setting.recordEvaluate_heeds hs hcalm (hinitial e (he ▸ rfl)) rounds
    exact hvalue.bind fun _ => .pure _

theorem since_of_record (hs : s.Checked k.registry o.top) (hcalm : ¬ o.calm)
    (hinitial : ∀ e ∈ d.initial, e.Checked k visible) (hc : c.Oriented o visible)
    (h : d.record s o.top visible rounds c = .ok u c') : Since (Moment.Scoped o.certain) c.moments c'.moments := by
  have hsince : ∀ v c₁, d.recordInitial s o.top visible rounds c = .ok v c₁ →
      Since (Moment.Scoped o.certain) c.moments c₁.moments := by
    intro v c₁ hv
    have houtcome := (recordInitial_heeds hs hcalm hinitial rounds).outcome c hc
    rw [hv] at houtcome
    exact houtcome.since
  cases effect_of_record h with
  | @member v c₁ _ hv =>
    refine .note (hsince v c₁ hv) ?_
    rintro _ _ ⟨⟩
  | existing => exact .refl
  | @defined v c₁ _ _ hv => exact hsince v c₁ hv

/-- While declarations are run and all succeed, what an access finds has the type that it expects. -/
theorem since_of_recordAll {top : Lexical} (hs : s.Checked k.registry top) (hc : c.Settled top visible)
    (hchecked : AllChecked k visible declarations) (htop : visibleAfter visible declarations = top)
    (hforetells : c.machine.Foretells declarations)
    (h : recordAll s top rounds visible declarations c = .ok u c') :
    Since (Moment.Scoped False) c.moments c'.moments := by
  induction declarations generalizing visible c with
  | nil =>
    cases h
    exact .refl
  | cons d rest ih =>
    subst htop
    have horiented := hc.oriented hchecked hforetells
    have hfirst := hchecked.lookup_of_mem d List.mem_cons_self
    obtain ⟨-, hinitial, hrest⟩ := hchecked
    obtain ⟨_, c₁, hd, h⟩ := ok_of_bind h
    obtain ⟨hc₁, hadds⟩ := settled_of_record hc hfirst hd
    have hlater : c₁.machine.Foretells rest := by
      intro other hother ty hty
      refine hforetells other (List.mem_cons_of_mem _ hother) ty ?_
      have hne : other.name ≠ d.name := by
        intro heq
        have hnone := hrest.fresh other hother
        simp [heq] at hnone
      rwa [hadds.others _ hne] at hty
    have hsince := since_of_record (o := ⟨False, False, _⟩) hs id (fun e he => (hinitial e he).1) horiented hd
    exact hsince.trans (ih hc₁ hrest rfl hlater h)

end Declaration

end Scriptlet
