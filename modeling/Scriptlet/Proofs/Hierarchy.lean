import Scriptlet.Registry

/-!
# The order of classes

In a hierarchy that is built by registration every class names only older classes, and no name is used twice.
The ancestors of a class are then exactly the classes that it reaches over the classes named directly, so being
a subtype is transitive.
-/

namespace Scriptlet

theorem exists_ok_of_bind {ε α β : Type} {x : Except ε α} {f : α → Except ε β} {b : β} (h : x >>= f = .ok b) :
    ∃ a, x = .ok a ∧ f a = .ok b := by
  cases x with
  | error e => cases h
  | ok a => exact ⟨a, rfl, h⟩

theorem exists_ok_of_map {ε α β : Type} {x : Except ε α} {f : α → β} {b : β} (h : x.map f = .ok b) :
    ∃ a, x = .ok a ∧ f a = b := by
  cases x with
  | error e => cases h
  | ok a => exact ⟨a, rfl, Except.ok.inj h⟩

theorem eq_ok_of_toOption {ε α : Type} {x : Except ε α} {a : α} (h : x.toOption = some a) : x = .ok a := by
  cases x with
  | error e => cases h
  | ok b => exact congrArg _ (Option.some.inj h)

theorem exists_ok_of_any {ε α : Type} {x : Except ε α} {p : α → Bool} (h : x.toOption.any p = true) :
    ∃ a, x = .ok a ∧ p a = true := by
  cases x with
  | error e => cases h
  | ok a => exact ⟨a, rfl, h⟩

namespace Hierarchy

/-- A class reaches itself and whatever is reached by a class that it names. -/
inductive Reaches (classes : Hierarchy) : String → String → Prop
  | refl {c : ClassDef} (h : c ∈ classes) : Reaches classes c.name c.name
  | step {c : ClassDef} {name target : String} (h : c ∈ classes) (hname : name ∈ c.related)
      (hreach : Reaches classes name target) : Reaches classes c.name target

/-- Every class names older classes, and has a name of its own. -/
inductive WellFormed : Hierarchy → Prop
  | empty : WellFormed []
  | add {c : ClassDef} {older : Hierarchy} (h : WellFormed older)
      (hrelated : ∀ name ∈ c.related, older.knows name = true) (hfresh : older.knows c.name = false) :
      WellFormed (c :: older)

variable {classes : Hierarchy} {name target : String} {c : ClassDef} {found : List String}

theorem knows_iff : classes.knows name = true ↔ ∃ c ∈ classes, c.name = name := by
  simp [knows]

theorem Reaches.known (h : Reaches classes name target) : classes.knows name = true := by
  cases h with
  | refl h => exact knows_iff.mpr ⟨_, h, rfl⟩
  | step h => exact knows_iff.mpr ⟨_, h, rfl⟩

theorem Reaches.trans {a b c : String} (h : Reaches classes a b) (h' : Reaches classes b c) : Reaches classes a c := by
  induction h with
  | refl => exact h'
  | step hc hname _ ih => exact .step hc hname (ih h')

theorem Reaches.older {older : Hierarchy} (h : Reaches older name target) : Reaches (c :: older) name target := by
  induction h with
  | refl h => exact .refl (List.mem_cons_of_mem _ h)
  | step h hname _ ih => exact .step (List.mem_cons_of_mem _ h) hname ih

theorem Reaches.of_known {older : Hierarchy} (hwf : WellFormed (c :: older))
    (h : Reaches (c :: older) name target) (hknown : older.knows name = true) : Reaches older name target := by
  cases hwf with
  | add holder hrelated hfresh =>
    induction h with
    | @refl d hd =>
      rcases List.mem_cons.mp hd with rfl | hd
      · simp [hfresh] at hknown
      · exact .refl hd
    | @step d name target hd hname _ ih =>
      rcases List.mem_cons.mp hd with rfl | hd
      · simp [hfresh] at hknown
      · exact .step hd hname (ih (related_known holder hd hname))
where
  /-- The classes that a class names are known. -/
  related_known {classes : Hierarchy} (h : WellFormed classes) {c : ClassDef} (hc : c ∈ classes) {name : String}
      (hname : name ∈ c.related) : classes.knows name = true := by
    induction h with
    | empty => simp at hc
    | add _ hrelated _ ih =>
      have hknows : ∀ {d : ClassDef} {older : Hierarchy}, older.knows name = true →
          knows (d :: older) name = true := by
        intro d older h
        simp only [knows, List.any_cons, Bool.or_eq_true]
        exact .inr h
      rcases List.mem_cons.mp hc with rfl | hc
      · exact hknows (hrelated name hname)
      · exact hknows (ih hc)

/-- What the newest class reaches: itself, and what the classes reach that it names. -/
theorem reaches_newest_iff {older : Hierarchy} (hwf : WellFormed (c :: older)) :
    Reaches (c :: older) c.name target ↔ target = c.name ∨ ∃ name ∈ c.related, Reaches older name target := by
  have hrelated : ∀ name ∈ c.related, older.knows name = true := by
    cases hwf with
    | add _ hrelated _ => exact hrelated
  have hfresh : older.knows c.name = false := by
    cases hwf with
    | add _ _ hfresh => exact hfresh
  have hmem : ∀ d ∈ c :: older, d.name = c.name → d = c := by
    intro d hd hname
    rcases List.mem_cons.mp hd with rfl | hd
    · rfl
    · rw [← hname, knows_iff.mpr ⟨d, hd, rfl⟩] at hfresh
      simp at hfresh
  constructor
  · intro h
    generalize hstart : c.name = start at h
    cases h with
    | refl => exact .inl rfl
    | @step d name _ hd hname hreach =>
      obtain rfl := hmem d hd hstart.symm
      exact .inr ⟨name, hname, hreach.of_known hwf (hrelated name hname)⟩
  · rintro (rfl | ⟨name, hname, hreach⟩)
    · exact .refl List.mem_cons_self
    · exact .step List.mem_cons_self hname hreach.older

/-- Everything that the classes found so far reach has been found. -/
def Closed (classes : Hierarchy) (found : List String) : Prop :=
  ∀ name ∈ found, ∀ target, Reaches classes name target → target ∈ found

theorem Closed.older {older : Hierarchy} (h : Closed (c :: older) found) : Closed older found :=
  fun name hname target hreach => h name hname target hreach.older

theorem Closed.visited {found' : List String}
    (h : Closed classes found) (hfound : ∀ target, target ∈ found' ↔ target ∈ found ∨ Reaches classes name target) :
    Closed classes found' := by
  intro middle hmiddle target hreach
  rcases (hfound middle).mp hmiddle with hmiddle | hmiddle
  · exact (hfound target).mpr (.inl (h middle hmiddle target hreach))
  · exact (hfound target).mpr (.inr (hmiddle.trans hreach))

theorem mem_visit_iff (hwf : WellFormed classes) (hclosed : Closed classes found) :
    target ∈ classes.visit found name ↔ target ∈ found ∨ Reaches classes name target := by
  induction hwf generalizing found name target with
  | empty =>
    have hnone : ¬ Reaches [] name target := fun h => by simpa [knows] using h.known
    simp [visit, hnone]
  | @add c older holder hrelated hfresh ih =>
    have hwf : WellFormed (c :: older) := .add holder hrelated hfresh
    rw [visit]
    split
    · next heq =>
      subst heq
      split
      · next hmem =>
        exact ⟨.inl, fun h => h.elim id (hclosed _ hmem target)⟩
      · have hclosed' : Closed older (found ++ [c.name]) := by
          intro middle hmiddle target hreach
          rcases List.mem_append.mp hmiddle with hmiddle | hmiddle
          · exact List.mem_append_left _ (hclosed.older middle hmiddle target hreach)
          · obtain rfl := List.mem_singleton.mp hmiddle
            exact absurd hreach.known (by simp [hfresh])
        rw [mem_foldl_visit_iff ih hclosed', reaches_newest_iff hwf, List.mem_append, List.mem_singleton, or_assoc]
    · next hne =>
      rw [ih hclosed.older]
      refine or_congr_right ⟨Reaches.older, fun h => h.of_known hwf ?_⟩
      obtain ⟨d, hd, rfl⟩ := knows_iff.mp h.known
      rcases List.mem_cons.mp hd with rfl | hd
      · exact absurd rfl hne
      · exact knows_iff.mpr ⟨d, hd, rfl⟩
where
  /-- Visiting classes one after the other finds what any of them reaches. -/
  mem_foldl_visit_iff {older : Hierarchy} (hvisit : ∀ {found : List String} {name target : String},
      Closed older found → (target ∈ older.visit found name ↔ target ∈ found ∨ Reaches older name target))
      {names found : List String} (hclosed : Closed older found) {target : String} :
      target ∈ names.foldl (visit older) found ↔ target ∈ found ∨ ∃ name ∈ names, Reaches older name target := by
    induction names generalizing found with
    | nil => simp
    | cons name rest ih =>
      rw [List.foldl_cons, ih (hclosed.visited fun _ => hvisit hclosed), hvisit hclosed]
      simp [or_assoc]

theorem mem_ancestors_iff (hwf : WellFormed classes) :
    target ∈ classes.ancestors name ↔ Reaches classes name target := by
  have hclosed : Closed classes [] := fun _ h => absurd h List.not_mem_nil
  simp [ancestors, mem_visit_iff hwf hclosed]

theorem isSubtype_trans (hwf : WellFormed classes) {a b c : Ty}
    (h : classes.isSubtype a b = true) (h' : classes.isSubtype b c = true) : classes.isSubtype a c = true := by
  cases a <;> cases b <;> cases c <;> simp_all only [isSubtype, decide_eq_true_eq, Bool.false_eq_true]
  rw [mem_ancestors_iff hwf] at *
  exact h.trans h'

end Hierarchy

namespace Registry

/-- A registry that a host makes by registering one thing after the other. -/
inductive Built : Registry → Prop
  | standard : Built .standard
  | withAlias {r r' : Registry} {name : String} {target : TypeName} (h : Built r)
      (hr : r.registerAlias name target = .ok r') : Built r'
  | withClass {r r' : Registry} {c : ClassDef} (h : Built r) (hr : r.registerClass c = .ok r') : Built r'
  | withStatic {r : Registry} (h : Built r) (owner : String) (m : Member) : Built (r.registerStatic owner m)
  | withInstance {r : Registry} (h : Built r) (owner : Ty) (m : Member) : Built (r.registerInstance owner m)

variable {r : Registry}

theorem registerAlias_eq {r' : Registry} {name : String} {target : TypeName}
    (h : r.registerAlias name target = .ok r') :
    (r.resolveAlias name).isSome = false ∧ r' = { r with aliases := r.aliases ++ [(name, target)] } := by
  unfold registerAlias at h
  split at h
  · cases h
  · next hfree =>
    cases h
    exact ⟨Bool.eq_false_iff.mpr hfree, rfl⟩

theorem registerClass_eq {r' : Registry} {c : ClassDef} (h : r.registerClass c = .ok r') :
    (∀ name ∈ c.related, r.classes.knows name = true) ∧ ∃ older,
      r.registerAlias c.name (.complete (.host c.name)) = .ok older ∧ r' = { older with classes := c :: r.classes } := by
  unfold registerClass at h
  split at h
  · cases h
  · next hknown =>
    obtain ⟨older, halias, ⟨⟩⟩ := exists_ok_of_bind h
    obtain ⟨-, holder⟩ := registerAlias_eq halias
    refine ⟨fun name hname => ?_, older, halias, by rw [holder]⟩
    simpa using List.find?_eq_none.mp hknown name hname

/-- In a registry that a host makes, classes name older classes only. No class is registered twice, since every class
is a type name as well. -/
theorem Built.wellFormed (h : r.Built) : r.classes.WellFormed := by
  suffices r.classes.WellFormed ∧ ∀ name, r.classes.knows name = true → (r.resolveAlias name).isSome from this.1
  have halias : ∀ {r r' : Registry} {name : String} {target : TypeName}, r.registerAlias name target = .ok r' →
      ∀ other, (r.resolveAlias other).isSome ∨ other = name → (r'.resolveAlias other).isSome := by
    intro r r' name target hr other hother
    obtain ⟨-, rfl⟩ := registerAlias_eq hr
    simp only [resolveAlias, List.lookup_append, Option.isSome_or, Bool.or_eq_true]
    refine hother.imp id fun heq => ?_
    simp [heq]
  induction h with
  | standard => exact ⟨.empty, fun name hname => by cases hname⟩
  | withAlias _ hr ih =>
    have hmore := halias hr
    obtain ⟨-, rfl⟩ := registerAlias_eq hr
    exact ⟨ih.1, fun name hname => hmore name (.inl (ih.2 name hname))⟩
  | @withClass r r' c _ hr ih =>
    obtain ⟨hrelated, older, holder, rfl⟩ := registerClass_eq hr
    have hmore := halias holder
    obtain ⟨hfree, rfl⟩ := registerAlias_eq holder
    refine ⟨.add ih.1 hrelated (Bool.eq_false_iff.mpr fun hknown => ?_), fun name hname => hmore name ?_⟩
    · rw [ih.2 c.name hknown] at hfree
      cases hfree
    · simp only [Hierarchy.knows, List.any_cons, Bool.or_eq_true, decide_eq_true_eq] at hname
      exact hname.symm.imp (ih.2 name) Eq.symm
  | withStatic _ _ _ ih => exact ih
  | withInstance _ _ _ ih => exact ih

end Registry

end Scriptlet
