import Mathlib.Data.List.Nodup
import Scriptlet.Proofs.TypeOrder

/-!
# Overrides

A value of a class has the members of the first class, among its ancestors, that defines one of the name asked for. The
ancestors are found by going up depth first: a class is followed by all that the first class it names builds on, then by
what the second one adds to that, and so on. So an ancestor that can be reached in several ways stands where the first
way leads to it. Main statement: a class comes before what it builds on, and its members override those, exactly if it
lies on the first way. A class that is reached later, on another way, comes behind what it builds on.
-/

namespace Scriptlet

namespace Hierarchy

/-- What classes build on, one after the other, without what one before has brought already. -/
def inherited (classes : Hierarchy) : List String → List String
  | [] => []
  | name :: rest => classes.ancestors name ++ (classes.inherited rest).filter (· ∉ classes.ancestors name)

/-- The first way up from a class to an ancestor: every class on it is followed by the first class that it names and
that builds on the ancestor. -/
def firstWay : Hierarchy → String → String → List String
  | [], _, _ => []
  | c :: older, ancestor, name =>
    if c.name = name then
      match c.related.find? fun next => ancestor ∈ ancestors older next with
      | some next => name :: firstWay older ancestor next
      | none => [name]
    else firstWay older ancestor name

section Order

variable {c : ClassDef} {classes older : Hierarchy} {found : List String} {name : String}

theorem Closed.nil : Closed classes [] :=
  fun _ h => absurd h List.not_mem_nil

/-- The newest class is reached by no older one, so nothing is missing if it is found. -/
theorem Closed.newest (hfresh : older.knows c.name = false) (h : Closed older found) : Closed older (found ++ [c.name]) := by
  intro middle hmiddle target hreach
  rcases List.mem_append.mp hmiddle with hmiddle | hmiddle
  · exact List.mem_append_left _ (h middle hmiddle target hreach)
  · obtain rfl := List.mem_singleton.mp hmiddle
    exact absurd hreach.known (by simp [hfresh])

/-- Visiting classes one after the other adds what they bring, as far as it is new. -/
theorem foldl_visit_eq (hwf : WellFormed older)
    (hvisit : ∀ {found : List String}, Closed older found → ∀ name,
      older.visit found name = found ++ (older.ancestors name).filter (· ∉ found))
    (hclosed : Closed older found) (names : List String) :
    names.foldl (visit older) found = found ++ (older.inherited names).filter (· ∉ found) := by
  induction names generalizing found with
  | nil => simp [inherited]
  | cons name rest ih =>
    rw [List.foldl_cons, ih (hclosed.visited fun _ => mem_visit_iff hwf hclosed), hvisit hclosed name, inherited,
      List.filter_append, List.filter_filter, List.append_assoc]
    congr 2
    refine List.filter_congr fun target _ => ?_
    simp only [List.mem_append, List.mem_filter]
    by_cases hold : target ∈ found <;> simp [hold]

/-- Visiting a class adds its ancestors in their order, without those found before. -/
theorem visit_eq (hwf : WellFormed classes) (hclosed : Closed classes found) (name : String) :
    classes.visit found name = found ++ (classes.ancestors name).filter (· ∉ found) := by
  induction hwf generalizing found name with
  | empty => simp [visit, ancestors]
  | @add c older holder hrelated hfresh ih =>
    have hwf : WellFormed (c :: older) := .add holder hrelated hfresh
    by_cases hname : c.name = name
    · subst hname
      by_cases hmem : c.name ∈ found
      · have hall : ∀ target ∈ ancestors (c :: older) c.name, target ∈ found :=
          fun target htarget => hclosed _ hmem target ((mem_ancestors_iff hwf).mp htarget)
        rw [List.filter_eq_nil_iff.mpr (by simpa using hall), List.append_nil, visit, if_pos rfl, if_pos hmem]
      · have hfound := foldl_visit_eq holder (fun h name => ih h name) (hclosed.older.newest hfresh) c.related
        have halone := foldl_visit_eq holder (fun h name => ih h name) (Closed.nil.newest hfresh) c.related
        rw [ancestors, visit, if_pos rfl, if_neg hmem, visit, if_pos rfl, if_neg List.not_mem_nil, hfound, halone,
          List.nil_append, List.filter_append, List.filter_filter, List.append_assoc]
        simp only [List.filter_cons, hmem, not_false_eq_true, decide_true, if_true, List.filter_nil]
        congr 2
        refine List.filter_congr fun target _ => ?_
        simp [Bool.and_comm]
    · have hlater := ih hclosed.older name
      rw [ancestors, visit, if_neg hname, visit, if_neg hname, hlater]
      rfl

theorem mem_inherited_iff (hwf : WellFormed older) {names : List String} {target : String} :
    target ∈ older.inherited names ↔ ∃ name ∈ names, Reaches older name target := by
  induction names with
  | nil => simp [inherited]
  | cons name rest ih =>
    simp only [inherited, List.mem_append, List.mem_filter, ih, mem_ancestors_iff hwf, List.mem_cons, exists_eq_or_imp,
      decide_not, Bool.not_eq_true', decide_eq_false_iff_not]
    by_cases hreach : Reaches older name target <;> simp [hreach]

theorem ancestors_newest (hwf : WellFormed (c :: older)) :
    ancestors (c :: older) c.name = c.name :: older.inherited c.related := by
  cases hwf with
  | add holder hrelated hfresh =>
    have hnew : ∀ target ∈ older.inherited c.related, target ≠ c.name := by
      rintro target htarget rfl
      obtain ⟨name, -, hreach⟩ := (mem_inherited_iff holder).mp htarget
      simpa [hfresh] using hreach.target_known
    have halone := foldl_visit_eq holder (visit_eq holder) (Closed.nil.newest hfresh) c.related
    rw [ancestors, visit, if_pos rfl, if_neg List.not_mem_nil, halone, List.filter_eq_self.mpr (by simpa using hnew)]
    rfl

theorem ancestors_older (h : c.name ≠ name) : ancestors (c :: older) name = older.ancestors name := by
  rw [ancestors, visit, if_neg h]
  rfl

theorem nodup_inherited (h : ∀ name, (older.ancestors name).Nodup) (names : List String) :
    (older.inherited names).Nodup := by
  induction names with
  | nil => exact List.nodup_nil
  | cons name rest ih =>
    refine List.Nodup.append (h name) (ih.filter _) fun target htarget hlater => ?_
    simp only [List.mem_filter, decide_eq_true_eq] at hlater
    exact hlater.2 htarget

theorem nodup_ancestors (hwf : WellFormed classes) (name : String) : (classes.ancestors name).Nodup := by
  induction hwf generalizing name with
  | empty => exact List.nodup_nil
  | @add c older holder hrelated hfresh ih =>
    by_cases hname : c.name = name
    · subst hname
      rw [ancestors_newest (.add holder hrelated hfresh)]
      refine List.nodup_cons.mpr ⟨fun hmem => ?_, nodup_inherited ih _⟩
      obtain ⟨name, -, hreach⟩ := (mem_inherited_iff holder).mp hmem
      simpa [hfresh] using hreach.target_known
    · rw [ancestors_older hname]
      exact ih name

end Order

section FirstWay

variable {classes older : Hierarchy} {x y name : String}

theorem pair_sublist_append_left {l l' : List String} (hx : x ∉ l') :
    [y, x].Sublist (l ++ l') ↔ [y, x].Sublist l := by
  refine ⟨fun h => ?_, fun h => h.trans (List.sublist_append_left l l')⟩
  obtain ⟨front, back, heq, hfront, hback⟩ := List.sublist_append_iff.mp h
  rcases front with _ | ⟨a, _ | ⟨b, _⟩⟩
  · rw [List.nil_append] at heq
    exact absurd (hback.subset (heq ▸ by simp)) hx
  · simp only [List.cons_append, List.nil_append, List.cons.injEq] at heq
    exact absurd (hback.subset (by simp [← heq.2])) hx
  · simp only [List.cons_append, List.cons.injEq, List.nil_eq, List.append_eq_nil_iff] at heq
    obtain ⟨rfl, rfl, rfl, -⟩ := heq
    exact hfront

theorem pair_sublist_append_right {l l' : List String} (hy : y ∉ l) :
    [y, x].Sublist (l ++ l') ↔ [y, x].Sublist l' := by
  refine ⟨fun h => ?_, fun h => h.trans (List.sublist_append_right l l')⟩
  obtain ⟨front, back, heq, hfront, hback⟩ := List.sublist_append_iff.mp h
  cases front with
  | nil => rwa [heq]
  | cons a front =>
    simp only [List.cons_append, List.cons.injEq] at heq
    exact absurd (hfront.subset (by simp [heq.1])) hy

/-- Of several classes, the first one that builds on an ancestor decides what comes before the ancestor. -/
theorem sublist_inherited_iff (hwf : WellFormed older) (hover : Reaches older y x) (names : List String) :
    [y, x].Sublist (older.inherited names) ↔
      ∃ next, names.find? (fun next => x ∈ older.ancestors next) = some next ∧ [y, x].Sublist (older.ancestors next) := by
  induction names with
  | nil => simp [inherited]
  | cons name rest ih =>
    rw [inherited, List.find?_cons]
    by_cases hx : x ∈ older.ancestors name
    · rw [pair_sublist_append_left (by simp [hx])]
      simp [hx]
    · have hy : y ∉ older.ancestors name := by
        rw [mem_ancestors_iff hwf] at hx ⊢
        exact fun hreach => hx (hreach.trans hover)
      have hkept : [y, x].Sublist ((older.inherited rest).filter (· ∉ older.ancestors name)) ↔
          [y, x].Sublist (older.inherited rest) := by
        refine ⟨fun h => h.trans List.filter_sublist, fun h => ?_⟩
        have hfilter := h.filter (· ∉ older.ancestors name)
        rwa [List.filter_eq_self.mpr (by simp [hx, hy])] at hfilter
      rw [pair_sublist_append_right hy, hkept, ih]
      simp [hx]

theorem knows_of_mem_firstWay (h : y ∈ classes.firstWay x name) : classes.knows y = true := by
  induction classes generalizing name with
  | nil => simp [firstWay] at h
  | cons c older ih =>
    have hlater : ∀ {name}, y ∈ firstWay older x name → knows (c :: older) y = true := by
      intro name hmem
      simp only [knows, List.any_cons, Bool.or_eq_true]
      exact .inr (ih hmem)
    rw [firstWay] at h
    split at h
    · next hname =>
      have hnewest : y = name → knows (c :: older) y = true := by
        rintro rfl
        simp [knows, hname]
      split at h
      · exact (List.mem_cons.mp h).elim hnewest hlater
      · exact hnewest (List.mem_singleton.mp h)
    · exact hlater h

/-- A class comes before what it builds on exactly if it lies on the first way there. -/
theorem sublist_ancestors_iff (hwf : WellFormed classes) (hover : Reaches classes y x) (hne : y ≠ x) (name : String) :
    [y, x].Sublist (classes.ancestors name) ↔ y ∈ classes.firstWay x name := by
  induction hwf generalizing name with
  | empty => cases hover.known
  | @add c older holder hrelated hfresh ih =>
    have hwf : WellFormed (c :: older) := .add holder hrelated hfresh
    have hfirst : y ≠ c.name → Reaches older y x := by
      intro hy
      refine hover.of_known hwf ?_
      simpa [knows, Ne.symm hy] using hover.known
    by_cases hname : c.name = name
    · subst hname
      rw [ancestors_newest hwf, firstWay, if_pos rfl]
      by_cases hy : y = c.name
      · subst hy
        have hx : x ∈ older.inherited c.related := by
          have hmem := (mem_ancestors_iff hwf).mpr hover
          rw [ancestors_newest hwf] at hmem
          exact (List.mem_cons.mp hmem).resolve_left (Ne.symm hne)
        refine iff_of_true ((List.singleton_sublist.mpr hx).cons_cons _) ?_
        split <;> simp
      · have hskip : [y, x].Sublist (c.name :: older.inherited c.related) ↔ [y, x].Sublist (older.inherited c.related) :=
          pair_sublist_append_right (l := [c.name]) (by simpa using hy)
        rw [hskip, sublist_inherited_iff holder (hfirst hy)]
        split
        · next next hnext =>
          simp [hnext, ih (hfirst hy), hy]
        · next hnone =>
          simp [hnone, hy]
    · rw [ancestors_older hname, firstWay, if_neg hname]
      by_cases hy : y = c.name
      · subst hy
        refine iff_of_false (fun h => ?_) fun h => ?_
        · have hreach := (mem_ancestors_iff holder).mp (h.subset List.mem_cons_self)
          simpa [hfresh] using hreach.target_known
        · simpa [hfresh] using knows_of_mem_firstWay h
      · exact ih (hfirst hy) name

end FirstWay

end Hierarchy

namespace Registry

/-- The members of a name are those of one owner: the first that has any. So what comes behind an owner that has some is
out of the question. -/
theorem firstNamed_of_sublist {table : MemberTable} {x y name : String} {owners : List String} (hnodup : owners.Nodup)
    (h : [y, x].Sublist owners) (hy : table.named y name ≠ []) :
    ∃ owner ∈ owners, owner ≠ x ∧ table.named owner name ≠ [] ∧ firstNamed table name owners = table.named owner name := by
  induction owners with
  | nil => cases h
  | cons owner rest ih =>
    obtain ⟨hnew, hrest⟩ := List.nodup_cons.mp hnodup
    rw [firstNamed]
    split
    · next hnone =>
      have hskip : y ∉ [owner] := by
        rintro hmem
        obtain rfl := List.mem_singleton.mp hmem
        exact hy hnone
      obtain ⟨found, hmem, hfound⟩ := ih hrest ((Hierarchy.pair_sublist_append_right (l := [owner]) hskip).mp h)
      exact ⟨found, List.mem_cons_of_mem _ hmem, hfound⟩
    · next hsome =>
      refine ⟨owner, List.mem_cons_self, ?_, hsome, rfl⟩
      rintro rfl
      rcases List.sublist_cons_iff.mp h with h | ⟨others, heq, h⟩
      · exact hnew (h.subset (by simp))
      · cases heq
        exact hnew (h.subset (by simp))

/-- Where a host registered members of a name for one of the ancestors of a class, these are chosen from. -/
theorem resolveMember_host {r : Registry} {className name owner : String}
    (hfirst : firstNamed r.instances name (r.classes.ancestors className) = r.instances.named owner name)
    (hsome : r.instances.named owner name ≠ []) (arguments : Option (List Ty)) :
    r.resolveMember (.value (.host className)) name arguments = r.select (r.instances.named owner name) arguments := by
  have hmembers : r.valueMembers (.host className) name = r.instances.named owner name := by
    simp only [valueMembers, Standard.collectionMembers, List.filter_nil, instanceOwners, hfirst]
  simp only [resolveMember, candidates, hmembers]

/-- Registers, for every owner, a property that gives the name of its owner. -/
def withNames (r : Registry) (owners : List String) : Registry :=
  owners.foldl (fun r owner => r.registerInstance (.host owner) (.property "Name" .string fun _ => pure (.string owner))) r

theorem Built.withNames {r : Registry} (h : r.Built) (owners : List String) : (r.withNames owners).Built := by
  induction owners generalizing r with
  | nil => exact h
  | cons owner rest ih => exact ih (.withInstance h _ _)

end Registry

open Hierarchy

/-- No ancestor of a class is listed twice, and an ancestor stands before one that it builds on exactly if it lies on
the first way there. Then its members override those of the other: whichever members are chosen from, they belong to a
third class or to the one that overrides. -/
theorem overrides_on_first_way {r : Registry} (hr : r.Built) (className : String) :
    (r.classes.ancestors className).Nodup ∧
    ∀ y x, Reaches r.classes className y → Reaches r.classes y x → y ≠ x →
      ([y, x].Sublist (r.classes.ancestors className) ↔ y ∈ r.classes.firstWay x className) ∧
      (y ∈ r.classes.firstWay x className → ∀ name, r.instances.named y name ≠ [] → ∀ arguments,
        ∃ owner ∈ r.classes.ancestors className, owner ≠ x ∧ r.instances.named owner name ≠ [] ∧
          r.resolveMember (.value (.host className)) name arguments =
            r.select (r.instances.named owner name) arguments) := by
  have hwf := hr.wellFormed
  have hnodup := nodup_ancestors hwf className
  refine ⟨hnodup, fun y x _ hover hne => ?_⟩
  have horder := sublist_ancestors_iff hwf hover hne className
  refine ⟨horder, fun hway name hy arguments => ?_⟩
  obtain ⟨owner, hmem, hother, hsome, hfirst⟩ := Registry.firstNamed_of_sublist hnodup (horder.mpr hway) hy
  exact ⟨owner, hmem, hother, hsome, Registry.resolveMember_host hfirst hsome arguments⟩

/-- A class that builds on two others, which build on the same one. -/
def Registry.crossing (parent capability : String) : Registry :=
  (Registry.standard.registerAll [.newClass ⟨"Base", none, []⟩, .newClass ⟨"Left", some "Base", []⟩,
    .newClass ⟨"Right", some "Base", []⟩, .newClass ⟨"Bottom", some parent, [capability]⟩]).withNames ["Base", "Right"]

theorem Registry.crossing_built (parent capability : String) : (Registry.crossing parent capability).Built :=
  (Built.registerAll .standard _).withNames _

/-- The parent of a class overrides what it builds on, also where a capability builds on the same. -/
theorem overrides_on_first_way_parent :
    let r := Registry.crossing "Right" "Left"
    "Right" ∈ r.classes.firstWay "Base" "Bottom" ∧ r.instances.named "Right" "Name" ≠ [] ∧
      ["Right", "Base"].Sublist (r.classes.ancestors "Bottom") ∧
      ∃ owner ∈ r.classes.ancestors "Bottom", owner ≠ "Base" ∧ r.instances.named owner "Name" ≠ [] ∧
        r.resolveMember (.value (.host "Bottom")) "Name" none = r.select (r.instances.named owner "Name") none := by
  intro r
  have hbuilt : r.Built := Registry.crossing_built "Right" "Left"
  have hway : "Right" ∈ r.classes.firstWay "Base" "Bottom" := by decide +kernel
  have hsome : r.instances.named "Right" "Name" ≠ [] := List.ne_nil_of_length_pos (by decide +kernel)
  have hdown : Reaches r.classes "Bottom" "Right" := (mem_ancestors_iff hbuilt.wellFormed).mp (by decide +kernel)
  have hover : Reaches r.classes "Right" "Base" := (mem_ancestors_iff hbuilt.wellFormed).mp (by decide +kernel)
  obtain ⟨horder, hwins⟩ := (overrides_on_first_way hbuilt "Bottom").2 "Right" "Base" hdown hover (by decide)
  exact ⟨hway, hsome, horder.mpr hway, hwins hway "Name" hsome none⟩

/-- A capability does not override what it builds on if the parent builds on the same: the class at the top, though
further away, comes before the capability, and its member is chosen. -/
theorem capability_outranked :
    let r := Registry.crossing "Left" "Right"
    r.Built ∧ Reaches r.classes "Bottom" "Right" ∧ Reaches r.classes "Right" "Base" ∧
      r.instances.named "Right" "Name" ≠ [] ∧ r.classes.ancestors "Bottom" = ["Bottom", "Left", "Base", "Right"] ∧
      ∃ m, r.resolveMember (.value (.host "Bottom")) "Name" none = .ok m ∧ m.call [] = pure (.string "Base") := by
  intro r
  have hbuilt : r.Built := Registry.crossing_built "Left" "Right"
  refine ⟨hbuilt, (mem_ancestors_iff hbuilt.wellFormed).mp (by decide +kernel),
    (mem_ancestors_iff hbuilt.wellFormed).mp (by decide +kernel), List.ne_nil_of_length_pos (by decide +kernel),
    by decide +kernel, _, rfl, rfl⟩

end Scriptlet
