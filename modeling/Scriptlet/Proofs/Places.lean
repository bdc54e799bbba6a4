import Scriptlet.Proofs.Frames

/-!
# Where variables live

A name is looked for in the scopes of the innermost frame, then among the members, then among the globals. This
module says where it is found and which declaration made what is found there: the newest one of that name that was
written down in that place. A run that keeps the scopes keeps both.
-/

namespace Scriptlet

/-- Where a variable lives: in a scope of the innermost frame, counted from the outermost one, among the members,
or among the globals. -/
inductive Site
  | scope (height : Nat)
  | member
  | global
deriving DecidableEq, Repr

/-- Whether a place lies below the scope that is the `k`-th from the bottom. -/
def Site.Below (k : Nat) : Site → Prop
  | .scope height => height < k
  | .member => 0 < k
  | .global => True

def Site.IsTop : Site → Prop
  | .scope _ => False
  | .member | .global => True

variable {site : Site}

theorem Site.IsTop.below {k : Nat} (h : site.IsTop) (hk : 0 < k) : site.Below k := by
  cases site with
  | scope => exact h.elim
  | member => exact hk
  | global => trivial

namespace Bindings

/-- The binding of a name in the first of some scopes that has it, with the number of scopes from there on. -/
def locate? (name : String) : List Bindings → Option (Nat × Binding)
  | [] => none
  | scope :: rest => ((scope.lookup name).map (rest.length + 1, ·)).or (locate? name rest)

theorem find?_eq (name : String) (scopes : List Bindings) :
    find? name scopes = (locate? name scopes).map (·.2) := by
  induction scopes with
  | nil => rfl
  | cons scope rest ih =>
    rw [find?, locate?, ih]
    cases scope.lookup name <;> simp

theorem find?_append (name : String) (scopes others : List Bindings) :
    find? name (scopes ++ others) = (find? name scopes).or (find? name others) := by
  induction scopes with
  | nil => rfl
  | cons scope rest ih => simp [find?, ih, Option.or_assoc]

theorem locate?_le {name : String} {scopes : List Bindings} {height : Nat} {b : Binding}
    (h : locate? name scopes = some (height, b)) : height ≤ scopes.length := by
  induction scopes with
  | nil => cases h
  | cons scope rest ih =>
    rw [locate?] at h
    cases hscope : scope.lookup name with
    | some found =>
      simp only [hscope, Option.map_some, Option.some_or, Option.some.injEq, Prod.mk.injEq] at h
      simp [← h.1]
    | none =>
      simp only [hscope, Option.map_none, Option.none_or] at h
      exact Nat.le_succ_of_le (ih h)

theorem lookup_shape (name : String) (b : Bindings) : b.shape.lookup name = (b.lookup name).map (·.ty) := by
  induction b with
  | nil => rfl
  | cons entry rest ih =>
    have hshape : shape (entry :: rest) = (entry.1, entry.2.ty) :: shape rest := rfl
    rw [hshape, List.lookup_cons, List.lookup_cons]
    cases name == entry.1 <;> simp [ih]

theorem locate?_congr {name : String} {scopes scopes' : List Bindings}
    (h : scopes'.map shape = scopes.map shape) :
    (locate? name scopes').map (fun l => (l.1, l.2.ty)) = (locate? name scopes).map (fun l => (l.1, l.2.ty)) := by
  induction scopes generalizing scopes' with
  | nil =>
    obtain rfl := List.map_eq_nil_iff.mp h
    rfl
  | cons scope rest ih =>
    obtain ⟨scope', rest', rfl, hscope, hrest⟩ := List.map_eq_cons_iff.mp h
    have hlength : rest'.length = rest.length := by simpa using congrArg List.length hrest
    have hlookup : (scope'.lookup name).map (·.ty) = (scope.lookup name).map (·.ty) := by
      rw [← lookup_shape, ← lookup_shape, hscope]
    have htail := ih hrest
    rw [locate?, locate?, hlength]
    cases hs' : scope'.lookup name <;> cases hs : scope.lookup name <;> simp_all

theorem lookup_put (name other : String) (b : Binding) (bindings : Bindings) :
    (put name b bindings).lookup other = if other = name then some b else bindings.lookup other := by
  induction bindings with
  | nil =>
    by_cases h : other = name <;> simp [put, List.lookup_cons, h, beq_eq_false_iff_ne.mpr]
  | cons entry rest ih =>
    obtain ⟨key, old⟩ := entry
    rw [put]
    by_cases hkey : key = name
    · subst hkey
      by_cases h : other = key <;> simp [List.lookup_cons, h, beq_eq_false_iff_ne.mpr]
    · rw [if_neg hkey, List.lookup_cons, List.lookup_cons, ih]
      by_cases h : other = key <;> simp [h, hkey, beq_eq_false_iff_ne.mpr]

theorem shape_put (name other : String) (b : Binding) (bindings : Bindings) :
    (put name b bindings).shape.lookup other = if other = name then some b.ty else bindings.shape.lookup other := by
  rw [lookup_shape, lookup_shape, lookup_put]
  split <;> rfl

theorem assign?_isSome (name : String) (v : Value) (b : Bindings) :
    (assign? name v b).isSome = (b.lookup name).isSome := by
  induction b with
  | nil => rfl
  | cons entry rest ih =>
    obtain ⟨key, old⟩ := entry
    rw [assign?, List.lookup_cons]
    by_cases h : key = name
    · simp [h]
    · simp [h, beq_eq_false_iff_ne.mpr (Ne.symm h), ih]

theorem assignFirst?_isSome (name : String) (v : Value) (scopes : List Bindings) :
    (assignFirst? name v scopes).isSome = (locate? name scopes).isSome := by
  induction scopes with
  | nil => rfl
  | cons scope rest ih =>
    have hscope := assign?_isSome name v scope
    have hlocate : (locate? name (scope :: rest)).isSome = ((scope.lookup name).isSome || (locate? name rest).isSome) := by
      rw [locate?, Option.isSome_or, Option.isSome_map]
    rw [hlocate, ← hscope, ← ih, assignFirst?]
    cases assign? name v scope <;> simp

end Bindings

namespace Machine

/-- Where a name is found at the top: among the members, or else among the globals. -/
def top? (m : Machine) (name : String) : Option (Site × Binding) :=
  ((m.members.lookup name).map (.member, ·)).or ((m.globals.lookup name).map (.global, ·))

/-- Where a name is found, and what is bound to it there. -/
def locate? (m : Machine) (name : String) : Option (Site × Binding) :=
  ((Bindings.locate? name m.frame).map fun l => (.scope l.1, l.2)).or (m.top? name)

/-- Where a name is found at the top, and the type it has there. -/
def topSite? (m : Machine) (name : String) : Option (Site × Ty) :=
  (m.top? name).map fun l => (l.1, l.2.ty)

/-- Where a name is found, and the type it has there. -/
def site? (m : Machine) (name : String) : Option (Site × Ty) :=
  (m.locate? name).map fun l => (l.1, l.2.ty)

theorem lookup_eq (m : Machine) (name : String) : m.lookup name = (m.locate? name).map (·.2.value) := by
  have hlocal : Bindings.find? name (m.localScopes ++ [m.globals]) = (m.locate? name).map (·.2) := by
    rw [localScopes, Bindings.find?_append, Bindings.find?_append, Bindings.find?_eq]
    change _ = ((((Bindings.locate? name m.frame).map _).or _).map _)
    unfold top? frame
    cases Bindings.locate? name (m.frames.headD []) <;> cases hm : m.members.lookup name <;>
      cases hg : m.globals.lookup name <;> simp [Bindings.find?, hm, hg]
  rw [lookup, hlocal, Option.map_map]
  rfl

theorem assign?_isSome (m : Machine) (name : String) (v : Value) :
    (m.assign? name v).isSome = (m.locate? name).isSome := by
  have hlocate : (m.locate? name).isSome = ((Bindings.locate? name m.frame).isSome ||
      ((m.members.lookup name).isSome || (m.globals.lookup name).isSome)) := by
    rw [locate?, top?, Option.isSome_or, Option.isSome_or, Option.isSome_map, Option.isSome_map, Option.isSome_map]
  rw [hlocate, ← Bindings.assignFirst?_isSome name v, ← Bindings.assign?_isSome name v,
    ← Bindings.assign?_isSome name v, assign?, frame]
  cases Bindings.assignFirst? name v (m.frames.headD []) <;> cases Bindings.assign? name v m.members <;> simp

theorem topSite?_eq (m : Machine) (name : String) :
    m.topSite? name = ((m.members.shape.lookup name).map (.member, ·)).or
      ((m.globals.shape.lookup name).map (.global, ·)) := by
  rw [topSite?, top?, Bindings.lookup_shape, Bindings.lookup_shape, Option.map_or]
  simp [Function.comp_def]

theorem site?_eq (m : Machine) (name : String) :
    m.site? name = (((Bindings.locate? name m.frame).map fun l => (l.1, l.2.ty)).map fun l => (.scope l.1, l.2)).or
      (m.topSite? name) := by
  rw [site?, locate?, topSite?, Option.map_or]
  simp [Function.comp_def]

variable {m : Machine}

theorem site?_of_idle (h : m.frames = []) (name : String) : m.site? name = m.topSite? name := by
  simp [site?_eq, frame, h, Bindings.locate?]

theorem site?_pushFrame (m : Machine) (name : String) : m.pushFrame.site? name = m.topSite? name := by
  simp [site?_eq, frame, pushFrame, Bindings.locate?]
  rfl

theorem site?_pushScope (m : Machine) (name : String) : m.pushScope.site? name = m.site? name := by
  cases hf : m.frames with
  | nil => simp [pushScope, hf]
  | cons frame rest =>
    rw [site?_eq, site?_eq]
    simp [pushScope, hf, Machine.frame, Bindings.locate?]
    rfl

theorem isTop_of_topSite? {name : String} {site : Site} {ty : Ty}
    (h : m.topSite? name = some (site, ty)) : site.IsTop := by
  rw [topSite?_eq] at h
  cases hm : m.members.shape.lookup name <;> cases hg : m.globals.shape.lookup name <;> simp [hm, hg] at h <;>
    simp [← h.1, Site.IsTop]

theorem below_of_site? {name : String} {site : Site} {ty : Ty}
    (h : m.site? name = some (site, ty)) : site.Below (m.level + 1) := by
  rw [site?_eq] at h
  cases hl : Bindings.locate? name m.frame with
  | some l =>
    simp only [hl, Option.map_some, Option.some_or, Option.some.injEq, Prod.mk.injEq] at h
    rw [← h.1]
    exact Nat.lt_succ_of_le (Bindings.locate?_le hl)
  | none =>
    simp only [hl, Option.map_none, Option.none_or] at h
    exact (isTop_of_topSite? h).below (Nat.succ_pos m.level)

theorem exists_scope (h : 0 < m.level) : ∃ scope scopes rest, m.frames = (scope :: scopes) :: rest := by
  cases hf : m.frames with
  | nil => simp [level, frame, hf] at h
  | cons frame rest =>
    cases frame with
    | nil => simp [level, Machine.frame, hf] at h
    | cons scope scopes => exact ⟨scope, scopes, rest, rfl⟩

theorem site?_declare (h : 0 < m.level) (name other : String) (b : Binding) :
    (m.declare name b).site? other = if other = name then some (.scope m.level, b.ty) else m.site? other := by
  obtain ⟨scope, scopes, rest, hf⟩ := exists_scope h
  have hdeclare : m.declare name b = { m with frames := (Bindings.put name b scope :: scopes) :: rest } := by
    simp [declare, hf]
  rw [hdeclare, site?_eq, site?_eq]
  by_cases hn : other = name
  · simp [frame, level, hf, Bindings.locate?, Bindings.lookup_put, hn]
  · simp [frame, hf, Bindings.locate?, Bindings.lookup_put, hn]
    rfl

theorem topSite?_declare (h : 0 < m.level) (name other : String) (b : Binding) :
    (m.declare name b).topSite? other = m.topSite? other := by
  obtain ⟨scope, scopes, rest, hf⟩ := exists_scope h
  simp [declare, hf, topSite?, top?]

theorem level_declare (m : Machine) (name : String) (b : Binding) : (m.declare name b).level = m.level := by
  unfold declare
  split
  · next hf => simp [level, frame, hf]
  · rfl

theorem count_declare (m : Machine) (name : String) (b : Binding) :
    (m.declare name b).frames.length = m.frames.length := by
  unfold declare
  split
  · next hf => simp [hf]
  · rfl

end Machine

/-- The declaration of a name that a moment is, if it is one. -/
def Moment.declaration? (t : Moment) (name : String) : Option Origin :=
  match t.happening with
  | .declaration declared origin => if declared = name then some origin else none
  | _ => none

/-- Whether a declaration at a moment is made in a place, which is in the innermost of so many frames. -/
def Moment.at (t : Moment) (frames : Nat) : Site → Bool
  | .scope height => t.machine.frames.length = frames && t.machine.level = height
  | .member => t.machine.level = 0
  | .global => false

/-- The declaration that made what is bound to a name in a place: the newest one of that name in that place. A
global is known by its name, whoever made it. -/
def creator (moments : List Moment) (frames : Nat) (name : String) : Site → Option Origin
  | .global => some (.shared name)
  | site => moments.findSome? fun t => if t.at frames site then t.declaration? name else none

theorem creator_append {new moments : List Moment} {frames : Nat} {name : String}
    (h : ∀ t ∈ new, ∀ origin, t.happening = .declaration name origin → t.at frames site = false) :
    creator (new ++ moments) frames name site = creator moments frames name site := by
  have hnew : (new.findSome? fun t => if t.at frames site then t.declaration? name else none) = none := by
    rw [List.findSome?_eq_none_iff]
    intro t ht
    split
    · next hat =>
      cases hh : t.happening with
      | declaration declared origin =>
        by_cases hname : declared = name
        · subst hname
          simp [h t ht origin hh] at hat
        · simp [Moment.declaration?, hh, hname]
      | _ => simp [Moment.declaration?, hh]
    · rfl
  cases site with
  | global => rfl
  | scope height => simp only [creator, List.findSome?_append, hnew, Option.none_or]
  | member => simp only [creator, List.findSome?_append, hnew, Option.none_or]

/-- What is declared at a moment is declared elsewhere than below the scopes that the moment leaves alone. -/
theorem Moment.Within.at_eq_false {k : Nat} {m : Machine} {t : Moment} (h : t.Within k m)
    (hsite : site.Below k) {name : String} {origin : Origin} (hh : t.happening = .declaration name origin) :
    t.at m.frames.length site = false := by
  have hdeclares := h.declares name origin hh
  cases site with
  | scope height =>
    simp only [Site.Below] at hsite
    simp only [Moment.at, Bool.and_eq_false_iff, decide_eq_false_iff_not]
    omega
  | member =>
    simp only [Site.Below] at hsite
    simp only [Moment.at, decide_eq_false_iff_not]
    omega
  | global => rfl

/-- Whether what is found of a name is a variable: it has the type of the variable, and was made by its declaration.
If this need not be certain, nothing may be found, and only the type counts. -/
structure Identifies (certain : Prop) (moments : List Moment) (frames : Nat) (name : String) (v : Variable)
    (found : Option (Site × Ty)) : Prop where
  exists_site : certain → found.isSome = true
  type : ∀ site ty, found = some (site, ty) → ty = v.ty
  origin : certain → ∀ site ty, found = some (site, ty) → creator moments frames name site = some v.origin

namespace Identifies

variable {certain : Prop} {moments new : List Moment} {frames : Nat} {name : String} {v : Variable}
  {found : Option (Site × Ty)}

theorem append (h : Identifies certain moments frames name v found)
    (hnew : ∀ site ty, found = some (site, ty) →
      ∀ t ∈ new, ∀ origin, t.happening = .declaration name origin → t.at frames site = false) :
    Identifies certain (new ++ moments) frames name v found :=
  ⟨h.exists_site, h.type, fun hcertain site ty hf =>
    (creator_append (hnew site ty hf)).trans (h.origin hcertain site ty hf)⟩

/-- What is written down of another name, or of another place, does not matter. -/
theorem cons {t : Moment} (h : Identifies certain moments frames name v found)
    (ht : ∀ site ty, found = some (site, ty) →
      ∀ origin, t.happening = .declaration name origin → t.at frames site = false) :
    Identifies certain (t :: moments) frames name v found := by
  have happend : Identifies certain ([t] ++ moments) frames name v found := by
    refine h.append fun site ty hf t' ht' => ?_
    obtain rfl := List.mem_singleton.mp ht'
    exact ht site ty hf
  exact happend

theorem refocus (h : Identifies certain moments frames name v found)
    (hfound : ∀ site ty, found = some (site, ty) → site.IsTop) (frames' : Nat) :
    Identifies certain moments frames' name v found := by
  refine ⟨h.exists_site, h.type, fun hcertain site ty hf => ?_⟩
  rw [← h.origin hcertain site ty hf]
  cases site with
  | scope => exact (hfound _ ty hf).elim
  | member => rfl
  | global => rfl

theorem kept {k : Nat} {c c' : Chronicle} (hk : Kept k c c')
    (h : Identifies certain c.moments c.machine.frames.length name v found)
    (hfound : ∀ site ty, found = some (site, ty) → site.Below k) :
    Identifies certain c'.moments c'.machine.frames.length name v found := by
  obtain ⟨new, hnew, hwithin⟩ := hk.record
  rw [hnew, hk.count]
  exact h.append fun site ty hf t ht _ hh => (hwithin t ht).at_eq_false (hfound site ty hf) hh

end Identifies

namespace Kept

variable {c c' : Chronicle}

theorem topSite? {k : Nat} (h : Kept k c c') (hk : 0 < k) (name : String) :
    c'.machine.topSite? name = c.machine.topSite? name := by
  rw [Machine.topSite?_eq, Machine.topSite?_eq, h.members hk, h.globals]

theorem site? (h : Kept (c.machine.level + 1) c c') (name : String) :
    c'.machine.site? name = c.machine.site? name := by
  have hscopes : c'.machine.frame.map Bindings.shape = c.machine.frame.map Bindings.shape := by
    simpa using h.scopes
  rw [Machine.site?_eq, Machine.site?_eq, Bindings.locate?_congr hscopes, h.topSite? (Nat.succ_pos _)]

end Kept

end Scriptlet
