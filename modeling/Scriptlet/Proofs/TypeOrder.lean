import Mathlib.Logic.Relation
import Scriptlet.Proofs.Fits

/-!
# The orders of types

Whatever a host registers, and whichever registrations are refused, the classes are ordered by the relations that
they declare, and all types are ordered by what they accept. A class can only build on classes that are there
already, and no name is registered twice, so there are no circles.
-/

namespace Scriptlet

/-- Something that a host registers about types. -/
inductive Registration
  | newAlias (name : String) (target : TypeName)
  | newClass (c : ClassDef)

namespace Registration

def apply : Registration → Registry → Except RegistryError Registry
  | newAlias name target, r => r.registerAlias name target
  | newClass c, r => r.registerClass c

def class? : Registration → Option ClassDef
  | newAlias _ _ => none
  | newClass c => some c

end Registration

namespace Registry

/-- Makes registrations one after the other; one that fails changes nothing. -/
def registerAll (r : Registry) : List Registration → Registry
  | [] => r
  | step :: rest =>
    match step.apply r with
    | .ok r' => r'.registerAll rest
    | .error _ => r.registerAll rest

/-- The classes of the registrations that succeed, the newest in front. -/
def registered (r : Registry) : List Registration → List ClassDef
  | [] => []
  | step :: rest =>
    match step.apply r with
    | .ok r' => r'.registered rest ++ step.class?.toList
    | .error _ => r.registered rest

variable {r : Registry}

theorem classes_apply {r' : Registry} {step : Registration} (h : step.apply r = .ok r') :
    r'.classes = step.class?.toList ++ r.classes := by
  cases step with
  | newAlias name target =>
    obtain ⟨-, rfl⟩ := registerAlias_eq h
    rfl
  | newClass c =>
    obtain ⟨-, older, -, rfl⟩ := registerClass_eq h
    rfl

theorem classes_registerAll (r : Registry) (steps : List Registration) :
    (r.registerAll steps).classes = r.registered steps ++ r.classes := by
  induction steps generalizing r with
  | nil => rfl
  | cons step rest ih =>
    simp only [registerAll, registered]
    cases happly : step.apply r with
    | error e => exact ih r
    | ok r' => simp only [ih r', classes_apply happly, List.append_assoc]

theorem Built.apply {r' : Registry} (h : r.Built) {step : Registration} (happly : step.apply r = .ok r') :
    r'.Built := by
  cases step with
  | newAlias name target => exact .withAlias h happly
  | newClass c => exact .withClass h happly

theorem Built.registerAll (h : r.Built) (steps : List Registration) : (r.registerAll steps).Built := by
  induction steps generalizing r with
  | nil => exact h
  | cons step rest ih =>
    simp only [Registry.registerAll]
    cases happly : step.apply r with
    | error e => exact ih h
    | ok r' => exact ih (h.apply happly)

end Registry

/-- A class of the list declares another one as its parent or as a capability. -/
def Declares (classes : List ClassDef) (child ancestor : String) : Prop :=
  ∃ c ∈ classes, c.name = child ∧ (c.parent = some ancestor ∨ ancestor ∈ c.capabilities)

namespace Hierarchy

theorem mem_related_iff {c : ClassDef} {name : String} :
    name ∈ c.related ↔ c.parent = some name ∨ name ∈ c.capabilities := by
  simp [ClassDef.related]

variable {classes : Hierarchy} {child ancestor : String}

/-- A class reaches what a chain of declarations leads to from it. -/
theorem reaches_iff_reflTransGen (hwf : WellFormed classes) : Reaches classes child ancestor ↔
      classes.knows child = true ∧ Relation.ReflTransGen (Declares classes) child ancestor := by
  constructor
  · intro h
    refine ⟨h.known, ?_⟩
    induction h with
    | refl => exact .refl
    | step hc hname _ ih => exact .head ⟨_, hc, rfl, mem_related_iff.mp hname⟩ ih
  · rintro ⟨hknown, hchain⟩
    induction hchain using Relation.ReflTransGen.head_induction_on with
    | refl =>
      obtain ⟨c, hc, rfl⟩ := knows_iff.mp hknown
      exact .refl hc
    | head hdeclares _ ih =>
      obtain ⟨c, hc, rfl, hname⟩ := hdeclares
      have hrelated := mem_related_iff.mpr hname
      exact .step hc hrelated (ih (Reaches.of_known.related_known hwf hc hrelated))

theorem Reaches.target_known (h : Reaches classes child ancestor) : classes.knows ancestor = true := by
  induction h with
  | refl h => exact knows_iff.mpr ⟨_, h, rfl⟩
  | step _ _ _ ih => exact ih

/-- Two classes that reach each other are the same: of two different ones one is newer, and an older class reaches
older ones only. -/
theorem Reaches.antisymm (hwf : WellFormed classes) {a b : String}
    (h : Reaches classes a b) (h' : Reaches classes b a) : a = b := by
  induction hwf with
  | empty => cases h.known
  | @add c older holder hrelated hfresh ih =>
    have hwf : WellFormed (c :: older) := .add holder hrelated hfresh
    have hnewest : ∀ {name}, knows (c :: older) name = true → older.knows name = true ∨ name = c.name := by
      intro name hname
      obtain ⟨d, hd, rfl⟩ := knows_iff.mp hname
      rcases List.mem_cons.mp hd with rfl | hd
      · exact .inr rfl
      · exact .inl (knows_iff.mpr ⟨d, hd, rfl⟩)
    have hnone : ∀ {name}, ¬ Reaches older name c.name := fun hreach => by
      simpa [hfresh] using hreach.target_known
    rcases hnewest h.known with ha | rfl
    · have hb := h.of_known hwf ha
      exact ih hb (h'.of_known hwf hb.target_known)
    · rcases hnewest h'.known with hb | rfl
      · exact absurd (h'.of_known hwf hb) hnone
      · rfl

variable {classes : Hierarchy}

theorem isSubtype_host (hwf : WellFormed classes) :
    classes.isSubtype (.host child) (.host ancestor) = true ↔ Reaches classes child ancestor := by
  simp only [isSubtype, decide_eq_true_eq, mem_ancestors_iff hwf]

theorem isSubtype_antisymm (hwf : WellFormed classes) {a b : Ty} (h : classes.isSubtype a b = true)
    (h' : classes.isSubtype b a = true) : a = b := by
  obtain ⟨x, y, rfl, rfl, -⟩ := isSubtype_iff.mp h
  rw [isSubtype_host hwf] at h h'
  rw [h.antisymm hwf h']

/-- Types that accept each other are the same. Each of the five rules leads upwards. -/
theorem accepts_antisymm (hwf : WellFormed classes) {a b : Ty} (h : classes.accepts a b = true)
    (h' : classes.accepts b a = true) : a = b := by
  rcases accepts_iff.mp h with heq | ⟨rfl, href⟩ | ⟨rfl, hvoid⟩ | hsub | hwidens
  · exact heq
  · rcases accepts_iff.mp h' with heq | ⟨rfl, -⟩ | ⟨hobject, -⟩ | hsub | hwidens
    · exact heq.symm
    · rfl
    · cases hobject
    · obtain ⟨_, _, _, hhost, _⟩ := isSubtype_iff.mp hsub
      cases hhost
    · cases (Ty.isNumeric_of_widens hwidens).2
  · rcases accepts_iff.mp h' with heq | ⟨hnull, -⟩ | ⟨rfl, -⟩ | hsub | hwidens
    · exact heq.symm
    · cases hnull
    · rfl
    · obtain ⟨_, _, hhost, _⟩ := isSubtype_iff.mp hsub
      cases hhost
    · cases (Ty.isNumeric_of_widens hwidens).1
  · have hback : classes.isSubtype a b = true ∨ a = b := by
      obtain ⟨x, y, rfl, rfl, -⟩ := isSubtype_iff.mp hsub
      rcases accepts_iff.mp h' with heq | ⟨hnull, -⟩ | ⟨hobject, -⟩ | hback | hwidens
      · exact .inr heq.symm
      · cases hnull
      · cases hobject
      · exact .inl hback
      · cases (Ty.isNumeric_of_widens hwidens).1
    exact hback.elim (isSubtype_antisymm hwf · hsub) id
  · obtain ⟨i, j, hi, hj, hlt⟩ := Ty.widens_iff.mp hwidens
    rcases (accepts_numeric_iff (Ty.isNumeric_of_widens hwidens).1).mp h' with heq | hback
    · exact heq.symm
    · obtain ⟨j', i', hj', hi', hlt'⟩ := Ty.widens_iff.mp hback
      have hii : i = i' := by simpa [hi] using hi'
      have hjj : j = j' := by simpa [hj] using hj'
      omega

end Hierarchy

/-- After any registrations, failed ones included, the classes and the types are ordered. A type is a subtype of
another one exactly if they are classes, the first one is registered, and parents and capabilities that were declared
with success lead from it to the second one. This is reflexive on the registered classes, transitive and
antisymmetric; and accepting is reflexive, transitive and antisymmetric on all types. -/
theorem types_ordered (steps : List Registration) :
    let classes := (Registry.standard.registerAll steps).classes
    let registered := Registry.standard.registered steps
    (∀ s t, classes.isSubtype s t = true ↔ ∃ child ancestor, s = .host child ∧ t = .host ancestor ∧
      child ∈ registered.map (·.name) ∧ Relation.ReflTransGen (Declares registered) child ancestor) ∧
    (∀ name ∈ registered.map (·.name), classes.isSubtype (.host name) (.host name) = true) ∧
    (∀ a b c, classes.isSubtype a b = true → classes.isSubtype b c = true → classes.isSubtype a c = true) ∧
    (∀ a b, classes.isSubtype a b = true → classes.isSubtype b a = true → a = b) ∧
    (∀ t, classes.accepts t t = true) ∧
    (∀ a b c, classes.accepts b a = true → classes.accepts c b = true → classes.accepts c a = true) ∧
    ∀ a b, classes.accepts b a = true → classes.accepts a b = true → a = b := by
  intro classes registered
  have hwf : classes.WellFormed := (Registry.Built.standard.registerAll steps).wellFormed
  have hclasses : classes = registered := by
    simp only [classes, Registry.classes_registerAll]
    exact List.append_nil _
  have hknows : ∀ name, classes.knows name = true ↔ name ∈ registered.map (·.name) := by
    intro name
    rw [hclasses, Hierarchy.knows_iff, List.mem_map]
  have hsubtype : ∀ s t, classes.isSubtype s t = true ↔ ∃ child ancestor, s = .host child ∧ t = .host ancestor ∧
      child ∈ registered.map (·.name) ∧ Relation.ReflTransGen (Declares registered) child ancestor := by
    intro s t
    constructor
    · intro h
      obtain ⟨child, ancestor, rfl, rfl, -⟩ := Hierarchy.isSubtype_iff.mp h
      rw [Hierarchy.isSubtype_host hwf, Hierarchy.reaches_iff_reflTransGen hwf, hknows, hclasses] at h
      exact ⟨child, ancestor, rfl, rfl, h⟩
    · rintro ⟨child, ancestor, rfl, rfl, h⟩
      rwa [Hierarchy.isSubtype_host hwf, Hierarchy.reaches_iff_reflTransGen hwf, hknows, hclasses]
  refine ⟨hsubtype, fun name hname => ?_, fun a b c => Hierarchy.isSubtype_trans hwf,
    fun a b => Hierarchy.isSubtype_antisymm hwf, Hierarchy.accepts_refl,
    fun a b c hab hbc => Hierarchy.accepts_trans hwf hbc hab, fun a b hab hba => Hierarchy.accepts_antisymm hwf hba hab⟩
  exact (hsubtype _ _).mpr ⟨name, name, rfl, rfl, hname, .refl⟩

/-- A class with two ways to its oldest ancestor, and two registrations that would close a circle: both are refused,
since the name is taken or the class that is named does not exist. -/
def Registration.diamond : List Registration :=
  [.newClass ⟨"Top", none, []⟩, .newClass ⟨"Lower", some "Lower", []⟩, .newClass ⟨"Left", some "Top", []⟩,
    .newClass ⟨"Right", none, ["Top"]⟩, .newClass ⟨"Bottom", some "Left", ["Right", "Top"]⟩,
    .newAlias "Ring" (.complete .int), .newClass ⟨"Top", some "Bottom", []⟩, .newClass ⟨"Ring", none, ["Bottom"]⟩]

theorem types_ordered_diamond :
    let classes := (Registry.standard.registerAll Registration.diamond).classes
    Relation.ReflTransGen (Declares (Registry.standard.registered Registration.diamond)) "Bottom" "Top" ∧
    classes.isSubtype (.host "Bottom") (.host "Top") = true ∧
    classes.isSubtype (.host "Top") (.host "Bottom") = false ∧
    classes.accepts .object (.host "Ring") = true ∧ classes.accepts (.host "Ring") (.host "Ring") = true ∧
    classes.isSubtype (.host "Ring") (.host "Ring") = false := by
  intro classes
  obtain ⟨hsubtype, -, -, -, hrefl, -, -⟩ := types_ordered Registration.diamond
  have hdown : classes.isSubtype (.host "Bottom") (.host "Top") = true := by decide +kernel
  obtain ⟨_, _, hchild, hancestor, -, hchain⟩ := (hsubtype _ _).mp hdown
  obtain rfl := Ty.host.inj hchild
  obtain rfl := Ty.host.inj hancestor
  exact ⟨hchain, hdown, by decide +kernel, by decide +kernel, hrefl _, by decide +kernel⟩

end Scriptlet
