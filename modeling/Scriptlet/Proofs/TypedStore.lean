import Scriptlet.Proofs.GuardedGlobals
import Scriptlet.Proofs.StaticScoping

/-!
# Definitions and readings of a store

A store is filled by definitions, some of which fail. What is bound to a name then follows from the definitions that
succeeded: the first one of that name gave the type, and the last one gave the value, widened to that type. So every
value in the store fits the type of its binding, and a reading that asks for a type which accepts that of the binding
can only find that there is no value.
-/

namespace Scriptlet

/-- A global that a host asks a store to define. -/
structure Definition where
  name : String
  ty : Ty
  value : Value

/-- What some definitions that succeeded leave bound to a name: the first one decides on the type, the last one on the
value. -/
def Definition.remembered (past : List Definition) (name : String) : Option Binding := do
  let first ← past.find? (·.name = name)
  let last ← past.reverse.find? (·.name = name)
  return ⟨first.ty, last.value.coerce first.ty⟩

namespace Definition

theorem map_ty_remembered (past : List Definition) (name : String) :
    (remembered past name).map (·.ty) = (past.find? (·.name = name)).map (·.ty) := by
  cases hfirst : past.find? (·.name = name) with
  | none => simp [remembered, hfirst]
  | some first =>
    have hlast : (past.reverse.find? (·.name = name)).isSome = true := by
      have hname : decide (first.name = name) = true := by
        simpa using List.find?_some hfirst
      rw [List.find?_isSome]
      exact ⟨first, List.mem_reverse.mpr (List.mem_of_find?_eq_some hfirst), hname⟩
    obtain ⟨last, hlast⟩ := Option.isSome_iff_exists.mp hlast
    simp [remembered, hfirst, hlast]

/-- One more definition decides on the value of its name, and on the type if it is the first one of that name. -/
theorem remembered_concat (past : List Definition) (d : Definition) (name : String) :
    remembered (past ++ [d]) name =
      if name = d.name then
        let kept := ((remembered past name).map (·.ty)).getD d.ty
        some ⟨kept, d.value.coerce kept⟩
      else remembered past name := by
  split
  · next hname =>
    subst hname
    rw [map_ty_remembered]
    cases hfirst : past.find? (·.name = d.name) <;> simp [remembered, List.find?_append, hfirst]
  · next hname => simp [remembered, List.find?_append, Ne.symm hname]

end Definition

namespace Bindings

def attempt (classes : Hierarchy) (globals : Bindings) (d : Definition) : Except Fault Bindings :=
  define classes globals d.name d.ty d.value

/-- A store after some definitions were tried one after the other; one that fails leaves it as it was. -/
def defineEach (classes : Hierarchy) (globals : Bindings) : List Definition → Bindings
  | [] => globals
  | d :: rest =>
    match globals.attempt classes d with
    | .ok globals => defineEach classes globals rest
    | .error _ => defineEach classes globals rest

/-- The definitions among these that succeed when they are tried one after the other. -/
def succeeding (classes : Hierarchy) (globals : Bindings) : List Definition → List Definition
  | [] => []
  | d :: rest =>
    match globals.attempt classes d with
    | .ok globals => d :: succeeding classes globals rest
    | .error _ => succeeding classes globals rest

variable {classes : Hierarchy} {globals globals' : Bindings} {d : Definition} {past : List Definition}

theorem defineEach_append (globals : Bindings) (ds more : List Definition) :
    defineEach classes globals (ds ++ more) = defineEach classes (defineEach classes globals ds) more := by
  induction ds generalizing globals with
  | nil => rfl
  | cons d ds ih =>
    rw [List.cons_append, defineEach, defineEach.eq_2 classes globals]
    cases globals.attempt classes d <;> exact ih _

/-- A definition is about the type that its name has already, or about its own if there is none. It succeeds if this
type accepts both the type and the value that are given. -/
theorem attempt_eq {kept : Ty} (hkept : kept = ((globals.lookup d.name).map (·.ty)).getD d.ty) :
    globals.attempt classes d =
      if classes.accepts kept d.ty then
        if classes.accepts kept d.value.runtimeType then .ok (put d.name ⟨kept, d.value.coerce kept⟩ globals)
        else .error (.typeMismatch d.name kept d.value.runtimeType .write)
      else .error (.globalTypeConflict d.name kept d.ty) := by
  unfold attempt define
  cases hfound : globals.lookup d.name with
  | none =>
    obtain rfl : kept = d.ty := by simpa [hfound] using hkept
    rw [if_pos (Hierarchy.accepts_refl _)]
    rfl
  | some existing =>
    obtain rfl : kept = existing.ty := by simpa [hfound] using hkept
    by_cases haccepts : classes.accepts existing.ty d.ty = true
    · simp only [haccepts, if_true]
      rfl
    · simp only [haccepts]
      rfl

theorem attempt_eq_ok_iff {kept : Ty} (hkept : kept = ((globals.lookup d.name).map (·.ty)).getD d.ty) :
    globals.attempt classes d = .ok globals' ↔
      classes.accepts kept d.ty = true ∧ classes.accepts kept d.value.runtimeType = true ∧
        put d.name ⟨kept, d.value.coerce kept⟩ globals = globals' := by
  rw [attempt_eq hkept]
  split
  · next hty => split <;> simp_all
  · next hty => simp_all

/-- The store is what the definitions in the past have made of it, and its values fit their types. -/
structure Recalls (classes : Hierarchy) (past : List Definition) (globals : Bindings) : Prop where
  lookup_eq : ∀ name, globals.lookup name = Definition.remembered past name
  fitting : ∀ name b, globals.lookup name = some b →
    classes.accepts b.ty b.value.runtimeType = true ∧ b.value.coerce b.ty = b.value

namespace Recalls

theorem start : Recalls classes [] [] where
  lookup_eq _ := rfl
  fitting _ _ h := by cases h

theorem attempt (h : Recalls classes past globals) (hok : globals.attempt classes d = .ok globals') :
    Recalls classes (past ++ [d]) globals' := by
  obtain ⟨-, haccepts, rfl⟩ := (attempt_eq_ok_iff rfl).mp hok
  refine ⟨fun name => ?_, fun name b hb => ?_⟩
  · rw [lookup_put, Definition.remembered_concat]
    split
    · next hname => rw [hname, h.lookup_eq]
    · exact h.lookup_eq name
  · rw [lookup_put] at hb
    split at hb
    · cases hb
      exact ⟨Hierarchy.accepts_coerce haccepts, Value.coerce_coerce _ _⟩
    · exact h.fitting name b hb

/-- What any definitions make of the store, of which those that succeed are remembered. -/
theorem defineEach (h : Recalls classes past globals) (ds : List Definition) :
    Recalls classes (past ++ succeeding classes globals ds) (Bindings.defineEach classes globals ds) := by
  induction ds generalizing past globals with
  | nil => rwa [succeeding, Bindings.defineEach, List.append_nil]
  | cons d ds ih =>
    rw [succeeding, Bindings.defineEach]
    cases hattempt : globals.attempt classes d with
    | ok globals' => simpa using ih (h.attempt hattempt)
    | error fault => exact ih h

end Recalls

end Bindings

namespace Hierarchy

/-- The types of truth values and texts, and that of `null`, accept nothing but themselves and perhaps `null`. -/
theorem eq_or_null_of_accepts {classes : Hierarchy} {t s : Ty} (ht : t = .bool ∨ t = .string ∨ t = .null)
    (h : classes.accepts t s = true) : s = t ∨ s = .null := by
  rcases accepts_iff.mp h with heq | ⟨hnull, -⟩ | ⟨hobject, -⟩ | hsub | hwidens
  · exact .inl heq.symm
  · exact .inr hnull
  · simp [hobject] at ht
  · obtain ⟨_, _, _, rfl, _⟩ := isSubtype_iff.mp hsub
    simp at ht
  · have := (Ty.isNumeric_of_widens hwidens).2
    rcases ht with rfl | rfl | rfl <;> cases this

end Hierarchy

namespace Reading

variable {classes : Hierarchy} {r : Reading} {s : Ty} {v : Value}

theorem take?_of_runtimeType (h : v.runtimeType = r.ty) : r.take? v = some v := by
  obtain ⟨plain, optional⟩ := r
  cases plain <;> cases v <;> first | rfl | cases h

/-- There is no value, and the reading does not put up with that. -/
def Misses (r : Reading) (v : Value) : Prop :=
  v = .null ∧ r.optional = false ∧ r.plain ≠ .object

theorem take?_of_misses (h : r.Misses v) : r.take? (v.coerce r.ty) = none := by
  obtain ⟨rfl, hoptional, hobject⟩ := h
  obtain ⟨plain, optional⟩ := r
  subst hoptional
  cases plain <;> first | rfl | exact absurd rfl hobject

/-- A value that fits a type has, once it is widened, the type that a reading asks for, if that one accepts its type.
-/
theorem runtimeType_coerce (hvalue : classes.accepts s v.runtimeType = true) (hwidened : v.coerce s = v)
    (hv : v ≠ .null) (hobject : r.plain ≠ .object) (haccepts : classes.accepts r.ty s = true) :
    (v.coerce r.ty).runtimeType = r.ty := by
  have hnull : v.runtimeType ≠ .null := by
    intro h
    cases v <;> first | exact hv rfl | cases h
  cases hnumeric : r.ty.isNumeric with
  | true =>
    have hs : s.isNumeric = true := by
      rcases (Hierarchy.accepts_numeric_iff hnumeric).mp haccepts with rfl | hwidens
      · exact hnumeric
      · exact (Ty.isNumeric_of_widens hwidens).1
    have htype : v.runtimeType = s := Value.Fits.runtimeType_eq hs (.inl ⟨hvalue, hwidened⟩)
    rcases (Hierarchy.accepts_numeric_iff hnumeric).mp haccepts with heq | hwidens
    · rw [Value.coerce_of_runtimeType (htype.trans heq.symm), htype, heq]
    · exact Value.runtimeType_coerce (htype ▸ hwidens)
  | false =>
    have hplain : r.ty = .bool ∨ r.ty = .string ∨ r.ty = .null := by
      obtain ⟨plain, optional⟩ := r
      cases plain <;> simp_all [ty, Ty.isNumeric, Ty.numericRank]
    rw [Value.coerce_of_not_numeric hnumeric]
    rcases Hierarchy.eq_or_null_of_accepts hplain haccepts with rfl | rfl
    · exact (Hierarchy.eq_or_null_of_accepts hplain hvalue).resolve_right hnull
    · -- nothing but `null` is of the type of `null`
      exact absurd ((Hierarchy.eq_or_null_of_accepts (.inr (.inr rfl)) hvalue).elim id id) hnull

/-- A value that fits a type is taken by every reading that accepts the type, unless there is none. -/
theorem take?_of_fits (hvalue : classes.accepts s v.runtimeType = true) (hwidened : v.coerce s = v)
    (haccepts : classes.accepts r.ty s = true) (hmisses : ¬ r.Misses v) :
    r.take? (v.coerce r.ty) = some (v.coerce r.ty) := by
  by_cases hobject : r.plain = .object
  · obtain ⟨plain, optional⟩ := r
    subst hobject
    rfl
  by_cases hnull : v = .null
  · subst hnull
    have hoptional : r.optional = true := by
      cases hstrict : r.optional with
      | false => exact absurd ⟨rfl, hstrict, hobject⟩ hmisses
      | true => rfl
    obtain ⟨plain, optional⟩ := r
    subst hoptional
    cases plain <;> rfl
  · exact take?_of_runtimeType (runtimeType_coerce hvalue hwidened hnull hobject haccepts)

/-- What reading a name comes to when this binding is found for it, or none: the kinds of answers and when each of
them is given. -/
structure Answers (classes : Hierarchy) (found : Option Binding) (name : String) (r : Reading)
    (result : Except Fault Value) : Prop where
  undefined_iff : ∀ n, result = .error (.undefinedVariable n) ↔ name = n ∧ found = none
  mismatch_iff : ∀ n declared attempted access, result = .error (.typeMismatch n declared attempted access) ↔
    ∃ b, found = some b ∧ classes.accepts r.ty b.ty = false ∧
      name = n ∧ b.ty = declared ∧ r.ty = attempted ∧ .read = access
  null_iff : ∀ n, result = .error (.nullValue n) ↔
    name = n ∧ ∃ b, found = some b ∧ classes.accepts r.ty b.ty = true ∧ r.Misses b.value
  ok_iff : ∀ v, result = .ok v ↔
    ∃ b, found = some b ∧ classes.accepts r.ty b.ty = true ∧ ¬ r.Misses b.value ∧ b.value.coerce r.ty = v

end Reading

namespace Bindings

variable {classes : Hierarchy} {globals : Bindings} {name : String}

/-- Where the values of a store fit their types, nothing is reported about the type of a value. -/
theorem read_answers (hfitting : ∀ b, globals.lookup name = some b →
      classes.accepts b.ty b.value.runtimeType = true ∧ b.value.coerce b.ty = b.value) (r : Reading) :
    r.Answers classes (globals.lookup name) name (read classes globals name r) := by
  cases hfound : globals.lookup name with
  | none =>
    rw [read, hfound]
    constructor <;> simp
  | some b =>
    obtain ⟨hvalue, hwidened⟩ := hfitting b hfound
    simp only [read, hfound, readAs]
    cases haccepts : classes.accepts r.ty b.ty with
    | false => constructor <;> simp [haccepts]
    | true =>
      by_cases hmisses : r.Misses b.value
      · have hnull : b.value.isNull = true := by rw [hmisses.1]; rfl
        simp only [Reading.take?_of_misses hmisses, hnull, if_true]
        constructor <;> simp [haccepts, hmisses]
      · simp only [Reading.take?_of_fits hvalue hwidened haccepts hmisses, if_true]
        constructor <;> simp [haccepts, hmisses]

end Bindings

/-- Definitions and readings of a store agree, whatever definitions were tried before. A definition succeeds if the
type that its name has, or is to get, accepts the type and the value given; otherwise the store stays as it is. What
is bound to a name comes from the definitions that succeeded: the type of the first one, and the value of the last
one. This value is accepted by that type and is widened to it. Every way of reading a name then has just one answer:
the name is not bound, the type asked for does not accept that of the binding, there is no value, or the value widened
to the type asked for. -/
theorem store_consistent (classes : Hierarchy) (ds : List Definition) :
    let globals := Bindings.defineEach classes [] ds
    let past := Bindings.succeeding classes [] ds
    (∀ d, (∃ after, globals.attempt classes d = .ok after) ↔
      let kept := ((globals.lookup d.name).map (·.ty)).getD d.ty
      classes.accepts kept d.ty = true ∧ classes.accepts kept d.value.runtimeType = true) ∧
    (∀ d fault, globals.attempt classes d = .error fault → Bindings.defineEach classes [] (ds ++ [d]) = globals) ∧
    (∀ name, globals.lookup name = Definition.remembered past name) ∧
    (∀ name b, globals.lookup name = some b →
      classes.accepts b.ty b.value.runtimeType = true ∧ b.value.coerce b.ty = b.value ∧
      ∃ first, past.find? (·.name = name) = some first ∧ first.ty = b.ty) ∧
    ∀ name r, Reading.Answers classes (globals.lookup name) name r (globals.read classes name r) := by
  intro globals past
  have hrecalls : Bindings.Recalls classes past globals := Bindings.Recalls.start.defineEach ds
  refine ⟨fun d => ?_, fun d fault hfault => ?_, hrecalls.lookup_eq, fun name b hb => ?_, fun name r => ?_⟩
  · simp [Bindings.attempt_eq_ok_iff rfl]
  · rw [Bindings.defineEach_append, Bindings.defineEach, hfault, Bindings.defineEach]
  · obtain ⟨haccepts, hwidened⟩ := hrecalls.fitting name b hb
    refine ⟨haccepts, hwidened, ?_⟩
    have hty := Definition.map_ty_remembered past name
    rw [← hrecalls.lookup_eq, hb] at hty
    exact Option.map_eq_some_iff.mp hty.symm
  · exact Bindings.read_answers (hrecalls.fitting name) r

/-- Five definitions, of which two fail: a number is no text, and a text is no number. -/
def Definition.scores : List Definition :=
  [⟨"score", .long, .int 3⟩, ⟨"score", .int, .int 4⟩, ⟨"score", .string, .string "x"⟩, ⟨"label", .string, .null⟩,
    ⟨"name", .string, .int 1⟩]

theorem store_consistent_scores :
    let globals := Bindings.defineEach [] [] Definition.scores
    globals.lookup "score" = some ⟨.long, .long 4⟩ ∧
    globals.read [] "score" ⟨.double, false⟩ = .ok (Value.coerce (.long 4) .double) ∧
    globals.read [] "score" ⟨.int, false⟩ = .error (.typeMismatch "score" .long .int .read) ∧
    globals.read [] "label" ⟨.string, false⟩ = .error (.nullValue "label") ∧
    globals.read [] "label" ⟨.string, true⟩ = .ok .null ∧
    globals.read [] "name" ⟨.object, true⟩ = .error (.undefinedVariable "name") := by
  intro globals
  obtain ⟨-, -, -, -, hread⟩ := store_consistent [] Definition.scores
  have hscore : globals.lookup "score" = some ⟨.long, .long 4⟩ := rfl
  have hlabel : globals.lookup "label" = some ⟨.string, .null⟩ := rfl
  have hname : globals.lookup "name" = none := rfl
  refine ⟨hscore, ?_, ?_, ?_, ?_, ?_⟩
  · exact ((hread "score" ⟨.double, false⟩).ok_iff _).mpr ⟨_, hscore, by decide, by simp [Reading.Misses], rfl⟩
  · exact ((hread "score" ⟨.int, false⟩).mismatch_iff _ _ _ _).mpr ⟨_, hscore, by decide, rfl, rfl, rfl, rfl⟩
  · exact ((hread "label" ⟨.string, false⟩).null_iff _).mpr ⟨rfl, _, hlabel, by decide, rfl, rfl, by decide⟩
  · exact ((hread "label" ⟨.string, true⟩).ok_iff _).mpr ⟨_, hlabel, by decide, by simp [Reading.Misses], rfl⟩
  · exact ((hread "name" ⟨.object, true⟩).undefined_iff _).mpr ⟨rfl, hname⟩

end Scriptlet
