import Scriptlet.Proofs.Fits
import Scriptlet.Proofs.WholeNumbers
import Scriptlet.Sample.Menagerie

/-!
# Explicit casts

Three tables say which conversions there are: what a type accepts by itself, which casts may be written, and what a
cast does with a value. They agree. A cast gives a value of the type asked for, it does nothing that may not be
written, and it never refuses what happens by itself. Between the types of whole numbers a cast keeps the number or
fails.
-/

namespace Scriptlet

/-- The whole number is in the range of the type. -/
def Ty.Holds (t : Ty) (i : Int) : Prop :=
  (t = .int ∧ -2147483648 ≤ i ∧ i ≤ 2147483647) ∨
    (t = .long ∧ -9223372036854775808 ≤ i ∧ i ≤ 9223372036854775807)

theorem Hierarchy.accepts_null {classes : Hierarchy} {t : Ty} : classes.accepts t .null = t.isReference := by
  unfold accepts
  split
  · next h => rw [h]; rfl
  · rfl

namespace Value

variable {classes : Hierarchy} {v w : Value} {t : Ty} {i : Int}

/-- What a cast comes to: a number is converted, and any other value is checked and kept. -/
theorem cast_eq_ok_iff : v.cast classes t = .ok w ↔
    (t.isNumeric = true ∧ v.castNumber t = some w) ∨
      (t.isNumeric = false ∧ classes.accepts t v.runtimeType = true ∧ w = v) := by
  cases hnumeric : t.isNumeric with
  | true => cases hcast : v.castNumber t <;> simp [cast, hnumeric, hcast]
  | false =>
    by_cases hnull : v.isNull = true
    · obtain rfl : v = .null := by cases v <;> first | rfl | cases hnull
      by_cases href : t.isReference = true <;>
        simp [cast, hnumeric, isNull, href, runtimeType, Hierarchy.accepts_null, eq_comm]
    · by_cases haccepts : classes.accepts t v.runtimeType = true <;>
        simp [cast, hnumeric, hnull, haccepts, coerce_of_not_numeric hnumeric, eq_comm]

theorem isNumeric_of_castNumber (h : v.castNumber t = some w) : v.runtimeType.isNumeric = true := by
  cases v <;> cases t <;> first | rfl | cases h

theorem castNumber_of_accepts (ht : t.isNumeric = true) (h : classes.accepts t v.runtimeType = true) :
    ∃ w, v.castNumber t = some w := by
  rcases (Hierarchy.accepts_numeric_iff ht).mp h with rfl | hwidens
  · cases v <;> first | exact ⟨_, rfl⟩ | cases ht
  · cases v <;> cases t <;> first | exact ⟨_, rfl⟩ | cases hwidens

theorem holds_of_toInteger? (h : v.toInteger? = some i) : v.runtimeType.Holds i := by
  cases v with
  | int c =>
    cases h
    exact .inl ⟨rfl, c.minValue_le_toInt, c.toInt_le⟩
  | long c =>
    cases h
    exact .inr ⟨rfl, c.minValue_le_toInt, c.toInt_le⟩
  | _ => cases h

theorem exists_of_holds (h : t.Holds i) : ∃ w : Value, w.runtimeType = t ∧ w.toInteger? = some i := by
  rcases h with ⟨rfl, hleast, hgreatest⟩ | ⟨rfl, hleast, hgreatest⟩
  · exact ⟨.int (.ofInt i), rfl, congrArg some (Int32.toInt_ofInt_of_le hleast (by omega))⟩
  · exact ⟨.long (.ofInt i), rfl, congrArg some (Int64.toInt_ofInt_of_le hleast (by omega))⟩

theorem castNumber_eq_some_iff (hv : v.toInteger? = some i) (ht : t.isIntegral = true) :
    v.castNumber t = some w ↔ w.runtimeType = t ∧ w.toInteger? = some i := by
  cases v with
  | int c =>
    cases hv
    cases t with
    | int => cases w <;> simp [castNumber, runtimeType, toInteger?, Int32.toInt_inj, eq_comm]
    | long =>
      cases w <;> simp [castNumber, runtimeType, toInteger?, ← Int64.toInt_inj, Int32.toInt_toInt64, eq_comm]
    | _ => cases ht
  | long c =>
    cases hv
    cases t with
    | int => cases w <;> simp [castNumber, runtimeType, toInteger?, Number.fit32_eq_some_iff]
    | long => cases w <;> simp [castNumber, runtimeType, toInteger?, Int64.toInt_inj, eq_comm]
    | _ => cases ht
  | _ => cases hv

end Value

/-- Casts are sound, and they reject nothing that is converted by itself. What a cast gives is of the type asked for:
of just that type if it is numeric, and otherwise the very value that was cast; and the cast may be written. A value
whose type is accepted can be cast. A whole number is cast to a type of whole numbers if and only if it is in the
range of that type, and stays the same number. -/
theorem casts_sound (classes : Hierarchy) (v : Value) (t : Ty) :
    (∀ w, v.cast classes t = .ok w →
      classes.accepts t w.runtimeType = true ∧ (t.isNumeric = true → w.runtimeType = t) ∧
      (t.isNumeric = false → w = v) ∧ classes.castable t v.runtimeType = true) ∧
    (classes.accepts t v.runtimeType = true → ∃ w, v.cast classes t = .ok w) ∧
    ∀ i, v.toInteger? = some i → t.isIntegral = true →
      ((∃ w, v.cast classes t = .ok w) ↔ t.Holds i) ∧ ∀ w, v.cast classes t = .ok w → w.toInteger? = some i := by
  refine ⟨fun w hcast => ?_, fun haccepts => ?_, fun i hi ht => ?_⟩
  · rcases Value.cast_eq_ok_iff.mp hcast with ⟨ht, hnumber⟩ | ⟨ht, haccepts, rfl⟩
    · have hw := Value.runtimeType_castNumber hnumber
      have hv := Value.isNumeric_of_castNumber hnumber
      have hvoid : t ≠ .void := by rintro rfl; cases ht
      exact ⟨hw ▸ Hierarchy.accepts_refl _, fun _ => hw, by simp [ht], by simp [Hierarchy.castable, hvoid, ht, hv]⟩
    · have hvoid : t ≠ .void := by
        rintro rfl
        cases w <;> cases haccepts
      exact ⟨haccepts, by simp [ht], fun _ => rfl, by simp [Hierarchy.castable, hvoid, haccepts]⟩
  · cases ht : t.isNumeric with
    | true =>
      obtain ⟨w, hw⟩ := Value.castNumber_of_accepts ht haccepts
      exact ⟨w, Value.cast_eq_ok_iff.mpr (.inl ⟨ht, hw⟩)⟩
    | false => exact ⟨v, Value.cast_eq_ok_iff.mpr (.inr ⟨ht, haccepts, rfl⟩)⟩
  · have hnumeric : t.isNumeric = true := by cases t <;> first | rfl | cases ht
    have hcast : ∀ w, v.cast classes t = .ok w ↔ w.runtimeType = t ∧ w.toInteger? = some i := fun w => by
      simp [Value.cast_eq_ok_iff, hnumeric, Value.castNumber_eq_some_iff hi ht]
    simp only [hcast]
    refine ⟨⟨?_, Value.exists_of_holds⟩, fun w hw => hw.2⟩
    rintro ⟨w, rfl, hw⟩
    exact Value.holds_of_toInteger? hw

/-- The greatest int is cast from a long and the next number is not, though that cast may be written. A dog is cast to
what it is capable of. -/
theorem casts_sound_menagerie :
    let classes := Menagerie.registry.classes
    (∃ w, Value.cast classes (.long 2147483647) .int = .ok w ∧ w.runtimeType = .int ∧ w.toInteger? = some 2147483647) ∧
    classes.castable .int .long = true ∧ (¬ ∃ w, Value.cast classes (.long 2147483648) .int = .ok w) ∧
    classes.accepts (.host "IAged") (.host "Dog") = true ∧
    Value.cast classes (.host "Dog" 0) (.host "IAged") = .ok (.host "Dog" 0) := by
  intro classes
  obtain ⟨hsound, -, hwhole⟩ := casts_sound classes (.long 2147483647) .int
  obtain ⟨w, hw⟩ := (hwhole 2147483647 (by decide) rfl).1.mpr (.inl ⟨rfl, by decide, by decide⟩)
  obtain ⟨-, hint, -, hcastable⟩ := hsound w hw
  obtain ⟨-, -, hbeyond⟩ := casts_sound classes (.long 2147483648) .int
  obtain ⟨hdog, haged, -⟩ := casts_sound classes (.host "Dog" 0) (.host "IAged")
  have haccepts : classes.accepts (.host "IAged") (.host "Dog") = true := by decide +kernel
  obtain ⟨v, hv⟩ := haged haccepts
  obtain rfl := (hdog v hv).2.2.1 rfl
  refine ⟨⟨w, hw, hint rfl, (hwhole _ (by decide) rfl).2 w hw⟩, hcastable, fun hcast => ?_, haccepts, hv⟩
  exact absurd ((hbeyond 2147483648 (by decide) rfl).1.mp hcast) (by simp [Ty.Holds])

end Scriptlet
