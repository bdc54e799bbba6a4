import Scriptlet.Arithmetic
import Scriptlet.Proofs.Hierarchy

/-!
# Values that fit a type

A value fits a type when the type accepts the type it has by itself and it needs no further widening; a call
that gives nothing fits `void`. Whatever a type accepts fits it once it is widened. Since types accept each other
transitively, a value that fits one type and is widened to another one that accepts it fits that one. Operators
and casts give values that fit the types which the compiler finds for them.
-/

namespace Scriptlet

namespace Ty

variable {s t : Ty}

theorem widens_iff : s.widens t = true ↔ ∃ i j, s.numericRank = some i ∧ t.numericRank = some j ∧ i < j := by
  unfold widens
  split <;> simp_all

theorem widens_trans {a b c : Ty} (h : a.widens b = true) (h' : b.widens c = true) : a.widens c = true := by
  obtain ⟨i, j, hi, hj, hij⟩ := widens_iff.mp h
  obtain ⟨j', k, hj', hk, hjk⟩ := widens_iff.mp h'
  have hjj : j = j' := by simpa [hj] using hj'
  exact widens_iff.mpr ⟨i, k, hi, hk, by omega⟩

theorem isNumeric_of_widens (h : s.widens t = true) : s.isNumeric = true ∧ t.isNumeric = true := by
  obtain ⟨i, j, hi, hj, _⟩ := widens_iff.mp h
  simp [isNumeric, hi, hj]

theorem eq_of_numericRank {i : Nat} (hs : s.numericRank = some i) (ht : t.numericRank = some i) : s = t := by
  cases s <;> cases hs <;> cases t <;> cases ht <;> rfl

theorem not_isReference_of_isNumeric (h : t.isNumeric = true) : t.isReference = false := by
  cases t <;> simp_all [isNumeric, numericRank, isReference]

end Ty

namespace Hierarchy

variable {classes : Hierarchy} {s t : Ty}

theorem isSubtype_iff : classes.isSubtype s t = true ↔ ∃ a b, s = .host a ∧ t = .host b ∧ b ∈ classes.ancestors a := by
  unfold isSubtype
  split <;> simp_all

theorem accepts_iff :
    classes.accepts t s = true ↔ t = s ∨ (s = .null ∧ t.isReference = true) ∨ (t = .object ∧ s ≠ .void) ∨
      classes.isSubtype s t = true ∨ s.widens t = true := by
  unfold accepts
  split
  · next h => simp [h]
  · split
    · next hne h =>
      subst h
      cases t <;> simp_all [Ty.isReference, isSubtype, Ty.widens, Ty.numericRank]
    · split
      · next h => simp [h]
      · next h => simp_all

theorem accepts_refl (t : Ty) : classes.accepts t t = true :=
  accepts_iff.mpr (.inl rfl)

/-- What is accepted by a type that another one accepts is accepted by that one, where subtypes are. -/
theorem accepts_trans_of {a b c : Ty}
    (hsub : classes.isSubtype c b = true → classes.isSubtype b a = true → classes.isSubtype c a = true)
    (h : classes.accepts a b = true) (h' : classes.accepts b c = true) : classes.accepts a c = true := by
  rcases accepts_iff.mp h with rfl | ⟨rfl, ha⟩ | ⟨rfl, hb⟩ | hab | hab
  · exact h'
  · rcases accepts_iff.mp h' with rfl | ⟨rfl, _⟩ | ⟨hb, _⟩ | hbc | hbc
    · exact h
    · exact h
    · cases hb
    · obtain ⟨_, _, _, hb, _⟩ := isSubtype_iff.mp hbc
      cases hb
    · cases (Ty.isNumeric_of_widens hbc).2
  · refine accepts_iff.mpr (.inr (.inr (.inl ⟨rfl, ?_⟩)))
    rintro rfl
    rcases accepts_iff.mp h' with rfl | ⟨hc, _⟩ | ⟨_, hc⟩ | hbc | hbc
    · exact hb rfl
    · cases hc
    · exact hc rfl
    · obtain ⟨_, _, hc, _⟩ := isSubtype_iff.mp hbc
      cases hc
    · cases (Ty.isNumeric_of_widens hbc).1
  · obtain ⟨x, y, rfl, rfl, _⟩ := isSubtype_iff.mp hab
    rcases accepts_iff.mp h' with rfl | ⟨rfl, _⟩ | ⟨hb, _⟩ | hbc | hbc
    · exact h
    · exact accepts_iff.mpr (.inr (.inl ⟨rfl, rfl⟩))
    · cases hb
    · exact accepts_iff.mpr (.inr (.inr (.inr (.inl (hsub hbc hab)))))
    · cases (Ty.isNumeric_of_widens hbc).2
  · have hnum := (Ty.isNumeric_of_widens hab).1
    rcases accepts_iff.mp h' with rfl | ⟨rfl, href⟩ | ⟨rfl, _⟩ | hbc | hbc
    · exact h
    · rw [Ty.not_isReference_of_isNumeric hnum] at href
      cases href
    · cases hnum
    · obtain ⟨_, _, _, rfl, _⟩ := isSubtype_iff.mp hbc
      cases hnum
    · exact accepts_iff.mpr (.inr (.inr (.inr (.inr (Ty.widens_trans hbc hab)))))

theorem accepts_trans (hwf : WellFormed classes) {a b c : Ty} (h : classes.accepts a b = true)
    (h' : classes.accepts b c = true) : classes.accepts a c = true :=
  accepts_trans_of (fun hcb hba => isSubtype_trans hwf hcb hba) h h'

theorem accepts_numeric_iff (ht : t.isNumeric = true) : classes.accepts t s = true ↔ t = s ∨ s.widens t = true := by
  rw [accepts_iff]
  constructor
  · rintro (h | ⟨_, h⟩ | ⟨rfl, _⟩ | h | h)
    · exact .inl h
    · rw [Ty.not_isReference_of_isNumeric ht] at h
      cases h
    · cases ht
    · obtain ⟨_, _, _, rfl, _⟩ := isSubtype_iff.mp h
      cases ht
    · exact .inr h
  · rintro (h | h)
    · exact .inl h
    · exact .inr (.inr (.inr (.inr h)))

end Hierarchy

namespace Value

/-- Whether a value is whole in itself and refers to nothing in the heap. -/
def IsPlain : Value → Prop
  | .sequence .. | .dictionary .. | .host .. => False
  | _ => True

/-- Whether a value fits a type. -/
def Fits (classes : Hierarchy) (t : Ty) (v : Value) : Prop :=
  (classes.accepts t v.runtimeType = true ∧ v.coerce t = v) ∨ (t = .void ∧ v = .null)

variable {v w : Value} {t : Ty}

theorem runtimeType_coerce (h : v.runtimeType.widens t = true) : (v.coerce t).runtimeType = t := by
  cases v <;> cases t <;> simp_all [runtimeType, coerce, Ty.widens, Ty.numericRank]

theorem coerce_of_not_numeric (h : t.isNumeric = false) (v : Value) : v.coerce t = v := by
  cases t <;> simp_all [coerce, Ty.isNumeric, Ty.numericRank]

theorem coerce_of_runtimeType (h : v.runtimeType = t) : v.coerce t = v := by
  subst h
  cases v <;> rfl

theorem coerce_coerce (v : Value) (t : Ty) : (v.coerce t).coerce t = v.coerce t := by
  cases v <;> cases t <;> rfl

theorem coerce_eq_or_isPlain (v : Value) (t : Ty) : v.coerce t = v ∨ (v.coerce t).IsPlain := by
  cases v <;> cases t <;> simp [coerce, IsPlain]

namespace Fits

variable {classes : Hierarchy} {t : Ty} {v : Value}

theorem of_runtimeType (h : v.runtimeType = t) : Fits classes t v :=
  .inl ⟨h ▸ Hierarchy.accepts_refl _, coerce_of_runtimeType h⟩

theorem of_accepts (h : classes.accepts t v.runtimeType = true) : Fits classes t (v.coerce t) := by
  by_cases ht : t.isNumeric = true
  · rcases (Hierarchy.accepts_numeric_iff ht).mp h with heq | hwiden
    · rw [coerce_of_runtimeType heq.symm]
      exact of_runtimeType heq.symm
    · exact of_runtimeType (runtimeType_coerce hwiden)
  · rw [coerce_of_not_numeric (by simpa using ht)]
    exact .inl ⟨h, coerce_of_not_numeric (by simpa using ht) v⟩

private theorem eq_void_of_accepts (h : classes.accepts t .void = true) : t = .void := by
  rcases Hierarchy.accepts_iff.mp h with ht | ⟨hs, _⟩ | ⟨_, hs⟩ | hs | hs
  · exact ht
  · cases hs
  · exact absurd rfl hs
  · obtain ⟨_, _, hs, _⟩ := Hierarchy.isSubtype_iff.mp hs
    cases hs
  · cases (Ty.isNumeric_of_widens hs).1

theorem coerce (hwf : classes.WellFormed) {s : Ty} (hv : Fits classes s v)
    (h : classes.accepts t s = true) : Fits classes t (v.coerce t) := by
  rcases hv with ⟨hv, _⟩ | ⟨rfl, rfl⟩
  · exact of_accepts (Hierarchy.accepts_trans hwf h hv)
  · exact .inr ⟨eq_void_of_accepts h, rfl⟩

theorem coerce_isPlain {s : Ty} (hplain : v.IsPlain) (hv : Fits classes s v)
    (h : classes.accepts t s = true) : Fits classes t (v.coerce t) := by
  rcases hv with ⟨hv, _⟩ | ⟨rfl, rfl⟩
  · refine of_accepts (Hierarchy.accepts_trans_of (fun hsub _ => ?_) h hv)
    obtain ⟨_, _, hhost, _⟩ := Hierarchy.isSubtype_iff.mp hsub
    cases v <;> first | exact hplain.elim | cases hhost
  · exact .inr ⟨eq_void_of_accepts h, rfl⟩

theorem default (t : Ty) : Fits classes t (Value.default t) := by
  cases t with
  | void => exact .inr ⟨rfl, rfl⟩
  | bool | int | long | float | double => exact of_runtimeType rfl
  | _ => exact .inl ⟨Hierarchy.accepts_iff.mpr (.inr (.inl ⟨rfl, rfl⟩)), rfl⟩

theorem runtimeType_eq (ht : t.isNumeric = true) (hv : Fits classes t v) : v.runtimeType = t := by
  rcases hv with ⟨haccepts, hcoerce⟩ | ⟨rfl, _⟩
  · rcases (Hierarchy.accepts_numeric_iff ht).mp haccepts with heq | hwiden
    · exact heq.symm
    · rw [← hcoerce]
      exact runtimeType_coerce hwiden
  · cases ht

theorem eq_sequence {kind : SequenceKind} {element : Ty}
    (hv : Fits classes (.sequence kind element) v) : v = .null ∨ ∃ a, v = .sequence kind element a := by
  rcases hv with ⟨h, _⟩ | ⟨h, _⟩
  · cases v <;>
      simp_all [Hierarchy.accepts_iff, runtimeType, Hierarchy.isSubtype, Ty.widens, Ty.numericRank]
  · cases h

theorem eq_dictionary {key value : Ty} (hv : Fits classes (.dictionary key value) v) :
    v = .null ∨ ∃ a, v = .dictionary key value a := by
  rcases hv with ⟨h, _⟩ | ⟨h, _⟩
  · cases v <;>
      simp_all [Hierarchy.accepts_iff, runtimeType, Hierarchy.isSubtype, Ty.widens, Ty.numericRank]
  · cases h

end Fits

theorem runtimeType_castNumber (h : v.castNumber t = some w) : w.runtimeType = t := by
  unfold castNumber at h
  split at h <;> simp only [Option.map_eq_some_iff, Option.some.injEq, reduceCtorEq] at h <;>
    (obtain ⟨_, _, rfl⟩ := h; rfl)

theorem fits_of_cast {classes : Hierarchy} (h : v.cast classes t = .ok w) : Fits classes t w := by
  simp only [cast] at h
  split at h
  · split at h
    · next hcast =>
      cases h
      exact .of_runtimeType (runtimeType_castNumber hcast)
    · cases h
  · split at h
    · split at h
      · next href =>
        cases h
        exact .inl ⟨Hierarchy.accepts_iff.mpr (.inr (.inl ⟨rfl, href⟩)), rfl⟩
      · cases h
    · split at h
      · next haccepts =>
        cases h
        exact .of_accepts haccepts
      · cases h

theorem isPlain_of_isNumeric (h : v.runtimeType.isNumeric = true) : v.IsPlain := by
  cases v <;> trivial

theorem cast_eq_or_isPlain {classes : Hierarchy} (h : v.cast classes t = .ok w) : w = v ∨ w.IsPlain := by
  simp only [cast] at h
  split at h
  · next ht =>
    split at h
    · next hcast =>
      cases h
      exact .inr (isPlain_of_isNumeric (runtimeType_castNumber hcast ▸ ht))
    · cases h
  · split at h
    · split at h
      · cases h
        exact .inr trivial
      · cases h
    · split at h
      · cases h
        exact coerce_eq_or_isPlain v t
      · cases h

theorem runtimeType_negated (h : v.negated? = some w) : w.runtimeType = v.runtimeType := by
  cases v <;> simp only [negated?, Option.map_eq_some_iff, Option.some.injEq, reduceCtorEq] at h
  · obtain ⟨_, _, rfl⟩ := h
    rfl
  · obtain ⟨_, _, rfl⟩ := h
    rfl
  · subst h
    rfl
  · subst h
    rfl

end Value

variable {w a b : Value} {h : Heap}

theorem UnaryOp.runtimeType_apply {op : UnaryOp} {v : Value} (h : op.apply v = .ok w) :
    w.runtimeType = match op with
      | .not => .bool
      | .negate => v.runtimeType := by
  cases op with
  | not =>
    cases v <;> first | cases h; rfl | cases h
  | negate =>
    simp only [UnaryOp.apply] at h
    split at h
    · next hneg =>
      cases h
      exact Value.runtimeType_negated hneg
    · cases h
    · cases h
    · cases h

namespace Arithmetic

variable {op : InfixOp} {w : Value}

theorem isComparison_of_compare {a b c d : Bool} {r : Option Bool}
    (h : compare? op a b c d = r) : op.isComparison = r.isSome := by
  subst h
  cases op <;> rfl

theorem runtimeType_integers {least : Int} {fit : Int → Option Value} {a b : Int} {t : Ty}
    (hfit : ∀ i v, fit i = some v → v.runtimeType = t) (h : integers least fit op a b = .ok w) :
    w.runtimeType = if op.isComparison then .bool else t := by
  unfold integers at h
  split at h
  · next hop =>
    rw [isComparison_of_compare hop]
    cases h
    rfl
  · next hop =>
    rw [isComparison_of_compare hop]
    cases hexact : exact least op a b with
    | error fault => simp [hexact, bind, Except.bind] at h
    | ok r =>
      simp only [hexact, bind, Except.bind] at h
      split at h
      · next hr =>
        cases h
        obtain ⟨i, _, hi⟩ := Option.bind_eq_some_iff.mp hr
        exact hfit i _ hi
      · cases h

theorem runtimeType_floats {a b : Float32} (h : floats op a b = .ok w) :
    w.runtimeType = if op.isComparison then .bool else .float := by
  unfold floats at h
  split at h
  · next hop =>
    rw [isComparison_of_compare hop]
    cases h
    rfl
  · next hop =>
    rw [isComparison_of_compare hop]
    split at h <;> cases h <;> rfl

theorem runtimeType_doubles {a b : Float} (h : doubles op a b = .ok w) :
    w.runtimeType = if op.isComparison then .bool else .double := by
  unfold doubles at h
  split at h
  · next hop =>
    rw [isComparison_of_compare hop]
    cases h
    rfl
  · next hop =>
    rw [isComparison_of_compare hop]
    split at h <;> cases h <;> rfl

/-- An operation on numbers gives a truth value if it compares and otherwise a number of the same type. -/
theorem runtimeType_numbers {operand : Ty} {a b : Value} (h : numbers op operand a b = .ok w) :
    w.runtimeType = if op.isComparison then .bool else a.runtimeType := by
  unfold numbers at h
  split at h
  · refine runtimeType_integers (t := .int) (fun i v hv => ?_) h
    obtain ⟨_, _, rfl⟩ := Option.map_eq_some_iff.mp hv
    rfl
  · refine runtimeType_integers (t := .long) (fun i v hv => ?_) h
    obtain ⟨_, _, rfl⟩ := Option.map_eq_some_iff.mp hv
    rfl
  · exact runtimeType_floats h
  · exact runtimeType_doubles h
  · cases h
  · cases h
  · cases h

theorem isNumeric_of_numbers {operand : Ty} {a b : Value} (h : numbers op operand a b = .ok w) :
    a.runtimeType.isNumeric = true := by
  unfold numbers at h
  split at h <;> first | rfl | cases h

theorem exists_of_join {h : Heap} {a b : Value} (hw : join h a b = .ok w) : ∃ text, w = .string text := by
  unfold join at hw
  cases hfirst : finite (h.scriptText a) with
  | error fault => simp [hfirst, bind, Except.bind] at hw
  | ok first =>
    cases hsecond : finite (h.scriptText b) with
    | error fault => simp [hfirst, hsecond, bind, Except.bind] at hw
    | ok second =>
      simp only [hfirst, hsecond, bind, Except.bind] at hw
      exact ⟨_, (Except.ok.inj hw).symm⟩

end Arithmetic

namespace Operation

theorem accepts_of_promote (classes : Hierarchy) {l r t : Ty} (h : Ty.promote l r = some t) :
    t.isNumeric = true ∧ classes.accepts t l = true ∧ classes.accepts t r = true := by
  unfold Ty.promote at h
  split at h
  · next i j hi hj =>
    cases h
    split
    · next hle =>
      refine ⟨by simp [Ty.isNumeric, hi], Hierarchy.accepts_refl l, ?_⟩
      rcases Nat.lt_or_eq_of_le hle with hlt | rfl
      · exact Hierarchy.accepts_iff.mpr (.inr (.inr (.inr (.inr (Ty.widens_iff.mpr ⟨j, i, hj, hi, hlt⟩)))))
      · exact Ty.eq_of_numericRank hi hj ▸ Hierarchy.accepts_refl l
    · next hlt =>
      exact ⟨by simp [Ty.isNumeric, hj], Hierarchy.accepts_iff.mpr (.inr (.inr (.inr (.inr
        (Ty.widens_iff.mpr ⟨i, j, hi, hj, by omega⟩))))), Hierarchy.accepts_refl r⟩
  · cases h

theorem result_of_equality {classes : Hierarchy} {l r : Ty} {o : Operation} (h : equality classes l r = some o) :
    o.result = .bool := by
  unfold equality at h
  (repeat' split at h) <;> cases h <;> rfl

end Operation

theorem InfixOp.fits_apply {classes : Hierarchy} (hwf : classes.WellFormed) {op : InfixOp} {l r : Ty}
    {o : Operation} (ho : Operation.infixed classes op l r = some o) (ha : a.Fits classes l)
    (hw : op.apply h o.operand a b = .ok w) : w.Fits classes o.result := by
  unfold Operation.infixed at ho
  simp only [InfixOp.apply] at hw
  split at ho
  · next heq =>
    rw [if_pos heq] at hw
    cases hw
    exact .of_runtimeType (Operation.result_of_equality ho).symm
  · next hne =>
    rw [if_neg hne] at hw
    unfold Operation.arithmetic at ho
    rw [if_neg hne] at ho
    split at ho
    · cases ho
    · -- the operand type of a sum of texts is `string`, and otherwise the wider of two numeric types
      have hnumbers : ∀ {t : Ty}, Ty.promote l r = some t → o.operand = t →
          w.runtimeType = if op.isComparison then .bool else t := by
        rintro t hp rfl
        obtain ⟨hnum, hl, _⟩ := Operation.accepts_of_promote classes hp
        have hstring : o.operand ≠ .string := fun h => by simp [h, Ty.isNumeric, Ty.numericRank] at hnum
        rw [if_neg hstring] at hw
        rw [Arithmetic.runtimeType_numbers hw, (ha.coerce hwf hl).runtimeType_eq hnum]
      split at ho
      · next hcmp =>
        obtain ⟨t, hp, rfl⟩ := Option.map_eq_some_iff.mp ho
        refine .of_runtimeType ?_
        simpa [hcmp] using hnumbers hp rfl
      · next hcmp =>
        split at ho
        · cases ho
          obtain ⟨text, rfl⟩ := Arithmetic.exists_of_join hw
          exact .of_runtimeType rfl
        · obtain ⟨t, hp, rfl⟩ := Option.map_eq_some_iff.mp ho
          refine .of_runtimeType ?_
          simpa [hcmp] using hnumbers hp rfl

theorem InfixOp.isPlain_apply {op : InfixOp} {operand : Ty} (hw : op.apply h operand a b = .ok w) : w.IsPlain := by
  simp only [InfixOp.apply] at hw
  split at hw
  · cases hw
    trivial
  · split at hw
    · obtain ⟨text, rfl⟩ := Arithmetic.exists_of_join hw
      trivial
    · have hty := Arithmetic.runtimeType_numbers hw
      split at hty
      · cases w <;> trivial
      · exact Value.isPlain_of_isNumeric (hty ▸ Arithmetic.isNumeric_of_numbers hw)

theorem CompoundOp.isPlain_apply {op : CompoundOp} {operand : Ty}
    (hw : op.apply h operand a b = .ok w) : w.IsPlain := by
  cases op with
  | arithmetic op => exact op.isPlain_apply hw
  | and | or =>
    cases a <;> first | cases hw | skip
    cases b <;> cases hw
    trivial

end Scriptlet
