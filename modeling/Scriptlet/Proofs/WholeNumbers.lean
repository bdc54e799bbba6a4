import Scriptlet.Formula
import Scriptlet.Proofs.Frames

/-!
# Whole numbers: exact or out of range

What the operators come to by the arithmetic of all whole numbers, said without the functions that compute it: a
quotient leaves a remainder that is smaller than the divisor and has the sign of the dividend, and a power is a product
repeated. Operations on ints and on longs give just these numbers as long as they are in range, and an error otherwise;
no result is ever wrapped around. Two results that would be in range are reported as out of it: the remainder of the
least number by minus one, and powers of longs with an exponent of more than 32 bits.
-/

namespace Scriptlet

namespace Number

theorem fit32_eq_some_iff (i : Int) (c : Int32) : fit32 i = some c ↔ c.toInt = i := by
  unfold fit32
  constructor
  · intro h
    split at h
    · next hi =>
      cases h
      exact Int32.toInt_ofInt_of_le hi.1 (by omega)
    · cases h
  · rintro rfl
    have := c.le_toInt
    have := c.toInt_lt
    rw [if_pos (by omega), Int32.ofInt_toInt]

theorem fit32_eq_none_iff (i : Int) : fit32 i = none ↔ i < -2147483648 ∨ 2147483647 < i := by
  unfold fit32
  split <;> simp <;> omega

theorem fit64_eq_some_iff (i : Int) (c : Int64) : fit64 i = some c ↔ c.toInt = i := by
  unfold fit64
  constructor
  · intro h
    split at h
    · next hi =>
      cases h
      exact Int64.toInt_ofInt_of_le hi.1 (by omega)
    · cases h
  · rintro rfl
    have := c.le_toInt
    have := c.toInt_lt
    rw [if_pos (by omega), Int64.ofInt_toInt]

theorem fit64_eq_none_iff (i : Int) :
    fit64 i = none ↔ i < -9223372036854775808 ∨ 9223372036854775807 < i := by
  unfold fit64
  split <;> simp <;> omega

end Number

/-- Whether an operator computes a number from two numbers. -/
def InfixOp.isArithmetic (op : InfixOp) : Bool :=
  !op.isEquality && !op.isComparison

def repeatedProduct (a : Int) : Nat → Int
  | 0 => 1
  | n + 1 => repeatedProduct a n * a

/-- `a` divided by `b` is `q`, rounded towards zero, and `r` is left over. -/
structure Division (a b q r : Int) : Prop where
  whole : a = b * q + r
  smaller : r.natAbs < b.natAbs
  sign : r = 0 ∨ r.sign = a.sign

/-- The result of an operation is `r`, by the arithmetic of all whole numbers. -/
def InfixOp.Gives (op : InfixOp) (a b r : Int) : Prop :=
  match op with
  | .plus => r = a + b
  | .minus => r = a - b
  | .times => r = a * b
  | .divide => ∃ rest, Division a b r rest
  | .remainder => ∃ quotient, Division a b quotient r
  | .power => 0 ≤ b ∧ r = repeatedProduct a b.toNat
  | _ => False

/-- A type of whole numbers: which of all whole numbers its numbers are, how they become values, and what is in range. -/
structure WholeType where
  Number : Type
  toInt : Number → Int
  value : Number → Value
  least : Int
  greatest : Int
  fit : Int → Option Number
  fit_eq_some_iff : ∀ i c, fit i = some c ↔ toInt c = i
  fit_eq_none_iff : ∀ i, fit i = none ↔ i < least ∨ greatest < i
  bounded : -18446744073709551616 ≤ least ∧ greatest ≤ 18446744073709551616

def WholeType.int : WholeType where
  Number := Int32
  toInt := Int32.toInt
  value := .int
  least := -2147483648
  greatest := 2147483647
  fit := Number.fit32
  fit_eq_some_iff := Number.fit32_eq_some_iff
  fit_eq_none_iff := Number.fit32_eq_none_iff
  bounded := by decide

def WholeType.long : WholeType where
  Number := Int64
  toInt := Int64.toInt
  value := .long
  least := -9223372036854775808
  greatest := 9223372036854775807
  fit := Number.fit64
  fit_eq_some_iff := Number.fit64_eq_some_iff
  fit_eq_none_iff := Number.fit64_eq_none_iff
  bounded := by decide

/-- The operation that is reported as out of range though its result, zero, is not. -/
def InfixOp.Excepted (op : InfixOp) (least a b : Int) : Prop :=
  op = .remainder ∧ a = least ∧ b = -1

/-- A result of an operation that is exact, or an error that says why there is none. -/
structure WholeType.Exact (t : WholeType) (op : InfixOp) (a b : Int) (result : Except Fault Value) : Prop where
  ok_iff : ∀ v, result = .ok v ↔ ∃ c, v = t.value c ∧ op.Gives a b (t.toInt c) ∧ ¬ op.Excepted t.least a b
  divideByZero_iff : result = .error .divideByZero ↔ (op = .divide ∨ op = .remainder) ∧ b = 0
  negativeExponent_iff : ∀ e, result = .error (.negativeExponent e) ↔ op = .power ∧ b < 0 ∧ e = b
  overflow_iff : (∃ text, result = .error (.overflow text)) ↔
    ∃ r, op.Gives a b r ∧ ((r < t.least ∨ t.greatest < r) ∨ op.Excepted t.least a b)

namespace Division

variable {a b q r q' r' : Int}

theorem of_tdiv (a : Int) (hb : b ≠ 0) : Division a b (a.tdiv b) (a.tmod b) where
  whole := (Int.mul_tdiv_add_tmod a b).symm
  smaller := by
    rw [Int.natAbs_tmod]
    exact Nat.mod_lt _ (Int.natAbs_pos.mpr hb)
  sign := by
    have hsign := Int.sign_tmod a b
    split at hsign
    · exact .inl (Int.sign_eq_zero_iff_zero.mp hsign)
    · exact .inr hsign

theorem divisor_ne_zero (h : Division a b q r) : b ≠ 0 := by
  rintro rfl
  exact Nat.not_lt_zero _ h.smaller

theorem unique (h : Division a b q r) (h' : Division a b q' r') : q = q' ∧ r = r' := by
  have hdvd : b ∣ r' - r := ⟨q - q', by rw [Int.mul_sub]; have := h.whole; have := h'.whole; omega⟩
  have hclose : (r' - r).natAbs < b.natAbs := by
    have := h.smaller
    have := h'.smaller
    have hr := h.sign
    have hr' := h'.sign
    rcases Int.lt_trichotomy a 0 with ha | ha | ha
    · rw [Int.sign_eq_neg_one_of_neg ha, Int.sign_eq_neg_one_iff_neg] at hr hr'
      omega
    · subst ha
      rw [Int.sign_zero, Int.sign_eq_zero_iff_zero] at hr hr'
      omega
    · rw [Int.sign_eq_one_of_pos ha, Int.sign_eq_one_iff_pos] at hr hr'
      omega
  have hr : r = r' := by
    have := Int.eq_zero_of_dvd_of_natAbs_lt_natAbs hdvd hclose
    omega
  subst hr
  have hproduct : b * q = b * q' := by
    have := h.whole
    have := h'.whole
    omega
  exact ⟨Int.eq_of_mul_eq_mul_left h.divisor_ne_zero hproduct, rfl⟩

end Division

namespace repeatedProduct

theorem eq_pow (a : Int) (n : Nat) : repeatedProduct a n = Int.pow a n := by
  induction n with
  | zero => exact (Int.pow_zero a).symm
  | succ n ih => exact (congrArg (· * a) ih).trans (Int.pow_succ a n).symm

theorem zero (n : Nat) : repeatedProduct 0 n = if n = 0 then 1 else 0 := by
  cases n <;> simp [repeatedProduct]

theorem one (n : Nat) : repeatedProduct 1 n = 1 := by
  induction n with
  | zero => rfl
  | succ n ih => simp [repeatedProduct, ih]

theorem neg_one (n : Nat) : repeatedProduct (-1) n = if n % 2 = 0 then 1 else -1 := by
  induction n with
  | zero => rfl
  | succ n ih =>
    rw [repeatedProduct, ih]
    split <;> split <;> omega

/-- A base beyond minus one and one doubles the size with each factor. -/
theorem twoTo_le_natAbs {a : Int} (ha : 2 ≤ a.natAbs) (n : Nat) : Nat.pow 2 n ≤ (repeatedProduct a n).natAbs := by
  induction n with
  | zero => exact Nat.le_refl 1
  | succ n ih =>
    rw [repeatedProduct, Int.natAbs_mul]
    exact Nat.mul_le_mul ih ha

theorem natAbs_gt {a : Int} (ha : 2 ≤ a.natAbs) {n : Nat} (hn : 64 < n) :
    18446744073709551616 < (repeatedProduct a n).natAbs :=
  calc 18446744073709551616 < Nat.pow 2 65 := by decide
    _ ≤ Nat.pow 2 n := Nat.pow_le_pow_right (by decide) hn
    _ ≤ (repeatedProduct a n).natAbs := twoTo_le_natAbs ha n

end repeatedProduct

namespace InfixOp

variable {op : InfixOp} {least a b r r' : Int}

theorem Gives.unique (h : op.Gives a b r) (h' : op.Gives a b r') : r = r' := by
  cases op with
  | plus | minus | times => exact h.trans h'.symm
  | divide =>
    obtain ⟨rest, h⟩ := h
    obtain ⟨rest', h'⟩ := h'
    exact (h.unique h').1
  | remainder =>
    obtain ⟨quotient, h⟩ := h
    obtain ⟨quotient', h'⟩ := h'
    exact (h.unique h').2
  | power => exact h.2.trans h'.2.symm
  | _ => exact absurd h id

theorem Gives.divisor_ne_zero (h : op.Gives a b r) (hop : op = .divide ∨ op = .remainder) : b ≠ 0 := by
  rcases hop with rfl | rfl
  all_goals
    obtain ⟨other, h⟩ := h
    exact h.divisor_ne_zero

theorem Gives.exponent_nonneg (h : op.Gives a b r) (hop : op = .power) : 0 ≤ b := by
  subst hop
  exact h.1

end InfixOp

namespace Arithmetic

/-- What is known of a result before it is put into a type, when an operation comes to `outcome`. -/
inductive Computed (least : Int) (op : InfixOp) (a b : Int) : Except Fault (Option Int) → Prop
  | divideByZero (hop : op = .divide ∨ op = .remainder) (hb : b = 0) : Computed least op a b (.error .divideByZero)
  | negativeExponent (hop : op = .power) (hb : b < 0) : Computed least op a b (.error (.negativeExponent b))
  | exact {r : Int} (hr : op.Gives a b r) (hexcepted : ¬ op.Excepted least a b) : Computed least op a b (.ok (some r))
  | outOfRange {r : Int} (hr : op.Gives a b r) (h : 18446744073709551616 < r.natAbs ∨ op.Excepted least a b) :
      Computed least op a b (.ok none)

theorem power?_cases (a : Int) (n : Nat) :
    power? a n = some (repeatedProduct a n) ∨
      power? a n = none ∧ 2 ≤ a.natAbs ∧ 18446744073709551616 < (repeatedProduct a n).natAbs := by
  unfold power?
  split
  · next ha => exact .inl (by rw [ha, repeatedProduct.zero])
  · split
    · next ha => exact .inl (by rw [ha, repeatedProduct.one])
    · split
      · next ha => exact .inl (by rw [ha, repeatedProduct.neg_one])
      · split
        · exact .inl (by rw [repeatedProduct.eq_pow])
        · have ha : 2 ≤ a.natAbs := by omega
          exact .inr ⟨rfl, ha, repeatedProduct.natAbs_gt ha (by omega)⟩

theorem exact_computed (least : Int) {op : InfixOp} (hop : op.isArithmetic = true) (a b : Int)
    (hb : op = .power → b ≤ 4294967295) : Computed least op a b (exact least op a b) := by
  cases op with
  | plus | minus | times => exact .exact rfl fun h => by cases h.1
  | divide =>
    simp only [Arithmetic.exact]
    split
    · next hzero => exact .divideByZero (.inl rfl) hzero
    · next hzero => exact .exact ⟨_, .of_tdiv a hzero⟩ fun h => by cases h.1
  | remainder =>
    simp only [Arithmetic.exact]
    split
    · next hzero => exact .divideByZero (.inr rfl) hzero
    · next hzero =>
      have hr : InfixOp.Gives .remainder a b (a.tmod b) := ⟨_, .of_tdiv a hzero⟩
      split
      · next hleast => exact .outOfRange hr (.inr ⟨rfl, hleast⟩)
      · next hleast => exact .exact hr fun h => hleast h.2
  | power =>
    simp only [Arithmetic.exact]
    split
    · next hneg => exact .negativeExponent rfl hneg
    · next hneg =>
      have hr : InfixOp.Gives .power a b (repeatedProduct a b.toNat) := ⟨by omega, rfl⟩
      have hlimit : ¬ greatestExponent < b.toNat := by
        have := hb rfl
        unfold greatestExponent
        omega
      rw [if_neg hlimit]
      rcases power?_cases a b.toNat with h | ⟨h, -, hlarge⟩
      · rw [h]
        exact .exact hr fun h => by cases h.1
      · rw [h]
        exact .outOfRange hr (.inl hlarge)
  | _ => cases hop

end Arithmetic

namespace WholeType

variable {t : WholeType} {op : InfixOp} {a b : Int}

/-- What an operation on numbers of a type comes to. -/
inductive Outcome (t : WholeType) (op : InfixOp) (a b : Int) : Except Fault Value → Prop
  | divideByZero (hop : op = .divide ∨ op = .remainder) (hb : b = 0) : Outcome t op a b (.error .divideByZero)
  | negativeExponent (hop : op = .power) (hb : b < 0) : Outcome t op a b (.error (.negativeExponent b))
  | exact {c : t.Number} (hc : op.Gives a b (t.toInt c)) (hexcepted : ¬ op.Excepted t.least a b) :
      Outcome t op a b (.ok (t.value c))
  | overflow {r : Int} (hr : op.Gives a b r) (h : (r < t.least ∨ t.greatest < r) ∨ op.Excepted t.least a b) :
      Outcome t op a b (.error (Arithmetic.outOfRange op a b))

theorem integers_outcome (t : WholeType) (hop : op.isArithmetic = true)
    (h : Arithmetic.Computed t.least op a b (Arithmetic.exact t.least op a b)) :
    t.Outcome op a b (Arithmetic.integers t.least (fun i => (t.fit i).map t.value) op a b) := by
  have hcompare (less lessEqual greater greaterEqual : Bool) :
      Arithmetic.compare? op less lessEqual greater greaterEqual = none := by
    cases op <;> first | rfl | cases hop
  unfold Arithmetic.integers
  rw [hcompare]
  generalize Arithmetic.exact t.least op a b = computed at h
  cases h with
  | divideByZero hop hb => exact .divideByZero hop hb
  | negativeExponent hop hb => exact .negativeExponent hop hb
  | @exact r hr hexcepted =>
    cases hfit : t.fit r with
    | none =>
      simp only [bind, Except.bind, Option.bind, hfit, Option.map]
      exact .overflow hr (.inl ((t.fit_eq_none_iff r).mp hfit))
    | some c =>
      simp only [bind, Except.bind, Option.bind, hfit, Option.map]
      have hc := (t.fit_eq_some_iff r c).mp hfit
      exact .exact (hc ▸ hr) hexcepted
  | @outOfRange r hr h =>
    refine .overflow hr (h.imp_left fun hlarge => ?_)
    have := t.bounded
    omega

/-- The numbers of a type are told apart by what they are among all whole numbers. -/
theorem toInt_inj (t : WholeType) {c c' : t.Number} (h : t.toInt c = t.toInt c') : c = c' := by
  have hfit := (t.fit_eq_some_iff (t.toInt c') c).mpr h
  rw [(t.fit_eq_some_iff (t.toInt c') c').mpr rfl] at hfit
  exact (Option.some.inj hfit).symm

theorem toInt_inRange (t : WholeType) (c : t.Number) : ¬ (t.toInt c < t.least ∨ t.greatest < t.toInt c) := by
  rw [← t.fit_eq_none_iff, (t.fit_eq_some_iff _ c).mpr rfl]
  simp

/-- The cases of an outcome exclude each other, since an operation has one result at most. -/
theorem Outcome.exact_or_fails {result : Except Fault Value} (h : t.Outcome op a b result) : t.Exact op a b result := by
  have hzero {r : Int} (hr : op.Gives a b r) : ¬ ((op = .divide ∨ op = .remainder) ∧ b = 0) := fun h =>
    hr.divisor_ne_zero h.1 h.2
  have hnegative {r : Int} (hr : op.Gives a b r) (e : Int) : ¬ (op = .power ∧ b < 0 ∧ e = b) := fun h =>
    Int.not_lt.mpr (hr.exponent_nonneg h.1) h.2.1
  cases h with
  | divideByZero hop hb =>
    have hnone (r : Int) : ¬ op.Gives a b r := fun hr => hzero hr ⟨hop, hb⟩
    have hpower : op ≠ .power := by rcases hop with rfl | rfl <;> simp
    exact ⟨by simp [hnone], by simp [hop, hb], by simp [hpower], by simp [hnone]⟩
  | negativeExponent hop hb =>
    have hnone (r : Int) : ¬ op.Gives a b r := fun hr => hnegative hr b ⟨hop, hb, rfl⟩
    exact ⟨by simp [hnone], by simp [hop], by simp [hop, hb, eq_comm], by simp [hnone]⟩
  | @exact c hc hexcepted =>
    refine ⟨fun v => ⟨?_, ?_⟩, iff_of_false (by simp) (hzero hc), fun e => iff_of_false (by simp) (hnegative hc e), ?_⟩
    · rintro ⟨rfl⟩
      exact ⟨c, rfl, hc, hexcepted⟩
    · rintro ⟨c', rfl, hc', -⟩
      rw [t.toInt_inj (hc.unique hc')]
    · refine iff_of_false (by simp) ?_
      rintro ⟨r, hr, hrange | h⟩
      · exact t.toInt_inRange c (hc.unique hr ▸ hrange)
      · exact hexcepted h
  | @overflow r hr h =>
    refine ⟨fun v => iff_of_false (by simp) ?_, iff_of_false (by simp [Arithmetic.outOfRange]) (hzero hr),
      fun e => iff_of_false (by simp [Arithmetic.outOfRange]) (hnegative hr e), fun _ => ⟨r, hr, h⟩, fun _ => ⟨_, rfl⟩⟩
    rintro ⟨c, -, hc, hexcepted⟩
    exact t.toInt_inRange c (hr.unique hc ▸ h.resolve_right hexcepted)

end WholeType

variable {op : InfixOp}

theorem InfixOp.apply_ints (hop : op.isArithmetic = true) (h : Heap) (a b : Int32) :
    op.apply h .int (.int a) (.int b) = Arithmetic.ints op a b := by
  cases op <;> first | rfl | cases hop

theorem InfixOp.apply_longs (hop : op.isArithmetic = true) (h : Heap) (a b : Int64) :
    op.apply h .long (.long a) (.long b) = Arithmetic.longs op a b := by
  cases op <;> first | rfl | cases hop

theorem Arithmetic.ints_exact (hop : op.isArithmetic = true) (a b : Int32) :
    WholeType.int.Exact op a.toInt b.toInt (ints op a b) := by
  have hb : b.toInt ≤ 4294967295 := by
    have := b.toInt_lt
    omega
  exact (WholeType.int.integers_outcome hop (exact_computed _ hop _ _ fun _ => hb)).exact_or_fails

theorem Arithmetic.longs_exact (hop : op.isArithmetic = true) (a : Int64) {b : Int64}
    (hb : op = .power → b.toInt ≤ 4294967295) : WholeType.long.Exact op a.toInt b.toInt (longs op a b) :=
  (WholeType.long.integers_outcome hop (exact_computed _ hop _ _ hb)).exact_or_fails

/-- Arithmetic on ints and on longs is exact or an error. Exponents of longs are at most those of 32 bits. -/
theorem whole_numbers_exact (op : InfixOp) (hop : op.isArithmetic = true) (h : Heap) :
    (∀ a b : Int32, WholeType.int.Exact op a.toInt b.toInt (op.apply h .int (.int a) (.int b))) ∧
    ∀ a b : Int64, (op = .power → b.toInt ≤ 4294967295) →
      WholeType.long.Exact op a.toInt b.toInt (op.apply h .long (.long a) (.long b)) := by
  refine ⟨fun a b => ?_, fun a b hb => ?_⟩
  · rw [InfixOp.apply_ints hop]
    exact Arithmetic.ints_exact hop a b
  · rw [InfixOp.apply_longs hop]
    exact Arithmetic.longs_exact hop a hb

/-- A power that lands on the least long, and the remainder that is reported as out of range. -/
theorem whole_numbers_exact_atLeast :
    InfixOp.apply .power .empty .long (.long (-2)) (.long 63) = .ok (.long (-9223372036854775808)) ∧
    InfixOp.Gives .power (-2) 63 (-9223372036854775808) ∧
    (∃ text, InfixOp.apply .remainder .empty .int (.int (-2147483648)) (.int (-1)) = .error (.overflow text)) := by
  have hpower := (whole_numbers_exact .power rfl .empty).2 (-2) 63 fun _ => by decide
  have hgives : InfixOp.Gives .power (-2) 63 (-9223372036854775808) := ⟨by decide, by decide⟩
  have hremainder := (whole_numbers_exact .remainder rfl .empty).1 (-2147483648) (-1)
  refine ⟨(hpower.ok_iff _).mpr ⟨(-9223372036854775808 : Int64), rfl, hgives, fun h => by cases h.1⟩, hgives, ?_⟩
  exact hremainder.overflow_iff.mpr ⟨0, ⟨2147483648, by decide, by decide, .inl rfl⟩, .inr ⟨rfl, rfl, rfl⟩⟩

/-- The powers of longs that are in range and still reported as out of it: the exponent has more than 32 bits, and the
base is so small that this does not matter. -/
def InfixOp.Narrowed (a b : Int) : Prop :=
  4294967295 < b ∧ a.natAbs ≤ 1

namespace Arithmetic

theorem longs_power_of_large (a : Int64) {b : Int64} (hb : 4294967295 < b.toInt) :
    longs .power a b = .error (outOfRange .power a.toInt b.toInt) := by
  have hlimit : greatestExponent < b.toInt.toNat := by
    unfold greatestExponent
    omega
  simp only [longs, integers, compare?, Arithmetic.exact]
  rw [if_neg (by omega), if_pos hlimit]
  rfl

/-- A power of longs is out of range when it has to be, or when its exponent was narrowed in vain. -/
theorem longs_power (a : Int64) {b : Int64} (hb : 0 ≤ b.toInt) :
    (∀ v, longs .power a b = .ok v ↔
      ∃ c : Int64, v = .long c ∧ c.toInt = repeatedProduct a.toInt b.toInt.toNat ∧ ¬ InfixOp.Narrowed a.toInt b.toInt) ∧
    ((∃ text, longs .power a b = .error (.overflow text)) ↔
      (repeatedProduct a.toInt b.toInt.toNat < -9223372036854775808 ∨
          9223372036854775807 < repeatedProduct a.toInt b.toInt.toNat) ∨
        InfixOp.Narrowed a.toInt b.toInt) := by
  have hexcepted (a b : Int) : ¬ InfixOp.Excepted .power WholeType.long.least a b := fun h => by cases h.1
  by_cases hlarge : 4294967295 < b.toInt
  · -- The exponent is refused as it stands, which is wrong only if the base does not grow.
    have hgrown (hnarrowed : ¬ InfixOp.Narrowed a.toInt b.toInt) :
        18446744073709551616 < (repeatedProduct a.toInt b.toInt.toNat).natAbs := by
      have ha : 2 ≤ a.toInt.natAbs := by
        unfold InfixOp.Narrowed at hnarrowed
        omega
      exact repeatedProduct.natAbs_gt ha (by omega)
    rw [longs_power_of_large a hlarge]
    refine ⟨fun v => iff_of_false (by simp) ?_, iff_of_true ⟨_, rfl⟩ ?_⟩
    · rintro ⟨c, -, hc, hnarrowed⟩
      have := hgrown hnarrowed
      have := c.le_toInt
      have := c.toInt_lt
      omega
    · by_cases hnarrowed : InfixOp.Narrowed a.toInt b.toInt
      · exact .inr hnarrowed
      · have := hgrown hnarrowed
        exact .inl (by omega)
  · have hnarrowed : ¬ InfixOp.Narrowed a.toInt b.toInt := fun h => hlarge h.1
    have h := longs_exact (show InfixOp.isArithmetic .power = true from rfl) a fun _ => Int.not_lt.mp hlarge
    refine ⟨fun v => (h.ok_iff v).trans ⟨?_, ?_⟩, h.overflow_iff.trans ⟨?_, ?_⟩⟩
    · rintro ⟨c, hv, ⟨-, hc⟩, -⟩
      exact ⟨c, hv, hc, hnarrowed⟩
    · rintro ⟨c, hv, hc, -⟩
      exact ⟨c, hv, ⟨hb, hc⟩, hexcepted _ _⟩
    · rintro ⟨r, ⟨-, rfl⟩, hrange | h⟩
      · exact .inl hrange
      · exact absurd h (hexcepted _ _)
    · rintro (hrange | h)
      · exact ⟨_, ⟨hb, rfl⟩, .inl hrange⟩
      · exact absurd h hnarrowed

end Arithmetic

namespace Run

variable {α : Type} {p : Position} {x : Except Fault α} {m m' : Machine}

theorem located_eq_ok_iff {a : α} : located p x m = .ok a m' ↔ x = .ok a ∧ m' = m := by
  cases x with
  | ok a' =>
    constructor
    · rintro ⟨⟩
      exact ⟨rfl, rfl⟩
    · rintro ⟨⟨⟩, rfl⟩
      rfl
  | error fault => exact iff_of_false (fun h => by cases h) (by simp)

theorem located_eq_overflow_iff {text : String} :
    located p x m = .error (.fault ⟨.overflow text, p⟩) m' ↔ x = .error (.overflow text) ∧ m' = m := by
  cases x with
  | ok a => exact iff_of_false (fun h => by cases h) (by simp)
  | error fault =>
    change EStateM.Result.error (Interruption.of p fault) m = _ ↔ _
    rw [EStateM.Result.error.injEq, Interruption.of_eq_fault_iff, Except.error.injEq, eq_comm (a := m')]
    exact and_congr_left fun _ => ⟨fun h => h.1.symm, by rintro rfl; simp⟩

end Run

theorem Expr.evaluate_binary {s : Setting} {invoke : Invoke} {info : ExprInfo} {left right : Expr}
    {ty : Ty} {m m₁ m₂ : Machine} {l r : Value} (hleft : left.evaluate s invoke m = .ok l m₁)
    (hright : right.evaluate s invoke m₁ = .ok r m₂) : (Expr.binary info left op right ty).evaluate s invoke m =
      Run.located info.position (op.apply m₂.world.heap ty l r) m₂ := by
  simp only [Expr.evaluate]
  change EStateM.bind _ _ m = _
  unfold EStateM.bind
  rw [hleft]
  change EStateM.bind _ _ m₁ = _
  unfold EStateM.bind
  rw [hright]
  rfl

/-- A power of two longs is the exact power when that fits, and overflows only when it does not; apart from the
exponents that are narrowed in vain. -/
theorem long_powers_exact {s : Setting} {invoke : Invoke} {info : ExprInfo} {left right : Expr} {m m₁ m₂ : Machine}
    {a b : Int64} (hleft : left.evaluate s invoke m = .ok (.long a) m₁)
    (hright : right.evaluate s invoke m₁ = .ok (.long b) m₂) (hb : 0 ≤ b.toInt) :
    (∀ v m', (Expr.binary info left .power right .long).evaluate s invoke m = .ok v m' ↔
      m' = m₂ ∧ ∃ c : Int64, v = .long c ∧ c.toInt = repeatedProduct a.toInt b.toInt.toNat ∧
        ¬ InfixOp.Narrowed a.toInt b.toInt) ∧
    ((∃ text m', (Expr.binary info left .power right .long).evaluate s invoke m =
        .error (.fault ⟨.overflow text, info.position⟩) m') ↔
      (repeatedProduct a.toInt b.toInt.toNat < -9223372036854775808 ∨
          9223372036854775807 < repeatedProduct a.toInt b.toInt.toNat) ∨
        InfixOp.Narrowed a.toInt b.toInt) := by
  obtain ⟨hok, hoverflow⟩ := Arithmetic.longs_power a hb
  rw [Expr.evaluate_binary hleft hright, InfixOp.apply_longs rfl]
  refine ⟨fun v m' => ?_, ?_⟩
  · rw [Run.located_eq_ok_iff, hok, and_comm]
  · simp only [Run.located_eq_overflow_iff, exists_and_left, exists_eq, and_true]
    exact hoverflow

def Expr.constantPower (a b : Int64) : Expr :=
  .binary ⟨.long, .start, 2⟩ (.literal ⟨.long, .start, 1⟩ (.long a)) .power (.literal ⟨.long, .start, 1⟩ (.long b)) .long

/-- A power that is the least long is in range, and with one factor more it is not. -/
theorem long_powers_exact_atLeast :
    (Expr.constantPower (-2) 63).evaluate ⟨[], []⟩ (fun _ _ _ => pure .null) (.fresh .standard) =
      .ok (.long (-9223372036854775808)) (.fresh .standard) ∧
    ∃ text m', (Expr.constantPower (-2) 64).evaluate ⟨[], []⟩ (fun _ _ _ => pure .null) (.fresh .standard) =
      .error (.fault ⟨.overflow text, .start⟩) m' := by
  refine ⟨(long_powers_exact rfl rfl (by decide)).1 _ _ |>.mpr ⟨rfl, _, rfl, by decide, fun h => ?_⟩,
    (long_powers_exact rfl rfl (by decide)).2.mpr (.inl (by decide))⟩
  exact absurd h.1 (by decide)

def Formula.longWay : String := "1L ^ 4294967296"

def Run.overflows {α : Type} : EStateM.Result Interruption Machine α → Bool
  | .error (.fault ⟨.overflow _, _⟩) _ => true
  | _ => false

/-- One stays one, however often it is multiplied with itself, and still the formula overflows. -/
theorem longWay_overflows :
    repeatedProduct 1 4294967296 = 1 ∧
    ∃ f, Formula.compile .standard Formula.longWay [] = .ok f ∧ Run.overflows (f.evaluate 0 (.fresh .standard)) = true := by
  refine ⟨repeatedProduct.one _, ?_⟩
  have hruns : ((Formula.compile .standard Formula.longWay []).toOption.any fun f =>
      Run.overflows (f.evaluate 0 (.fresh .standard))) = true := by
    decide +kernel
  cases hf : Formula.compile .standard Formula.longWay [] with
  | error e =>
    rw [hf] at hruns
    cases hruns
  | ok f =>
    rw [hf, Except.toOption, Option.any_some] at hruns
    exact ⟨f, rfl, hruns⟩

end Scriptlet
