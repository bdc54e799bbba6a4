import Mathlib.Data.List.TakeWhile
import Scriptlet.Proofs.WholeNumbers

/-!
# How numbers are spelled

A number is spelled by a sign, which may be missing, and decimal digits. The readers of numbers take just these texts,
and with blanks trimmed off those that stand between blanks.
-/

namespace Scriptlet

variable {cs : List Char}

theorem Text.trim_eq_self (h : ∀ c ∈ cs, Text.isBlank c = false) : Text.trim cs = cs := by
  have hdrop : ∀ cs : List Char, (∀ c ∈ cs, Text.isBlank c = false) → cs.dropWhile Text.isBlank = cs := by
    intro cs h
    cases cs with
    | nil => rfl
    | cons c cs => exact List.dropWhile_cons_of_neg (by simp [h c List.mem_cons_self])
  rw [Text.trim, hdrop cs h, hdrop cs.reverse (fun c hc => h c (List.mem_reverse.mp hc)), List.reverse_reverse]

theorem Text.isBlank_of_isDigit {c : Char} (h : c.isDigit = true) : Text.isBlank c = false := by
  simp only [Char.isDigit, Bool.and_eq_true, decide_eq_true_eq] at h
  have hlow : 48 ≤ c.toNat := h.1
  have hhigh : c.toNat ≤ 57 := h.2
  simp only [Text.isBlank, Text.inRanges, Text.blankRanges, List.any_cons, List.any_nil, Bool.or_false,
    Bool.or_eq_false_iff, Bool.and_eq_false_iff, decide_eq_false_iff_not]
  omega

namespace Number

/-- Decimal digits and the number that they stand for. -/
structure SpellsDigits (digits : List Char) (n : Nat) : Prop where
  nonempty : digits ≠ []
  isDigit : ∀ c ∈ digits, c.isDigit = true
  value : Nat.ofDigitChars 10 digits 0 = n

/-- A number without a sign or behind a plus sign. -/
inductive SpellsNat : List Char → Nat → Prop
  | plain {digits : List Char} {n : Nat} (h : SpellsDigits digits n) : SpellsNat digits n
  | plus {digits : List Char} {n : Nat} (h : SpellsDigits digits n) : SpellsNat ('+' :: digits) n

/-- A number that may also stand behind a minus sign. -/
inductive SpellsInt : List Char → Int → Prop
  | nat {cs : List Char} {n : Nat} (h : SpellsNat cs n) : SpellsInt cs n
  | minus {digits : List Char} {n : Nat} (h : SpellsDigits digits n) : SpellsInt ('-' :: digits) (-n)

variable {cs : List Char} {n : Nat} {i : Int}

theorem readDigitsFrom_eq {cs : List Char} (h : ∀ c ∈ cs, c.isDigit = true) (known : Nat) :
    readDigitsFrom known cs = some (Nat.ofDigitChars 10 cs known) := by
  induction cs generalizing known with
  | nil => rfl
  | cons c cs ih =>
    have hc : digit? c = some (c.toNat - '0'.toNat) := by
      have hdigit := h c List.mem_cons_self
      simp only [Char.isDigit, Bool.and_eq_true, decide_eq_true_eq] at hdigit
      exact if_pos hdigit
    rw [readDigitsFrom, hc, Nat.ofDigitChars_cons]
    exact ih (fun d hd => h d (List.mem_cons_of_mem _ hd)) _

variable {c : Char}

theorem isDigit_of_mem_natText {n : Nat} (h : c ∈ (natText n).toList) : c.isDigit = true := by
  rw [natText, String.toList_ofList] at h
  exact Nat.isDigit_of_mem_toDigits (by decide) (by decide) h

theorem isDigit_of_digit? {d : Nat} (h : digit? c = some d) : c.isDigit = true := by
  unfold digit? at h
  split at h
  · next hc =>
    rw [Char.isDigit, Bool.and_eq_true, decide_eq_true_eq, decide_eq_true_eq]
    exact hc
  · cases h

theorem isDigit_of_readDigitsFrom {known : Nat} (h : readDigitsFrom known cs = some n) :
    ∀ c ∈ cs, c.isDigit = true := by
  induction cs generalizing known with
  | nil => simp
  | cons c cs ih =>
    rw [readDigitsFrom] at h
    cases hc : digit? c with
    | none => rw [hc] at h; cases h
    | some d =>
      rw [hc] at h
      exact List.forall_mem_cons.mpr ⟨isDigit_of_digit? hc, ih h⟩

theorem readDigits_eq_some_iff : readDigits cs = some n ↔ SpellsDigits cs n := by
  unfold readDigits
  split
  · next hempty => exact ⟨fun h => (by cases h), fun h => absurd (List.isEmpty_iff.mp hempty) h.nonempty⟩
  · next hne =>
    constructor
    · intro h
      have hdigits := isDigit_of_readDigitsFrom h
      rw [readDigitsFrom_eq hdigits, Option.some.injEq] at h
      exact ⟨by simpa using hne, hdigits, h⟩
    · rintro ⟨-, hdigits, rfl⟩
      exact readDigitsFrom_eq hdigits 0

theorem SpellsDigits.ne_cons (h : SpellsDigits cs n) (hc : c.isDigit = false) (rest : List Char) : cs ≠ c :: rest := by
  rintro rfl
  rw [h.isDigit c List.mem_cons_self] at hc
  cases hc

theorem readNat_eq_some_iff {bound : Nat} : readNat bound cs = some n ↔ SpellsNat cs n ∧ n < bound := by
  unfold readNat
  rw [Option.filter_eq_some_iff, decide_eq_true_eq]
  refine and_congr_left fun _ => ?_
  split
  · next rest =>
    rw [readDigits_eq_some_iff]
    refine ⟨.plus, fun h => ?_⟩
    cases h with
    | plain h => exact absurd rfl (h.ne_cons (by decide) rest)
    | plus h => exact h
  · next hsign =>
    rw [readDigits_eq_some_iff]
    refine ⟨.plain, fun h => ?_⟩
    cases h with
    | plain h => exact h
    | plus h => exact absurd rfl (hsign _)

theorem map_readDigits_eq_some_iff {f : Int → Int} :
    Option.map f (do return ((← readDigits cs : Nat) : Int)) = some i ↔ ∃ n : Nat, SpellsDigits cs n ∧ f n = i := by
  simp only [← readDigits_eq_some_iff]
  cases readDigits cs <;> simp

theorem readInt_eq_some_iff : readInt cs = some i ↔ SpellsInt cs i := by
  unfold readInt
  split
  · next rest =>
    rw [map_readDigits_eq_some_iff]
    constructor
    · rintro ⟨n, h, rfl⟩
      exact .minus h
    · intro h
      cases h with
      | nat h =>
        cases h with
        | plain h => exact absurd rfl (h.ne_cons (by decide) rest)
      | minus h => exact ⟨_, h, rfl⟩
  · next rest =>
    rw [map_readDigits_eq_some_iff]
    constructor
    · rintro ⟨n, h, rfl⟩
      exact .nat (.plus h)
    · intro h
      cases h with
      | nat h =>
        cases h with
        | plain h => exact absurd rfl (h.ne_cons (by decide) rest)
        | plus h => exact ⟨_, h, rfl⟩
  · next hminus hplus =>
    rw [map_readDigits_eq_some_iff]
    constructor
    · rintro ⟨n, h, rfl⟩
      exact .nat (.plain h)
    · intro h
      cases h with
      | nat h =>
        cases h with
        | plain h => exact ⟨_, h, rfl⟩
        | plus h => exact absurd rfl (hplus _)
      | minus h => exact absurd rfl (hminus _)

theorem readInt32_eq_some_iff {c : Int32} : readInt32 cs = some c ↔ SpellsInt cs c.toInt := by
  rw [readInt32, Option.bind_eq_some_iff]
  constructor
  · rintro ⟨i, hi, hfit⟩
    obtain rfl := (fit32_eq_some_iff _ _).mp hfit
    exact readInt_eq_some_iff.mp hi
  · intro h
    exact ⟨c.toInt, readInt_eq_some_iff.mpr h, (fit32_eq_some_iff _ _).mpr rfl⟩

theorem SpellsInt.mem (h : SpellsInt cs i) (hc : c ∈ cs) : c.isDigit = true ∨ c = '+' ∨ c = '-' := by
  cases h with
  | nat h =>
    cases h with
    | plain h => exact .inl (h.isDigit c hc)
    | plus h => exact (List.mem_cons.mp hc).elim (fun heq => .inr (.inl heq)) fun hmem => .inl (h.isDigit c hmem)
  | minus h => exact (List.mem_cons.mp hc).elim (fun heq => .inr (.inr heq)) fun hmem => .inl (h.isDigit c hmem)

theorem SpellsInt.not_blank (h : SpellsInt cs i) : ∀ c ∈ cs, Text.isBlank c = false := by
  intro c hc
  rcases h.mem hc with hdigit | rfl | rfl
  · exact Text.isBlank_of_isDigit hdigit
  · decide
  · decide

theorem spellsDigits_natText (n : Nat) : SpellsDigits (natText n).toList n where
  nonempty := by
    rw [natText, String.toList_ofList]
    exact Nat.toDigits_ne_nil
  isDigit _ hc := isDigit_of_mem_natText hc
  value := by rw [natText, String.toList_ofList, Nat.ofDigitChars_ten_toDigits]

theorem spellsInt_intText (i : Int) : SpellsInt (intText i).toList i := by
  unfold intText
  split
  · next hneg =>
    have h := SpellsInt.minus (spellsDigits_natText i.natAbs)
    rw [show -(i.natAbs : Int) = i by omega] at h
    simpa using h
  · next hpos =>
    have h := SpellsInt.nat (.plain (spellsDigits_natText i.natAbs))
    rwa [show (i.natAbs : Int) = i by omega] at h

end Number

namespace Text

variable {core cs : List Char}

/-- A text with nothing but blanks around it. -/
def Between (core cs : List Char) : Prop :=
  ∃ before after, cs = before ++ core ++ after ∧ (∀ c ∈ before, isBlank c = true) ∧ ∀ c ∈ after, isBlank c = true

theorem Between.refl (cs : List Char) : Between cs cs :=
  ⟨[], [], by simp, by simp, by simp⟩

theorem between_trim (cs : List Char) : Between (trim cs) cs := by
  refine ⟨cs.takeWhile isBlank, ((cs.dropWhile isBlank).reverse.takeWhile isBlank).reverse, ?_, ?_, ?_⟩
  · rw [trim, List.append_assoc, ← List.reverse_append, List.takeWhile_append_dropWhile, List.reverse_reverse,
      List.takeWhile_append_dropWhile]
  · exact fun c hc => List.mem_takeWhile_imp hc
  · exact fun c hc => List.mem_takeWhile_imp (List.mem_reverse.mp hc)

/-- A text without blanks is what trimming leaves if there are only blanks around it. -/
theorem trim_eq_iff (hcore : ∀ c ∈ core, isBlank c = false) : trim cs = core ↔ Between core cs := by
  constructor
  · rintro rfl
    exact between_trim cs
  · rintro ⟨before, after, rfl, hbefore, hafter⟩
    cases core with
    | nil =>
      have hblank : ∀ c ∈ before ++ after, isBlank c = true := List.forall_mem_append.mpr ⟨hbefore, hafter⟩
      rw [trim, List.append_nil, List.dropWhile_eq_nil_iff.mpr hblank]
      rfl
    | cons c core =>
      have hc : ¬ isBlank c = true := by simp [hcore c List.mem_cons_self]
      have hafter' : ∀ d ∈ after.reverse, isBlank d = true := fun d hd => hafter d (List.mem_reverse.mp hd)
      calc trim (before ++ c :: core ++ after)
        _ = ((c :: core ++ after).reverse.dropWhile isBlank).reverse := by
          rw [trim, List.append_assoc, List.dropWhile_append_of_pos hbefore, List.cons_append,
            List.dropWhile_cons_of_neg hc]
        _ = trim (c :: core) := by
          rw [List.reverse_append, List.dropWhile_append_of_pos hafter', trim, List.dropWhile_cons_of_neg hc]
        _ = c :: core := trim_eq_self hcore

end Text

theorem Number.readNat_trim_eq_some_iff {bound n : Nat} :
    readNat bound (Text.trim cs) = some n ↔ (∃ core, Text.Between core cs ∧ SpellsNat core n) ∧ n < bound := by
  rw [readNat_eq_some_iff]
  refine and_congr_left fun _ => ⟨fun h => ⟨_, Text.between_trim cs, h⟩, ?_⟩
  rintro ⟨core, hcore, h⟩
  rwa [(Text.trim_eq_iff (SpellsInt.nat h).not_blank).mpr hcore]

theorem Number.readInt32_trim_eq_some_iff {c : Int32} :
    readInt32 (Text.trim cs) = some c ↔ ∃ core, Text.Between core cs ∧ SpellsInt core c.toInt := by
  rw [readInt32_eq_some_iff]
  refine ⟨fun h => ⟨_, Text.between_trim cs, h⟩, ?_⟩
  rintro ⟨core, hcore, h⟩
  rwa [(Text.trim_eq_iff h.not_blank).mpr hcore]

end Scriptlet
