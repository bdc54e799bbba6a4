import Mathlib.Data.List.Basic
import Scriptlet.Number.Fixed

/-!
# Digits in groups of three

Where a comma stands depends on how many digits follow, so that the groups are made from the right: all have three
digits but the first, which has what is left over.
-/

namespace Scriptlet.Number

/-- Digits, and the text in which commas stand between their groups. -/
inductive Grouped : List Char → List Char → Prop
  | groups {first : List Char} {others : List (List Char)} (hpresent : 0 < first.length) (hfirst : first.length ≤ 3)
      (hothers : ∀ group ∈ others, group.length = 3) :
      Grouped (first ++ others.flatten) (first ++ others.flatMap (',' :: ·))

theorem length_flatten_threes {groups : List (List Char)} (h : ∀ group ∈ groups, group.length = 3) :
    groups.flatten.length = 3 * groups.length := by
  induction groups with
  | nil => rfl
  | cons group groups ih =>
    rw [List.flatten_cons, List.length_append, h group List.mem_cons_self,
      ih fun other hother => h other (List.mem_cons_of_mem _ hother), List.length_cons]
    omega

/-- One more digit in front goes into the first group, or begins another one before it when this is full. -/
theorem Grouped.cons {digits text : List Char} (h : Grouped digits text) (c : Char) :
    Grouped (c :: digits) (if digits.length % 3 = 0 then c :: ',' :: text else c :: text) := by
  cases h with
  | @groups first others hpresent hfirst hothers =>
    rw [List.length_append, length_flatten_threes hothers]
    split
    · -- the digits are a multiple of three, so the first group is full
      exact @Grouped.groups [c] (first :: others) Nat.one_pos (by simp) (List.forall_mem_cons.mpr ⟨by omega, hothers⟩)
    · exact @Grouped.groups (c :: first) others (Nat.succ_pos _) (by rw [List.length_cons]; omega) hothers

theorem groupDigits_grouped {cs : List Char} (hne : cs ≠ []) : Grouped cs (groupDigits cs) := by
  fun_induction groupDigits cs with
  | case1 => exact absurd rfl hne
  | case2 c => exact @Grouped.groups [c] [] Nat.one_pos (by simp) (by simp)
  | case3 c d cs hthree ih =>
    have hcons := (ih (List.cons_ne_nil d cs)).cons c
    rwa [List.length_cons, if_pos hthree] at hcons
  | case4 c d cs hthree ih =>
    have hcons := (ih (List.cons_ne_nil d cs)).cons c
    rwa [List.length_cons, if_neg hthree] at hcons

theorem Grouped.filter_eq {digits text : List Char} (h : Grouped digits text) (hdigits : ∀ d ∈ digits, d ≠ ',') :
    text.filter (· ≠ ',') = digits := by
  cases h with
  | @groups first others _ _ _ =>
    have hself : ∀ {cs : List Char}, cs ⊆ first ++ others.flatten → cs.filter (· ≠ ',') = cs := fun hcs =>
      List.filter_eq_self.mpr fun d hd => by simpa using hdigits d (hcs hd)
    rw [List.filter_append, hself (List.subset_append_left _ _), List.filter_flatMap, List.flatten_eq_flatMap]
    refine congrArg (first ++ ·) (List.flatMap_congr fun group hgroup => ?_)
    have hgroup := hself fun d hd => List.mem_append_right first (List.mem_flatten_of_mem hgroup hd)
    simpa using hgroup

theorem ne_of_isDigit {c d : Char} (hc : c.isDigit = true) (hd : d.isDigit = false) : c ≠ d := by
  rintro rfl
  simp [hc] at hd

theorem groupThousands_eq {sign whole fraction : List Char} (hsign : sign = [] ∨ sign = ['-'])
    (hwhole : ∀ d ∈ whole, d.isDigit = true) (hfraction : ∀ c ∈ fraction.head?, c = '.') :
    groupThousands (sign ++ (whole ++ fraction)) = sign ++ (groupDigits whole ++ fraction) := by
  have hpoint : ∀ d ∈ whole, (d != '.') = true := fun d hd => by
    simpa using ne_of_isDigit (hwhole d hd) (by decide)
  have hsplit : (whole ++ fraction).takeWhile (· != '.') = whole ∧ (whole ++ fraction).dropWhile (· != '.') = fraction := by
    rw [List.takeWhile_append_of_pos hpoint, List.dropWhile_append_of_pos hpoint]
    cases fraction with
    | nil => simp
    | cons c places => simp [hfraction c rfl]
  have hunsigned : (whole ++ fraction).head? ≠ some '-' := by
    cases whole with
    | nil => exact fun hhead => absurd (hfraction '-' hhead) (by decide)
    | cons d digits => simpa using ne_of_isDigit (hwhole d List.mem_cons_self) (by decide)
  rcases hsign with rfl | rfl
  · rw [List.nil_append, List.nil_append, groupThousands, hsplit.1, hsplit.2, List.nil_append]
    exact fun rest hcons => hunsigned (congrArg List.head? hcons)
  · simp [groupThousands, hsplit]

/-- Grouping the thousands of a number in decimal notation changes neither its sign nor its fraction. Commas come into
the whole part only, and are all that comes into it: the groups between them have three digits, and the first has one
to three. -/
theorem thousands_grouped {sign whole fraction : List Char} (hsign : sign = [] ∨ sign = ['-']) (hne : whole ≠ [])
    (hwhole : ∀ d ∈ whole, d.isDigit = true)
    (hfraction : fraction = [] ∨ ∃ places, fraction = '.' :: places ∧ ∀ d ∈ places, d.isDigit = true) :
    ∃ grouped, groupThousands (sign ++ (whole ++ fraction)) = sign ++ (grouped ++ fraction) ∧ Grouped whole grouped ∧
      (groupThousands (sign ++ (whole ++ fraction))).filter (· ≠ ',') = sign ++ (whole ++ fraction) := by
  have hcomma : ∀ {text : List Char}, (∀ d ∈ text, d.isDigit = true) → ∀ d ∈ text, d ≠ ',' := fun htext d hd =>
    ne_of_isDigit (htext d hd) (by decide)
  have hpoint : ∀ c ∈ fraction.head?, c = '.' := by
    rcases hfraction with rfl | ⟨places, rfl, -⟩ <;> simp
  have hkept : sign.filter (· ≠ ',') = sign ∧ fraction.filter (· ≠ ',') = fraction := by
    refine ⟨by rcases hsign with rfl | rfl <;> rfl, List.filter_eq_self.mpr fun c hc => decide_eq_true ?_⟩
    rcases hfraction with rfl | ⟨places, rfl, hplaces⟩
    · cases hc
    · rcases List.mem_cons.mp hc with rfl | hc
      · decide
      · exact hcomma hplaces c hc
  have hgrouped := groupDigits_grouped hne
  refine ⟨groupDigits whole, groupThousands_eq hsign hwhole hpoint, hgrouped, ?_⟩
  rw [groupThousands_eq hsign hwhole hpoint, List.filter_append, List.filter_append, hgrouped.filter_eq (hcomma hwhole),
    hkept.1, hkept.2]

theorem thousands_grouped_sevenDigits :
    groupThousands "-1234567.25".toList = "-1,234,567.25".toList ∧
      ∃ grouped, "-1,234,567.25".toList = ['-'] ++ (grouped ++ ".25".toList) ∧ Grouped "1234567".toList grouped ∧
        "-1,234,567.25".toList.filter (· ≠ ',') = "-1234567.25".toList := by
  have hrun : groupThousands (['-'] ++ ("1234567".toList ++ ".25".toList)) = "-1,234,567.25".toList := by decide
  obtain ⟨grouped, htext, hgrouped, hfilter⟩ := @thousands_grouped ['-'] "1234567".toList ".25".toList (.inr rfl)
    (by decide) (List.all_eq_true.mp (by decide)) (.inr ⟨"25".toList, rfl, List.all_eq_true.mp (by decide)⟩)
  rw [hrun] at htext hfilter
  exact ⟨hrun, grouped, htext, hgrouped, hfilter⟩

end Scriptlet.Number
