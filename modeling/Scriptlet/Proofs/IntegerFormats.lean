import Mathlib.Data.Nat.Log
import Scriptlet.Proofs.TemplateGrammar

/-!
# Whole numbers under a format

The specifiers `D` and `X` lose nothing: the decimal text of a whole number reads back as the number, and its
hexadecimal text as the residue that its bits stand for. A width only adds zeros behind the sign.
-/

namespace Scriptlet

namespace Number

/-- The value of a hexadecimal digit, in either case. -/
def hexDigit? (c : Char) : Option Nat :=
  if '0' ≤ c ∧ c ≤ '9' then some (c.toNat - '0'.toNat)
  else if 'A' ≤ c ∧ c ≤ 'F' then some (c.toNat - 'A'.toNat + 10)
  else if 'a' ≤ c ∧ c ≤ 'f' then some (c.toNat - 'a'.toNat + 10)
  else none

def readHexDigit (known : Nat) (c : Char) : Option Nat :=
  (hexDigit? c).map (16 * known + ·)

/-- The number that a non-empty run of hexadecimal digits writes. -/
def readHex (cs : List Char) : Option Nat :=
  if cs.isEmpty then none else cs.foldlM readHexDigit 0

/-- A text of at least so many decimal digits that stands for a number. Only a negative number has a sign. -/
structure SpellsDecimal (width : Nat) (i : Int) (text : String) : Prop where
  value : readInt text.toList = some i
  written : ∃ digits, text.toList = (if i < 0 then '-' :: digits else digits) ∧ (∀ c ∈ digits, c.isDigit = true) ∧
    digits.length = max width (Nat.log 10 i.natAbs + 1)

/-- A text of at least so many digits from an alphabet that stands for a number in base sixteen. -/
structure SpellsHex (alphabet : String) (width n : Nat) (text : String) : Prop where
  value : readHex text.toList = some n
  written : ∀ c ∈ text.toList, c ∈ alphabet.toList
  length : text.length = max width (Nat.log 16 n + 1)

theorem length_toDigits {b : Nat} (hb : 1 < b) (n : Nat) : (Nat.toDigits b n).length = Nat.log b n + 1 := by
  refine eq_of_forall_ge_iff fun k => ?_
  rcases Nat.eq_zero_or_pos k with rfl | hk
  · simp [Nat.toDigits_ne_nil]
  · rw [Nat.length_toDigits_le_iff hb hk, Nat.succ_le_iff]
    rcases Nat.eq_zero_or_pos n with rfl | hn
    · simpa using ⟨fun _ => hk, fun _ => Nat.pow_pos (by omega)⟩
    · exact (Nat.log_lt_iff_lt_pow hb hn.ne').symm

theorem toList_padZeros (width : Nat) (s : String) :
    (padZeros width s).toList = List.replicate (width - s.length) '0' ++ s.toList := by
  simp [padZeros]

theorem length_padded (width : Nat) (cs : List Char) :
    (List.replicate (width - cs.length) '0' ++ cs).length = max width cs.length := by
  rw [List.length_append, List.length_replicate]
  omega

theorem SpellsDigits.padded {cs : List Char} {n : Nat} (h : SpellsDigits cs n) (count : Nat) :
    SpellsDigits (List.replicate count '0' ++ cs) n where
  nonempty := by simp [h.nonempty]
  isDigit c hc := by
    rcases List.mem_append.mp hc with hc | hc
    · rw [List.eq_of_mem_replicate hc]
      rfl
    · exact h.isDigit c hc
  value := by rw [Nat.ofDigitChars_append, Nat.ofDigitChars_replicate_zero, Nat.mul_zero, h.value]

theorem spellsDecimal_decimalText (width : Nat) (i : Int) : SpellsDecimal width i (Template.decimalText width i) := by
  generalize hdigits : List.replicate (width - (natText i.natAbs).length) '0' ++ (natText i.natAbs).toList = digits
  have hspelled : SpellsDigits digits i.natAbs := hdigits ▸ (spellsDigits_natText i.natAbs).padded _
  have hlength : digits.length = max width (Nat.log 10 i.natAbs + 1) := by
    rw [← hdigits, ← String.length_toList, length_padded, natText, String.toList_ofList, length_toDigits (by decide)]
  have htext : (Template.decimalText width i).toList = if i < 0 then '-' :: digits else digits := by
    rw [Template.decimalText, ← hdigits, ← toList_padZeros]
    split <;> simp
  refine ⟨readInt_eq_some_iff.mpr ?_, digits, htext, hspelled.isDigit, hlength⟩
  rw [htext]
  split
  · next hneg =>
    have h := SpellsInt.minus hspelled
    rwa [show -(i.natAbs : Int) = i by omega] at h
  · next hpos =>
    have h := SpellsInt.nat (.plain hspelled)
    rwa [show (i.natAbs : Int) = i by omega] at h

section Hexadecimal

variable {style : Char → Char} {alphabet : String}

theorem foldlM_toDigits (hstyle : ∀ d < 16, hexDigit? (style d.digitChar) = some d) (n : Nat) :
    ((Nat.toDigits 16 n).map style).foldlM readHexDigit 0 = some n := by
  induction n using Nat.strongRecOn with
  | ind n ih =>
    by_cases hn : n < 16
    · simp [Nat.toDigits_of_lt_base hn, readHexDigit, hstyle n hn]
    · have hlast : readHexDigit (n / 16) (style (n % 16).digitChar) = some n := by
        rw [readHexDigit, hstyle _ (Nat.mod_lt n (by decide)), Option.map_some, Nat.div_add_mod]
      rw [Nat.toDigits_of_base_le (by decide) (by omega), List.map_append, List.foldlM_append, ih (n / 16) (by omega)]
      simpa using hlast

theorem mem_alphabet (halphabet : ∀ d < 16, style d.digitChar ∈ alphabet.toList) (n : Nat) :
    ∀ c ∈ (Nat.toDigits 16 n).map style, c ∈ alphabet.toList := by
  induction n using Nat.strongRecOn with
  | ind n ih =>
    by_cases hn : n < 16
    · simpa [Nat.toDigits_of_lt_base hn] using halphabet n hn
    · rw [Nat.toDigits_of_base_le (by decide) (by omega), List.map_append, List.forall_mem_append]
      exact ⟨ih (n / 16) (by omega), by simpa using halphabet _ (Nat.mod_lt n (by decide))⟩

theorem spellsHex_map (hstyle : ∀ d < 16, hexDigit? (style d.digitChar) = some d)
    (halphabet : ∀ d < 16, style d.digitChar ∈ alphabet.toList) (width n : Nat) :
    SpellsHex alphabet width n ((padZeros width (Text.hexadecimal n)).map style) := by
  have hlength : (Text.hexadecimal n).length = (Nat.toDigits 16 n).length := by
    rw [Text.hexadecimal, ← String.length_toList, String.toList_ofList]
  have htext : ((padZeros width (Text.hexadecimal n)).map style).toList =
      List.replicate (width - (Nat.toDigits 16 n).length) (style '0') ++ (Nat.toDigits 16 n).map style := by
    rw [String.toList_map, toList_padZeros, hlength, List.map_append, List.map_replicate, Text.hexadecimal,
      String.toList_ofList]
  have hzero : ∀ count, (List.replicate count (style '0')).foldlM readHexDigit 0 = some 0 := by
    intro count
    have hdigit : hexDigit? (style '0') = some 0 := hstyle 0 (by decide)
    induction count with
    | zero => rfl
    | succ count ih => simpa [List.replicate_succ, readHexDigit, hdigit] using ih
  constructor
  · rw [htext, readHex, if_neg (by simp [Nat.toDigits_ne_nil]), List.foldlM_append, hzero]
    exact foldlM_toDigits hstyle n
  · rw [htext, List.forall_mem_append]
    refine ⟨fun c hc => ?_, mem_alphabet halphabet n⟩
    rw [List.eq_of_mem_replicate hc]
    exact halphabet 0 (by decide)
  · rw [← String.length_toList, htext, List.length_append, List.length_replicate, List.length_map,
      length_toDigits (by decide)]
    omega

end Hexadecimal

end Number

/-- A whole number of 32 or 64 bits: how many such numbers there are, and which one it is. -/
inductive Value.IsWhole : Value → Int → Int → Prop
  | int (i : Int32) : IsWhole (.int i) 4294967296 i.toInt
  | long (l : Int64) : IsWhole (.long l) 18446744073709551616 l.toInt

namespace Template

/-- A letter and a width. -/
def specifier (letter : Char) (width : Nat) : List Char :=
  letter :: (Number.natText width).toList

/-- The text of a value under a specifier, wherever a placeholder has it, and what a template of nothing else gives. -/
structure Writes (h : Heap) (v : Value) (specifier : List Char) (text : String) : Prop where
  argument : argumentText h v specifier = .ok text
  alone : format h (String.ofList ('\x7b' :: '0' :: ':' :: specifier ++ ['\x7d'])) [v] = .ok text

theorem Writes.of_argument {h : Heap} {v : Value} {specifier : List Char} {text : String}
    (hclose : '\x7d' ∉ specifier) (harg : argumentText h v specifier = .ok text) : Writes h v specifier text := by
  refine ⟨harg, ?_⟩
  have hcovered : ∀ item ∈ [Item.argument 0 none (some specifier)], item.Covered [v].length := by
    rintro _ (_ | ⟨_, ⟨⟩⟩)
    exact ⟨Nat.one_pos, by decide, hclose⟩
  have hformat := format_items (h := h) hcovered
  have hwritten : [Item.argument 0 none (some specifier)].flatMap Item.written =
      '\x7b' :: '0' :: ':' :: specifier ++ ['\x7d'] := by
    simp [Item.written, Item.body, behind, Number.natText]
  rw [← hwritten, hformat]
  simp [Item.filled, harg, Except.map, pad]

theorem readPrecision_natText {width : Nat} (h : width ≤ 65535) :
    readPrecision (Number.natText width).toList = some (some width) := by
  have hspelled := Number.spellsDigits_natText width
  have hbound : width < precisionBound := Nat.lt_of_le_of_lt h (by decide)
  rw [readPrecision, if_neg (by simpa using hspelled.nonempty),
    Number.readNat_eq_some_iff.mpr ⟨.plain hspelled, hbound⟩]
  rfl

theorem close_not_mem_specifier {letter : Char} (hletter : letter ≠ '\x7d') (width : Nat) :
    '\x7d' ∉ specifier letter width := by
  rw [specifier, List.mem_cons, not_or]
  exact ⟨hletter.symm, not_mem_number (by decide)⟩

theorem argumentText_specifier {h : Heap} {v : Value} {x : Float} {letter : Char} {width : Nat} {text : String}
    (hx : v.toDouble? = some x) (hwidth : width ≤ 65535) (htext : specify v x letter (some width) = some text) :
    argumentText h v (specifier letter width) = .ok text := by
  simp only [argumentText, hx, specifier, readPrecision_natText hwidth, Option.bind_some, htext]

end Template

namespace Value.IsWhole

open Template

variable {v : Value} {modulus i : Int}

theorem exists_double (hv : v.IsWhole modulus i) : ∃ x, v.toDouble? = some x := by
  cases hv <;> exact ⟨_, rfl⟩

theorem specify_decimal (hv : v.IsWhole modulus i) (x : Float) (width : Nat) :
    specify v x 'D' (some width) = some (decimalText width i) := by
  cases hv <;> rfl

theorem specify_upper (hv : v.IsWhole modulus i) (x : Float) (width : Nat) : specify v x 'X' (some width) =
    some ((Number.padZeros width (Text.hexadecimal (i % modulus).toNat)).map Char.toUpper) := by
  cases hv <;> rfl

theorem specify_lower (hv : v.IsWhole modulus i) (x : Float) (width : Nat) : specify v x 'x' (some width) =
    some ((Number.padZeros width (Text.hexadecimal (i % modulus).toNat)).map id) := by
  rw [show ∀ s : String, s.map id = s from fun s => String.toList_injective (by simp)]
  cases hv <;> rfl

end Value.IsWhole

/-- Whatever the width, a whole number is written so that nothing of it is lost. Its decimal text reads back as the
number, and only a negative number has a sign. Its hexadecimal text, in upper or in lower case, reads back as the
residue of the number. There are as many digits as the width asks for, or as many as the number has if these are more. -/
theorem integer_formats_lossless (h : Heap) {v : Value} {modulus i : Int} (hv : v.IsWhole modulus i) {width : Nat}
    (hwidth : width ≤ 65535) :
    (∃ text, Template.Writes h v (Template.specifier 'D' width) text ∧ Number.SpellsDecimal width i text) ∧
    (∃ text, Template.Writes h v (Template.specifier 'X' width) text ∧
      Number.SpellsHex "0123456789ABCDEF" width (i % modulus).toNat text) ∧
    ∃ text, Template.Writes h v (Template.specifier 'x' width) text ∧
      Number.SpellsHex "0123456789abcdef" width (i % modulus).toNat text := by
  obtain ⟨x, hx⟩ := hv.exists_double
  have hwrites : ∀ {letter : Char} {text : String}, letter ≠ '\x7d' →
      Template.specify v x letter (some width) = some text →
      Template.Writes h v (Template.specifier letter width) text := fun hletter htext =>
    .of_argument (Template.close_not_mem_specifier hletter width) (Template.argumentText_specifier hx hwidth htext)
  exact ⟨⟨_, hwrites (by decide) (hv.specify_decimal x width), Number.spellsDecimal_decimalText width i⟩,
    ⟨_, hwrites (by decide) (hv.specify_upper x width), Number.spellsHex_map (by decide) (by decide) width _⟩,
    ⟨_, hwrites (by decide) (hv.specify_lower x width), Number.spellsHex_map (by decide) (by decide) width _⟩⟩

/-- The least number of 64 bits, with a width that one of its texts exceeds and the others do not. -/
theorem integer_formats_lossless_least :
    (Value.long (-9223372036854775808)).IsWhole 18446744073709551616 (-9223372036854775808) ∧ 18 ≤ 65535 ∧
    Template.argumentText .empty (.long (-9223372036854775808)) (Template.specifier 'D' 18) =
      .ok "-9223372036854775808" ∧
    Number.SpellsDecimal 18 (-9223372036854775808) "-9223372036854775808" ∧
    Template.argumentText .empty (.long (-9223372036854775808)) (Template.specifier 'X' 18) =
      .ok "008000000000000000" ∧
    Number.SpellsHex "0123456789ABCDEF" 18 9223372036854775808 "008000000000000000" := by
  have hv : (Value.long (-9223372036854775808)).IsWhole 18446744073709551616 (-9223372036854775808) := .long _
  obtain ⟨⟨decimal, hdecimal, hspells⟩, ⟨hex, hhex, hspells'⟩, -⟩ :=
    integer_formats_lossless .empty hv (show 18 ≤ 65535 by decide)
  have hd : Template.argumentText .empty (.long (-9223372036854775808)) (Template.specifier 'D' 18) =
      .ok "-9223372036854775808" := by
    decide +kernel
  have hx : Template.argumentText .empty (.long (-9223372036854775808)) (Template.specifier 'X' 18) =
      .ok "008000000000000000" := by
    decide +kernel
  obtain rfl : "-9223372036854775808" = decimal := Except.ok.inj (hd.symm.trans hdecimal.argument)
  obtain rfl : "008000000000000000" = hex := Except.ok.inj (hx.symm.trans hhex.argument)
  exact ⟨hv, by decide, hd, hspells, hx, hspells'⟩

end Scriptlet
