import Mathlib.Data.List.Nodup
import Scriptlet.Proofs.Templates
import Scriptlet.Proofs.Tiling

/-!
# Lexemes are read as they are written

The converse of what the grammar of lexemes says about the readers: trivia is skipped, words, signs and whole numbers
are read as they stand, and the tokens that tile a text are the ones that a scan of it gives.
-/

namespace Scriptlet

namespace Trivia

theorem over_cons {c : Char} {rest : List Char} (hblank : Text.isBlank c = false) (hslash : c ≠ '/') :
    Over (c :: rest) := by
  refine ⟨by simpa using hblank, ?_, ?_⟩
  · rintro ⟨behind, hbehind⟩
    exact hslash (List.cons.inj hbehind).1.symm
  · rintro ⟨behind, hbehind⟩
    exact hslash (List.cons.inj hbehind).1.symm

theorem split_over {text : List Char} (h : Over text) : split text = ⟨[], text, true⟩ := by
  rw [split.eq_def]
  split
  · rfl
  · next rest => exact absurd ⟨rest, rfl⟩ h.line
  · next rest => exact absurd ⟨rest, rfl⟩ h.block
  · next c rest _ _ => rw [if_neg (by simp [h.blank c rfl])]

variable {body : List Char}

theorem splitLine_append (h : '\n' ∉ body) (rest : List Char) :
    splitLine (body ++ '\n' :: rest) = (split rest).after (body ++ ['\n']) := by
  induction body with
  | nil => rw [List.nil_append, splitLine, if_pos rfl, List.nil_append]
  | cons c body ih =>
    rw [List.mem_cons, not_or] at h
    rw [List.cons_append, splitLine, if_neg (Ne.symm h.1), ih h.2]
    rfl

theorem splitLine_end (h : '\n' ∉ body) : splitLine body = ⟨body, [], true⟩ := by
  rcases splitLine_cases body with ⟨-, hsplit⟩ | ⟨before, rest, rfl, -⟩
  · exact hsplit
  · exact absurd (by simp) h

theorem splitBlock_append (h : ¬ ['*', '/'] <:+: body) (rest : List Char) :
    splitBlock (body ++ '*' :: '/' :: rest) = some ((split rest).after (body ++ ['*', '/'])) := by
  induction body with
  | nil => rw [List.nil_append, splitBlock, List.nil_append]
  | cons c body ih =>
    rw [List.infix_cons_iff, not_or] at h
    -- the first `*/` does not begin at the first character
    have hfirst : ∀ after, c = '*' → body ++ '*' :: '/' :: rest ≠ '/' :: after := by
      rintro after rfl heq
      cases body with
      | nil => cases heq
      | cons d body =>
        rw [List.cons_append, List.cons.injEq] at heq
        exact h.1 ⟨body, by rw [heq.1]; rfl⟩
    rw [List.cons_append, splitBlock.eq_def]
    split
    · next heq => cases heq
    · next heq =>
      rw [List.cons.injEq] at heq
      exact absurd heq.2 (hfirst _ heq.1)
    · next heq =>
      cases heq
      rw [ih h.2]
      rfl

theorem split_between {trivia : List Char} (h : Between trivia) (rest : List Char) :
    split (trivia ++ rest) = (split rest).after trivia := by
  induction h with
  | nil => rfl
  | @blank c trivia hc _ ih =>
    rw [List.cons_append, split.eq_def]
    split
    · next heq => cases heq
    · next heq =>
      rw [(List.cons.inj heq).1] at hc
      cases hc
    · next heq =>
      rw [(List.cons.inj heq).1] at hc
      cases hc
    · next heq =>
      cases heq
      rw [if_pos hc, ih]
      rfl
  | @line body trivia hbody _ ih =>
    rw [List.cons_append, List.cons_append, List.append_assoc, List.cons_append, split, splitLine_append hbody, ih]
    simp [Split.after]
  | @block body trivia hbody _ ih =>
    rw [List.cons_append, List.cons_append, List.append_assoc, List.cons_append, List.cons_append, split,
      splitBlock_append hbody, ih]
    simp [Split.after]

theorem split_atEnd {text : List Char} (h : AtEnd text) : split text = ⟨text, [], true⟩ := by
  cases h with
  | between h =>
    have hsplit := split_between h []
    rwa [List.append_nil, split, Split.after, List.append_nil] at hsplit
  | line hbefore hbody =>
    rw [split_between hbefore, split, splitLine_end hbody]
    rfl

end Trivia

namespace Lexeme

variable {p : Char → Bool} {body rest : List Char}

theorem takeWhile_exact (hbody : ∀ c ∈ body, p c = true) (hends : ∀ c ∈ rest.head?, p c = false) :
    (body ++ rest).takeWhile p = body := by
  rw [List.takeWhile_append_of_pos hbody]
  cases rest with
  | nil => simp
  | cons c rest => simp [hends c rfl]

theorem dropWhile_exact (hbody : ∀ c ∈ body, p c = true) (hends : ∀ c ∈ rest.head?, p c = false) :
    (body ++ rest).dropWhile p = rest := by
  rw [List.dropWhile_append_of_pos hbody]
  cases rest with
  | nil => rfl
  | cons c rest => simp [hends c rfl]

end Lexeme

namespace Numeral

variable {c : Char} {rest digits letter : List Char}

theorem isDigit_iff : isDigit c = true ↔ c.isDigit = true := by
  have hrange : c.isDigit = true ↔ '0' ≤ c ∧ c ≤ '9' := by
    simp only [Char.isDigit, Bool.and_eq_true, decide_eq_true_eq]
    exact Iff.rfl
  rw [hrange, isDigit, Number.digit?]
  split
  · next h => exact ⟨fun _ => h, fun _ => rfl⟩
  · next h => exact ⟨fun hsome => absurd hsome (by decide), fun hdigit => absurd hdigit h⟩

theorem code_of_starts (h : isLetter c = true ∨ c = '_') : 65 ≤ c.toNat ∧ c.toNat ≤ 122 := by
  rcases h with h | rfl
  · simp only [isLetter, Bool.or_eq_true, Bool.and_eq_true, decide_eq_true_eq, Char.le_def, UInt32.le_iff_toNat_le,
      Char.reduceVal, UInt32.reduceToNat, Char.toNat_val] at h
    omega
  · decide

theorem isDigit_of_starts (h : isLetter c = true ∨ c = '_') : isDigit c = false := by
  have hcode := code_of_starts h
  rw [Bool.eq_false_iff, Ne, isDigit_iff]
  simp only [Char.isDigit, Bool.and_eq_true, decide_eq_true_eq, ge_iff_le, UInt32.le_iff_toNat_le,
    Char.reduceVal, UInt32.reduceToNat, Char.toNat_val]
  omega

theorem over_of_starts (h : isLetter c = true ∨ c = '_') (rest : List Char) : Trivia.Over (c :: rest) := by
  have hcode := code_of_starts h
  refine Trivia.over_cons ?_ ?_
  · simp only [Text.isBlank, Text.inRanges, Text.blankRanges, List.any_cons, List.any_nil, Bool.or_false,
      Bool.or_eq_false_iff, Bool.and_eq_false_iff, decide_eq_false_iff_not]
    omega
  · rintro rfl
    exact absurd hcode.1 (by decide)

theorem isDigit_of_not_word (h : isWordChar c = false) : isDigit c = false := by
  simp only [isWordChar, Bool.or_eq_false_iff] at h
  exact h.1.2

theorem ne_of_not_word {d : Char} (h : isWordChar c = false) (hd : isLetter d = true) : c ≠ d := by
  rintro rfl
  simp [isWordChar, hd] at h

theorem splitFraction_eq {fraction : List Char} (h : Fraction fraction) (hends : ∀ c ∈ rest.head?, isDigit c = false)
    (hpoint : fraction = [] → ∀ c after, rest = '.' :: c :: after → isDigit c = false) :
    splitFraction (fraction ++ rest) = (fraction, rest) := by
  cases h with
  | absent =>
    rw [List.nil_append]
    unfold splitFraction
    split
    · next c after => rw [if_neg (by simp [hpoint rfl c after rfl])]
    · rfl
  | @present digits hne hdigits =>
    obtain _ | ⟨d, digits⟩ := digits
    · exact absurd rfl hne
    · obtain ⟨hd, hdigits⟩ := List.forall_mem_cons.mp hdigits
      simp only [List.cons_append, splitFraction, hd, if_true, Lexeme.takeWhile_exact hdigits hends,
        Lexeme.dropWhile_exact hdigits hends]

theorem splitSign_eq {sign : List Char} (hsign : sign = [] ∨ sign = ['+'] ∨ sign = ['-'])
    (hstarts : ∀ c ∈ digits.head?, isDigit c = true) : splitSign (sign ++ digits) = (sign, digits) := by
  rcases hsign with rfl | rfl | rfl
  · rw [List.nil_append]
    unfold splitSign
    split
    · exact absurd (hstarts _ rfl) (by decide)
    · exact absurd (hstarts _ rfl) (by decide)
    · rfl
  · rfl
  · rfl

theorem splitExponent_eq {exponent : List Char} (h : Exponent exponent)
    (hends : ∀ c ∈ rest.head?, isDigit c = false ∧ ¬ (c = 'e' ∨ c = 'E')) :
    splitExponent (exponent ++ rest) = .ok (exponent, rest) := by
  cases h with
  | absent =>
    cases rest with
    | nil => rfl
    | cons c rest => rw [List.nil_append, splitExponent, if_neg (hends c rfl).2]
  | @present letter sign digits hletter hsign hne hdigits =>
    have hstarts : ∀ c ∈ (digits ++ rest).head?, isDigit c = true := by
      intro c hc
      rw [List.head?_append_of_ne_nil _ hne] at hc
      exact hdigits c (List.mem_of_mem_head? hc)
    have hstop := fun c hc => (hends c hc).1
    simp only [List.cons_append, List.append_assoc, splitExponent, if_pos hletter, splitSign_eq hsign hstarts,
      Lexeme.takeWhile_exact hdigits hstop, Lexeme.dropWhile_exact hdigits hstop, List.isEmpty_eq_false_iff.mpr hne,
      Bool.false_eq_true, if_false]

theorem mark_of_not_word (h : ∀ c ∈ rest.head?, isWordChar c = false) : mark? rest = none := by
  cases rest with
  | nil => rfl
  | cons c rest =>
    have hne {d : Char} := ne_of_not_word (d := d) (h c rfl)
    rw [mark?, if_neg (not_or.mpr ⟨hne (by decide), hne (by decide)⟩),
      if_neg (not_or.mpr ⟨hne (by decide), hne (by decide)⟩), if_neg (not_or.mpr ⟨hne (by decide), hne (by decide)⟩)]

theorem mark_eq (h : Letter letter) (hends : ∀ c ∈ rest.head?, isWordChar c = false) :
    mark? (letter ++ rest) = mark? letter ∧
      (if (mark? letter).isSome then (letter ++ rest).splitAt 1 else ([], letter ++ rest)) = (letter, rest) := by
  cases h with
  | absent => exact ⟨mark_of_not_word hends, rfl⟩
  | present hmark => exact ⟨rfl, by rw [if_pos hmark, List.splitAt_eq]; rfl⟩

/-- What stands behind the digits or the exponent of a number is no digit, no point and no exponent. -/
theorem Letter.ends (h : Letter letter) (hends : ∀ c ∈ rest.head?, isWordChar c = false) :
    ∀ c ∈ (letter ++ rest).head?, isDigit c = false ∧ ¬ (c = 'e' ∨ c = 'E') ∧ (letter ≠ [] → c ≠ '.') := by
  rintro c hc
  cases h with
  | absent =>
    have hne {d : Char} := ne_of_not_word (d := d) (hends c hc)
    exact ⟨isDigit_of_not_word (hends c hc), not_or.mpr ⟨hne (by decide), hne (by decide)⟩, absurd rfl⟩
  | present hmark =>
    cases hc
    simp only [mark?] at hmark
    split at hmark
    · next hc => rcases hc with rfl | rfl <;> decide
    · split at hmark
      · next hc => rcases hc with rfl | rfl <;> decide
      · split at hmark
        · next hc => rcases hc with rfl | rfl <;> decide
        · cases hmark

/-- The parts of a number are read as they stand, and make a number or are malformed. -/
theorem read_parts {fraction exponent : List Char} (hdigits : ∀ d ∈ digits, isDigit d = true)
    (hfraction : Fraction fraction) (hexponent : Exponent exponent) (hletter : Letter letter)
    (hends : ∀ c ∈ rest.head?, isWordChar c = false)
    (hpoint : fraction = [] → exponent = [] → letter = [] → ∀ c after, rest = '.' :: c :: after → isDigit c = false) :
    read (digits ++ (fraction ++ (exponent ++ (letter ++ rest)))) =
      (constant (digits ++ fraction ++ exponent) (!fraction.isEmpty || !exponent.isEmpty) (mark? letter)).elim
        (.error ⟨.malformedNumber (String.ofList (digits ++ fraction ++ exponent ++ letter)),
          digits ++ (fraction ++ (exponent ++ (letter ++ rest)))⟩)
        fun l => .ok ⟨l, digits ++ fraction ++ exponent ++ letter, rest⟩ := by
  have hbehind := hletter.ends hends
  have hstop : ∀ c ∈ (exponent ++ (letter ++ rest)).head?, isDigit c = false := by
    cases hexponent with
    | absent => exact fun c hc => (hbehind c hc).1
    | present hletter =>
      rintro _ ⟨⟩
      rcases hletter with rfl | rfl <;> rfl
  have hdigitsEnd : ∀ c ∈ (fraction ++ (exponent ++ (letter ++ rest))).head?, isDigit c = false := by
    cases hfraction with
    | absent => exact hstop
    | present => rintro _ ⟨⟩; rfl
  have hnoPoint : fraction = [] → ∀ c after, exponent ++ (letter ++ rest) = '.' :: c :: after → isDigit c = false := by
    intro hnil c after heq
    cases hexponent with
    | absent =>
      by_cases hempty : letter = []
      · subst hempty
        exact hpoint hnil rfl rfl c after heq
      · exact absurd rfl ((hbehind '.' (by rw [List.nil_append] at heq; rw [heq]; rfl)).2.2 hempty)
    | present hletter =>
      rcases hletter with rfl | rfl <;> cases heq
  unfold read
  simp only [Lexeme.takeWhile_exact hdigits hdigitsEnd, Lexeme.dropWhile_exact hdigits hdigitsEnd,
    splitFraction_eq hfraction hstop hnoPoint, splitExponent_eq hexponent fun c hc => ⟨(hbehind c hc).1, (hbehind c hc).2.1⟩,
    (mark_eq hletter hends).1, (mark_eq hletter hends).2, Except.mapError, bind, Except.bind,
    isEmpty_takeWhile_iff.mpr hends, if_true]
  cases constant (digits ++ fraction ++ exponent) (!fraction.isEmpty || !exponent.isEmpty) (mark? letter) <;> rfl

theorem Written.read_eq {text : List Char} {l : Literal} (h : Written text rest l) :
    read (text ++ rest) = .ok ⟨l, text, rest⟩ := by
  cases h with
  | parts _ hdigits hfraction hexponent hletter hvalue hends hpoint =>
    simp only [List.append_assoc] at *
    rw [read_parts hdigits hfraction hexponent hletter hends hpoint]
    simp [hvalue]

theorem read_digits (hdigits : ∀ d ∈ digits, isDigit d = true)
    (hends : ∀ c ∈ rest.head?, isWordChar c = false) (hpoint : rest.head? ≠ some '.') :
    read (digits ++ rest) = (plainInteger digits).elim
      (.error ⟨.malformedNumber (String.ofList digits), digits ++ rest⟩) fun l => .ok ⟨l, digits, rest⟩ := by
  have hread := read_parts hdigits .absent .absent .absent hends fun _ _ _ c after heq => by simp [heq] at hpoint
  simp only [List.nil_append, List.append_nil] at hread
  exact hread

end Numeral

namespace Lexer

open Numeral

variable {types : TypeNames}

/-- A lexeme that is read as it stands in front of a text. -/
structure Reads (types : TypeNames) (lexeme rest : List Char) (kind : TokenKind) : Prop where
  read : readLexeme types (lexeme ++ rest) = .ok ⟨kind, lexeme, rest⟩
  plain : interpolated? (lexeme ++ rest) = none
  ne_nil : lexeme ≠ []
  not_end : kind.isEnd = false

variable {c : Char} {rest text digits : List Char} {kind : TokenKind}

theorem interpolated_cons (h : c ≠ '$') : interpolated? (c :: rest) = none := by
  unfold interpolated?
  split
  · next heq => exact absurd (List.cons.inj heq).1 h
  · rfl

theorem wordKind_not_end (types : TypeNames) (word : String) : (wordKind types word).isEnd = false := by
  rcases wordKind_cases types word with ⟨_, h, _⟩ | ⟨_, h⟩ | ⟨_, _, h⟩ | ⟨_, h⟩ <;> rw [h] <;> rfl

theorem reads_word {word : List Char} (hstart : isLetter c = true ∨ c = '_')
    (hword : ∀ d ∈ word, isWordChar d = true) (hends : ∀ d ∈ rest.head?, isWordChar d = false) :
    Reads types (c :: word) rest (wordKind types (String.ofList (c :: word))) := by
  have hfirst : isWordChar c = true := by
    rcases hstart with h | h <;> simp [isWordChar, h]
  have hall : ∀ d ∈ c :: word, isWordChar d = true := by
    simpa [hfirst] using hword
  refine ⟨?_, ?_, List.cons_ne_nil _ _, wordKind_not_end types _⟩
  · have hspan : Lexeme.span isWordChar (c :: word ++ rest) = ⟨c :: word, c :: word, rest⟩ := by
      rw [Lexeme.span, Lexeme.takeWhile_exact hall hends, Lexeme.dropWhile_exact hall hends]
    rw [List.cons_append] at hspan ⊢
    rw [readLexeme, if_neg (by simp [isDigit_of_starts hstart]), if_pos (by simpa using hstart), hspan]
    rfl
  · refine interpolated_cons ?_
    rintro rfl
    cases hfirst

theorem operator_mem_signs (sign : Operator) : (sign.text.toList, .operator sign) ∈ signs :=
  List.mem_append_right _ (List.mem_map.mpr ⟨sign, by cases sign <;> decide, rfl⟩)

theorem separator_mem_signs (sign : Separator) : (sign.text.toList, .separator sign) ∈ signs :=
  List.mem_append_left _ (List.mem_map.mpr ⟨sign, by cases sign <;> decide, rfl⟩)

theorem sign_ext {kind' : TokenKind} (h : (text, kind) ∈ signs) (h' : (text, kind') ∈ signs) : kind = kind' := by
  have hnodup : (signs.map (·.1)).Nodup := by decide
  exact (Prod.mk.inj (List.inj_on_of_nodup_map hnodup h h' rfl)).2

theorem sign_starts : ∀ s ∈ signs, (s.1.head?.any fun c =>
    isDigit c || (isLetter c || c = '_') || QuotedText.isQuote c || c = '$') = false := by
  decide

/-- No longer sign stands where a sign stands that the text behind it does not continue. -/
theorem sign_longest (hends : ∀ c ∈ rest.head?, ∀ s ∈ signs, ¬ text ++ [c] <+: s.1)
    {s : List Char × TokenKind} (hs : s ∈ signs) (hstands : s.1 <+: text ++ rest) : s.1.length ≤ text.length := by
  rcases List.prefix_or_prefix_of_prefix hstands (List.prefix_append text rest) with hshort | ⟨behind, hbehind⟩
  · exact hshort.length_le
  · cases behind with
    | nil => rw [← hbehind, List.append_nil]
    | cons c behind =>
      rw [← hbehind, List.prefix_append_right_inj] at hstands
      obtain ⟨after, rfl⟩ := hstands
      exact absurd ⟨behind, by rw [← hbehind, List.append_assoc]; rfl⟩ (hends c rfl s hs)

theorem signs_tail : ∀ s ∈ signs, s.1.tail.any isWordChar = false := by
  decide

theorem sign_ends (hne : text ≠ []) (hc : isWordChar c = true) : ∀ s ∈ signs, ¬ text ++ [c] <+: s.1 := by
  rintro s hs ⟨behind, hbehind⟩
  have hmem : c ∈ s.1.tail := by
    rw [← hbehind, List.append_assoc, List.tail_append_of_ne_nil hne]
    simp
  exact List.any_eq_false.mp (signs_tail s hs) c hmem hc

theorem sign_eq (h : (text, kind) ∈ signs) (hlongest : ∀ s ∈ signs, s.1 <+: text ++ rest → s.1.length ≤ text.length) :
    sign? (text ++ rest) = some (text, kind) := by
  have hstarts : text <+: text ++ rest := List.prefix_append text rest
  cases hread : sign? (text ++ rest) with
  | none =>
    have hmem : (text, kind) ∈ signs.filter fun s => s.1.isPrefixOf (text ++ rest) :=
      List.mem_filter.mpr ⟨h, List.isPrefixOf_iff_prefix.mpr hstarts⟩
    unfold sign? at hread
    split at hread
    · next hnone =>
      rw [hnone] at hmem
      cases hmem
    · cases hread
  | some found =>
    obtain ⟨found, kind'⟩ := found
    obtain ⟨hmem, hstands, hlonger⟩ := sign_sound hread
    have hlength : found.length = text.length := Nat.le_antisymm (hlongest _ hmem hstands) (hlonger _ h hstarts)
    obtain rfl := (List.prefix_of_prefix_length_le hstands hstarts hlength.le).eq_of_length hlength
    rw [sign_ext hmem h]

theorem reads_longest_sign (h : (text, kind) ∈ signs)
    (hlongest : ∀ s ∈ signs, s.1 <+: text ++ rest → s.1.length ≤ text.length) : Reads types text rest kind := by
  have hsign := sign_eq h hlongest
  cases text with
  | nil => exact absurd rfl (signs_ne_nil _ h)
  | cons c text =>
    have hstarts := sign_starts _ h
    simp only [List.head?_cons, Option.any_some, Bool.or_eq_false_iff, decide_eq_false_iff_not] at hstarts
    obtain ⟨⟨⟨hdigit, hletter⟩, hquote⟩, hdollar⟩ := hstarts
    refine ⟨?_, interpolated_cons hdollar, List.cons_ne_nil _ _, ?_⟩
    · rw [List.cons_append] at hsign ⊢
      rw [readLexeme, if_neg (by simp [hdigit]), if_neg (by simpa using hletter), if_neg (by simp [hquote])]
      simp [hsign]
    · rcases sign_kind h with ⟨_, rfl⟩ | ⟨_, rfl⟩ <;> rfl

theorem reads_sign (h : (text, kind) ∈ signs)
    (hends : ∀ c ∈ rest.head?, ∀ s ∈ signs, ¬ text ++ [c] <+: s.1) : Reads types text rest kind :=
  reads_longest_sign h fun _ => sign_longest hends

theorem readLexeme_digits (hne : digits ≠ []) (hdigits : ∀ d ∈ digits, isDigit d = true)
    (hends : ∀ c ∈ rest.head?, isWordChar c = false) (hpoint : rest.head? ≠ some '.') :
    readLexeme types (digits ++ rest) = (plainInteger digits).elim
      (.error ⟨.malformedNumber (String.ofList digits), digits ++ rest⟩) fun l => .ok ⟨.literal l, digits, rest⟩ := by
  have hread := read_digits hdigits hends hpoint
  cases digits with
  | nil => exact absurd rfl hne
  | cons d digits =>
    rw [List.cons_append] at hread ⊢
    rw [readLexeme, if_pos (hdigits d List.mem_cons_self), hread]
    cases plainInteger (d :: digits) <;> rfl

theorem starts_with_digit (hne : digits ≠ []) (hdigits : ∀ d ∈ digits, isDigit d = true)
    (rest : List Char) : Trivia.Over (digits ++ rest) ∧ interpolated? (digits ++ rest) = none := by
  cases digits with
  | nil => exact absurd rfl hne
  | cons d digits =>
    have hd := hdigits d List.mem_cons_self
    refine ⟨Trivia.over_cons (Text.isBlank_of_isDigit (isDigit_iff.mp hd)) ?_, interpolated_cons ?_⟩
    · rintro rfl
      cases hd
    · rintro rfl
      cases hd

theorem reads_digits {l : Literal} (hne : digits ≠ [])
    (hdigits : ∀ d ∈ digits, isDigit d = true) (hends : ∀ c ∈ rest.head?, isWordChar c = false)
    (hpoint : rest.head? ≠ some '.') (hvalue : plainInteger digits = some l) : Reads types digits rest (.literal l) where
  read := by rw [readLexeme_digits hne hdigits hends hpoint, hvalue]; rfl
  plain := (starts_with_digit hne hdigits rest).2
  ne_nil := hne
  not_end := rfl

theorem scan_lexeme {trivia lexeme : List Char} (htrivia : Trivia.Between trivia)
    (hover : Trivia.Over (lexeme ++ rest)) (hlexeme : Reads types lexeme rest kind) (steps : Nat) (p : Position) :
    scan types (steps + 1) p (trivia ++ (lexeme ++ rest)) =
      (scan types steps (p.advance (trivia ++ lexeme)) rest).map (⟨kind, p.advance trivia⟩ :: ·) := by
  rw [scan, Trivia.split_between htrivia, Trivia.split_over hover]
  simp only [Trivia.Split.after, List.append_nil, if_true, hlexeme.plain, hlexeme.read, LexFault.locate, bind,
    Except.bind, hlexeme.not_end, Bool.false_eq_true, if_false, ← Position.advance_append]
  cases scan types steps (p.advance (trivia ++ lexeme)) rest <;> rfl

/-- A scan that has as many steps as there are characters gives the tokens that tile the text. -/
theorem scan_of_tiles {p : Position} {tokens : List Token}
    (h : Tiles (fun _ => Reads types) p text tokens) {steps : Nat} (hsteps : text.length ≤ steps) :
    scan types steps p text = .ok (tokens ++ [⟨.endOfInput, p.advance text⟩]) := by
  induction h generalizing steps with
  | @done p text htext =>
    cases steps with
    | zero =>
      obtain rfl := List.eq_nil_of_length_eq_zero (Nat.le_zero.mp hsteps)
      rfl
    | succ steps =>
      rw [scan, Trivia.split_atEnd htext]
      rfl
  | @token p trivia lexeme rest kind tokens htrivia hover hlexeme hrest ih =>
    have hpositive := List.length_pos_iff.mpr hlexeme.ne_nil
    simp only [List.length_append] at hsteps
    cases steps with
    | zero => omega
    | succ steps =>
      rw [scan_lexeme htrivia hover hlexeme, ih (by omega), ← Position.advance_append, List.append_assoc]
      rfl

theorem tokenize_of_tiles {source : String} {tokens : List Token}
    (h : Tiles (fun _ => Reads types) .start source.toList tokens) {whole : List Token}
    (hwhole : whole = tokens ++ [⟨.endOfInput, Position.start.advance source.toList⟩])
    (hjoin : joinElseIf whole = whole) (hcheck : Brackets.check whole = .ok ()) : tokenize types source = .ok whole := by
  simp only [tokenize, rawTokens, scan_of_tiles h le_rfl, ← hwhole, bind, Except.bind, hjoin, hcheck]
  rfl

end Lexer

end Scriptlet
