import Mathlib.Data.List.TakeWhile
import Scriptlet.Proofs.Hierarchy
import Scriptlet.Token.Lexer

/-!
# How trivia and lexemes are written

A grammar of what the readers take: trivia, numeric constants, string constants, words and signs. A lexeme is
described together with the text behind it, since it goes as far as it can. Whatever a reader takes is written as the
grammar says, and what it takes and what it leaves are the text that it was given.
-/

namespace Scriptlet

namespace Trivia

/-- Trivia that may stand before a lexeme: blanks, comments to the end of their line, and block comments up to the
first `*/`. -/
inductive Between : List Char → Prop
  | nil : Between []
  | blank {c : Char} {rest : List Char} (h : Text.isBlank c = true) (hrest : Between rest) : Between (c :: rest)
  | line {body rest : List Char} (h : '\n' ∉ body) (hrest : Between rest) :
      Between ('/' :: '/' :: (body ++ '\n' :: rest))
  | block {body rest : List Char} (h : ¬ ['*', '/'] <:+: body) (hrest : Between rest) :
      Between ('/' :: '*' :: (body ++ '*' :: '/' :: rest))

/-- Trivia that may stand at the end of a text. The last line needs no line feed. -/
inductive AtEnd : List Char → Prop
  | between {text : List Char} (h : Between text) : AtEnd text
  | line {before body : List Char} (h : Between before) (hbody : '\n' ∉ body) :
      AtEnd (before ++ '/' :: '/' :: body)

/-- A text that does not begin with trivia. -/
structure Over (rest : List Char) : Prop where
  blank : ∀ c ∈ rest.head?, Text.isBlank c = false
  line : ¬ ['/', '/'] <+: rest
  block : ¬ ['/', '*'] <+: rest

namespace AtEnd

theorem blank {c : Char} {rest : List Char} (h : Text.isBlank c = true) (hrest : AtEnd rest) : AtEnd (c :: rest) := by
  cases hrest with
  | between hrest => exact .between (.blank h hrest)
  | line hbefore hbody => exact .line (.blank h hbefore) hbody

theorem closedLine {body rest : List Char} (h : '\n' ∉ body) (hrest : AtEnd rest) :
    AtEnd ('/' :: '/' :: (body ++ '\n' :: rest)) := by
  cases hrest with
  | between hrest => exact .between (.line h hrest)
  | @line before last hbefore hlast =>
    have hwhole := AtEnd.line (.line h hbefore) hlast
    rwa [List.cons_append, List.cons_append, List.append_assoc] at hwhole

theorem block {body rest : List Char} (h : ¬ ['*', '/'] <:+: body) (hrest : AtEnd rest) :
    AtEnd ('/' :: '*' :: (body ++ '*' :: '/' :: rest)) := by
  cases hrest with
  | between hrest => exact .between (.block h hrest)
  | @line before last hbefore hlast =>
    have hwhole := AtEnd.line (.block h hbefore) hlast
    rwa [List.cons_append, List.cons_append, List.append_assoc] at hwhole

end AtEnd

/-- A split that takes trivia, and as much as there is. -/
structure Split.Sound (s : Split) (text : List Char) : Prop where
  joined : text = s.taken ++ s.rest
  between : s.rest ≠ [] → Between s.taken
  atEnd : AtEnd s.taken
  finished : Over s.rest

theorem splitLine_cases (text : List Char) :
    ('\n' ∉ text ∧ splitLine text = ⟨text, [], true⟩) ∨
      ∃ body rest, text = body ++ '\n' :: rest ∧ '\n' ∉ body ∧
        splitLine text = (split rest).after (body ++ ['\n']) := by
  induction text with
  | nil => exact .inl ⟨List.not_mem_nil, by rw [splitLine]⟩
  | cons c text ih =>
    rw [splitLine]
    split
    · next hc => exact .inr ⟨[], text, by rw [hc]; rfl, List.not_mem_nil, by rw [hc]; rfl⟩
    · next hc =>
      rcases ih with ⟨hbody, hsplit⟩ | ⟨body, rest, rfl, hbody, hsplit⟩
      · exact .inl ⟨List.not_mem_cons_of_ne_of_not_mem (Ne.symm hc) hbody, by rw [hsplit]; rfl⟩
      · exact .inr ⟨c :: body, rest, rfl, List.not_mem_cons_of_ne_of_not_mem (Ne.symm hc) hbody, by rw [hsplit]; rfl⟩

theorem splitBlock_eq {text : List Char} {s : Split} (h : splitBlock text = some s) :
    ∃ body rest, text = body ++ '*' :: '/' :: rest ∧ ¬ ['*', '/'] <:+: body ∧
      s = (split rest).after (body ++ ['*', '/']) := by
  induction text generalizing s with
  | nil => cases h
  | cons c text ih =>
    rw [splitBlock.eq_def] at h
    split at h
    · next heq => cases heq
    · next rest heq =>
      cases heq
      cases h
      exact ⟨[], rest, rfl, by simp, rfl⟩
    · next hstar heq =>
      cases heq
      obtain ⟨s', hs', rfl⟩ := Option.map_eq_some_iff.mp h
      obtain ⟨body, rest, rfl, hbody, rfl⟩ := ih hs'
      refine ⟨c :: body, rest, rfl, ?_, rfl⟩
      rw [List.infix_cons_iff]
      rintro (hfront | hwithin)
      · obtain ⟨behind, hbehind⟩ := hfront
        cases body with
        | nil => cases hbehind
        | cons d body =>
          simp only [List.cons_append, List.cons.injEq] at hbehind
          obtain ⟨rfl, rfl, -⟩ := hbehind
          exact hstar _ rfl rfl
      · exact hbody hwithin

/-- The split at the start of a text takes all trivia there is. The induction is on the length of the text: behind a
comment the walk goes on. -/
theorem split_sound (text : List Char) (h : (split text).closed = true) : (split text).Sound text := by
  induction hlength : text.length using Nat.strongRecOn generalizing text with
  | ind n ih =>
    rw [split.eq_def] at h ⊢
    split at h
    · exact ⟨rfl, fun hne => absurd rfl hne, .between .nil, by simp, by simp, by simp⟩
    · next rest =>
      rcases splitLine_cases rest with ⟨hbody, hsplit⟩ | ⟨body, rest', rfl, hbody, hsplit⟩
      · rw [hsplit]
        exact ⟨by simp [Split.after], fun hne => absurd rfl hne, .line .nil hbody, by simp [Split.after],
          by simp [Split.after], by simp [Split.after]⟩
      · rw [hsplit] at h ⊢
        have hrest := ih rest'.length (by simp at hlength; omega) rest' h rfl
        refine ⟨?_, fun hne => ?_, ?_, hrest.finished⟩
        · simpa [Split.after] using hrest.joined
        · simpa [Split.after] using Between.line hbody (hrest.between hne)
        · simpa [Split.after] using AtEnd.closedLine hbody hrest.atEnd
    · next rest =>
      cases hblock : splitBlock rest with
      | none => simp [hblock] at h
      | some s =>
        simp only [hblock] at h ⊢
        obtain ⟨body, rest', rfl, hbody, rfl⟩ := splitBlock_eq hblock
        have hrest := ih rest'.length (by simp at hlength; omega) rest' h rfl
        refine ⟨?_, fun hne => ?_, ?_, hrest.finished⟩
        · simpa [Split.after] using hrest.joined
        · simpa [Split.after] using Between.block hbody (hrest.between hne)
        · simpa [Split.after] using AtEnd.block hbody hrest.atEnd
    · next c rest hline hblock =>
      split
      · next hc =>
        rw [if_pos hc] at h
        have hrest := ih rest.length (by simp at hlength; omega) rest h rfl
        exact ⟨congrArg (c :: ·) hrest.joined, fun hne => .blank hc (hrest.between hne), .blank hc hrest.atEnd,
          hrest.finished⟩
      · next hc =>
        refine ⟨rfl, fun _ => .nil, .between .nil, by simpa using hc, ?_, ?_⟩
        · rintro ⟨behind, hbehind⟩
          cases hbehind
          exact hline _ rfl rfl
        · rintro ⟨behind, hbehind⟩
          cases hbehind
          exact hblock _ rfl rfl

end Trivia

namespace Numeral

/-- A point with digits behind it, or nothing. -/
inductive Fraction : List Char → Prop
  | absent : Fraction []
  | present {digits : List Char} (hne : digits ≠ []) (h : ∀ d ∈ digits, isDigit d = true) : Fraction ('.' :: digits)

/-- The letter of an exponent with a sign or none and with digits behind it, or nothing. -/
inductive Exponent : List Char → Prop
  | absent : Exponent []
  | present {letter : Char} {sign digits : List Char} (hletter : letter = 'e' ∨ letter = 'E')
      (hsign : sign = [] ∨ sign = ['+'] ∨ sign = ['-']) (hne : digits ≠ []) (h : ∀ d ∈ digits, isDigit d = true) :
      Exponent (letter :: sign ++ digits)

/-- A letter that fixes the type, or nothing. -/
inductive Letter : List Char → Prop
  | absent : Letter []
  | present {c : Char} (h : (mark? [c]).isSome = true) : Letter [c]

/-- How a numeric constant is written that has a certain text behind it: no letter and no digit follows, and if it
consists of digits only, no fraction either. -/
inductive Written : List Char → List Char → Literal → Prop
  | parts {digits fraction exponent letter rest : List Char} {l : Literal} (hne : digits ≠ [])
      (hdigits : ∀ d ∈ digits, isDigit d = true) (hfraction : Fraction fraction) (hexponent : Exponent exponent)
      (hletter : Letter letter)
      (hvalue : constant (digits ++ fraction ++ exponent) (!fraction.isEmpty || !exponent.isEmpty) (mark? letter) =
        some l)
      (hends : ∀ c ∈ rest.head?, isWordChar c = false)
      (hpoint : fraction = [] → exponent = [] → letter = [] → ∀ c after, rest = '.' :: c :: after → isDigit c = false) :
      Written (digits ++ fraction ++ exponent ++ letter) rest l

theorem isEmpty_takeWhile_iff {p : Char → Bool} {text : List Char} :
    (text.takeWhile p).isEmpty = true ↔ ∀ c ∈ text.head?, p c = false := by
  cases text with
  | nil => simp
  | cons c text => cases hc : p c <;> simp [hc]

theorem splitFraction_sound {text fraction after : List Char} (h : splitFraction text = (fraction, after)) :
    text = fraction ++ after ∧ Fraction fraction ∧
      (fraction = [] → ∀ c rest, after = '.' :: c :: rest → isDigit c = false) := by
  unfold splitFraction at h
  split at h
  · next d rest =>
    split at h
    · next hd =>
      cases h
      refine ⟨by simp, .present (List.cons_ne_nil _ _) ?_, fun hnil => by cases hnil⟩
      intro c hc
      rcases List.mem_cons.mp hc with rfl | hc
      · exact hd
      · exact List.mem_takeWhile_imp hc
    · next hd =>
      cases h
      refine ⟨rfl, .absent, fun _ c rest' heq => ?_⟩
      cases heq
      simpa using hd
  · next hnone =>
    cases h
    exact ⟨rfl, .absent, fun _ c rest heq => absurd heq (hnone c rest)⟩

theorem splitSign_sound (text : List Char) :
    (splitSign text).1 ++ (splitSign text).2 = text ∧
      ((splitSign text).1 = [] ∨ (splitSign text).1 = ['+'] ∨ (splitSign text).1 = ['-']) := by
  unfold splitSign
  split <;> simp

theorem splitExponent_sound {text exponent after : List Char} (h : splitExponent text = .ok (exponent, after)) :
    text = exponent ++ after ∧ Exponent exponent := by
  unfold splitExponent at h
  split at h
  · next c rest =>
    split at h
    · next hc =>
      obtain ⟨hrest, hsign⟩ := splitSign_sound rest
      simp only at h
      split at h
      · cases h
      · next hdigits =>
        cases h
        refine ⟨?_, .present hc hsign (by simpa using hdigits) fun d hd => List.mem_takeWhile_imp hd⟩
        rw [List.append_assoc, List.takeWhile_append_dropWhile, List.cons_append, hrest]
    · cases h
      exact ⟨rfl, .absent⟩
  · cases h
    exact ⟨rfl, .absent⟩

theorem mark_sound (text : List Char) {letter rest : List Char}
    (h : (if (mark? text).isSome then text.splitAt 1 else ([], text)) = (letter, rest)) :
    text = letter ++ rest ∧ Letter letter ∧ mark? letter = mark? text := by
  split at h
  · next hmark =>
    cases text with
    | nil => cases hmark
    | cons c text =>
      simp only [List.splitAt_eq, List.take_succ_cons, List.take_zero, List.drop_succ_cons, List.drop_zero,
        Prod.mk.injEq] at h
      obtain ⟨rfl, rfl⟩ := h
      exact ⟨rfl, .present hmark, rfl⟩
  · next hmark =>
    cases h
    exact ⟨rfl, .absent, by cases hm : mark? text <;> simp_all [mark?]⟩

theorem read_sound {source : List Char} {l : Lexeme Literal} (hdigit : ∀ c ∈ source.head?, isDigit c = true)
    (hne : source ≠ []) (h : read source = .ok l) : source = l.taken ++ l.rest ∧ Written l.taken l.rest l.value := by
  have hdigits : source.takeWhile isDigit ≠ [] := by
    cases source with
    | nil => exact absurd rfl hne
    | cons c source => simp [hdigit c rfl]
  unfold read at h
  rcases hfraction : splitFraction (source.dropWhile isDigit) with ⟨fraction, afterFraction⟩
  cases hexponent : splitExponent afterFraction with
  | error taken => simp [hfraction, hexponent, Except.mapError, bind, Except.bind] at h
  | ok pair =>
    obtain ⟨exponent, afterBody⟩ := pair
    rcases hletter : (if (mark? afterBody).isSome then afterBody.splitAt 1 else ([], afterBody)) with ⟨letter, rest⟩
    simp only [hfraction, hexponent, hletter, Except.mapError, bind, Except.bind] at h
    split at h
    · next hends =>
      split at h
      · next constant hconstant =>
        cases h
        obtain ⟨hdropped, hpresent, hpoint⟩ := splitFraction_sound hfraction
        obtain ⟨rfl, hpower⟩ := splitExponent_sound hexponent
        obtain ⟨rfl, hlast, hmark⟩ := mark_sound _ hletter
        refine ⟨?_, .parts hdigits (fun d hd => List.mem_takeWhile_imp hd) hpresent hpower hlast ?_
          (isEmpty_takeWhile_iff.mp hends) ?_⟩
        · conv => lhs; rw [← List.takeWhile_append_dropWhile (p := isDigit) (l := source), hdropped]
          simp
        · rw [hmark, hconstant]
        · rintro rfl rfl rfl
          exact hpoint rfl
      · cases h
    · cases h

end Numeral

namespace QuotedText

/-- How the content of a string constant is written: characters stand for themselves, except for the quote, a
backslash and a line feed, and a backslash and a letter stand for one character. -/
inductive Content (quote : Char) : List Char → List Char → Prop
  | nil : Content quote [] []
  | plain {c : Char} {written content : List Char} (hquote : c ≠ quote) (hbackslash : c ≠ '\\') (hline : c ≠ '\n')
      (h : Content quote written content) : Content quote (c :: written) (c :: content)
  | escaped {e c : Char} {written content : List Char} (he : escape? e = some c) (h : Content quote written content) :
      Content quote ('\\' :: e :: written) (c :: content)

theorem readContent_sound {quote : Char} {whole text : List Char} {l : Lexeme (List Char)}
    (h : readContent quote whole text = .ok l) :
    text = l.taken ++ l.rest ∧ ∃ written, l.taken = written ++ [quote] ∧ Content quote written l.value := by
  fun_induction readContent quote whole text generalizing l with
  | case1 => cases h
  | case2 => cases h
  | case3 e after c he ih =>
    obtain ⟨l', hread, rfl⟩ := exists_ok_of_map h
    obtain ⟨htext, written, htaken, hcontent⟩ := ih hread
    exact ⟨by rw [htext]; rfl, _, by rw [Lexeme.after, Lexeme.map, htaken]; rfl, .escaped he hcontent⟩
  | case4 => cases h
  | case5 rest hbackslash =>
    cases h
    exact ⟨rfl, [], rfl, .nil⟩
  | case6 => cases h
  | case7 c rest hbackslash hquote hline ih =>
    obtain ⟨l', hread, rfl⟩ := exists_ok_of_map h
    obtain ⟨htext, written, htaken, hcontent⟩ := ih hread
    exact ⟨by rw [htext]; rfl, _, by rw [Lexeme.after, Lexeme.map, htaken]; rfl,
      .plain hquote hbackslash hline hcontent⟩

end QuotedText

namespace Lexer

/-- How a lexeme other than an interpolated string is written that has a certain text behind it. A word is not
followed by a letter or a digit, and a sign is the longest one that the text begins with. -/
inductive Plain (types : TypeNames) : List Char → List Char → TokenKind → Prop
  | word {c : Char} {word rest : List Char} (hstart : Numeral.isLetter c = true ∨ c = '_')
      (hword : ∀ d ∈ word, Numeral.isWordChar d = true) (hends : ∀ d ∈ rest.head?, Numeral.isWordChar d = false) :
      Plain types (c :: word) rest (wordKind types (String.ofList (c :: word)))
  | number {text rest : List Char} {l : Literal} (h : Numeral.Written text rest l) : Plain types text rest (.literal l)
  | quoted {quote : Char} {written content rest : List Char} (hquote : QuotedText.isQuote quote = true)
      (h : QuotedText.Content quote written content) :
      Plain types (quote :: (written ++ [quote])) rest (.literal (.string (String.ofList content)))
  | sign {text rest : List Char} {kind : TokenKind} (h : (text, kind) ∈ signs)
      (hlongest : ∀ s ∈ signs, s.1 <+: text ++ rest → s.1.length ≤ text.length) : Plain types text rest kind

theorem foldl_longerSign (first : List Char × TokenKind) (others : List (List Char × TokenKind)) :
    others.foldl longerSign first ∈ first :: others ∧
      ∀ s ∈ first :: others, s.1.length ≤ (others.foldl longerSign first).1.length := by
  induction others generalizing first with
  | nil => exact ⟨List.mem_singleton.mpr rfl, fun s hs => by rw [List.mem_singleton.mp hs]; rfl⟩
  | cons next others ih =>
    obtain ⟨hmem, hlongest⟩ := ih (longerSign first next)
    have hfirst : longerSign first next = first ∨ longerSign first next = next := by
      unfold longerSign
      split
      · exact .inr rfl
      · exact .inl rfl
    have hlonger : first.1.length ≤ (longerSign first next).1.length ∧
        next.1.length ≤ (longerSign first next).1.length := by
      unfold longerSign
      split <;> omega
    have htop := hlongest _ List.mem_cons_self
    rw [List.foldl_cons]
    refine ⟨?_, fun s hs => ?_⟩
    · rcases List.mem_cons.mp hmem with heq | hmem
      · rw [heq]
        rcases hfirst with hfirst | hfirst <;> simp [hfirst]
      · exact List.mem_cons_of_mem _ (List.mem_cons_of_mem _ hmem)
    · rcases List.mem_cons.mp hs with rfl | hs
      · omega
      · rcases List.mem_cons.mp hs with rfl | hs
        · omega
        · exact hlongest s (List.mem_cons_of_mem _ hs)

theorem sign_sound {source text : List Char} {kind : TokenKind} (h : sign? source = some (text, kind)) :
    (text, kind) ∈ signs ∧ text <+: source ∧ ∀ s ∈ signs, s.1 <+: source → s.1.length ≤ text.length := by
  unfold sign? at h
  split at h
  · cases h
  · next first others hfilter =>
    obtain ⟨hmem, hlongest⟩ := foldl_longerSign first others
    rw [Option.some.inj h, ← hfilter] at hmem hlongest
    obtain ⟨hsign, hstarts⟩ := List.mem_filter.mp hmem
    refine ⟨hsign, List.isPrefixOf_iff_prefix.mp hstarts, fun s hs hs' => ?_⟩
    exact hlongest s (List.mem_filter.mpr ⟨hs, List.isPrefixOf_iff_prefix.mpr hs'⟩)

theorem signs_ne_nil : ∀ s ∈ signs, s.1 ≠ [] := by
  decide

theorem sign_kind {text : List Char} {kind : TokenKind} (h : (text, kind) ∈ signs) :
    (∃ sign, kind = .separator sign) ∨ ∃ sign, kind = .operator sign := by
  rcases List.mem_append.mp h with h | h
  · obtain ⟨sign, -, heq⟩ := List.mem_map.mp h
    cases heq
    exact .inl ⟨sign, rfl⟩
  · obtain ⟨sign, -, heq⟩ := List.mem_map.mp h
    cases heq
    exact .inr ⟨sign, rfl⟩

theorem wordKind_cases (types : TypeNames) (word : String) :
    (∃ k, wordKind types word = .keyword k ∧ k.text = word) ∨ (∃ l, wordKind types word = .literal l) ∨
      (∃ name target, wordKind types word = .type name target) ∨ ∃ name, wordKind types word = .identifier name := by
  unfold wordKind
  split
  · next k hk => exact .inl ⟨k, rfl, by simpa using List.find?_some hk⟩
  · split
    · exact .inr (.inl ⟨_, rfl⟩)
    · exact .inr (.inl ⟨_, rfl⟩)
    · exact .inr (.inl ⟨_, rfl⟩)
    · exact .inr (.inr (.inl ⟨_, _, rfl⟩))
    · split
      · exact .inr (.inr (.inl ⟨_, _, rfl⟩))
      · exact .inr (.inr (.inr ⟨_, rfl⟩))

theorem readLexeme_sound {types : TypeNames} {source : List Char} {l : Lexeme TokenKind} (hne : source ≠ [])
    (h : readLexeme types source = .ok l) :
    source = l.taken ++ l.rest ∧ Plain types l.taken l.rest l.value := by
  unfold readLexeme at h
  split at h
  · exact absurd rfl hne
  · next c rest =>
    split at h
    · next hdigit =>
      obtain ⟨number, hread, rfl⟩ := exists_ok_of_map h
      obtain ⟨hjoined, hwritten⟩ := Numeral.read_sound (by simpa using hdigit) hne hread
      exact ⟨hjoined, .number hwritten⟩
    · split at h
      · next hletter =>
        cases h
        have hc : Numeral.isWordChar c = true := by
          simp only [Bool.or_eq_true, decide_eq_true_eq] at hletter
          rcases hletter with hletter | hletter <;> simp [Numeral.isWordChar, hletter]
        have htaken : (c :: rest).takeWhile Numeral.isWordChar = c :: rest.takeWhile Numeral.isWordChar := by
          simp [hc]
        refine ⟨(List.takeWhile_append_dropWhile).symm, ?_⟩
        simp only [Lexeme.span, Lexeme.map, htaken]
        refine .word (by simpa using hletter) (fun d hd => List.mem_takeWhile_imp hd) ?_
        rw [List.dropWhile_cons_of_pos hc]
        intro d hd
        have hhead := List.head?_dropWhile_not Numeral.isWordChar rest
        rw [Option.mem_def.mp hd] at hhead
        simpa using hhead
      · split at h
        · next hquote =>
          obtain ⟨_, hquoted, rfl⟩ := exists_ok_of_map h
          obtain ⟨quoted, hread, rfl⟩ := exists_ok_of_map hquoted
          obtain ⟨hjoined, written, htaken, hcontent⟩ := QuotedText.readContent_sound hread
          refine ⟨congrArg (c :: ·) hjoined, ?_⟩
          simp only [Lexeme.map, Lexeme.after, htaken]
          exact .quoted hquote hcontent
        · split at h
          · next text kind hsign =>
            cases h
            obtain ⟨hmem, ⟨behind, hbehind⟩, hlongest⟩ := sign_sound hsign
            have hdrop : (c :: rest).drop text.length = behind := by
              rw [← hbehind, List.drop_left]
            simp only [hdrop]
            exact ⟨hbehind.symm, .sign hmem (by rwa [hbehind])⟩
          · split at h <;> cases h

namespace Plain

variable {types : TypeNames} {text rest : List Char} {kind : TokenKind} (h : Plain types text rest kind)

include h

theorem ne_nil : text ≠ [] := by
  cases h with
  | word => exact List.cons_ne_nil _ _
  | quoted => exact List.cons_ne_nil _ _
  | sign h => exact signs_ne_nil _ h
  | number h =>
    cases h with
    | parts hne => simp [hne]

theorem kind_cases :
    (∃ k, kind = .keyword k ∧ text = k.text.toList ∧ ∀ c ∈ rest.head?, Numeral.isWordChar c = false) ∨
      (∃ l, kind = .literal l) ∨ (∃ name target, kind = .type name target) ∨ (∃ name, kind = .identifier name) ∨
      (∃ sign, kind = .separator sign) ∨ ∃ sign, kind = .operator sign := by
  cases h with
  | @word c word _ _ _ hends =>
    rcases wordKind_cases types (String.ofList (c :: word)) with ⟨k, hk, htext⟩ | h | h | h
    · exact .inl ⟨k, hk, by rw [htext, String.toList_ofList], hends⟩
    · exact .inr (.inl h)
    · exact .inr (.inr (.inl h))
    · exact .inr (.inr (.inr (.inl h)))
  | number => exact .inr (.inl ⟨_, rfl⟩)
  | quoted => exact .inr (.inl ⟨_, rfl⟩)
  | sign h => exact .inr (.inr (.inr (.inr (sign_kind h))))

theorem not_end : kind.isEnd = false := by
  rcases h.kind_cases with ⟨_, rfl, _⟩ | ⟨_, rfl⟩ | ⟨_, _, rfl⟩ | ⟨_, rfl⟩ | ⟨_, rfl⟩ | ⟨_, rfl⟩ <;> rfl

theorem ne_interpolated {template : String} {arguments : List (List Token)} :
    TokenKind.interpolated template arguments ≠ kind := by
  rcases h.kind_cases with ⟨_, rfl, _⟩ | ⟨_, rfl⟩ | ⟨_, _, rfl⟩ | ⟨_, rfl⟩ | ⟨_, rfl⟩ | ⟨_, rfl⟩ <;> rintro ⟨⟩

theorem keyword_inv {k : Keyword} (hkind : kind = .keyword k) :
    text = k.text.toList ∧ ∀ c ∈ rest.head?, Numeral.isWordChar c = false := by
  subst hkind
  rcases h.kind_cases with ⟨_, hk, h⟩ | ⟨_, hk⟩ | ⟨_, _, hk⟩ | ⟨_, hk⟩ | ⟨_, hk⟩ | ⟨_, hk⟩ <;> cases hk
  exact h

end Plain

end Lexer

end Scriptlet
