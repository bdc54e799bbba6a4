import Scriptlet.Proofs.LexemeReading

/-!
# String constants decode exactly

A string constant is read glyph by glyph: a backslash with the character behind it is one glyph, and so is every other
character. The first glyph that stands for no character decides how the constant ends. A text that is written with
escapes is read back, whatever follows it.
-/

namespace Scriptlet

namespace QuotedText

/-- The six characters that may stand behind a backslash, each with the character that the two stand for. -/
def escapes : List (Char × Char) :=
  [('\\', '\\'), ('\'', '\''), ('"', '"'), ('n', '\n'), ('r', '\r'), ('t', '\t')]

theorem escape?_eq_lookup (e : Char) : escape? e = escapes.lookup e := by
  unfold escape?
  split
  case h_7 => exact (List.lookup_eq_none_iff.mpr (by simp_all [escapes])).symm
  all_goals rfl

/-- A backslash with the character behind it, or a single character. -/
inductive Glyph
  | escape (e : Char)
  | single (c : Char)

/-- The glyphs of a text, from left to right. Only at the end of the text a backslash is a glyph of its own. -/
def glyphs : List Char → List Glyph
  | [] => []
  | '\\' :: e :: rest => .escape e :: glyphs rest
  | c :: rest => .single c :: glyphs rest

namespace Glyph

def written : Glyph → List Char
  | escape e => ['\\', e]
  | single c => [c]

/-- The character that a glyph stands for in a constant, if it is neither wrong nor an end of the constant. -/
def value? (quote : Char) : Glyph → Option Char
  | escape e => escapes.lookup e
  | single c => if c = quote ∨ c = '\n' ∨ c = '\\' then none else some c

def ofChar (quote c : Char) : Glyph :=
  if c = '\\' ∨ c = quote then escape c
  else if c = '\n' then escape 'n'
  else if c = '\r' then escape 'r'
  else if c = '\t' then escape 't'
  else single c

theorem value?_ofChar {quote : Char} (hquote : isQuote quote = true) (c : Char) :
    (ofChar quote c).value? quote = some c := by
  simp only [isQuote, Bool.or_eq_true, decide_eq_true_eq] at hquote
  unfold ofChar
  split
  · next h => rcases h with rfl | rfl <;> rcases hquote with rfl | rfl <;> rfl
  · next h =>
    obtain ⟨hbackslash, hc⟩ := not_or.mp h
    split
    · next hline => rw [hline]; rfl
    · next hline =>
      split
      · next hreturn => rw [hreturn]; rfl
      · split
        · next htab => rw [htab]; rfl
        · rw [value?, if_neg (by simp [hc, hline, hbackslash])]

end Glyph

def enclosed (quote : Char) (s : String) : List Char :=
  quote :: s.toList.flatMap (fun c => (Glyph.ofChar quote c).written) ++ [quote]

theorem flatMap_glyphs (text : List Char) : (glyphs text).flatMap Glyph.written = text := by
  fun_induction glyphs text with
  | case1 => rfl
  | case2 e rest ih => simpa [Glyph.written] using ih
  | case3 c rest _ ih => simpa [Glyph.written] using ih

theorem eq_nil_of_backslash {text : List Char} {before after : List Glyph}
    (h : glyphs text = before ++ .single '\\' :: after) : after = [] := by
  fun_induction glyphs text generalizing before with
  | case1 => simp at h
  | case2 e rest ih =>
    cases before with
    | nil => cases h
    | cons g before => exact ih (List.cons.inj h).2
  | case3 c rest hc ih =>
    cases before with
    | nil =>
      obtain ⟨hfirst, rfl⟩ := List.cons.inj h
      cases hfirst
      cases rest with
      | nil => rfl
      | cons e rest => exact absurd rfl (hc e rest rfl)
    | cons g before => exact ih (List.cons.inj h).2

def Passes (quote : Char) (before : List Glyph) : Prop :=
  ∀ g ∈ before, (g.value? quote).isSome = true

section Reading

variable {quote : Char} {whole : List Char}

theorem readContent_single {c : Char} (hc : c ≠ '\\') (rest : List Char) : readContent quote whole (c :: rest) =
    if c = quote then .ok ⟨[], [c], rest⟩
    else if c = '\n' then .error ⟨.unterminatedString, whole⟩
    else (readContent quote whole rest).map fun l => (l.map (c :: ·)).after [c] := by
  rw [readContent]
  exact hc

theorem readContent_glyph {g : Glyph} {c : Char} (hc : g.value? quote = some c) (rest : List Char) :
    readContent quote whole (g.written ++ rest) =
      (readContent quote whole rest).map fun l => (l.map (c :: ·)).after g.written := by
  cases g with
  | escape e =>
    have he : escape? e = some c := (escape?_eq_lookup e).trans hc
    simp only [Glyph.written, List.cons_append, List.nil_append, readContent, he]
  | single d =>
    rw [Glyph.value?] at hc
    split at hc
    · cases hc
    · next hd =>
      cases hc
      simp only [not_or] at hd
      exact (readContent_single hd.2.2 rest).trans (by rw [if_neg hd.1, if_neg hd.2.1]; rfl)

theorem readContent_passes {before : List Glyph} (h : Passes quote before) (rest : List Char) :
    readContent quote whole (before.flatMap Glyph.written ++ rest) = (readContent quote whole rest).map fun l =>
      (l.map (before.filterMap (Glyph.value? quote) ++ ·)).after (before.flatMap Glyph.written) := by
  induction before with
  | nil => cases hrest : readContent quote whole rest <;> simp [hrest, Except.map, Lexeme.map, Lexeme.after]
  | cons g before ih =>
    obtain ⟨hg, hbefore⟩ := List.forall_mem_cons.mp h
    obtain ⟨c, hc⟩ := Option.isSome_iff_exists.mp hg
    rw [List.flatMap_cons, List.append_assoc, readContent_glyph hc, ih hbefore, List.filterMap_cons_some hc]
    cases readContent quote whole rest <;> simp [Except.map, Lexeme.map, Lexeme.after]

end Reading

/-- The constant that a row of glyphs makes when a quote is the first glyph that stands for no character. -/
structure Closes (quote : Char) (row before after : List Glyph) : Prop where
  row_eq : row = before ++ .single quote :: after
  passes : Passes quote before

/-- An escape that means nothing is the first glyph that stands for no character. -/
structure Misleads (quote : Char) (row before : List Glyph) (e : Char) : Prop where
  row_eq : ∃ after, row = before ++ .escape e :: after
  passes : Passes quote before
  unknown : escapes.lookup e = none

/-- A line feed is the first glyph that stands for no character, or the end comes before any. -/
structure Breaks (quote : Char) (row : List Glyph) : Prop where
  row_eq : ∃ before after, row = before ++ after ∧ Passes quote before ∧
    (after = [] ∨ after = [.single '\\'] ∨ after.head? = some (.single '\n'))

theorem ends (quote : Char) (text : List Char) : (∃ before after, Closes quote (glyphs text) before after) ∨
    (∃ before e, Misleads quote (glyphs text) before e) ∨ Breaks quote (glyphs text) := by
  let p : Glyph → Bool := fun g => (g.value? quote).isSome
  have hrow : glyphs text = (glyphs text).takeWhile p ++ (glyphs text).dropWhile p :=
    List.takeWhile_append_dropWhile.symm
  have hpasses : Passes quote ((glyphs text).takeWhile p) := fun g hg => List.mem_takeWhile_imp (p := p) hg
  have hhead := List.head?_dropWhile_not p (glyphs text)
  generalize (glyphs text).takeWhile p = before, (glyphs text).dropWhile p = after at *
  cases after with
  | nil => exact .inr (.inr ⟨before, [], hrow, hpasses, .inl rfl⟩)
  | cons g after =>
    have hg : g.value? quote = none := by simpa [p] using hhead
    cases g with
    | escape e => exact .inr (.inl ⟨before, e, ⟨after, hrow⟩, hpasses, hg⟩)
    | single c =>
      rw [Glyph.value?] at hg
      split at hg
      · next hc =>
        rcases hc with rfl | rfl | rfl
        · exact .inl ⟨before, after, hrow, hpasses⟩
        · exact .inr (.inr ⟨before, _, hrow, hpasses, .inr (.inr rfl)⟩)
        · obtain rfl := eq_nil_of_backslash hrow
          exact .inr (.inr ⟨before, _, hrow, hpasses, .inr (.inl rfl)⟩)
      · cases hg

section Ends

variable {quote : Char} {before : List Glyph}

theorem ne_backslash (hquote : isQuote quote = true) : quote ≠ '\\' := by
  rintro rfl
  cases hquote

theorem read_closing (hquote : isQuote quote = true) (h : Passes quote before) (rest : List Char) :
    read quote (before.flatMap Glyph.written ++ quote :: rest) =
      .ok ⟨String.ofList (before.filterMap (Glyph.value? quote)), quote :: before.flatMap Glyph.written ++ [quote],
        rest⟩ := by
  rw [read, readContent_passes h, readContent_single (ne_backslash hquote), if_pos rfl]
  simp [Except.map, Lexeme.map, Lexeme.after]

theorem read_misleading (h : Passes quote before) {e : Char} (he : escapes.lookup e = none) (rest : List Char) :
    read quote (before.flatMap Glyph.written ++ '\\' :: e :: rest) = .error ⟨.invalidEscape e, '\\' :: e :: rest⟩ := by
  rw [read, readContent_passes h, readContent, escape?_eq_lookup, he]
  rfl

theorem read_breaking (hquote : isQuote quote = true) (h : Passes quote before) {text : List Char}
    (htext : text = [] ∨ text = ['\\'] ∨ text.head? = some '\n') :
    read quote (before.flatMap Glyph.written ++ text) =
      .error ⟨.unterminatedString, quote :: (before.flatMap Glyph.written ++ text)⟩ := by
  have hline : '\n' ≠ quote := by
    rintro rfl
    cases hquote
  have hend : ∀ whole, readContent quote whole text = .error ⟨.unterminatedString, whole⟩ := by
    intro whole
    rcases htext with rfl | rfl | htext
    · rfl
    · rfl
    · obtain ⟨rest, rfl⟩ := List.head?_eq_some_iff.mp htext
      rw [readContent_single (by decide), if_neg hline, if_pos rfl]
  rw [read, readContent_passes h, hend]
  rfl

end Ends

end QuotedText

theorem LexFault.locate_error {α : Type} (p : Position) (front behind : List Char) (cause : LexCause) :
    locate p (front ++ behind) (.error ⟨cause, behind⟩ : Except LexFault α) = .error ⟨cause, p.advance front⟩ := by
  simp [locate, Text.consumed]

namespace Lexer

open QuotedText

/-- The lexeme at a place where no trivia and no interpolated string stands, or what is wrong with it and where. -/
def readAt (types : TypeNames) (p : Position) (source : List Char) : Except LexError (Lexeme TokenKind) :=
  LexFault.locate p source (readLexeme types source)

/-- What comes of a constant at a place, for each way in which a row of glyphs ends it. -/
inductive Ended (p : Position) (quote : Char) (row : List Glyph) : Except LexError (Lexeme TokenKind) → Prop
  | closed {before after : List Glyph} (h : Closes quote row before after) :
      Ended p quote row (.ok ⟨.literal (.string (String.ofList (before.filterMap (Glyph.value? quote)))),
        quote :: before.flatMap Glyph.written ++ [quote], after.flatMap Glyph.written⟩)
  | misled {before : List Glyph} {e : Char} (h : Misleads quote row before e) :
      Ended p quote row (.error ⟨.invalidEscape e, p.advance (quote :: before.flatMap Glyph.written)⟩)
  | broken (h : Breaks quote row) : Ended p quote row (.error ⟨.unterminatedString, p⟩)

section Quoted

variable (types : TypeNames) {quote : Char} (hquote : isQuote quote = true)

include hquote

theorem readLexeme_quote (rest : List Char) : readLexeme types (quote :: rest) =
    (QuotedText.read quote rest).map (·.map fun content => .literal (.string content)) := by
  have hcases : quote = '"' ∨ quote = '\'' := by simpa [isQuote] using hquote
  rcases hcases with rfl | rfl <;> rfl

theorem starts_with_quote (rest : List Char) :
    Trivia.Over (quote :: rest) ∧ interpolated? (quote :: rest) = none := by
  have hcases : quote = '"' ∨ quote = '\'' := by simpa [isQuote] using hquote
  rcases hcases with rfl | rfl <;> exact ⟨Trivia.over_cons (by decide) (by decide), rfl⟩

theorem scan_quote (steps : Nat) (p : Position) (rest : List Char) : scan types (steps + 1) p (quote :: rest) = do
    let l ← readAt types p (quote :: rest)
    return ⟨l.value, p⟩ :: (← scan types steps (p.advance l.taken) l.rest) := by
  obtain ⟨hover, hplain⟩ := starts_with_quote hquote rest
  rw [scan, Trivia.split_over hover]
  simp only [if_true, hplain, readAt, readLexeme_quote types hquote]
  cases QuotedText.read quote rest <;> rfl

theorem reads_enclosed (s : String) (rest : List Char) :
    Reads types (enclosed quote s) rest (.literal (.string s)) := by
  have hpasses : Passes quote (s.toList.map (Glyph.ofChar quote)) := by
    intro g hg
    obtain ⟨c, -, rfl⟩ := List.mem_map.mp hg
    rw [Glyph.value?_ofChar hquote]
    rfl
  have hvalue : (s.toList.map (Glyph.ofChar quote)).filterMap (Glyph.value? quote) = s.toList := by
    rw [List.filterMap_map, show Glyph.value? quote ∘ Glyph.ofChar quote = some from
      funext (Glyph.value?_ofChar hquote), List.filterMap_some]
  have hread := read_closing hquote hpasses rest
  rw [hvalue, String.ofList_toList, List.flatMap_map] at hread
  have htext : enclosed quote s ++ rest =
      quote :: (s.toList.flatMap (fun c => (Glyph.ofChar quote c).written) ++ quote :: rest) := by
    simp [enclosed]
  refine ⟨?_, ?_, List.cons_ne_nil _ _, rfl⟩
  · rw [htext, readLexeme_quote types hquote, hread]
    rfl
  · exact (starts_with_quote hquote _).2

variable {rest : List Char} {before after : List Glyph} (p : Position)

theorem readAt_closes (h : Closes quote (glyphs rest) before after) : readAt types p (quote :: rest) =
    .ok ⟨.literal (.string (String.ofList (before.filterMap (Glyph.value? quote)))),
      quote :: before.flatMap Glyph.written ++ [quote], after.flatMap Glyph.written⟩ := by
  have hrest : rest = before.flatMap Glyph.written ++ quote :: after.flatMap Glyph.written := by
    rw [← flatMap_glyphs rest, h.row_eq, List.flatMap_append, List.flatMap_cons]
    rfl
  rw [readAt, readLexeme_quote types hquote, hrest, read_closing hquote h.passes]
  rfl

theorem readAt_misleads {e : Char} (h : Misleads quote (glyphs rest) before e) : readAt types p (quote :: rest) =
    .error ⟨.invalidEscape e, p.advance (quote :: before.flatMap Glyph.written)⟩ := by
  obtain ⟨after, hrow⟩ := h.row_eq
  have hrest : rest = before.flatMap Glyph.written ++ '\\' :: e :: after.flatMap Glyph.written := by
    rw [← flatMap_glyphs rest, hrow, List.flatMap_append, List.flatMap_cons]
    rfl
  rw [readAt, readLexeme_quote types hquote, hrest, read_misleading h.passes h.unknown, ← List.cons_append]
  exact LexFault.locate_error p _ _ _

theorem readAt_breaks (h : Breaks quote (glyphs rest)) :
    readAt types p (quote :: rest) = .error ⟨.unterminatedString, p⟩ := by
  obtain ⟨before, after, hrow, hpasses, hafter⟩ := h.row_eq
  have hrest : rest = before.flatMap Glyph.written ++ after.flatMap Glyph.written := by
    rw [← flatMap_glyphs rest, hrow, List.flatMap_append]
  have hend : after.flatMap Glyph.written = [] ∨ after.flatMap Glyph.written = ['\\'] ∨
      (after.flatMap Glyph.written).head? = some '\n' := by
    rcases hafter with rfl | rfl | hafter
    · exact .inl rfl
    · exact .inr (.inl rfl)
    · obtain ⟨others, rfl⟩ := List.head?_eq_some_iff.mp hafter
      exact .inr (.inr rfl)
  rw [readAt, readLexeme_quote types hquote, hrest, read_breaking hquote hpasses hend]
  exact LexFault.locate_error p [] _ _

theorem readAt_ended (rest : List Char) : Ended p quote (glyphs rest) (readAt types p (quote :: rest)) := by
  rcases ends quote rest with ⟨before, after, h⟩ | ⟨before, e, h⟩ | h
  · exact readAt_closes types hquote p h ▸ .closed h
  · exact readAt_misleads types hquote p h ▸ .misled h
  · exact readAt_breaks types hquote p h ▸ .broken h

end Quoted

/-- String constants are decoded exactly. A text that is written with escapes, between quotes and with anything behind
it, is read as one constant with this text for its value, and reading goes on behind it. Whatever stands behind a quote,
the first glyph that stands for no character decides: a constant is read just when it is the quote, an escape that means
nothing is reported at its backslash, and a line feed or the end of the text leaves the constant unterminated. -/
theorem string_constants_decode (types : TypeNames) {quote : Char} (hquote : isQuote quote = true) :
    (∀ (s : String) (rest : List Char) (p : Position) (steps : Nat),
      scan types (steps + 1) p (enclosed quote s ++ rest) =
        (scan types steps (p.advance (enclosed quote s)) rest).map (⟨.literal (.string s), p⟩ :: ·)) ∧
    ∀ (rest : List Char) (p : Position),
      (∀ steps, scan types (steps + 1) p (quote :: rest) = do
        let l ← readAt types p (quote :: rest)
        return ⟨l.value, p⟩ :: (← scan types steps (p.advance l.taken) l.rest)) ∧
      (∀ l, readAt types p (quote :: rest) = .ok l ↔ ∃ before after, Closes quote (glyphs rest) before after ∧
        l = ⟨.literal (.string (String.ofList (before.filterMap (Glyph.value? quote)))),
          quote :: before.flatMap Glyph.written ++ [quote], after.flatMap Glyph.written⟩) ∧
      (∀ e place, readAt types p (quote :: rest) = .error ⟨.invalidEscape e, place⟩ ↔
        ∃ before, Misleads quote (glyphs rest) before e ∧ place = p.advance (quote :: before.flatMap Glyph.written)) ∧
      ∀ place, readAt types p (quote :: rest) = .error ⟨.unterminatedString, place⟩ ↔
        Breaks quote (glyphs rest) ∧ place = p := by
  refine ⟨fun s rest p steps => ?_, fun rest p => ?_⟩
  · exact scan_lexeme .nil (starts_with_quote hquote _).1 (reads_enclosed types hquote s rest) steps p
  have hended := readAt_ended types hquote p rest
  refine ⟨fun steps => scan_quote types hquote steps p rest, fun l => ⟨fun hread => ?_, ?_⟩,
    fun e place => ⟨fun hread => ?_, ?_⟩, fun place => ⟨fun hread => ?_, ?_⟩⟩
  · rw [hread] at hended
    cases hended with
    | closed h => exact ⟨_, _, h, rfl⟩
  · rintro ⟨before, after, h, rfl⟩
    exact readAt_closes types hquote p h
  · rw [hread] at hended
    cases hended with
    | misled h => exact ⟨_, h, rfl⟩
  · rintro ⟨before, h, rfl⟩
    exact readAt_misleads types hquote p h
  · rw [hread] at hended
    cases hended with
    | broken h => exact ⟨h, rfl⟩
  · rintro ⟨h, rfl⟩
    exact readAt_breaks types hquote _ h

/-- All kinds of escapes with another quote and a letter of two bytes between them, and an escape that means nothing. -/
theorem string_constants_decode_escaped : isQuote '"' = true ∧
    scan (fun _ => none) 3 .start (enclosed '"' "é\"'\\\n\r\t" ++ ['+']) =
      .ok [⟨.literal (.string "é\"'\\\n\r\t"), ⟨1, 1⟩⟩, ⟨.operator .plus, ⟨1, 15⟩⟩, ⟨.endOfInput, ⟨1, 16⟩⟩] ∧
    readAt (fun _ => none) .start ['"', 'a', '\\', 'q', '"'] = .error ⟨.invalidEscape 'q', ⟨1, 3⟩⟩ := by
  obtain ⟨hwritten, hread⟩ := string_constants_decode (fun _ => none) (show isQuote '"' = true from rfl)
  refine ⟨rfl, ?_, ?_⟩
  · rw [hwritten]
    rfl
  · refine ((hread ['a', '\\', 'q', '"'] .start).2.2.1 'q' ⟨1, 3⟩).mpr ⟨[.single 'a'], ⟨⟨_, rfl⟩, ?_, rfl⟩, rfl⟩
    exact List.forall_mem_singleton.mpr rfl

end Lexer

end Scriptlet
