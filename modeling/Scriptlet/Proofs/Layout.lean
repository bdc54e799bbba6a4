import Scriptlet.Proofs.InterpolatedReading
import Scriptlet.Proofs.MatchedBrackets
import Scriptlet.Proofs.StringConstants

/-!
# Layout does not matter

Other trivia between two tokens leaves the kinds of all tokens as they are, if it begins with a blank. A lexeme looks
ahead, but not beyond a blank; so what is read in front of the changed place stays the same. Behind it only places
change.
-/

namespace Scriptlet

mutual

/-- A kind of token, with no places in it. -/
def TokenKind.unplaced : TokenKind → TokenKind
  | .interpolated template arguments => .interpolated template (Token.unplacedEach arguments)
  | kind => kind

def Token.unplaced : Token → Token
  | ⟨kind, _⟩ => ⟨kind.unplaced, .start⟩

def Token.unplacedAll : List Token → List Token
  | [] => []
  | token :: rest => token.unplaced :: Token.unplacedAll rest

def Token.unplacedEach : List (List Token) → List (List Token)
  | [] => []
  | tokens :: rest => Token.unplacedAll tokens :: Token.unplacedEach rest

end

namespace Token

theorem unplacedAll_eq_map (tokens : List Token) : unplacedAll tokens = tokens.map unplaced := by
  induction tokens with
  | nil => rfl
  | cons token rest ih => rw [unplacedAll, ih, List.map_cons]

theorem unplacedAll_dropLast {tokens tokens' : List Token} (h : unplacedAll tokens' = unplacedAll tokens) :
    unplacedAll tokens'.dropLast = unplacedAll tokens.dropLast := by
  simp only [unplacedAll_eq_map, List.map_dropLast] at h ⊢
  rw [h]

theorem isKeyword_unplaced (token : Token) (word : Keyword) :
    token.unplaced.kind.isKeyword word = token.kind.isKeyword word := by
  obtain ⟨kind, p⟩ := token
  cases kind <;> rfl

end Token

open Token (unplaced unplacedAll unplacedEach)

namespace Brackets

theorem brackets_unplacedAll (tokens : List Token) : brackets (unplacedAll tokens) = brackets tokens := by
  have hkind : (bracket? ·.kind) ∘ unplaced = (bracket? ·.kind) := by
    funext ⟨kind, _⟩
    cases kind <;> rfl
  rw [brackets, Token.unplacedAll_eq_map, List.filterMap_map, hkind, brackets]

theorem check_of_unplacedAll {tokens tokens' : List Token} (h : unplacedAll tokens' = unplacedAll tokens)
    (hcheck : check tokens = .ok ()) : check tokens' = .ok () := by
  have hverdict := check_verdict tokens
  rw [hcheck] at hverdict
  cases hverdict with
  | matched hmatched =>
    rw [← brackets_unplacedAll, ← h, brackets_unplacedAll] at hmatched
    exact check_of_matched hmatched

end Brackets

namespace Numeral

theorem isBlank_of_isWordChar {c : Char} (h : isWordChar c = true) : Text.isBlank c = false := by
  simp only [isWordChar, Bool.or_eq_true, decide_eq_true_eq] at h
  rcases h with (h | h) | h
  · exact (over_of_starts (.inl h) []).blank c rfl
  · exact Text.isBlank_of_isDigit (isDigit_iff.mp h)
  · exact (over_of_starts (.inr h) []).blank c rfl

end Numeral

namespace QuotedText

theorem Content.readContent_eq {quote : Char} (hquote : isQuote quote = true) {written content : List Char}
    (h : Content quote written content) (whole rest : List Char) :
    readContent quote whole (written ++ quote :: rest) = .ok ⟨content, written ++ [quote], rest⟩ := by
  induction h with
  | nil => rw [List.nil_append, readContent_single (ne_backslash hquote), if_pos rfl, List.nil_append]
  | @plain c written content hne hbackslash hline _ ih =>
    have hvalue : (Glyph.single c).value? quote = some c := if_neg (by simp [hne, hbackslash, hline])
    exact (readContent_glyph hvalue (written ++ quote :: rest)).trans (by rw [ih]; rfl)
  | @escaped e c written content he _ ih =>
    have hvalue : (Glyph.escape e).value? quote = some c := (escape?_eq_lookup e).symm.trans he
    exact (readContent_glyph hvalue (written ++ quote :: rest)).trans (by rw [ih]; rfl)

end QuotedText

namespace Lexer

open Interpolation

variable {types : TypeNames} {rest trivia text : List Char} {kind : TokenKind} {p : Position} {chunks : List Chunk}

theorem Plain.reads {lexeme : List Char} (h : Plain types lexeme rest kind) : Reads types lexeme rest kind := by
  cases h with
  | word hstart hword hends => exact reads_word hstart hword hends
  | number h =>
    have hread := h.read_eq
    cases h with
    | @parts digits fraction exponent letter _ _ hne hdigits =>
      obtain _ | ⟨d, digits⟩ := digits
      · exact absurd rfl hne
      · have hd := hdigits d List.mem_cons_self
        refine ⟨?_, interpolated_cons ?_, List.cons_ne_nil _ _, rfl⟩
        · simp only [List.cons_append] at hread ⊢
          rw [readLexeme, if_pos hd, hread]
          rfl
        · rintro rfl
          cases hd
  | @quoted quote written content _ hquote h =>
    have hread := h.readContent_eq hquote (quote :: (written ++ quote :: rest)) rest
    refine ⟨?_, (starts_with_quote hquote _).2, List.cons_ne_nil _ _, rfl⟩
    rw [List.cons_append, List.append_assoc, readLexeme_quote types hquote, QuotedText.read, List.singleton_append,
      hread]
    rfl
  | sign h hlongest => exact reads_longest_sign h hlongest

section Resembles

/-- Whatever has no blank in it and stands at the start of the second text stands at the start of the first one. -/
def Resembles (text text' : List Char) : Prop :=
  ∀ word, (∀ c ∈ word, Text.isBlank c = false) → word <+: text' → word <+: text

variable {text text' : List Char}

theorem Resembles.refl (text : List Char) : Resembles text text :=
  fun _ _ => id

theorem Resembles.of_blank {c : Char} (hc : Text.isBlank c = true) (text text' : List Char) :
    Resembles text (c :: text') := by
  rintro (_ | ⟨d, word⟩) hword hstands
  · exact List.nil_prefix
  · obtain rfl := (List.cons_prefix_cons.mp hstands).1
    rw [hword d List.mem_cons_self] at hc
    cases hc

theorem Resembles.append (h : Resembles text text') (front : List Char) :
    Resembles (front ++ text) (front ++ text') := by
  intro word hword hstands
  rcases List.prefix_or_prefix_of_prefix hstands (List.prefix_append front text') with hshort | ⟨behind, rfl⟩
  · exact hshort.trans (List.prefix_append front text)
  · rw [List.prefix_append_right_inj] at hstands ⊢
    exact h behind (fun c hc => hword c (List.mem_append_right _ hc)) hstands

theorem Resembles.ends (h : Resembles text text') (hends : ∀ c ∈ text.head?, Numeral.isWordChar c = false) :
    ∀ c ∈ text'.head?, Numeral.isWordChar c = false := by
  intro c hc
  rw [Bool.eq_false_iff]
  intro hword
  have hstands : [c] <+: text' := by
    obtain ⟨rest, rfl⟩ := List.head?_eq_some_iff.mp hc
    exact ⟨rest, rfl⟩
  obtain ⟨behind, rfl⟩ := h [c] (by simpa using Numeral.isBlank_of_isWordChar hword) hstands
  rw [hends c rfl] at hword
  cases hword

theorem Between.ends {trivia : List Char} (h : Trivia.Between trivia) :
    ∀ c ∈ trivia.head?, Numeral.isWordChar c = false := by
  cases h with
  | nil => nofun
  | blank hc =>
    rintro _ ⟨⟩
    rw [Bool.eq_false_iff]
    exact fun hword => absurd hc (Bool.eq_false_iff.mp (Numeral.isBlank_of_isWordChar hword))
  | line => rintro _ ⟨⟩; rfl
  | block => rintro _ ⟨⟩; rfl

theorem signs_not_blank : ∀ s ∈ signs, ∀ c ∈ s.1, Text.isBlank c = false := by
  have hall : signs.all (fun s => s.1.all fun c => !Text.isBlank c) = true := by decide
  simpa using hall

/-- A lexeme is written the same way in front of a text that begins alike, up to the first blank. -/
theorem Plain.resembling {lexeme : List Char} {kind : TokenKind} (h : Plain types lexeme text kind)
    (hbehind : Resembles text text') : Plain types lexeme text' kind := by
  cases h with
  | word hstart hword hends => exact .word hstart hword (hbehind.ends hends)
  | number h =>
    cases h with
    | parts hne hdigits hfraction hexponent hletter hvalue hends hpoint =>
      refine .number (.parts hne hdigits hfraction hexponent hletter hvalue (hbehind.ends hends) ?_)
      rintro hnil hnil' hnil'' c after rfl
      rw [Bool.eq_false_iff]
      intro hc
      -- a point with a digit behind it would stand in the first text as well
      have hblank := Text.isBlank_of_isDigit (Numeral.isDigit_iff.mp hc)
      obtain ⟨after, rfl⟩ := hbehind ['.', c] (by simp [hblank]; rfl) ⟨after, rfl⟩
      rw [hpoint hnil hnil' hnil'' c after rfl] at hc
      cases hc
  | quoted hquote h => exact .quoted hquote h
  | sign h hlongest =>
    exact .sign h fun s hs hstands => hlongest s hs (hbehind.append lexeme s.1 (signs_not_blank s hs) hstands)

theorem Over.resembling {lexeme : List Char} (hne : lexeme ≠ []) (h : Trivia.Over (lexeme ++ text))
    (hbehind : Resembles text text') : Trivia.Over (lexeme ++ text') where
  blank := by
    have hblank := h.blank
    rwa [List.head?_append_of_ne_nil _ hne] at hblank ⊢
  line := mt (hbehind.append lexeme _ (List.forall_mem_cons.mpr ⟨rfl, List.forall_mem_singleton.mpr rfl⟩)) h.line
  block := mt (hbehind.append lexeme _ (List.forall_mem_cons.mpr ⟨rfl, List.forall_mem_singleton.mpr rfl⟩)) h.block

end Resembles

/-- What may take the place of trivia: the same, or something that begins with a blank. -/
def Replaces (trivia trivia' : List Char) : Prop :=
  trivia' = trivia ∨ ∃ c ∈ trivia'.head?, Text.isBlank c = true

theorem Replaces.resembles {trivia' rest' : List Char} (h : Replaces trivia trivia')
    (hrest : Resembles rest rest') : Resembles (trivia ++ rest) (trivia' ++ rest') := by
  rcases h with rfl | ⟨c, hc, hblank⟩
  · exact hrest.append trivia'
  · obtain ⟨trivia', rfl⟩ := List.head?_eq_some_iff.mp hc
    exact .of_blank hblank _ _

/-- The second text has the lexemes of the first one, and other trivia in some places. -/
inductive Relaid (types : TypeNames) : List Char → List Char → Prop
  | ended {text text' : List Char} (h : Trivia.AtEnd text) (h' : Trivia.AtEnd text') (hreplaces : Replaces text text') :
      Relaid types text text'
  | plain {trivia trivia' lexeme rest rest' : List Char} {kind : TokenKind} (htrivia : Trivia.Between trivia)
      (htrivia' : Trivia.Between trivia') (hreplaces : Replaces trivia trivia') (hover : Trivia.Over (lexeme ++ rest))
      (hlexeme : Plain types lexeme rest kind) (hrest : Relaid types rest rest') :
      Relaid types (trivia ++ (lexeme ++ rest)) (trivia' ++ (lexeme ++ rest'))
  | interpolated {trivia trivia' written rest rest' : List Char} {quote : Char} {content : Interpolation.Content}
      {chunks : List Chunk} (htrivia : Trivia.Between trivia) (htrivia' : Trivia.Between trivia')
      (hreplaces : Replaces trivia trivia') (hquote : QuotedText.isQuote quote = true)
      (hchunks : Chunked (Tiles (Spells types)) quote written content chunks) (hrest : Relaid types rest rest') :
      Relaid types (trivia ++ ('$' :: quote :: (written ++ [quote]) ++ rest))
        (trivia' ++ ('$' :: quote :: (written ++ [quote]) ++ rest'))

theorem Relaid.resembles {text' : List Char} (h : Relaid types text text') : Resembles text text' := by
  induction h with
  | ended _ _ hreplaces =>
    have hresembles := hreplaces.resembles (.refl [])
    rwa [List.append_nil, List.append_nil] at hresembles
  | plain _ _ hreplaces _ _ _ ih => exact hreplaces.resembles (ih.append _)
  | interpolated _ _ hreplaces _ _ _ ih => exact hreplaces.resembles (ih.append _)

/-- The words `else` and `if` are two lexemes. -/
theorem Spells.relaid {trivia' lexeme rest' : List Char}
    (h : Spells types p lexeme rest kind) (htrivia : Trivia.Between trivia) (htrivia' : Trivia.Between trivia')
    (hreplaces : Replaces trivia trivia') (hover : Trivia.Over (lexeme ++ rest)) (hrest : Relaid types rest rest') :
    Relaid types (trivia ++ (lexeme ++ rest)) (trivia' ++ (lexeme ++ rest')) := by
  cases h with
  | plain h => exact .plain htrivia htrivia' hreplaces hover h hrest
  | @elseIf _ between _ hbetween hne hends =>
    have hif : Plain types "if".toList rest _ :=
      @Plain.word types 'i' ['f'] rest (.inl rfl) (List.all_eq_true.mp rfl) hends
    have hword : ∀ c ∈ (between ++ ("if".toList ++ rest)).head?, Numeral.isWordChar c = false := by
      rw [List.head?_append_of_ne_nil _ hne]
      exact Between.ends hbetween
    have helse : Plain types "else".toList (between ++ ("if".toList ++ rest)) _ :=
      @Plain.word types 'e' ['l', 's', 'e'] _ (.inl rfl) (List.all_eq_true.mp rfl) hword
    simp only [List.append_assoc] at hover ⊢
    exact .plain htrivia htrivia' hreplaces hover helse
      (.plain hbetween hbetween (.inl rfl) (Numeral.over_of_starts (.inl rfl) _) hif hrest)
  | interpolated hquote h =>
    obtain ⟨chunks, hchunks⟩ := h.chunked
    exact .interpolated htrivia htrivia' hreplaces hquote hchunks hrest

theorem Tiles.relaid {tokens : List Token} (h : Tiles (Spells types) p text tokens) : Relaid types text text := by
  induction h with
  | done h => exact .ended h h (.inl rfl)
  | token htrivia hover hlexeme _ ih => exact hlexeme.relaid htrivia htrivia (.inl rfl) hover ih

/-- A result that has tokens, the same but for their places, whenever another one has. -/
def Follows (result result' : Except LexError (List Token)) : Prop :=
  ∀ tokens, result = .ok tokens → ∃ tokens', result' = .ok tokens' ∧ unplacedAll tokens' = unplacedAll tokens

theorem Follows.cons {result result' : Except LexError (List Token)} (h : Follows result result') {kind' : TokenKind}
    (hkind : kind'.unplaced = kind.unplaced) (p p' : Position) :
    Follows (result.map (⟨kind, p⟩ :: ·)) (result'.map (⟨kind', p'⟩ :: ·)) := by
  intro tokens htokens
  cases result with
  | error e => cases htokens
  | ok rest =>
    cases htokens
    obtain ⟨rest', rfl, hrest⟩ := h rest rfl
    exact ⟨_, rfl, by rw [unplacedAll, unplacedAll, unplaced, unplaced, hkind, hrest]⟩

theorem argumentTokens_follow {scan scan' : Position → List Char → Except LexError (List Token)}
    (h : ∀ text tail, Chunk.argument text tail ∈ chunks → ∀ p p', Follows (scan p text) (scan' p' text))
    (p p' : Position) {found : List (List Token)} (hfound : argumentTokens scan (arguments p chunks) = .ok found) :
    ∃ found', argumentTokens scan' (arguments p' chunks) = .ok found' ∧ unplacedEach found' = unplacedEach found := by
  induction chunks generalizing p p' found with
  | nil =>
    cases hfound
    exact ⟨[], rfl, rfl⟩
  | cons chunk chunks ih =>
    have hothers := fun text tail hmem => h text tail (List.mem_cons_of_mem _ hmem)
    cases chunk with
    | character c written => exact ih hothers _ _ hfound
    | doubledBrace c => exact ih hothers _ _ hfound
    | argument text tail =>
      obtain ⟨tokens, others, htokens, hcheck, hrest, rfl⟩ := exists_of_argumentTokens hfound
      obtain ⟨tokens', htokens', hsame⟩ := h text tail List.mem_cons_self _ (p'.step '\x7b') tokens htokens
      have hsame := Token.unplacedAll_dropLast hsame
      obtain ⟨others', hothers', hsame'⟩ := ih hothers _ (p'.advance (Chunk.argument text tail).written) hrest
      refine ⟨tokens'.dropLast :: others', ?_, by rw [unplacedEach, unplacedEach, hsame, hsame']⟩
      simp only [arguments, argumentTokens, bind, Except.bind, htokens', Brackets.check_of_unplacedAll hsame hcheck,
        hothers']
      rfl

/-- A scan takes an interpolated string with the trivia in front of it and goes on behind it. -/
theorem scan_interpolated (types : TypeNames) (htrivia : Trivia.Between trivia) {quote : Char}
    (hquote : QuotedText.isQuote quote = true) (hchunks : ∀ chunk ∈ chunks, chunk.WellFormed quote)
    (rest : List Char) (steps : Nat) (p : Position) : ∃ inside behind,
    scan types (steps + 1) p (trivia ++ ('$' :: quote :: (chunks.flatMap (·.written) ++ [quote]) ++ rest)) =
      (argumentTokens (scan types steps) (arguments inside chunks)).bind fun found => (scan types steps behind rest).map
          (⟨.interpolated (String.ofList (template 0 chunks)) found, p.advance trivia⟩ :: ·) := by
  have hover (text : List Char) : Trivia.Over ('$' :: text) := Trivia.over_cons (by decide) (by decide)
  have hread (whole : List Char) :=
    @readChunks_written quote hquote chunks hchunks whole (chunks.flatMap (·.written) ++ quote :: rest) (by simp) rest
  refine ⟨(p.advance trivia).advance ['$', quote],
    (((p.advance trivia).advance ['$', quote]).advance (chunks.flatMap (·.written))).step quote, ?_⟩
  rw [List.cons_append, List.cons_append, List.append_assoc, List.singleton_append, scan, Trivia.split_between htrivia,
    Trivia.split_over (hover _)]
  simp only [Trivia.Split.after, List.append_nil, if_true, interpolated?, hquote, hread, LexFault.locate, bind,
    Except.bind]
  cases argumentTokens (scan types steps) (arguments ((p.advance trivia).advance ['$', quote]) chunks) with
  | error e => rfl
  | ok found =>
    simp only
    cases scan types steps _ rest <;> rfl

theorem length_argument_lt {tail : List Char} (h : .argument text tail ∈ chunks) :
    text.length < (chunks.flatMap (·.written)).length := by
  obtain ⟨front, back, rfl⟩ := List.append_of_mem h
  simp only [List.flatMap_append, List.flatMap_cons, Chunk.written, List.cons_append, List.length_append,
    List.length_cons]
  omega

/-- Whatever tokens a text has, the text with other trivia has as well, at their own places. The induction is on the
length of the text: an argument of an interpolated string is a shorter text, which keeps its trivia. -/
theorem scan_relaid {text' : List Char} (h : Relaid types text text') {steps steps' : Nat}
    (hsteps : text.length ≤ steps) (hsteps' : text'.length ≤ steps') (p p' : Position) :
    Follows (scan types steps p text) (scan types steps' p' text') := by
  induction hlength : text.length using Nat.strongRecOn generalizing text text' steps steps' p p' with
  | ind n ih =>
    cases h with
    | ended h h' =>
      rw [scan_of_tiles (.done h) hsteps, scan_of_tiles (.done h') hsteps']
      rintro _ ⟨⟩
      exact ⟨_, rfl, rfl⟩
    | @plain trivia trivia' lexeme rest rest' kind htrivia htrivia' _ hover hlexeme hrest =>
      have hpositive := List.length_pos_iff.mpr hlexeme.ne_nil
      have hresembles := hrest.resembles
      simp only [List.length_append] at hlength hsteps hsteps'
      obtain _ | steps := steps
      · omega
      obtain _ | steps' := steps'
      · omega
      -- the lexeme is read alike, since what stands behind it resembles what stood there
      rw [scan_lexeme htrivia hover hlexeme.reads,
        scan_lexeme htrivia' (Over.resembling hlexeme.ne_nil hover hresembles) (hlexeme.resembling hresembles).reads]
      exact (ih rest.length (by omega) hrest (by omega) (by omega) _ _ rfl).cons rfl _ _
    | @interpolated trivia trivia' written rest rest' quote content chunks htrivia htrivia' _ hquote hchunks hrest =>
      simp only [List.length_append, List.length_cons] at hlength hsteps hsteps'
      obtain _ | steps := steps
      · omega
      obtain _ | steps' := steps'
      · omega
      obtain ⟨rfl, hwell, -, htiled⟩ := hchunks
      obtain ⟨inside, behind, hscan⟩ := scan_interpolated types htrivia hquote hwell rest steps p
      obtain ⟨inside', behind', hscan'⟩ := scan_interpolated types htrivia' hquote hwell rest' steps' p'
      rw [hscan, hscan']
      have hbehind : Follows (scan types steps behind rest) (scan types steps' behind' rest') :=
        ih rest.length (by omega) hrest (by omega) (by omega) behind behind' rfl
      have hargument : ∀ text tail, Chunk.argument text tail ∈ chunks → ∀ q q',
          Follows (scan types steps q text) (scan types steps' q' text) := by
        intro text tail hmem q q'
        obtain ⟨_, tokens, htiles⟩ := htiled text tail hmem
        have hshort := length_argument_lt hmem
        exact ih text.length (by omega) htiles.relaid (by omega) (by omega) q q' rfl
      intro tokens htokens
      cases hfound : argumentTokens (scan types steps) (arguments inside chunks) with
      | error e =>
        rw [hfound] at htokens
        cases htokens
      | ok found =>
        obtain ⟨found', hfound', hsame⟩ := argumentTokens_follow hargument inside inside' hfound
        rw [hfound] at htokens
        rw [hfound']
        exact hbehind.cons (by simp only [TokenKind.unplaced, hsame]) _ _ tokens htokens

/-- The trivia between two tokens of a text. It begins behind the lexeme of the one and goes up to the lexeme of the
other, or up to the end. -/
structure Gap (types : TypeNames) (start : Position) (text : List Char) (first second : Token)
    (before lexeme gap after : List Char) : Prop where
  joined : text = before ++ (lexeme ++ (gap ++ after))
  begins : first.position = start.advance before
  spells : Spells types first.position lexeme (gap ++ after) first.kind
  trivia : Trivia.AtEnd gap ∧ (after ≠ [] → Trivia.Between gap)
  ends : second.position = start.advance (before ++ (lexeme ++ gap))
  behind : second.kind = .endOfInput ∧ after = [] ∨
    ∃ lexeme' rest, after = lexeme' ++ rest ∧ Spells types second.position lexeme' rest second.kind

theorem Tiles.gap {lexed front back : List Token} {first second : Token} (h : Tiles (Spells types) p text lexed)
    (hlexed : lexed ++ [⟨.endOfInput, p.advance text⟩] = front ++ first :: second :: back) :
    ∃ before lexeme gap after, Gap types p text first second before lexeme gap after ∧
      ∀ layout, Trivia.Between layout → (∃ c ∈ layout.head?, Text.isBlank c = true) →
        Relaid types text (before ++ (lexeme ++ (layout ++ after))) := by
  induction h generalizing front with
  | done h =>
    have hlength := congrArg List.length hlexed
    simp only [List.nil_append, List.length_append, List.length_cons, List.length_nil] at hlength
    omega
  | @token p trivia lexeme rest kind tokens htrivia hover hlexeme hrest ih =>
    have hend : p.advance (trivia ++ (lexeme ++ rest)) = (p.advance (trivia ++ lexeme)).advance rest := by
      rw [← Position.advance_append, List.append_assoc]
    rw [hend, List.cons_append] at hlexed
    cases front with
    | nil =>
      obtain ⟨rfl, hnext⟩ := List.cons.inj hlexed
      cases hrest with
      | done hrest =>
        obtain ⟨rfl, -⟩ := List.cons.inj hnext
        refine ⟨trivia, lexeme, rest, [],
          ⟨by simp, rfl, by simpa using hlexeme, ⟨hrest, absurd rfl⟩, ?_, .inl ⟨rfl, rfl⟩⟩,
          fun layout hlayout hblank => ?_⟩
        · simp [Position.advance_append]
        · rw [List.append_nil]
          exact hlexeme.relaid htrivia htrivia (.inl rfl) hover (.ended hrest (.between hlayout) (.inr hblank))
      | @token _ gap lexeme' rest kind' tokens hgap hover' hlexeme' hrest =>
        obtain ⟨rfl, -⟩ := List.cons.inj hnext
        refine ⟨trivia, lexeme, gap, lexeme' ++ rest, ⟨rfl, rfl, hlexeme, ⟨.between hgap, fun _ => hgap⟩, ?_,
          .inr ⟨_, _, rfl, hlexeme'⟩⟩, fun layout hlayout hblank => ?_⟩
        · simp [Position.advance_append]
        · exact hlexeme.relaid htrivia htrivia (.inl rfl) hover
            (hlexeme'.relaid hgap hlayout (.inr hblank) hover' hrest.relaid)
    | cons token front =>
      obtain ⟨before, lexeme', gap, after, hgap, hrelaid⟩ := ih (List.cons.inj hlexed).2
      refine ⟨trivia ++ (lexeme ++ before), lexeme', gap, after, ⟨?_, ?_, hgap.spells, hgap.trivia, ?_, hgap.behind⟩,
        fun layout hlayout hblank => ?_⟩
      · rw [hgap.joined]
        simp
      · rw [hgap.begins]
        simp [Position.advance_append]
      · rw [hgap.ends]
        simp [Position.advance_append]
      · have hwhole := hlexeme.relaid htrivia htrivia (.inl rfl) hover (hrelaid layout hlayout hblank)
        simpa only [List.append_assoc] using hwhole

theorem joinElseIf_unplacedAll (tokens : List Token) :
    unplacedAll (joinElseIf tokens) = joinElseIf (unplacedAll tokens) := by
  fun_induction joinElseIf tokens with
  | case1 => rfl
  | case2 => rfl
  | case3 token next rest hboth ih =>
    rw [unplacedAll, unplacedAll, unplacedAll, joinElseIf, Token.isKeyword_unplaced, Token.isKeyword_unplaced,
      if_pos hboth, ih]
    cases token
    rfl
  | case4 token next rest hboth ih =>
    simp only [unplacedAll] at ih ⊢
    rw [ih, joinElseIf, Token.isKeyword_unplaced, Token.isKeyword_unplaced, if_neg hboth]

theorem tokenize_relaid {source : String} {tokens : List Token}
    (h : tokenize types source = .ok tokens) (hrelaid : Relaid types source.toList text) :
    ∃ tokens', tokenize types (String.ofList text) = .ok tokens' ∧ unplacedAll tokens' = unplacedAll tokens := by
  obtain ⟨raw, hraw, hcheck, rfl⟩ := exists_of_tokenize h
  obtain ⟨raw', hraw', hsame⟩ := scan_relaid hrelaid (Nat.le_refl _) (Nat.le_refl _) .start .start raw hraw
  have hjoined : unplacedAll (joinElseIf raw') = unplacedAll (joinElseIf raw) := by
    rw [joinElseIf_unplacedAll, hsame, joinElseIf_unplacedAll]
  refine ⟨joinElseIf raw', ?_, hjoined⟩
  simp only [tokenize, rawTokens, String.toList_ofList, hraw', bind, Except.bind,
    Brackets.check_of_unplacedAll hjoined hcheck]
  rfl

/-- Between any two consecutive tokens of a source text, the last of which may be the mark of the end, there is trivia
or nothing at all. Whatever other trivia that begins with a blank stands there instead, with every comment closed and
every line ended, the source text has tokens, and they are the same but for their places. -/
theorem layout_immaterial {source : String} {front back : List Token} {first second : Token}
    (h : tokenize types source = .ok (front ++ first :: second :: back)) :
    ∃ before lexeme gap after, Gap types .start source.toList first second before lexeme gap after ∧
      ∀ layout, Trivia.Between layout → (∃ c ∈ layout.head?, Text.isBlank c = true) →
        ∃ tokens, tokenize types (String.ofList (before ++ (lexeme ++ (layout ++ after)))) = .ok tokens ∧
          Token.unplacedAll tokens = Token.unplacedAll (front ++ first :: second :: back) := by
  obtain ⟨lexed, htokens, htiles, -⟩ := tokenize_tiles h
  obtain ⟨before, lexeme, gap, after, hgap, hrelaid⟩ := htiles.gap htokens.symm
  exact ⟨before, lexeme, gap, after, hgap, fun layout hlayout hblank =>
    tokenize_relaid h (hrelaid layout hlayout hblank)⟩

/-- Tokens with nothing between them. The point would belong to the number if a digit followed. -/
def crampedText : String :=
  "1.x/$'\x7by\x7d'"

/-- Whether the tokens of `crampedText` are a number, a point and others. -/
def readsCrampedText : Except LexError (List Token) → Bool
  | .ok (⟨.literal _, _⟩ :: ⟨.operator .dot, ⟨1, 2⟩⟩ :: _) => true
  | _ => false

theorem layout_immaterial_crampedText : ∃ first second back,
    tokenize (fun _ => none) crampedText = .ok (first :: second :: back) ∧ second.position = ⟨1, 2⟩ ∧
      ∃ before lexeme gap after,
        Gap (fun _ => none) .start crampedText.toList first second before lexeme gap after ∧
          ∃ tokens, tokenize (fun _ => none)
            (String.ofList (before ++ (lexeme ++ ("\t//.5\n/*/*/".toList ++ after)))) = .ok tokens ∧
              Token.unplacedAll tokens = Token.unplacedAll (first :: second :: back) := by
  have hrun : readsCrampedText (tokenize (fun _ => none) crampedText) = true := by decide +kernel
  unfold readsCrampedText at hrun
  split at hrun
  · next htokens =>
    obtain ⟨before, lexeme, gap, after, hgap, hlayout⟩ := @layout_immaterial _ _ [] _ _ _ htokens
    have hbetween : Trivia.Between "\t//.5\n/*/*/".toList :=
      .blank rfl (@Trivia.Between.line ['.', '5'] _ (by decide) (@Trivia.Between.block ['/'] [] (by decide) .nil))
    exact ⟨_, _, _, htokens, rfl, before, lexeme, gap, after, hgap, hlayout _ hbetween ⟨'\t', rfl, rfl⟩⟩
  · cases hrun

end Lexer

end Scriptlet
