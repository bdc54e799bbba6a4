import Mathlib.Data.List.Chain
import Scriptlet.Proofs.InterpolatedText

/-!
# Tokens tile the source

The tokens of a text stand for lexemes that follow one another with nothing but trivia between them, and every token
has the place of the first character of its lexeme. The same holds inside of the expressions of interpolated strings.
-/

namespace Scriptlet

namespace Position

/-- The one place comes before the other. -/
def Before (p q : Position) : Prop :=
  p.line < q.line ∨ p.line = q.line ∧ p.column < q.column

theorem Before.trans {p q r : Position} (h : p.Before q) (h' : q.Before r) : p.Before r := by
  unfold Before at *
  omega

theorem before_step (p : Position) (c : Char) : p.Before (p.step c) := by
  unfold Before step
  split
  · exact .inl (Nat.lt_succ_self _)
  · exact .inr ⟨rfl, Nat.lt_succ_self _⟩

theorem before_advance (p : Position) {cs : List Char} (h : cs ≠ []) : p.Before (p.advance cs) := by
  induction cs generalizing p with
  | nil => exact absurd rfl h
  | cons c cs ih =>
    rw [advance_cons]
    cases cs with
    | nil => exact before_step p c
    | cons d cs => exact (before_step p c).trans (ih (p.step c) (List.cons_ne_nil _ _))

end Position

namespace Lexer

open Interpolation

/-- Tokens tile a text that begins at a place: in front of every lexeme there is all the trivia and nothing else, the
token is what the lexeme spells, and its place is that of its first character. What a lexeme spells is left open. -/
inductive Tiles (Spelled : Position → List Char → List Char → TokenKind → Prop) :
    Position → List Char → List Token → Prop
  | done {p : Position} {text : List Char} (h : Trivia.AtEnd text) : Tiles Spelled p text []
  | token {p : Position} {trivia lexeme rest : List Char} {kind : TokenKind} {tokens : List Token}
      (htrivia : Trivia.Between trivia) (hover : Trivia.Over (lexeme ++ rest))
      (hlexeme : Spelled (p.advance trivia) lexeme rest kind)
      (hrest : Tiles Spelled (p.advance (trivia ++ lexeme)) rest tokens) :
      Tiles Spelled p (trivia ++ (lexeme ++ rest)) (⟨kind, p.advance trivia⟩ :: tokens)

/-- What a lexeme at a place spells, with the text behind it. The words `else` and `if` with trivia between them spell
one token, and so does an interpolated string, whose expressions are tiled in turn. -/
inductive Spells (types : TypeNames) : Position → List Char → List Char → TokenKind → Prop
  | plain {p : Position} {lexeme rest : List Char} {kind : TokenKind} (h : Plain types lexeme rest kind) :
      Spells types p lexeme rest kind
  | elseIf {p : Position} {trivia rest : List Char} (htrivia : Trivia.Between trivia) (hne : trivia ≠ [])
      (hends : ∀ c ∈ rest.head?, Numeral.isWordChar c = false) :
      Spells types p ("else".toList ++ (trivia ++ "if".toList)) rest (.keyword .elseIfWord)
  | interpolated {p : Position} {quote : Char} {written rest : List Char} {content : Interpolation.Content}
      {arguments : List (List Token)} (hquote : QuotedText.isQuote quote = true)
      (h : Interpolates (Tiles (Spells types)) (p.advance ['$', quote]) quote written content arguments) :
      Spells types p ('$' :: quote :: (written ++ [quote])) rest
        (.interpolated (String.ofList (content.template 0)) arguments)

namespace Spells

variable {types : TypeNames} {p : Position} {lexeme rest : List Char} {kind : TokenKind}

theorem ne_nil (h : Spells types p lexeme rest kind) : lexeme ≠ [] := by
  cases h with
  | plain h => exact h.ne_nil
  | elseIf => exact List.cons_ne_nil _ _
  | interpolated => exact List.cons_ne_nil _ _

theorem not_end (h : Spells types p lexeme rest kind) : kind.isEnd = false := by
  cases h with
  | plain h => exact h.not_end
  | elseIf => rfl
  | interpolated => rfl

theorem interpolated_inv {template : String} {arguments : List (List Token)}
    (h : Spells types p lexeme rest (.interpolated template arguments)) :
    ∃ quote written content, QuotedText.isQuote quote = true ∧ lexeme = '$' :: quote :: (written ++ [quote]) ∧
      template = String.ofList (content.template 0) ∧
      Interpolates (Tiles (Spells types)) (p.advance ['$', quote]) quote written content arguments := by
  generalize hkind : TokenKind.interpolated template arguments = kind at h
  cases h with
  | plain h => exact absurd hkind h.ne_interpolated
  | elseIf => cases hkind
  | @interpolated _ quote written _ content _ hquote h =>
    cases hkind
    exact ⟨quote, written, content, hquote, rfl, rfl, h⟩

/-- A keyword other than `else if` is spelled by its own letters, and no letter or digit follows. -/
theorem keyword_inv {word : Keyword} (hword : word ≠ .elseIfWord) (h : Spells types p lexeme rest (.keyword word)) :
    lexeme = word.text.toList ∧ ∀ c ∈ rest.head?, Numeral.isWordChar c = false := by
  generalize hkind : TokenKind.keyword word = kind at h
  cases h with
  | plain h => exact h.keyword_inv hkind.symm
  | elseIf => cases hkind; exact absurd rfl hword
  | interpolated => cases hkind

end Spells

namespace Tiles

variable {Spelled : Position → List Char → List Char → TokenKind → Prop} {p : Position} {text : List Char}
  {tokens : List Token}

theorem lexeme_at (h : Tiles Spelled p text tokens) {token : Token} (htoken : token ∈ tokens) :
    ∃ before lexeme after, text = before ++ (lexeme ++ after) ∧ token.position = p.advance before ∧
      Spelled token.position lexeme after token.kind := by
  induction h with
  | done => cases htoken
  | @token p trivia lexeme rest kind tokens _ _ hlexeme _ ih =>
    rcases List.mem_cons.mp htoken with rfl | htoken
    · exact ⟨trivia, lexeme, rest, rfl, rfl, hlexeme⟩
    · obtain ⟨before, lexeme', after, rfl, hposition, hspelled⟩ := ih htoken
      refine ⟨trivia ++ lexeme ++ before, lexeme', after, by simp, ?_, hspelled⟩
      rw [hposition, ← Position.advance_append]

theorem increasing (hspelled : ∀ {p lexeme rest kind}, Spelled p lexeme rest kind → lexeme ≠ [])
    (h : Tiles Spelled p text tokens) :
    (tokens.map (·.position) ++ [p.advance text]).Pairwise Position.Before := by
  -- the first place is not before the beginning, so it is after all that came before the text
  suffices hall : (tokens.map (·.position) ++ [p.advance text]).Pairwise Position.Before ∧
      ∀ q : Position, q.Before p → ∀ r ∈ tokens.map (·.position) ++ [p.advance text], q.Before r from hall.1
  have hlater : ∀ {q p : Position} (cs : List Char), q.Before p → q.Before (p.advance cs) := by
    intro q p cs hq
    by_cases hcs : cs = []
    · rwa [hcs]
    · exact hq.trans (p.before_advance hcs)
  induction h with
  | @done p text =>
    refine ⟨List.pairwise_singleton _ _, fun q hq r hr => ?_⟩
    obtain rfl := List.mem_singleton.mp hr
    exact hlater text hq
  | @token p trivia lexeme rest kind tokens _ _ hlexeme _ ih =>
    obtain ⟨hpairwise, hafter⟩ := ih
    have hend : p.advance (trivia ++ (lexeme ++ rest)) = (p.advance (trivia ++ lexeme)).advance rest := by
      rw [← Position.advance_append, List.append_assoc]
    have hnext : (p.advance trivia).Before (p.advance (trivia ++ lexeme)) := by
      rw [Position.advance_append]
      exact Position.before_advance _ (hspelled hlexeme)
    rw [hend]
    refine ⟨List.pairwise_cons.mpr ⟨hafter _ hnext, hpairwise⟩, fun q hq r hr => ?_⟩
    have hfirst : q.Before (p.advance trivia) := hlater trivia hq
    rcases List.mem_cons.mp hr with rfl | hr
    · exact hfirst
    · exact hafter q (hfirst.trans hnext) r hr

end Tiles

/-- The tokens of a text that begins at a place: those that tile it, and the mark of its end. -/
def Scanned (types : TypeNames) (p : Position) (text : List Char) (tokens : List Token) : Prop :=
  ∃ lexed, tokens = lexed ++ [⟨.endOfInput, p.advance text⟩] ∧ Tiles (Spells types) p text lexed

variable {types : TypeNames} {p : Position} {tokens : List Token} {text : List Char}

theorem exists_of_tokenize {source : String} (h : tokenize types source = .ok tokens) :
    ∃ raw, rawTokens types source = .ok raw ∧ Brackets.check (joinElseIf raw) = .ok () ∧ tokens = joinElseIf raw := by
  obtain ⟨raw, hraw, h⟩ := exists_ok_of_bind h
  obtain ⟨_, hcheck, ⟨⟩⟩ := exists_ok_of_bind h
  exact ⟨raw, hraw, hcheck, rfl⟩

theorem exists_of_argumentTokens {scan : Position → List Char → Except LexError (List Token)}
    {texts : List (Position × List Char)} {found : List (List Token)}
    (h : argumentTokens scan ((p, text) :: texts) = .ok found) :
    ∃ tokens others, scan p text = .ok tokens ∧ Brackets.check tokens.dropLast = .ok () ∧
      argumentTokens scan texts = .ok others ∧ found = tokens.dropLast :: others := by
  obtain ⟨tokens, htokens, h⟩ := exists_ok_of_bind h
  obtain ⟨_, hcheck, h⟩ := exists_ok_of_bind h
  obtain ⟨others, hothers, ⟨⟩⟩ := exists_ok_of_bind h
  exact ⟨tokens, others, htokens, hcheck, hothers, rfl⟩

/-- The chunks of a string and the tokens of its arguments make up what the string says. -/
theorem interpolates_of_chunks {quote : Char} {steps : Nat}
    (hscan : ∀ {p text tokens}, text.length ≤ steps → scan types steps p text = .ok tokens →
      Scanned types p text tokens) {chunks : List Chunk} (hchunks : ∀ chunk ∈ chunks, chunk.WellFormed quote)
    (hlength : (chunks.flatMap (·.written)).length ≤ steps) {tokens : List (List Token)}
    (h : argumentTokens (scan types steps) (arguments p chunks) = .ok tokens) :
    ∃ content, Interpolates (Tiles (Spells types)) p quote (chunks.flatMap (·.written)) content tokens ∧
      ∀ count, template count chunks = content.template count := by
  induction chunks generalizing p tokens with
  | nil =>
    cases h
    exact ⟨⟨[], []⟩, .nil, fun _ => rfl⟩
  | cons chunk chunks ih =>
    have hothers : ∀ other ∈ chunks, other.WellFormed quote := fun other hother =>
      hchunks other (List.mem_cons_of_mem _ hother)
    rw [List.flatMap_cons, List.length_append] at hlength
    rw [List.flatMap_cons]
    cases hchunks chunk List.mem_cons_self with
    | plain hquote hbackslash hline hopen hclose =>
      obtain ⟨content, hinterpolates, htemplate⟩ := ih hothers (by omega) h
      refine ⟨_, .plain hquote hbackslash hline hopen hclose hinterpolates, fun count => ?_⟩
      rw [content.template_push (not_or.mpr ⟨hopen, hclose⟩), ← htemplate]
      rfl
    | escaped he =>
      obtain ⟨content, hinterpolates, htemplate⟩ := ih hothers (by omega) h
      refine ⟨_, .escaped he hinterpolates, fun count => ?_⟩
      rw [content.template_push (escape_ne_brace he), ← htemplate]
      rfl
    | brace hc =>
      obtain ⟨content, hinterpolates, htemplate⟩ := ih hothers (by omega) h
      refine ⟨_, .brace hc hinterpolates, fun count => ?_⟩
      rw [content.template_push_brace hc, ← htemplate]
      rfl
    | @hole hole hhole =>
      have hwritten : (Chunk.argument hole.text hole.tail).written = hole.written := rfl
      have htext : hole.text.length ≤ steps := by
        simp only [hwritten, Hole.written, List.length_cons, List.length_append] at hlength
        omega
      obtain ⟨found, others, hfound, -, hothersTokens, rfl⟩ := exists_of_argumentTokens h
      obtain ⟨lexed, rfl, htiles⟩ := hscan htext hfound
      obtain ⟨content, hinterpolates, htemplate⟩ := ih hothers (by omega) hothersTokens
      rw [List.dropLast_concat, hwritten]
      refine ⟨_, .hole hhole htiles hinterpolates, fun count => ?_⟩
      rw [content.template_punch, ← htemplate]
      rfl

theorem interpolated_eq {source content : List Char} {quote : Char} (h : interpolated? source = some (quote, content)) :
    source = '$' :: quote :: content ∧ QuotedText.isQuote quote = true := by
  unfold interpolated? at h
  split at h
  · split at h
    · next hquote =>
      cases h
      exact ⟨rfl, hquote⟩
    · cases h
  · cases h

theorem locate_eq_ok {α : Type} {source : List Char} {r : Except LexFault α} {a : α}
    (h : LexFault.locate p source r = .ok a) : r = .ok a := by
  cases r with
  | error fault => cases h
  | ok b => cases h; rfl

theorem Scanned.token {trivia lexeme rest : List Char} {kind : TokenKind}
    (htrivia : Trivia.Between trivia) (hover : Trivia.Over (lexeme ++ rest))
    (hlexeme : Spells types (p.advance trivia) lexeme rest kind)
    (hrest : Scanned types ((p.advance trivia).advance lexeme) rest tokens) :
    Scanned types p (trivia ++ (lexeme ++ rest)) (⟨kind, p.advance trivia⟩ :: tokens) := by
  obtain ⟨lexed, rfl, htiles⟩ := hrest
  rw [← Position.advance_append] at htiles
  refine ⟨⟨kind, p.advance trivia⟩ :: lexed, ?_, .token htrivia hover hlexeme htiles⟩
  rw [Position.advance_append, Position.advance_append]
  rfl

/-- An interpolated string is a lexeme, if scanning the texts of its arguments and what is behind it tiles these. -/
theorem Scanned.interpolated {steps : Nat} {trivia source content rest : List Char} {quote : Char}
    {argumentTiles : List (List Token)}
    (hscan : ∀ {p text tokens}, text.length ≤ steps → scan types steps p text = .ok tokens → Scanned types p text tokens)
    (htrivia : Trivia.Between trivia) (hover : Trivia.Over source) (hlength : source.length ≤ steps + 1)
    (hsource : interpolated? source = some (quote, content))
    (harguments : argumentTokens (scan types steps) (arguments ((p.advance trivia).advance ['$', quote])
      (readChunks quote source content content).chunks) = .ok argumentTiles)
    (hending : (readChunks quote source content content).ending = .ok rest)
    (hrest : scan types steps ((((p.advance trivia).advance ['$', quote]).advance
      ((readChunks quote source content content).chunks.flatMap (·.written))).step quote) rest = .ok tokens) :
    Scanned types p (trivia ++ source) (⟨.interpolated (String.ofList (template 0
      (readChunks quote source content content).chunks)) argumentTiles, p.advance trivia⟩ :: tokens) := by
  obtain ⟨rfl, hquote⟩ := interpolated_eq hsource
  obtain ⟨hcontent, hchunks⟩ := readChunks_sound hending
  generalize readChunks quote ('$' :: quote :: content) content content = reading at *
  subst hcontent
  simp only [List.length_cons, List.length_append] at hlength
  obtain ⟨what, hinterpolates, htemplate⟩ := interpolates_of_chunks hscan hchunks (by omega) harguments
  rw [htemplate]
  have hlexeme : Spells types (p.advance trivia) _ rest _ := .interpolated hquote hinterpolates
  have hjoined : '$' :: quote :: (reading.chunks.flatMap (·.written) ++ quote :: rest) =
      '$' :: quote :: (reading.chunks.flatMap (·.written) ++ [quote]) ++ rest := by simp
  rw [hjoined] at hover ⊢
  refine .token htrivia hover hlexeme ?_
  have hbehind := hscan (by omega) hrest
  simpa [Position.advance_append] using hbehind

/-- A scan that has as many steps as there are characters gives the tokens that tile the text. The induction is on the
steps: a lexeme takes at least one character, and the text of an argument is shorter than the string around it. -/
theorem scan_tiles (types : TypeNames) (steps : Nat)
    (hlength : text.length ≤ steps) (h : scan types steps p text = .ok tokens) : Scanned types p text tokens := by
  induction steps generalizing p text tokens with
  | zero =>
    obtain rfl := List.eq_nil_of_length_eq_zero (Nat.le_zero.mp hlength)
    cases h
    exact ⟨[], rfl, .done (.between .nil)⟩
  | succ steps ih =>
    simp only [scan] at h
    split at h
    · next hclosed =>
      have hsplit := Trivia.split_sound text hclosed
      have hjoined := hsplit.joined
      generalize Trivia.split text = s at h hsplit hjoined
      obtain ⟨trivia, source, closed⟩ := s
      simp only at h hjoined
      subst hjoined
      rw [List.length_append] at hlength
      split at h
      · next quote content hinterpolated =>
        obtain ⟨arguments, harguments, h⟩ := exists_ok_of_bind h
        obtain ⟨rest, hending, h⟩ := exists_ok_of_bind h
        obtain ⟨others, hothers, ⟨⟩⟩ := exists_ok_of_bind h
        have hsource : source ≠ [] := by
          rintro rfl
          cases hinterpolated
        exact .interpolated ih (hsplit.between hsource) hsplit.finished (by omega) hinterpolated harguments
          (locate_eq_ok hending) hothers
      · obtain ⟨lexeme, hlocated, hbehind⟩ := exists_ok_of_bind h
        have hlexeme := locate_eq_ok hlocated
        by_cases hsource : source = []
        · subst hsource
          cases hlexeme
          cases hbehind
          exact ⟨[], by simp, .done (by simpa using hsplit.atEnd)⟩
        · obtain ⟨rfl, hplain⟩ := readLexeme_sound hsource hlexeme
          have hpositive : 0 < lexeme.taken.length := List.length_pos_iff.mpr hplain.ne_nil
          rw [List.length_append] at hlength
          rw [if_neg (by simp [hplain.not_end])] at hbehind
          obtain ⟨others, hothers, ⟨⟩⟩ := exists_ok_of_bind hbehind
          exact .token (hsplit.between hsource) hsplit.finished (.plain hplain) (ih (by omega) hothers)
    · cases h

/-- The words `else` and `if` of a tiled text may be joined, with the trivia between them. -/
theorem Tiles.joined {otherwise condition : Token} (helse : otherwise.kind.isKeyword .elseWord = true)
    (hif : condition.kind.isKeyword .ifWord = true)
    (h : Tiles (Spells types) p text (otherwise :: condition :: tokens)) :
    ∃ lexeme rest, ∃ trivia, Trivia.Between trivia ∧ text = trivia ++ (lexeme ++ rest) ∧ Trivia.Over (lexeme ++ rest) ∧
      otherwise.position = p.advance trivia ∧ Spells types (p.advance trivia) lexeme rest (.keyword .elseIfWord) ∧
      Tiles (Spells types) (p.advance (trivia ++ lexeme)) rest tokens := by
  have hkeyword : ∀ {kind : TokenKind} {word : Keyword}, kind.isKeyword word = true → kind = .keyword word := by
    intro kind word hkind
    unfold TokenKind.isKeyword at hkind
    split at hkind
    · rw [decide_eq_true_eq] at hkind
      rw [hkind]
    · cases hkind
  cases h with
  | @token _ trivia lexeme _ kind _ htrivia hover hlexeme hrest =>
    cases hrest with
    | @token _ between lexeme' rest kind' _ hbetween _ hlexeme' hrest =>
      obtain rfl : kind = .keyword .elseWord := hkeyword helse
      obtain rfl : kind' = .keyword .ifWord := hkeyword hif
      obtain ⟨rfl, hends⟩ := hlexeme.keyword_inv (by decide)
      obtain ⟨rfl, hends'⟩ := hlexeme'.keyword_inv (by decide)
      have hne : between ≠ [] := by
        rintro rfl
        exact absurd (hends 'i' rfl) (by decide)
      refine ⟨"else".toList ++ (between ++ "if".toList), rest, trivia, htrivia, by simp [Keyword.text], ?_, rfl,
        .elseIf hbetween hne hends', ?_⟩
      · simpa [Keyword.text] using hover
      · simpa [Keyword.text, Position.advance_append] using hrest

/-- Joining `else` and `if` keeps the tiling and the mark of the end. -/
theorem joinElseIf_tiles (last : Position) {lexed : List Token} (h : Tiles (Spells types) p text lexed) :
    ∃ joined, joinElseIf (lexed ++ [⟨.endOfInput, last⟩]) = joined ++ [⟨.endOfInput, last⟩] ∧
      Tiles (Spells types) p text joined := by
  induction hlength : lexed.length using Nat.strongRecOn generalizing p text lexed with
  | ind n ih =>
    cases lexed with
    | nil => exact ⟨[], rfl, h⟩
    | cons first others =>
      cases others with
      | nil => exact ⟨[first], by simp [joinElseIf, TokenKind.isKeyword], h⟩
      | cons second others =>
        simp only [List.cons_append, joinElseIf]
        split
        · next hboth =>
          rw [Bool.and_eq_true] at hboth
          obtain ⟨lexeme, rest, trivia, htrivia, rfl, hover, hposition, hlexeme, hrest⟩ := h.joined hboth.1 hboth.2
          obtain ⟨joined, hjoined, htiles⟩ := ih others.length (by simp at hlength; omega) hrest rfl
          rw [hjoined, hposition]
          exact ⟨_, rfl, .token htrivia hover hlexeme htiles⟩
        · cases h with
          | token htrivia hover hlexeme hrest =>
            obtain ⟨joined, hjoined, htiles⟩ := ih (others.length + 1) (by simp at hlength; omega) hrest rfl
            rw [List.cons_append] at hjoined
            rw [hjoined]
            exact ⟨_, rfl, .token htrivia hover hlexeme htiles⟩

/-- Not the words `else` and `if`, which are joined. -/
def Apart (a b : Token) : Prop :=
  ¬ (a.kind.isKeyword .elseWord = true ∧ b.kind.isKeyword .ifWord = true)

theorem joinElseIf_apart (tokens : List Token) : (joinElseIf tokens).IsChain Apart := by
  have hhead : ∀ (first : Token) (others : List Token), ∀ token ∈ (joinElseIf (first :: others)).head?,
      token.kind.isKeyword .ifWord = true → first.kind.isKeyword .ifWord = true := by
    intro first others token htoken
    cases others with
    | nil => cases htoken; exact id
    | cons second others =>
      rw [joinElseIf] at htoken
      split at htoken
      · cases htoken
        intro hif
        cases hif
      · cases htoken
        exact id
  fun_induction joinElseIf tokens with
  | case1 => exact .nil
  | case2 token => exact .singleton token
  | case3 token next rest hboth ih =>
    refine List.isChain_cons.mpr ⟨fun other _ hapart => ?_, ih⟩
    cases hapart.1
  | case4 token next rest hboth ih =>
    refine List.isChain_cons.mpr ⟨fun other hother hapart => hboth ?_, ih⟩
    rw [Bool.and_eq_true]
    exact ⟨hapart.1, hhead next rest other hother hapart.2⟩

/-- The second list has the tokens of an argument of an interpolated string of the first one, at any depth. -/
inductive Nested : List Token → List Token → Prop
  | argument {tokens inside : List Token} {token : Token} {template : String} {arguments : List (List Token)}
      (htoken : token ∈ tokens) (hkind : token.kind = .interpolated template arguments) (hinside : inside ∈ arguments) :
      Nested tokens inside
  | deeper {tokens middle inside : List Token} (h : Nested tokens middle) (h' : Nested middle inside) :
      Nested tokens inside

/-- The tokens of an argument tile the text of the argument, at its place in the whole text. -/
theorem Tiles.nested {inside : List Token} (h : Tiles (Spells types) p text tokens) (hnested : Nested tokens inside) :
    ∃ before argument after, text = before ++ (argument ++ after) ∧
      Tiles (Spells types) (p.advance before) argument inside := by
  induction hnested generalizing p text with
  | @argument tokens inside token template arguments htoken hkind hinside =>
    obtain ⟨before, lexeme, after, rfl, hposition, hspelled⟩ := h.lexeme_at htoken
    rw [hkind] at hspelled
    obtain ⟨quote, written, content, -, rfl, -, hinterpolates⟩ := hspelled.interpolated_inv
    obtain ⟨before', argument, after', rfl, htiles⟩ := hinterpolates.argument_at hinside
    refine ⟨before ++ ('$' :: quote :: before'), argument, after' ++ (quote :: after), by simp, ?_⟩
    rw [hposition] at htiles
    simpa [Position.advance_append] using htiles
  | deeper _ _ ih ih' =>
    obtain ⟨before, middle, after, rfl, htiles⟩ := ih h
    obtain ⟨before', argument, after', rfl, htiles'⟩ := ih' htiles
    refine ⟨before ++ before', argument, after' ++ after, by simp, ?_⟩
    rwa [Position.advance_append]

theorem Tiles.not_end (h : Tiles (Spells types) p text tokens) : ∀ token ∈ tokens, token.kind.isEnd = false := by
  intro token htoken
  obtain ⟨_, _, _, _, _, hspelled⟩ := h.lexeme_at htoken
  exact hspelled.not_end

theorem Tiles.pairwise (h : Tiles (Spells types) p text tokens) :
    (tokens.map (·.position) ++ [p.advance text]).Pairwise Position.Before :=
  h.increasing Spells.ne_nil

theorem tokenize_tiles {source : String} (h : tokenize types source = .ok tokens) :
    ∃ lexed, tokens = lexed ++ [⟨.endOfInput, Position.start.advance source.toList⟩] ∧
      Tiles (Spells types) .start source.toList lexed ∧ tokens.IsChain Apart := by
  obtain ⟨raw, hraw, -, rfl⟩ := exists_of_tokenize h
  obtain ⟨lexed, rfl, htiles⟩ := scan_tiles types _ (Nat.le_refl _) hraw
  obtain ⟨joined, hjoined, htiles⟩ := joinElseIf_tiles (Position.start.advance source.toList) htiles
  exact ⟨joined, hjoined, htiles, joinElseIf_apart _⟩

/-- Whenever a source text has tokens, they tile it from its beginning to its end, `else if` being joined wherever it
occurs, and only the last one marks the end and stands there. The places of the tokens increase strictly. The tokens
of every argument of an interpolated string, at any depth, tile a part of the source text in the same way, at the place
which that part has in the whole source text. -/
theorem tokens_tile_source {types : TypeNames} {source : String} {tokens : List Token}
    (h : tokenize types source = .ok tokens) :
    ∃ lexed, tokens = lexed ++ [⟨.endOfInput, Position.start.advance source.toList⟩] ∧
      (∀ token ∈ lexed, token.kind.isEnd = false) ∧ Tiles (Spells types) .start source.toList lexed ∧
      tokens.IsChain Apart ∧ (tokens.map (·.position)).Pairwise Position.Before ∧
      ∀ inside, Nested lexed inside → ∃ before text after, source.toList = before ++ (text ++ after) ∧
        Tiles (Spells types) (Position.start.advance before) text inside ∧
        (∀ token ∈ inside, token.kind.isEnd = false) ∧ (inside.map (·.position)).Pairwise Position.Before := by
  obtain ⟨lexed, rfl, htiles, hapart⟩ := tokenize_tiles h
  refine ⟨lexed, rfl, htiles.not_end, htiles, hapart, by simpa using htiles.pairwise, fun inside hinside => ?_⟩
  obtain ⟨before, text, after, htext, hinner⟩ := htiles.nested hinside
  exact ⟨before, text, after, htext, hinner, hinner.not_end, (List.pairwise_append.mp hinner.pairwise).1⟩

/-- A comment between `else` and `if` on two lines, and a string in a string. -/
def nestedStrings : String :=
  "else/*é*/\nif $'\x7bf($\"\x7bn\x7d\")\x7d'"

/-- The tokens of `nestedStrings`, as far as they tell their places. -/
def readsNestedStrings : Except LexError (List Token) → Bool
  | .ok [⟨.keyword .elseIfWord, ⟨1, 1⟩⟩,
      ⟨.interpolated _ [[_, _, ⟨.interpolated _ [[⟨.identifier _, ⟨2, 12⟩⟩]], _⟩, _]], ⟨2, 4⟩⟩, _] => true
  | _ => false

theorem tokens_tile_source_nestedStrings :
    ∃ lexed inside, tokenize (fun _ => none) nestedStrings = .ok (lexed ++ [⟨.endOfInput, ⟨2, 18⟩⟩]) ∧
      lexed.map (·.position) = [⟨1, 1⟩, ⟨2, 4⟩] ∧ Tiles (Spells fun _ => none) .start nestedStrings.toList lexed ∧
      Nested lexed inside ∧ inside.map (·.position) = [⟨2, 12⟩] ∧
      ∃ before text after, nestedStrings.toList = before ++ (text ++ after) ∧
        Tiles (Spells fun _ => none) (Position.start.advance before) text inside := by
  have hrun : readsNestedStrings (tokenize (fun _ => none) nestedStrings) = true := by
    decide +kernel
  unfold readsNestedStrings at hrun
  split at hrun
  · next htokens =>
    obtain ⟨lexed, hlexed, -, htiles, -, -, hnested⟩ := tokens_tile_source htokens
    have hlast : Position.start.advance nestedStrings.toList = ⟨2, 18⟩ := by decide
    have hfront := congrArg List.dropLast hlexed
    rw [List.dropLast_concat] at hfront
    rw [hlast] at hlexed
    have hstring : Nested lexed _ := .argument (by rw [← hfront]; exact .tail _ (.head _)) rfl (.head _)
    have hinside := Nested.deeper hstring (.argument (.tail _ (.tail _ (.head _))) rfl (.head _))
    obtain ⟨before, text, after, htext, hinner, -, -⟩ := hnested _ hinside
    exact ⟨lexed, _, hlexed ▸ htokens, by rw [← hfront]; rfl, htiles, hinside, rfl, before, text, after, htext, hinner⟩
  · cases hrun

end Lexer

end Scriptlet
