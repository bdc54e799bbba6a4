import Scriptlet.Proofs.Templates

/-!
# Interpolated strings are read as they are written

Whatever the grammar allows for the inside of an interpolated string is read, and the chunks tell what the string says.
So a string says one thing only: no other texts and holes are written in the same way.
-/

namespace Scriptlet.Interpolation

variable {quote c : Char}

theorem ne_of_isQuote (hquote : QuotedText.isQuote quote = true) (hc : QuotedText.isQuote c = false) : c ≠ quote := by
  rintro rfl
  exact absurd hquote (Bool.eq_false_iff.mp hc)

theorem splitQuoted_inside {inside : List Char} (hquote : QuotedText.isQuote quote = true)
    (h : Inside quote inside) (rest : List Char) :
    splitQuoted quote (inside ++ quote :: rest) = some (inside ++ [quote], rest) := by
  have hbackslash : '\\' ≠ quote := ne_of_isQuote hquote rfl
  have hline : '\n' ≠ quote := ne_of_isQuote hquote rfl
  induction h with
  | nil =>
    rw [List.nil_append, splitQuoted]
    · simp [hline.symm]
    · exact fun heq => hbackslash heq.symm
  | plain hquote hbackslash hline _ ih =>
    rw [List.cons_append, splitQuoted]
    · simp [hline, hquote, ih, prepend]
    · exact hbackslash
  | escaped hline _ ih => simp [splitQuoted, hline, ih, prepend]

theorem splitArgument_extent (hquote : QuotedText.isQuote quote = true) {depth : Nat} {text : List Char}
    (h : Extent quote depth text) {steps : List Char} (hsteps : text.length < steps.length)
    (hc : c = '\x7d' ∨ c = ',' ∨ c = ':') (rest : List Char) :
    splitArgument quote steps depth (text ++ c :: rest) = some (text, c :: rest) := by
  induction h generalizing steps with
  | nil =>
    obtain _ | ⟨step, steps⟩ := steps
    · cases hsteps
    · have hne := ne_of_isQuote hquote (show QuotedText.isQuote c = false by rcases hc with rfl | rfl | rfl <;> rfl)
      rcases hc with rfl | rfl | rfl <;> simp [splitArgument, QuotedText.isQuote, hne]
  | @quoted depth q inside others hq hne hinside _ ih =>
    obtain _ | ⟨step, steps⟩ := steps
    · cases hsteps
    · have hrest := ih (show others.length < steps.length by simp at hsteps; omega)
      have hline : '\n' ≠ q := ne_of_isQuote hq rfl
      have hquoted := splitQuoted_inside hq hinside (others ++ c :: rest)
      simp [splitArgument, hline.symm, hne, hq, hquoted, hrest, prepend]
  | @opening depth d others hd _ ih =>
    obtain _ | ⟨step, steps⟩ := steps
    · cases hsteps
    · have hrest := ih (Nat.lt_of_succ_lt_succ hsteps)
      have hne := ne_of_isQuote hquote (show QuotedText.isQuote d = false by rcases hd with rfl | rfl | rfl <;> rfl)
      rcases hd with rfl | rfl | rfl <;> simp [splitArgument, QuotedText.isQuote, hne, hrest, prepend]
  | @closing depth d others hd _ ih =>
    obtain _ | ⟨step, steps⟩ := steps
    · cases hsteps
    · have hrest := ih (Nat.lt_of_succ_lt_succ hsteps)
      have hne := ne_of_isQuote hquote (show QuotedText.isQuote d = false by rcases hd with rfl | rfl <;> rfl)
      rcases hd with rfl | rfl <;> simp [splitArgument, QuotedText.isQuote, hne, hrest, prepend]
  | @brace depth others _ ih =>
    obtain _ | ⟨step, steps⟩ := steps
    · cases hsteps
    · have hrest := ih (Nat.lt_of_succ_lt_succ hsteps)
      have hne : '\x7d' ≠ quote := ne_of_isQuote hquote rfl
      simp [splitArgument, QuotedText.isQuote, hne, hrest, prepend]
  | @plain depth d others hline hd hbracket hend _ ih =>
    obtain _ | ⟨step, steps⟩ := steps
    · cases hsteps
    · have hrest := ih (Nat.lt_of_succ_lt_succ hsteps)
      have hne := ne_of_isQuote hquote hd
      simp only [List.mem_cons, List.not_mem_nil, or_false, not_or] at hbracket
      by_cases hdepth : depth = 0
      · subst hdepth
        simp [splitArgument, hline, hne, hd, hbracket, hend rfl, hrest, prepend]
      · simp [splitArgument, hline, hne, hd, hbracket, hdepth, hrest, prepend]

theorem splitTail_plain {inner : List Char} (h : Plain quote inner) (rest : List Char) :
    splitTail quote (inner ++ '\x7d' :: rest) = some (inner ++ ['\x7d'], rest) := by
  induction inner with
  | nil => rfl
  | cons c inner ih =>
    obtain ⟨hclose, hquote, hline⟩ := h c List.mem_cons_self
    have hrest := ih fun d hd => h d (List.mem_cons_of_mem _ hd)
    simp [splitTail, hclose, hquote, hline, hrest, prepend]

theorem trim_isEmpty_of_mem {text : List Char} (hc : c ∈ text) (h : Text.isBlank c = false) :
    (Text.trim text).isEmpty = false := by
  rw [Bool.eq_false_iff, ne_eq, List.isEmpty_iff, trim_eq_nil_iff]
  intro hblank
  exact absurd (hblank c hc) (Bool.eq_false_iff.mp h)

namespace Hole

def ofParts (text tail : List Char) : Hole :=
  let (front, specifier) := Template.cutAt ':' tail.dropLast
  ⟨text, (Template.cutAt ',' front).2, specifier⟩

theorem ofParts_tail {quote : Char} {hole : Hole} (h : hole.WellFormed quote) : ofParts hole.text hole.tail = hole := by
  obtain ⟨text, alignment, specifier⟩ := hole
  have hcolon : ':' ∉ (alignment.map (',' :: ·)).getD [] := by
    cases alignment with
    | none => simp
    | some a => simpa using (h.alignment a rfl).2
  have hfront : Template.cutAt ',' ((alignment.map (',' :: ·)).getD []) = ([], alignment) :=
    Template.cutAt_eq_iff.mpr ⟨rfl, List.not_mem_nil⟩
  have htail : Template.cutAt ':' ((alignment.map (',' :: ·)).getD [] ++ (specifier.map (':' :: ·)).getD []) = _ :=
    Template.cutAt_eq_iff.mpr ⟨rfl, hcolon⟩
  simp only [ofParts, tail, List.dropLast_concat, htail, hfront]

theorem tail_eq_cons (hole : Hole) : ∃ c others, hole.tail = c :: others ∧ (c = '\x7d' ∨ c = ',' ∨ c = ':') := by
  obtain ⟨text, alignment, specifier⟩ := hole
  cases alignment with
  | some a => exact ⟨_, _, rfl, .inr (.inl rfl)⟩
  | none =>
    cases specifier with
    | some s => exact ⟨_, _, rfl, .inr (.inr rfl)⟩
    | none => exact ⟨_, _, rfl, .inl rfl⟩

theorem splitTail_tail {quote : Char} (hquote : QuotedText.isQuote quote = true) {hole : Hole}
    (h : hole.WellFormed quote) (rest : List Char) : splitTail quote (hole.tail ++ rest) = some (hole.tail, rest) := by
  have hplain : ∀ (mark : Char) (part : Option (List Char)), mark ≠ '\x7d' ∧ mark ≠ quote ∧ mark ≠ '\n' →
      (∀ text ∈ part, Plain quote text) → Plain quote ((part.map (mark :: ·)).getD []) := by
    intro mark part hmark hpart
    cases part with
    | none => exact fun c hc => absurd hc List.not_mem_nil
    | some text => exact List.forall_mem_cons.mpr ⟨hmark, hpart text rfl⟩
  have hinner : Plain quote ((hole.alignment.map (',' :: ·)).getD [] ++ (hole.specifier.map (':' :: ·)).getD []) :=
    List.forall_mem_append.mpr
      ⟨hplain ',' _ ⟨by decide, ne_of_isQuote hquote rfl, by decide⟩ fun text htext => (h.alignment text htext).1,
        hplain ':' _ ⟨by decide, ne_of_isQuote hquote rfl, by decide⟩ h.specifier⟩
  rw [tail, List.append_assoc _ ['\x7d'] rest]
  exact splitTail_plain hinner rest

end Hole

/-- Chunks that are written as the grammar says are read up to the closing quote. -/
theorem readChunks_written (hquote : QuotedText.isQuote quote = true) {chunks : List Chunk}
    (h : ∀ chunk ∈ chunks, chunk.WellFormed quote) (whole : List Char) {steps : List Char}
    (hsteps : (chunks.flatMap (·.written)).length < steps.length) (rest : List Char) :
    readChunks quote whole steps (chunks.flatMap (·.written) ++ quote :: rest) = ⟨chunks, .ok rest⟩ := by
  induction chunks generalizing steps with
  | nil =>
    obtain _ | ⟨step, steps⟩ := steps
    · cases hsteps
    · have hbackslash : '\\' ≠ quote := ne_of_isQuote hquote rfl
      have hopen : '\x7b' ≠ quote := ne_of_isQuote hquote rfl
      have hclose : '\x7d' ≠ quote := ne_of_isQuote hquote rfl
      rw [List.flatMap_nil, List.nil_append, readChunks]
      · simp
      all_goals simp [hbackslash.symm, hopen.symm, hclose.symm]
  | cons chunk chunks ih =>
    obtain ⟨hchunk, hchunks⟩ := List.forall_mem_cons.mp h
    rw [List.flatMap_cons, List.length_append] at hsteps
    rw [List.flatMap_cons, List.append_assoc]
    obtain _ | ⟨step, steps⟩ := steps
    · cases hsteps
    have hwritten : 0 < chunk.written.length := by cases hchunk <;> simp [Chunk.written]
    have hread := @ih hchunks steps (by rw [List.length_cons] at hsteps; omega)
    generalize chunks.flatMap (·.written) ++ quote :: rest = behind at hread ⊢
    cases hchunk with
    | plain hne hbackslash hline hopen hclose =>
      rw [Chunk.written, List.cons_append, List.nil_append, readChunks]
      · simp [hne, hline, hread, Reading.after]
      all_goals simp [hbackslash, hopen, hclose]
    | escaped he => simp [Chunk.written, readChunks, he, hread, Reading.after]
    | brace hc => rcases hc with rfl | rfl <;> simp [Chunk.written, readChunks, hread, Reading.after]
    | @hole hole hhole =>
      have hargument : splitArgument quote (hole.text ++ (hole.tail ++ behind)) 0
          (hole.text ++ (hole.tail ++ behind)) = some (hole.text, hole.tail ++ behind) := by
        obtain ⟨c, others, htail, hc⟩ := hole.tail_eq_cons
        rw [htail]
        exact splitArgument_extent hquote hhole.extent (by simp) hc _
      obtain ⟨d, hd, hblank⟩ := hhole.present
      rw [Chunk.written, List.cons_append, List.cons_append, List.append_assoc, readChunks]
      · simp [hargument, trim_isEmpty_of_mem hd hblank, Hole.splitTail_tail hquote hhole, hread, Reading.after]
      · intro others heq
        have hundoubled := hhole.undoubled
        cases htext : hole.text with
        | nil => simp [htext] at hd
        | cons first text =>
          rw [htext] at heq hundoubled
          cases heq
          exact hundoubled rfl

def Content.ofChunks : List Chunk → Content
  | [] => ⟨[], []⟩
  | .character c _ :: rest => (ofChunks rest).push c
  | .doubledBrace c :: rest => (ofChunks rest).push c
  | .argument text tail :: rest => (ofChunks rest).punch (.ofParts text tail)

/-- Chunks of a string that says something, with the texts of its arguments at some places. -/
structure Chunked (Tiled : Position → List Char → List Token → Prop) (quote : Char) (written : List Char)
    (content : Content) (chunks : List Chunk) : Prop where
  written : chunks.flatMap (·.written) = written
  wellFormed : ∀ chunk ∈ chunks, chunk.WellFormed quote
  content : Content.ofChunks chunks = content
  arguments : ∀ text tail, .argument text tail ∈ chunks → ∃ p tokens, Tiled p text tokens

theorem Chunked.cons {Tiled : Position → List Char → List Token → Prop} {written : List Char}
    {content : Content} {chunk : Chunk} {chunks : List Chunk} (h : Chunked Tiled quote written content chunks)
    (hchunk : chunk.WellFormed quote)
    (hargument : ∀ text tail, chunk = .argument text tail → ∃ p tokens, Tiled p text tokens) :
    Chunked Tiled quote (chunk.written ++ written) (Content.ofChunks (chunk :: chunks)) (chunk :: chunks) where
  written := by rw [List.flatMap_cons, h.written]
  wellFormed := List.forall_mem_cons.mpr ⟨hchunk, h.wellFormed⟩
  content := rfl
  arguments text tail hmem := by
    rcases List.mem_cons.mp hmem with heq | hmem
    · exact hargument text tail heq.symm
    · exact h.arguments text tail hmem

namespace Interpolates

variable {Tiled : Position → List Char → List Token → Prop} {p : Position} {quote : Char} {written : List Char}
  {content : Content} {arguments : List (List Token)}

theorem chunked (h : Interpolates Tiled p quote written content arguments) :
    ∃ chunks, Chunked Tiled quote written content chunks := by
  induction h with
  | nil => exact ⟨[], rfl, nofun, rfl, nofun⟩
  | plain hquote hbackslash hline hopen hclose _ ih =>
    obtain ⟨chunks, hchunks⟩ := ih
    obtain rfl := hchunks.content
    exact ⟨_, hchunks.cons (.plain hquote hbackslash hline hopen hclose) nofun⟩
  | escaped he _ ih =>
    obtain ⟨chunks, hchunks⟩ := ih
    obtain rfl := hchunks.content
    exact ⟨_, hchunks.cons (.escaped he) nofun⟩
  | brace hc _ ih =>
    obtain ⟨chunks, hchunks⟩ := ih
    obtain rfl := hchunks.content
    exact ⟨_, hchunks.cons (.brace hc) nofun⟩
  | hole hhole htokens _ ih =>
    obtain ⟨chunks, hchunks⟩ := ih
    have hwhole := hchunks.cons (.hole hhole) fun _ _ heq => by cases heq; exact ⟨_, _, htokens⟩
    rw [Content.ofChunks, hchunks.content, Hole.ofParts_tail hhole] at hwhole
    exact ⟨_, hwhole⟩

theorem content_unique {Tiled' : Position → List Char → List Token → Prop} {p' : Position} {content' : Content}
    {arguments' : List (List Token)} (hquote : QuotedText.isQuote quote = true)
    (h : Interpolates Tiled p quote written content arguments)
    (h' : Interpolates Tiled' p' quote written content' arguments') : content = content' := by
  obtain ⟨chunks, rfl, hchunks, rfl, -⟩ := h.chunked
  obtain ⟨chunks', hwritten, hchunks', rfl, -⟩ := h'.chunked
  have hlength : (chunks.flatMap (·.written)).length < (chunks.flatMap (·.written) ++ [quote]).length := by simp
  have hread := readChunks_written hquote hchunks [] hlength []
  rw [← hwritten, readChunks_written hquote hchunks' [] (by simp)] at hread
  cases hread
  rfl

end Interpolates

end Scriptlet.Interpolation
