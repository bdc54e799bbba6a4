import Mathlib.Tactic.Tauto
import Scriptlet.Proofs.Lexemes

/-!
# How interpolated strings are written

An interpolated string is text with holes in it. A hole has the text of an expression, and perhaps an alignment behind
a comma and a specifier behind a colon. The expression goes up to the first brace, comma or colon outside of all
brackets and quoted texts. Whatever the reader takes for the chunks of a string is written as the grammar says.
-/

namespace Scriptlet.Interpolation

/-- A hole of an interpolated string: the text of its expression, its alignment and its specifier. -/
structure Hole where
  text : List Char
  alignment : Option (List Char)
  specifier : Option (List Char)
deriving DecidableEq, Repr

namespace Hole

def tail (hole : Hole) : List Char :=
  (hole.alignment.map (',' :: ·)).getD [] ++ (hole.specifier.map (':' :: ·)).getD [] ++ ['\x7d']

def written (hole : Hole) : List Char :=
  '\x7b' :: (hole.text ++ hole.tail)

end Hole

/-- The inside of a quoted text in an expression. A backslash takes the quote behind it along. -/
inductive Inside (quote : Char) : List Char → Prop
  | nil : Inside quote []
  | plain {c : Char} {rest : List Char} (hquote : c ≠ quote) (hbackslash : c ≠ '\\') (hline : c ≠ '\n')
      (h : Inside quote rest) : Inside quote (c :: rest)
  | escaped {e : Char} {rest : List Char} (hline : e ≠ '\n') (h : Inside quote rest) : Inside quote ('\\' :: e :: rest)

/-- The text of an expression in a hole, from a place on where so many brackets are open. Quoted texts are passed over.
At the end all brackets are closed; a comma, a colon or a closing brace does not occur outside of them. -/
inductive Extent (quote : Char) : Nat → List Char → Prop
  | nil : Extent quote 0 []
  | quoted {depth : Nat} {q : Char} {inside rest : List Char} (hq : QuotedText.isQuote q = true) (hne : q ≠ quote)
      (hinside : Inside q inside) (h : Extent quote depth rest) : Extent quote depth (q :: (inside ++ q :: rest))
  | opening {depth : Nat} {c : Char} {rest : List Char} (hc : c = '(' ∨ c = '[' ∨ c = '\x7b')
      (h : Extent quote (depth + 1) rest) : Extent quote depth (c :: rest)
  | closing {depth : Nat} {c : Char} {rest : List Char} (hc : c = ')' ∨ c = ']')
      (h : Extent quote (depth - 1) rest) : Extent quote depth (c :: rest)
  | brace {depth : Nat} {rest : List Char} (h : Extent quote depth rest) : Extent quote (depth + 1) ('\x7d' :: rest)
  | plain {depth : Nat} {c : Char} {rest : List Char} (hline : c ≠ '\n') (hquote : QuotedText.isQuote c = false)
      (hbracket : c ∉ ['(', '[', '\x7b', ')', ']', '\x7d']) (hend : depth = 0 → c ≠ ',' ∧ c ≠ ':')
      (h : Extent quote depth rest) : Extent quote depth (c :: rest)

/-- Text without the characters that end a hole or the string. -/
def Plain (quote : Char) (text : List Char) : Prop :=
  ∀ c ∈ text, c ≠ '\x7d' ∧ c ≠ quote ∧ c ≠ '\n'

/-- How a hole may be written. An expression that begins with a brace would be read as a doubled brace. -/
structure Hole.WellFormed (quote : Char) (hole : Hole) : Prop where
  extent : Extent quote 0 hole.text
  present : ∃ c ∈ hole.text, Text.isBlank c = false
  undoubled : hole.text.head? ≠ some '\x7b'
  alignment : ∀ text ∈ hole.alignment, Plain quote text ∧ ':' ∉ text
  specifier : ∀ text ∈ hole.specifier, Plain quote text

inductive Chunk.WellFormed (quote : Char) : Chunk → Prop
  | plain {c : Char} (hquote : c ≠ quote) (hbackslash : c ≠ '\\') (hline : c ≠ '\n') (hopen : c ≠ '\x7b')
      (hclose : c ≠ '\x7d') : WellFormed quote (.character c [c])
  | escaped {e c : Char} (h : QuotedText.escape? e = some c) : WellFormed quote (.character c ['\\', e])
  | brace {c : Char} (h : c = '\x7b' ∨ c = '\x7d') : WellFormed quote (.doubledBrace c)
  | hole {hole : Hole} (h : hole.WellFormed quote) : WellFormed quote (.argument hole.text hole.tail)

variable {quote : Char} {text after : List Char}

theorem splitQuoted_sound {quoted : List Char} (h : splitQuoted quote text = some (quoted, after)) :
    text = quoted ++ after ∧ ∃ inside, quoted = inside ++ [quote] ∧ Inside quote inside := by
  fun_induction splitQuoted quote text generalizing quoted after with
  | case1 => cases h
  | case2 => cases h
  | case3 => cases h
  | case4 e rest hline ih =>
    obtain ⟨⟨quoted', after'⟩, hsplit, ⟨⟩⟩ := Option.map_eq_some_iff.mp h
    obtain ⟨rfl, inside, rfl, hinside⟩ := ih hsplit
    exact ⟨rfl, _, rfl, .escaped hline hinside⟩
  | case5 => cases h
  | case6 rest _ hline =>
    cases h
    exact ⟨rfl, [], rfl, .nil⟩
  | case7 c rest hbackslash hline hquote ih =>
    obtain ⟨⟨quoted', after'⟩, hsplit, ⟨⟩⟩ := Option.map_eq_some_iff.mp h
    obtain ⟨rfl, inside, rfl, hinside⟩ := ih hsplit
    exact ⟨rfl, _, rfl, .plain hquote hbackslash hline hinside⟩

/-- What is split off as an expression ends where its brackets are closed, before a brace, a comma or a colon. -/
theorem splitArgument_sound {steps : List Char} {depth : Nat} {argument : List Char}
    (h : splitArgument quote steps depth text = some (argument, after)) :
    text = argument ++ after ∧ Extent quote depth argument ∧
      ∃ c rest, after = c :: rest ∧ (c = '\x7d' ∨ c = ',' ∨ c = ':') := by
  fun_induction splitArgument quote steps depth text generalizing argument after with
  | case1 => cases h
  | case2 => cases h
  | case3 => cases h
  | case4 step steps depth c rest hstop hquote quoted behind hsplit ih =>
    obtain ⟨⟨argument', after'⟩, hrest, ⟨⟩⟩ := Option.map_eq_some_iff.mp h
    obtain ⟨rfl, hextent, hend⟩ := ih hrest
    obtain ⟨rfl, inside, rfl, hinside⟩ := splitQuoted_sound hsplit
    refine ⟨by simp, ?_, hend⟩
    have hwhole := Extent.quoted hquote (not_or.mp hstop).2 hinside hextent
    simpa [prepend] using hwhole
  | case5 => cases h
  | case6 step steps depth c rest hstop hquote hopen ih =>
    obtain ⟨⟨argument', after'⟩, hrest, ⟨⟩⟩ := Option.map_eq_some_iff.mp h
    obtain ⟨rfl, hextent, hend⟩ := ih hrest
    exact ⟨rfl, .opening hopen hextent, hend⟩
  | case7 step steps depth c rest hstop hquote hopen hclose ih =>
    obtain ⟨⟨argument', after'⟩, hrest, ⟨⟩⟩ := Option.map_eq_some_iff.mp h
    obtain ⟨rfl, hextent, hend⟩ := ih hrest
    exact ⟨rfl, .closing hclose hextent, hend⟩
  | case8 step steps depth c rest hstop hquote hopen hclose hend =>
    cases h
    obtain ⟨rfl, hend⟩ := hend
    exact ⟨rfl, .nil, _, _, rfl, hend⟩
  | case9 step steps depth rest _ _ _ _ hdepth ih =>
    obtain ⟨⟨argument', after'⟩, hrest, ⟨⟩⟩ := Option.map_eq_some_iff.mp h
    obtain ⟨rfl, hextent, hend⟩ := ih hrest
    cases depth with
    | zero => simp at hdepth
    | succ depth => exact ⟨rfl, .brace hextent, hend⟩
  | case10 step steps depth c rest hstop hquote hopen hclose hend hbrace ih =>
    obtain ⟨⟨argument', after'⟩, hrest, ⟨⟩⟩ := Option.map_eq_some_iff.mp h
    obtain ⟨rfl, hextent, hafter⟩ := ih hrest
    refine ⟨rfl, .plain (not_or.mp hstop).1 (Bool.eq_false_iff.mpr hquote) ?_ ?_ hextent, hafter⟩
    · simp only [List.mem_cons, List.not_mem_nil, or_false]
      tauto
    · intro hdepth
      tauto

theorem splitTail_sound {tail : List Char} (h : splitTail quote text = some (tail, after)) :
    text = tail ++ after ∧ ∃ inner, tail = inner ++ ['\x7d'] ∧ Plain quote inner := by
  fun_induction splitTail quote text generalizing tail after with
  | case1 => cases h
  | case2 rest =>
    cases h
    exact ⟨rfl, [], rfl, fun c hc => absurd hc List.not_mem_nil⟩
  | case3 => cases h
  | case4 c rest hclose hstop ih =>
    obtain ⟨⟨tail', after'⟩, hrest, ⟨⟩⟩ := Option.map_eq_some_iff.mp h
    obtain ⟨rfl, inner, rfl, hinner⟩ := ih hrest
    refine ⟨rfl, c :: inner, rfl, fun d hd => ?_⟩
    rcases List.mem_cons.mp hd with rfl | hd
    · exact ⟨hclose, not_or.mp hstop⟩
    · exact hinner d hd

/-- The alignment and the specifier that the tail of a hole has. An alignment goes to the first colon. -/
theorem tail_parts {inner : List Char} (hplain : Plain quote inner)
    (hstart : ∀ c ∈ inner.head?, c = ',' ∨ c = ':') (text : List Char) :
    ∃ hole : Hole, hole.text = text ∧ hole.tail = inner ++ ['\x7d'] ∧
      (∀ text ∈ hole.alignment, Plain quote text ∧ ':' ∉ text) ∧ ∀ text ∈ hole.specifier, Plain quote text := by
  cases inner with
  | nil => exact ⟨⟨text, none, none⟩, rfl, rfl, by simp, by simp⟩
  | cons c body =>
    have hbody : Plain quote body := fun d hd => hplain d (List.mem_cons_of_mem _ hd)
    rcases hstart c rfl with rfl | rfl
    · have htaken : ':' ∉ body.takeWhile (· != ':') := fun hmem => by simpa using List.mem_takeWhile_imp hmem
      have hplainTaken : Plain quote (body.takeWhile (· != ':')) :=
        fun d hd => hbody d ((List.takeWhile_sublist _).subset hd)
      have hjoined := List.takeWhile_append_dropWhile (p := (· != ':')) (l := body)
      cases hdrop : body.dropWhile (· != ':') with
      | nil =>
        rw [hdrop, List.append_nil] at hjoined
        refine ⟨⟨text, some body, none⟩, rfl, by simp [Hole.tail], ?_, by simp⟩
        rintro _ ⟨⟩
        exact ⟨hbody, by rwa [hjoined] at htaken⟩
      | cons d specifier =>
        have hd : d = ':' := by
          have hhead := List.head?_dropWhile_not (· != ':') body
          simpa [hdrop] using hhead
        subst hd
        refine ⟨⟨text, some (body.takeWhile (· != ':')), some specifier⟩, rfl, ?_, ?_, ?_⟩
        · rw [hdrop] at hjoined
          conv => rhs; rw [← hjoined]
          simp [Hole.tail]
        · rintro _ ⟨⟩
          exact ⟨hplainTaken, htaken⟩
        · rintro _ ⟨⟩
          refine fun e he => hbody e ((List.dropWhile_sublist (· != ':')).subset ?_)
          rw [hdrop]
          exact List.mem_cons_of_mem _ he
    · exact ⟨⟨text, none, some body⟩, rfl, rfl, by simp, by rintro _ ⟨⟩; exact hbody⟩

theorem trim_eq_nil_iff : Text.trim text = [] ↔ ∀ c ∈ text, Text.isBlank c = true := by
  rw [Text.trim, List.reverse_eq_nil_iff, List.dropWhile_eq_nil_iff]
  refine ⟨fun hblank => List.dropWhile_eq_nil_iff.mp ?_, fun hblank => ?_⟩
  · -- what is left behind the blanks in front would begin with another character
    cases hdrop : text.dropWhile Text.isBlank with
    | nil => rfl
    | cons d others =>
      have hfirst := List.head?_dropWhile_not Text.isBlank text
      rw [hdrop] at hfirst
      exact absurd (hblank d (by simp [hdrop])) (by simpa using hfirst)
  · simp [List.dropWhile_eq_nil_iff.mpr hblank]

theorem hole_sound {rest afterText tail : List Char} (hundoubled : rest.head? ≠ some '\x7b')
    (hargument : splitArgument quote rest 0 rest = some (text, afterText)) (hblank : ¬ (Text.trim text).isEmpty = true)
    (htail : splitTail quote afterText = some (tail, after)) :
    rest = text ++ (tail ++ after) ∧ ∃ hole : Hole, hole.text = text ∧ hole.tail = tail ∧ hole.WellFormed quote := by
  obtain ⟨hrest, hextent, c, behind, hafter, hc⟩ := splitArgument_sound hargument
  obtain ⟨htext, inner, rfl, hinner⟩ := splitTail_sound htail
  have hpresent : ∃ c ∈ text, Text.isBlank c = false := by
    by_contra hnone
    exact hblank (by rw [trim_eq_nil_iff.mpr (by simpa using hnone)]; rfl)
  have hstart : ∀ d ∈ inner.head?, d = ',' ∨ d = ':' := by
    intro d hd
    cases inner with
    | nil => cases hd
    | cons e inner =>
      cases hd
      rw [hafter, List.append_assoc, List.cons_append, List.cons.injEq] at htext
      obtain ⟨rfl, -⟩ := htext
      exact hc.resolve_left (hinner c List.mem_cons_self).1
  obtain ⟨hole, rfl, htail, halignment, hspecifier⟩ := tail_parts hinner hstart text
  refine ⟨by rw [hrest, htext], hole, rfl, htail, hextent, hpresent, ?_, halignment, hspecifier⟩
  obtain ⟨d, hd, -⟩ := hpresent
  cases htext' : hole.text with
  | nil => simp [htext'] at hd
  | cons e others =>
    rw [hrest, htext'] at hundoubled
    exact hundoubled

/-- The chunks that are read up to the closing quote are written as they should be, one behind the other. -/
theorem readChunks_sound {whole steps source rest : List Char}
    (h : (readChunks quote whole steps source).ending = .ok rest) :
    source = (readChunks quote whole steps source).chunks.flatMap (·.written) ++ quote :: rest ∧
      ∀ chunk ∈ (readChunks quote whole steps source).chunks, chunk.WellFormed quote := by
  have hafter : ∀ {chunk : Chunk} {source' : List Char} {reading : Reading}, chunk.WellFormed quote →
      source' = reading.chunks.flatMap (·.written) ++ quote :: rest ∧ (∀ c ∈ reading.chunks, c.WellFormed quote) →
      chunk.written ++ source' = (reading.after chunk).chunks.flatMap (·.written) ++ quote :: rest ∧
        ∀ c ∈ (reading.after chunk).chunks, c.WellFormed quote := by
    rintro chunk _ reading hchunk ⟨rfl, hchunks⟩
    refine ⟨by simp [Reading.after], fun c hc => ?_⟩
    rcases List.mem_cons.mp hc with rfl | hc
    · exact hchunk
    · exact hchunks c hc
  fun_induction readChunks quote whole steps source with
  | case1 => cases h
  | case2 => cases h
  | case3 step steps e source c he ih => exact hafter (.escaped he) (ih h)
  | case4 => cases h
  | case5 => cases h
  | case6 step steps source ih => exact hafter (.brace (.inl rfl)) (ih h)
  | case7 step steps source ih => exact hafter (.brace (.inr rfl)) (ih h)
  | case8 => cases h
  | case9 => cases h
  | case10 => cases h
  | case11 step steps source hundoubled text afterText hargument hblank tail after htail ih =>
    have hhead : source.head? ≠ some '\x7b' := by
      cases source with
      | nil => simp
      | cons c source =>
        intro heq
        cases heq
        exact hundoubled source rfl
    obtain ⟨rfl, hole, rfl, rfl, hhole⟩ := hole_sound hhead hargument hblank htail
    have hread := hafter (.hole hhole) (ih h)
    simpa [Chunk.written] using hread
  | case12 => cases h
  | case13 step steps rest' =>
    cases h
    exact ⟨rfl, fun chunk hchunk => absurd hchunk List.not_mem_nil⟩
  | case14 => cases h
  | case15 step steps c rest' hescape hbackslash _ _ hclose hopen hquote hline ih =>
    refine hafter (.plain hquote ?_ hline hopen hclose) (ih h)
    intro hc
    cases rest' with
    | nil => exact hbackslash hc rfl
    | cons e rest' => exact hescape e rest' hc rfl

/-- What an interpolated string says: the text before its first hole, and every hole with the text behind it. -/
structure Content where
  lead : List Char
  holes : List (Hole × List Char)
deriving DecidableEq, Repr

namespace Content

def push (c : Char) (content : Content) : Content :=
  { content with lead := c :: content.lead }

def punch (hole : Hole) (content : Content) : Content :=
  ⟨[], (hole, content.lead) :: content.holes⟩

/-- A text with every brace written twice. -/
def doubled (text : List Char) : List Char :=
  text.flatMap fun c => if c = '\x7b' ∨ c = '\x7d' then [c, c] else [c]

def placeholders (count : Nat) : List (Hole × List Char) → List Char
  | [] => []
  | (hole, text) :: rest =>
    '\x7b' :: (Number.natText count).toList ++ hole.tail ++ (doubled text ++ placeholders (count + 1) rest)

/-- The template for a content, when so many holes came before: an expression becomes its number. -/
def template (count : Nat) (content : Content) : List Char :=
  doubled content.lead ++ placeholders count content.holes

theorem template_push {c : Char} (hc : ¬ (c = '\x7b' ∨ c = '\x7d')) (count : Nat) (content : Content) :
    (content.push c).template count = c :: content.template count := by
  simp [template, push, doubled, hc]

theorem template_push_brace {c : Char} (hc : c = '\x7b' ∨ c = '\x7d') (count : Nat) (content : Content) :
    (content.push c).template count = c :: c :: content.template count := by
  simp [template, push, doubled, hc]

theorem template_punch (hole : Hole) (count : Nat) (content : Content) :
    (content.punch hole).template count =
      '\x7b' :: (Number.natText count).toList ++ hole.tail ++ content.template (count + 1) := by
  simp [template, punch, doubled, placeholders]

end Content

theorem escape_ne_brace {e c : Char} (h : QuotedText.escape? e = some c) : ¬ (c = '\x7b' ∨ c = '\x7d') := by
  unfold QuotedText.escape? at h
  split at h <;> cases h <;> decide

/-- How a content is written in a string that begins at a place, with the tokens of the expression of every hole at
their own places. What tokens make up a text at a place is left open. -/
inductive Interpolates (Tiled : Position → List Char → List Token → Prop) :
    Position → Char → List Char → Content → List (List Token) → Prop
  | nil {p : Position} {quote : Char} : Interpolates Tiled p quote [] ⟨[], []⟩ []
  | plain {p : Position} {quote : Char} {c : Char} {written : List Char} {content : Content}
      {arguments : List (List Token)} (hquote : c ≠ quote) (hbackslash : c ≠ '\\') (hline : c ≠ '\n')
      (hopen : c ≠ '\x7b') (hclose : c ≠ '\x7d') (h : Interpolates Tiled (p.step c) quote written content arguments) :
      Interpolates Tiled p quote (c :: written) (content.push c) arguments
  | escaped {p : Position} {quote : Char} {e c : Char} {written : List Char} {content : Content}
      {arguments : List (List Token)} (he : QuotedText.escape? e = some c)
      (h : Interpolates Tiled (p.advance ['\\', e]) quote written content arguments) :
      Interpolates Tiled p quote ('\\' :: e :: written) (content.push c) arguments
  | brace {p : Position} {quote : Char} {c : Char} {written : List Char} {content : Content}
      {arguments : List (List Token)} (hc : c = '\x7b' ∨ c = '\x7d')
      (h : Interpolates Tiled (p.advance [c, c]) quote written content arguments) :
      Interpolates Tiled p quote (c :: c :: written) (content.push c) arguments
  | hole {p : Position} {quote : Char} {hole : Hole} {tokens : List Token} {written : List Char} {content : Content}
      {arguments : List (List Token)} (hhole : hole.WellFormed quote) (htokens : Tiled (p.step '\x7b') hole.text tokens)
      (h : Interpolates Tiled (p.advance hole.written) quote written content arguments) :
      Interpolates Tiled p quote (hole.written ++ written) (content.punch hole) (tokens :: arguments)

namespace Interpolates

variable {Tiled : Position → List Char → List Token → Prop} {p : Position} {quote : Char} {written : List Char}
  {content : Content} {arguments : List (List Token)}

theorem length_eq (h : Interpolates Tiled p quote written content arguments) :
    arguments.length = content.holes.length := by
  induction h with
  | nil => rfl
  | plain _ _ _ _ _ _ ih => exact ih
  | escaped _ _ ih => exact ih
  | brace _ _ ih => exact ih
  | hole _ _ _ ih => exact congrArg (· + 1) ih

theorem wellFormed (h : Interpolates Tiled p quote written content arguments) :
    ∀ hole ∈ content.holes, hole.1.WellFormed quote := by
  induction h with
  | nil => exact fun hole hmem => absurd hmem List.not_mem_nil
  | plain _ _ _ _ _ _ ih => exact ih
  | escaped _ _ ih => exact ih
  | brace _ _ ih => exact ih
  | hole hhole _ _ ih =>
    intro hole hmem
    rcases List.mem_cons.mp hmem with rfl | hmem
    · exact hhole
    · exact ih hole hmem

theorem argument_at (h : Interpolates Tiled p quote written content arguments) {tokens : List Token}
    (htokens : tokens ∈ arguments) :
    ∃ before text after, written = before ++ (text ++ after) ∧ Tiled (p.advance before) text tokens := by
  -- what is in front of the rest of the string is put in front of the text before the argument
  have hbehind : ∀ {p : Position} {written : List Char} (front : List Char),
      (∃ before text after, written = before ++ (text ++ after) ∧
        Tiled ((p.advance front).advance before) text tokens) →
      ∃ before text after, front ++ written = before ++ (text ++ after) ∧ Tiled (p.advance before) text tokens := by
    rintro p _ front ⟨before, text, after, rfl, htiled⟩
    exact ⟨front ++ before, text, after, by simp, by rwa [Position.advance_append]⟩
  induction h with
  | nil => cases htokens
  | plain _ _ _ _ _ _ ih => exact hbehind [_] (ih htokens)
  | escaped _ _ ih => exact hbehind [_, _] (ih htokens)
  | brace _ _ ih => exact hbehind [_, _] (ih htokens)
  | @hole p _ hole _ written _ _ _ htiled _ ih =>
    rcases List.mem_cons.mp htokens with rfl | htokens
    · exact ⟨['\x7b'], hole.text, hole.tail ++ written, by simp [Hole.written], htiled⟩
    · exact hbehind hole.written (ih htokens)

end Interpolates

end Scriptlet.Interpolation
