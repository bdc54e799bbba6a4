import Scriptlet.Proofs.EndlessTexts
import Scriptlet.Proofs.InterpolatedText
import Scriptlet.Proofs.SpelledNumbers
import Scriptlet.Proofs.TextPlaces

/-!
# The grammar of templates

A template is a row of segments: text without braces, a brace written twice, or a placeholder between braces. Whatever
text is given, segments can be taken off its front until nothing is left or a brace stands in front that begins no
segment. The reader gives the pieces of these segments in the first case and reports this brace, or the body behind
it, in the second one. So a template that is written for some texts and placeholders says what they say.
-/

namespace Scriptlet.Template

/-- A text that may be missing, with a mark in front of it. -/
def behind (mark : Char) (text : Option (List Char)) : List Char :=
  (text.map (mark :: ·)).getD []

theorem cutAt_eq_iff {mark : Char} {cs front : List Char} {rest : Option (List Char)} :
    cutAt mark cs = (front, rest) ↔ cs = front ++ behind mark rest ∧ mark ∉ front := by
  constructor
  · intro h
    have hsplit := List.takeWhile_append_dropWhile (p := (· != mark)) (l := cs)
    have hfront : mark ∉ cs.takeWhile (· != mark) := fun hmem => by simpa using List.mem_takeWhile_imp hmem
    unfold cutAt at h
    split at h
    · next hnone =>
      obtain ⟨rfl, rfl⟩ := Prod.mk.inj h
      rw [hnone, List.append_nil] at hsplit
      exact ⟨by simp [behind], hsplit ▸ hfront⟩
    · next c more hsome =>
      obtain ⟨rfl, rfl⟩ := Prod.mk.inj h
      have hc : c = mark := by
        have hhead := List.head?_dropWhile_not (· != mark) cs
        rw [hsome] at hhead
        simpa using hhead
      rw [hsome, hc] at hsplit
      exact ⟨hsplit.symm, hfront⟩
  · rintro ⟨rfl, hfront⟩
    have hkeep : ∀ c ∈ front, (c != mark) = true := fun c hc => by
      rw [bne_iff_ne]
      rintro rfl
      exact hfront hc
    cases rest with
    | none =>
      simp only [behind, Option.map_none, Option.getD_none, List.append_nil, cutAt]
      rw [List.dropWhile_eq_nil_iff.mpr hkeep]
    | some rest =>
      simp only [behind, Option.map_some, Option.getD_some, cutAt]
      rw [List.dropWhile_append_of_pos hkeep, List.takeWhile_append_of_pos hkeep]
      simp

/-- How an alignment is written, which may be missing. -/
inductive Aligns : Option (List Char) → Int32 → Prop
  | missing : Aligns none 0
  | given {text core : List Char} {alignment : Int32} (hblank : Text.Between core text)
      (h : Number.SpellsInt core alignment.toInt) : Aligns (some text) alignment

/-- The parts of what stands between the braces of a placeholder. The specifier stands behind the first colon, and the
alignment behind the first comma before that; both may be missing. -/
structure Placeholder.Parts (p : Placeholder) (body index : List Char) (alignment specifier : Option (List Char)) :
    Prop where
  body_eq : body = index ++ behind ',' alignment ++ behind ':' specifier
  firstColon : ':' ∉ index ++ behind ',' alignment
  firstComma : ',' ∉ index
  index_spelled : ∃ core, Text.Between core index ∧ Number.SpellsNat core p.index
  index_bound : p.index < indexBound
  aligns : Aligns alignment p.alignment
  specifier_eq : specifier.getD [] = p.specifier

/-- How a placeholder is written between its braces. -/
def Placeholder.Spelled (p : Placeholder) (body : List Char) : Prop :=
  ∃ index alignment specifier, p.Parts body index alignment specifier

theorem aligns_none_iff {alignment : Int32} : Aligns none alignment ↔ alignment = 0 := by
  constructor
  · rintro ⟨⟩
    rfl
  · rintro rfl
    exact .missing

theorem aligns_some_iff {text : List Char} {alignment : Int32} :
    Aligns (some text) alignment ↔ Number.readInt32 (Text.trim text) = some alignment := by
  rw [Number.readInt32_trim_eq_some_iff]
  constructor
  · rintro (_ | ⟨hblank, h⟩)
    exact ⟨_, hblank, h⟩
  · rintro ⟨core, hblank, h⟩
    exact .given hblank h

/-- A text is cut at the first colon and the first comma in one way only. -/
theorem Placeholder.spelled_iff {p : Placeholder} {index : List Char} {alignment specifier : Option (List Char)}
    (hcolon : ':' ∉ index ++ behind ',' alignment) (hcomma : ',' ∉ index) :
    p.Spelled (index ++ behind ',' alignment ++ behind ':' specifier) ↔
      ((∃ core, Text.Between core index ∧ Number.SpellsNat core p.index) ∧ p.index < indexBound) ∧
        Aligns alignment p.alignment ∧ specifier.getD [] = p.specifier := by
  constructor
  · rintro ⟨index', alignment', specifier', h⟩
    obtain ⟨hhead, rfl⟩ := Prod.mk.inj ((cutAt_eq_iff.mpr ⟨rfl, hcolon⟩).symm.trans
      (cutAt_eq_iff.mpr ⟨h.body_eq, h.firstColon⟩))
    obtain ⟨rfl, rfl⟩ := Prod.mk.inj ((cutAt_eq_iff.mpr ⟨rfl, hcomma⟩).symm.trans
      (cutAt_eq_iff.mpr ⟨hhead, h.firstComma⟩))
    exact ⟨⟨h.index_spelled, h.index_bound⟩, h.aligns, h.specifier_eq⟩
  · rintro ⟨⟨hspelled, hbound⟩, haligns, hspecifier⟩
    exact ⟨index, alignment, specifier, rfl, hcolon, hcomma, hspelled, hbound, haligns, hspecifier⟩

theorem readPlaceholder_eq_some_iff {body : List Char} {p : Placeholder} :
    readPlaceholder body = some p ↔ p.Spelled body := by
  obtain ⟨head, specifier, hhead⟩ : ∃ head specifier, cutAt ':' body = (head, specifier) := ⟨_, _, rfl⟩
  obtain ⟨index, alignment, hindex⟩ : ∃ index alignment, cutAt ',' head = (index, alignment) := ⟨_, _, rfl⟩
  have hread : readPlaceholder body = some p ↔ Number.readNat indexBound (Text.trim index) = some p.index ∧
      Aligns alignment p.alignment ∧ specifier.getD [] = p.specifier := by
    obtain ⟨number, width, text⟩ := p
    unfold readPlaceholder
    simp only [hhead, hindex]
    cases alignment with
    | none =>
      rw [aligns_none_iff]
      cases Number.readNat indexBound (Text.trim index) <;> simp [eq_comm]
    | some align =>
      rw [aligns_some_iff]
      cases halign : Number.readInt32 (Text.trim align) <;>
        cases Number.readNat indexBound (Text.trim index) <;> simp [halign]
  obtain ⟨rfl, hcolon⟩ := cutAt_eq_iff.mp hhead
  obtain ⟨rfl, hcomma⟩ := cutAt_eq_iff.mp hindex
  rw [hread, Number.readNat_trim_eq_some_iff, Placeholder.spelled_iff hcolon hcomma]

section Numbered

variable {index : Nat} {alignment specifier : Option (List Char)}

theorem not_mem_number {c : Char} (hc : c.isDigit = false) : c ∉ (Number.natText index).toList := fun hmem => by
  rw [Number.isDigit_of_mem_natText hmem] at hc
  cases hc

theorem head?_numbered (rest : List Char) : ((Number.natText index).toList ++ rest).head? ≠ some '\x7b' := by
  intro hhead
  obtain ⟨d, digits, hdigits⟩ := List.exists_cons_of_ne_nil (Number.spellsDigits_natText index).nonempty
  have hd : d.isDigit = true := Number.isDigit_of_mem_natText (hdigits ▸ List.mem_cons_self)
  obtain rfl : d = '\x7b' := by simpa [hdigits] using hhead
  exact absurd hd (by decide)

theorem spelled_numbered_iff (hindex : index < indexBound) (hcolon : ':' ∉ behind ',' alignment) {p : Placeholder} :
    p.Spelled ((Number.natText index).toList ++ behind ',' alignment ++ behind ':' specifier) ↔
      p.index = index ∧ Aligns alignment p.alignment ∧ specifier.getD [] = p.specifier := by
  have hspelled := Number.spellsDigits_natText index
  have hread : Number.readNat indexBound (Text.trim (Number.natText index).toList) = some index :=
    Number.readNat_trim_eq_some_iff.mpr ⟨⟨_, .refl _, .plain hspelled⟩, hindex⟩
  rw [Placeholder.spelled_iff (by simpa using ⟨not_mem_number (by decide), hcolon⟩) (not_mem_number (by decide)),
    ← Number.readNat_trim_eq_some_iff, hread, Option.some.injEq, eq_comm]

theorem close_not_mem_numbered (halignment : '\x7d' ∉ behind ',' alignment) (hspecifier : '\x7d' ∉ specifier.getD []) :
    '\x7d' ∉ (Number.natText index).toList ++ behind ',' alignment ++ behind ':' specifier := by
  simp only [List.mem_append, not_or]
  refine ⟨⟨not_mem_number (by decide), halignment⟩, ?_⟩
  cases specifier with
  | none => simp [behind]
  | some text => simpa [behind] using hspecifier

end Numbered

/-- A part of a template: text, a brace that is written twice, or a placeholder. -/
inductive Segment
  | text (run : List Char)
  | brace (c : Char)
  | placeholder (body : List Char) (p : Placeholder)

namespace Segment

def written : Segment → List Char
  | text run => run
  | brace c => [c, c]
  | placeholder body _ => '\x7b' :: (body ++ ['\x7d'])

def pieces : Segment → List Piece
  | text run => run.map .literal
  | brace c => [.literal c]
  | placeholder _ p => [.placeholder p]

/-- Text has no braces in it. The body of a placeholder ends at the first closing brace and does not begin with an
opening one, since that would be a brace written twice. -/
inductive Valid : Segment → Prop
  | text {run : List Char} (hopen : '\x7b' ∉ run) (hclose : '\x7d' ∉ run) : Valid (.text run)
  | brace {c : Char} (h : c = '\x7b' ∨ c = '\x7d') : Valid (.brace c)
  | placeholder {body : List Char} {p : Placeholder} (hclose : '\x7d' ∉ body) (hopen : body.head? ≠ some '\x7b')
      (h : p.Spelled body) : Valid (.placeholder body p)

end Segment

/-- A text that begins with a brace where no segment can stand, and what is reported about it: a closing brace that is
not written twice, an opening one that is never closed, or the body of a placeholder that cannot be read. -/
inductive Offends (offset : Nat) : List Char → TemplateError → Prop
  | close {rest : List Char} (h : rest.head? ≠ some '\x7d') : Offends offset ('\x7d' :: rest) (.unbalancedBrace offset)
  | unclosed {rest : List Char} (hopen : rest.head? ≠ some '\x7b') (hclose : '\x7d' ∉ rest) :
      Offends offset ('\x7b' :: rest) (.unbalancedBrace offset)
  | body {body rest : List Char} (hopen : body.head? ≠ some '\x7b') (hclose : '\x7d' ∉ body)
      (h : ∀ p : Placeholder, ¬ p.Spelled body) :
      Offends offset ('\x7b' :: (body ++ '\x7d' :: rest)) (.invalidPlaceholder (String.ofList body))

theorem segment_or_offends {cs : List Char} (hne : cs ≠ []) :
    (∃ (segment : Segment) (rest : List Char), segment.Valid ∧ cs = segment.written ++ rest ∧ rest.length < cs.length) ∨
      ∀ offset, ∃ e, Offends offset cs e := by
  obtain ⟨c, rest, rfl⟩ := List.exists_cons_of_ne_nil hne
  by_cases hopen : c = '\x7b'
  · subst hopen
    by_cases hdouble : rest.head? = some '\x7b'
    · obtain ⟨rest, rfl⟩ := List.head?_eq_some_iff.mp hdouble
      exact .inl ⟨.brace '\x7b', rest, .brace (.inl rfl), rfl, by simp only [List.length_cons]; omega⟩
    by_cases hclose : '\x7d' ∈ rest
    · obtain ⟨body, more, rfl, hbody⟩ := List.eq_append_cons_of_mem hclose
      have hfirst : body.head? ≠ some '\x7b' := by
        cases body with
        | nil => simp
        | cons d body => simpa using hdouble
      by_cases hspelled : ∃ p : Placeholder, p.Spelled body
      · obtain ⟨p, hp⟩ := hspelled
        exact .inl ⟨.placeholder body p, more, .placeholder hbody hfirst hp, by simp [Segment.written], by simp; omega⟩
      · exact .inr fun offset => ⟨_, .body hfirst hbody (not_exists.mp hspelled)⟩
    · exact .inr fun offset => ⟨_, .unclosed hdouble hclose⟩
  by_cases hclose : c = '\x7d'
  · subst hclose
    by_cases hdouble : rest.head? = some '\x7d'
    · obtain ⟨rest, rfl⟩ := List.head?_eq_some_iff.mp hdouble
      exact .inl ⟨.brace '\x7d', rest, .brace (.inr rfl), rfl, by simp only [List.length_cons]; omega⟩
    · exact .inr fun offset => ⟨_, .close hdouble⟩
  · exact .inl ⟨.text [c], rest, .text (by simpa using Ne.symm hopen) (by simpa using Ne.symm hclose), rfl, by simp⟩

theorem exists_segments (cs : List Char) : ∃ (segments : List Segment) (rest : List Char),
    (∀ segment ∈ segments, segment.Valid) ∧ cs = segments.flatMap Segment.written ++ rest ∧
      (rest = [] ∨ ∀ offset, ∃ e, Offends offset rest e) := by
  by_cases hne : cs = []
  · exact ⟨[], [], by simp, by simpa using hne, .inl rfl⟩
  rcases segment_or_offends hne with ⟨segment, rest, hvalid, hcs, hshorter⟩ | hoffends
  · obtain ⟨segments, behind, hsegments, hrest, hend⟩ := exists_segments rest
    refine ⟨segment :: segments, behind, List.forall_mem_cons.mpr ⟨hvalid, hsegments⟩, ?_, hend⟩
    rw [hcs, hrest, List.flatMap_cons, List.append_assoc]
  · exact ⟨[], cs, by simp, rfl, .inr hoffends⟩
termination_by cs.length

section Reading

variable {offset : Nat} {rest : List Char}

theorem readPieces_text {c : Char} (hopen : c ≠ '\x7b') (hclose : c ≠ '\x7d') :
    readPieces offset (c :: rest) = (readPieces (offset + c.utf8Size) rest).map (.literal c :: ·) := by
  rw [readPieces]
  · cases readPieces (offset + c.utf8Size) rest <;> rfl
  all_goals simp [hopen, hclose]

theorem readPieces_brace {c : Char} (hc : c = '\x7b' ∨ c = '\x7d') :
    readPieces offset (c :: c :: rest) = (readPieces (offset + 2) rest).map (.literal c :: ·) := by
  rcases hc with rfl | rfl <;> rw [readPieces] <;> cases readPieces (offset + 2) rest <;> rfl

theorem readPieces_open (h : rest.head? ≠ some '\x7b') :
    readPieces offset ('\x7b' :: rest) = readBody offset (offset + 1) [] rest := by
  rw [readPieces]
  rintro more rfl
  exact h rfl

theorem readPieces_close (h : rest.head? ≠ some '\x7d') :
    readPieces offset ('\x7d' :: rest) = .error (.unbalancedBrace offset) := by
  rw [readPieces]
  rintro more rfl
  exact h rfl

variable {opened : Nat} {body cs : List Char}

theorem readBody_append (h : '\x7d' ∉ cs) : readBody opened offset body (cs ++ rest) =
    readBody opened (offset + (Text.bytes cs).length) (cs.reverse ++ body) rest := by
  induction cs generalizing offset body with
  | nil => rfl
  | cons c cs ih =>
    obtain ⟨hc, hcs⟩ := List.ne_and_not_mem_of_not_mem_cons h
    rw [List.cons_append, readBody, ih hcs, Text.bytes_cons, List.length_append, String.length_utf8EncodeChar,
      Nat.add_assoc, List.reverse_cons, List.append_assoc]
    · rfl
    · exact fun heq => hc heq.symm

theorem readPieces_unclosed (hopen : rest.head? ≠ some '\x7b') (hclose : '\x7d' ∉ rest) :
    readPieces offset ('\x7b' :: rest) = .error (.unbalancedBrace offset) := by
  have hbody : readBody offset (offset + 1) [] (rest ++ []) = _ := readBody_append hclose
  rw [readPieces_open hopen]
  simpa [readBody] using hbody

theorem head?_append_brace (hopen : body.head? ≠ some '\x7b') : (body ++ '\x7d' :: rest).head? ≠ some '\x7b' := by
  cases body <;> simp_all

theorem readPieces_placeholder {p : Placeholder} (hopen : body.head? ≠ some '\x7b') (hclose : '\x7d' ∉ body)
    (hp : p.Spelled body) : readPieces offset ('\x7b' :: (body ++ '\x7d' :: rest)) =
      (readPieces (offset + (Text.bytes body).length + 2) rest).map (.placeholder p :: ·) := by
  rw [readPieces_open (head?_append_brace hopen), readBody_append hclose, readBody, List.append_nil,
    List.reverse_reverse, readPlaceholder_eq_some_iff.mpr hp, show offset + 1 + (Text.bytes body).length + 1 =
      offset + (Text.bytes body).length + 2 by omega]
  cases readPieces (offset + (Text.bytes body).length + 2) rest <;> rfl

theorem readPieces_invalid (hopen : body.head? ≠ some '\x7b') (hclose : '\x7d' ∉ body)
    (hp : ∀ p : Placeholder, ¬ p.Spelled body) : readPieces offset ('\x7b' :: (body ++ '\x7d' :: rest)) =
      .error (.invalidPlaceholder (String.ofList body)) := by
  have hnone : readPlaceholder body = none := Option.eq_none_iff_forall_ne_some.mpr fun p hread =>
    hp p (readPlaceholder_eq_some_iff.mp hread)
  rw [readPieces_open (head?_append_brace hopen), readBody_append hclose, readBody, List.append_nil,
    List.reverse_reverse, hnone]

theorem Offends.readPieces {e : TemplateError} (h : Offends offset cs e) : readPieces offset cs = .error e := by
  cases h with
  | close h => exact readPieces_close h
  | unclosed hopen hclose => exact readPieces_unclosed hopen hclose
  | body hopen hclose h => exact readPieces_invalid hopen hclose h

theorem readPieces_run {run : List Char} (hopen : '\x7b' ∉ run) (hclose : '\x7d' ∉ run) :
    readPieces offset (run ++ rest) =
      (readPieces (offset + (Text.bytes run).length) rest).map (run.map .literal ++ ·) := by
  induction run generalizing offset with
  | nil => cases h : readPieces offset rest <;> simp [Text.bytes, h, Except.map]
  | cons c run ih =>
    obtain ⟨hcopen, hopen⟩ := List.ne_and_not_mem_of_not_mem_cons hopen
    obtain ⟨hcclose, hclose⟩ := List.ne_and_not_mem_of_not_mem_cons hclose
    rw [List.cons_append, readPieces_text hcopen.symm hcclose.symm, ih hopen hclose, Text.bytes_cons,
      List.length_append, String.length_utf8EncodeChar, Nat.add_assoc]
    cases readPieces (offset + (c.utf8Size + (Text.bytes run).length)) rest <;> rfl

theorem readPieces_segment {segment : Segment} (h : segment.Valid) : readPieces offset (segment.written ++ rest) =
    (readPieces (offset + (Text.bytes segment.written).length) rest).map (segment.pieces ++ ·) := by
  cases h with
  | text hopen hclose => exact readPieces_run hopen hclose
  | @brace c hc =>
    have hsize : (Text.bytes [c, c]).length = 2 := by rcases hc with rfl | rfl <;> rfl
    rw [Segment.written, hsize]
    exact readPieces_brace hc
  | @placeholder body p hclose hopen hp =>
    have hsize : (Text.bytes ('\x7b' :: (body ++ ['\x7d']))).length = (Text.bytes body).length + 2 := by
      rw [Text.bytes_cons, Text.bytes_append, List.length_append, List.length_append]
      rw [show (Text.bytes ['\x7d']).length = 1 from rfl, show (String.utf8EncodeChar '\x7b').length = 1 from rfl]
      omega
    rw [Segment.written, hsize, List.cons_append, List.append_assoc, ← Nat.add_assoc]
    exact readPieces_placeholder hopen hclose hp

theorem readPieces_segments {segments : List Segment} (h : ∀ segment ∈ segments, segment.Valid) :
    readPieces offset (segments.flatMap Segment.written ++ rest) =
      (readPieces (offset + (Text.bytes (segments.flatMap Segment.written)).length) rest).map
        (segments.flatMap Segment.pieces ++ ·) := by
  induction segments generalizing offset with
  | nil => cases h : readPieces offset rest <;> simp [Text.bytes, h, Except.map]
  | cons segment segments ih =>
    obtain ⟨hsegment, hsegments⟩ := List.forall_mem_cons.mp h
    rw [List.flatMap_cons, List.append_assoc, readPieces_segment hsegment, ih hsegments, Text.bytes_append,
      List.length_append, Nat.add_assoc]
    cases readPieces (offset + ((Text.bytes segment.written).length +
      (Text.bytes (segments.flatMap Segment.written)).length)) rest <;> simp [Except.map]

end Reading

variable {template : String}

theorem pieces_segments {segments : List Segment} {rest : List Char}
    (h : ∀ segment ∈ segments, segment.Valid) (htemplate : template.toList = segments.flatMap Segment.written ++ rest) :
    pieces template = (readPieces (Text.bytes (segments.flatMap Segment.written)).length rest).map
      (segments.flatMap Segment.pieces ++ ·) := by
  rw [pieces, htemplate, readPieces_segments h, Nat.zero_add]

/-- A template is read just if it is a row of segments, and then as their pieces. -/
theorem pieces_eq_ok_iff {ps : List Piece} : pieces template = .ok ps ↔
    ∃ segments : List Segment, (∀ segment ∈ segments, segment.Valid) ∧
      template.toList = segments.flatMap Segment.written ∧ ps = segments.flatMap Segment.pieces := by
  constructor
  · intro hread
    obtain ⟨segments, rest, hvalid, htemplate, rfl | hoffends⟩ := exists_segments template.toList
    · rw [pieces_segments hvalid htemplate, readPieces] at hread
      refine ⟨segments, hvalid, by simpa using htemplate, ?_⟩
      simpa [Except.map] using hread.symm
    · obtain ⟨e, he⟩ := hoffends (Text.bytes (segments.flatMap Segment.written)).length
      rw [pieces_segments hvalid htemplate, he.readPieces] at hread
      cases hread
  · rintro ⟨segments, hvalid, htemplate, rfl⟩
    rw [pieces_segments hvalid (htemplate.trans (List.append_nil _).symm), readPieces]
    simp [Except.map]

/-- Reading fails just if an offence stands behind a row of segments, and reports it with the bytes before it. -/
theorem pieces_eq_error_iff {e : TemplateError} : pieces template = .error e ↔
    ∃ (segments : List Segment) (rest : List Char), (∀ segment ∈ segments, segment.Valid) ∧
      template.toList = segments.flatMap Segment.written ++ rest ∧
      Offends (Text.bytes (segments.flatMap Segment.written)).length rest e := by
  constructor
  · intro hread
    obtain ⟨segments, rest, hvalid, htemplate, rfl | hoffends⟩ := exists_segments template.toList
    · rw [pieces_segments hvalid htemplate, readPieces] at hread
      cases hread
    · obtain ⟨e', he⟩ := hoffends (Text.bytes (segments.flatMap Segment.written)).length
      rw [pieces_segments hvalid htemplate, he.readPieces] at hread
      cases hread
      exact ⟨segments, rest, hvalid, htemplate, he⟩
  · rintro ⟨segments, rest, hvalid, htemplate, he⟩
    rw [pieces_segments hvalid htemplate, he.readPieces]
    rfl

/-- What a template is to say: a text, or an argument with its alignment and its specifier. -/
inductive Item
  | text (s : String)
  | argument (index : Nat) (alignment : Option Int32) (specifier : Option (List Char))

namespace Item

def body (index : Nat) (alignment : Option Int32) (specifier : Option (List Char)) : List Char :=
  (Number.natText index).toList ++ behind ',' (alignment.map fun a => (Number.intText a.toInt).toList) ++
    behind ':' specifier

/-- An item in a template. The braces of a text are written twice. -/
def written : Item → List Char
  | text s => Interpolation.Content.doubled s.toList
  | argument index alignment specifier => '\x7b' :: (body index alignment specifier ++ ['\x7d'])

/-- The index is one of so many arguments, and the specifier does not end the placeholder. -/
def Covered (count : Nat) : Item → Prop
  | text _ => True
  | argument index _ specifier => index < count ∧ index < indexBound ∧ '\x7d' ∉ specifier.getD []

def filled (h : Heap) (arguments : List Value) : Item → Except Fault String
  | text s => .ok s
  | argument index alignment specifier =>
    (argumentText h (arguments.getD index .null) (specifier.getD [])).map (pad (alignment.getD 0))

def segments : Item → List Segment
  | text s => s.toList.map fun c => if c = '\x7b' ∨ c = '\x7d' then .brace c else .text [c]
  | argument index alignment specifier =>
    [.placeholder (body index alignment specifier) ⟨index, alignment.getD 0, specifier.getD []⟩]

theorem not_mem_alignment {alignment : Option Int32} {c : Char} (hc : ¬ (c.isDigit = true ∨ c = '+' ∨ c = '-'))
    (hcomma : c ≠ ',') : c ∉ behind ',' (alignment.map fun a => (Number.intText a.toInt).toList) := by
  cases alignment with
  | none => simp [behind]
  | some a => simpa [behind, hcomma] using fun hmem => hc ((Number.spellsInt_intText a.toInt).mem hmem)

theorem aligns_intText (alignment : Option Int32) :
    Aligns (alignment.map fun a => (Number.intText a.toInt).toList) (alignment.getD 0) := by
  cases alignment with
  | none => exact .missing
  | some a => exact .given (.refl _) (Number.spellsInt_intText a.toInt)

variable {count : Nat} {item : Item}

theorem segments_valid (h : item.Covered count) : ∀ segment ∈ item.segments, segment.Valid := by
  cases item with
  | text s =>
    intro segment hsegment
    obtain ⟨c, -, rfl⟩ := List.mem_map.mp hsegment
    split
    · next hbrace => exact .brace hbrace
    · next hplain =>
      obtain ⟨hopen, hclose⟩ := not_or.mp hplain
      exact .text (by simpa using Ne.symm hopen) (by simpa using Ne.symm hclose)
  | argument index alignment specifier =>
    obtain ⟨-, hbound, hclose⟩ := h
    refine List.forall_mem_singleton.mpr (.placeholder (close_not_mem_numbered (not_mem_alignment (by decide)
      (by decide)) hclose) ?_ ((spelled_numbered_iff hbound (not_mem_alignment (by decide) (by decide))).mpr
        ⟨rfl, aligns_intText alignment, rfl⟩))
    rw [body, List.append_assoc]
    exact head?_numbered _

theorem flatMap_written (item : Item) : item.segments.flatMap Segment.written = item.written := by
  cases item with
  | text s =>
    rw [segments, List.flatMap_map, written, Interpolation.Content.doubled]
    congr 1
    funext c
    split <;> rfl
  | argument index alignment specifier => simp [segments, written, Segment.written]

def pieces : Item → List Piece
  | text s => s.toList.map .literal
  | argument index alignment specifier => [.placeholder ⟨index, alignment.getD 0, specifier.getD []⟩]

theorem flatMap_pieces (item : Item) : item.segments.flatMap Segment.pieces = item.pieces := by
  cases item with
  | text s =>
    rw [segments, List.flatMap_map, pieces, List.map_eq_flatMap]
    congr 1
    funext c
    split <;> rfl
  | argument index alignment specifier => rfl

end Item

theorem readPieces_item {count : Nat} {item : Item} (h : item.Covered count) (offset : Nat) (rest : List Char) :
    readPieces offset (item.written ++ rest) =
      (readPieces (offset + (Text.bytes item.written).length) rest).map (item.pieces ++ ·) := by
  rw [← Item.flatMap_written item, readPieces_segments (Item.segments_valid h), Item.flatMap_pieces]

theorem pieces_items {count : Nat} {items : List Item} (h : ∀ item ∈ items, item.Covered count) :
    pieces (String.ofList (items.flatMap Item.written)) = .ok (items.flatMap Item.pieces) := by
  refine pieces_eq_ok_iff.mpr ⟨items.flatMap Item.segments, fun segment hsegment => ?_, ?_, ?_⟩
  · obtain ⟨item, hitem, hsegment⟩ := List.mem_flatMap.mp hsegment
    exact Item.segments_valid (h item hitem) segment hsegment
  · rw [String.toList_ofList, List.flatMap_assoc]
    exact congrArg (items.flatMap ·) (funext fun item => (Item.flatMap_written item).symm)
  · rw [List.flatMap_assoc]
    exact congrArg (items.flatMap ·) (funext fun item => (Item.flatMap_pieces item).symm)

section Filling

/-- Why arguments cannot be said: a specifier does not apply to one of them, or the text of one has no end. -/
inductive Unsayable (h : Heap) (arguments : List Value) : Fault → Prop
  | specifier (specifier value : String) : Unsayable h arguments (.template (.invalidSpecifier specifier value))
  | endless {v : Value} (hv : v ∈ arguments) (hendless : h.Endless v) : Unsayable h arguments .endlessText

variable (h : Heap)

theorem argumentText_fails {v : Value} {arguments : List Value} (hv : v ∈ arguments) (specifier : List Char) :
    Fails (Unsayable h arguments) (argumentText h v specifier) := by
  have htext : Fails (Unsayable h arguments) (finite (h.scriptText v)) :=
    .finite fun hnone => .endless hv (Heap.endless_of_scriptText hnone)
  unfold argumentText
  split
  · exact htext
  · exact htext
  · split
    · exact .ok _
    · refine (Fails.finite fun hnone => ?_).bind fun text => .error (.specifier _ text)
      exact .endless hv (Heap.text_eq_none_iff.mp hnone)

theorem render_literals (values : List Value) (text : List Char) (pieces : List Piece) :
    render h values (text.map .literal ++ pieces) = (render h values pieces).map (String.ofList text ++ ·) := by
  induction text with
  | nil => cases hpieces : render h values pieces <;> simp [hpieces, Except.map]
  | cons c text ih =>
    have hcons : ∀ s : String, c.toString ++ (String.ofList text ++ s) = String.ofList (c :: text) ++ s :=
      fun s => String.toList_inj.mp (by simp [Char.toString])
    simp only [List.map_cons, List.cons_append, render, pieceText, ih, bind, Except.bind]
    cases render h values pieces with
    | error e => rfl
    | ok s => exact congrArg Except.ok (hcons s)

variable {h}  {arguments : List Value} {items : List Item}

theorem getElem?_of_lt {index : Nat} (hindex : index < arguments.length) :
    arguments[index]? = some (arguments.getD index .null) := by
  rw [List.getD_eq_getElem?_getD, List.getElem?_eq_getElem hindex, Option.getD_some]

theorem render_item {item : Item} (hitem : item.Covered arguments.length) (ps : List Piece) :
    render h arguments (item.pieces ++ ps) = do
      let text ← item.filled h arguments
      let others ← render h arguments ps
      return text ++ others := by
  cases item with
  | text s =>
    rw [Item.pieces, render_literals, String.ofList_toList]
    cases render h arguments ps <;> rfl
  | argument index alignment specifier =>
    rw [Item.pieces, List.singleton_append, render, pieceText, getElem?_of_lt hitem.1, Item.filled]

theorem render_items (hitems : ∀ item ∈ items, item.Covered arguments.length) :
    render h arguments (items.flatMap Item.pieces) = (items.mapM (Item.filled h arguments)).map String.join := by
  induction items with
  | nil => rfl
  | cons item items ih =>
    obtain ⟨hitem, hitems⟩ := List.forall_mem_cons.mp hitems
    rw [List.flatMap_cons, render_item hitem, ih hitems, List.mapM_cons]
    cases item.filled h arguments with
    | error e => rfl
    | ok text =>
      cases items.mapM (Item.filled h arguments) with
      | error e => rfl
      | ok texts => exact congrArg Except.ok String.join_cons.symm

theorem filled_fails {item : Item} (hitem : item.Covered arguments.length) :
    Fails (Unsayable h arguments) (item.filled h arguments) := by
  cases item with
  | text s => exact .ok _
  | argument index alignment specifier =>
    exact (argumentText_fails h (List.mem_of_getElem? (getElem?_of_lt hitem.1)) _).map _

theorem format_items (hitems : ∀ item ∈ items, item.Covered arguments.length) :
    format h (String.ofList (items.flatMap Item.written)) arguments =
      (items.mapM (Item.filled h arguments)).map String.join := by
  rw [format, pieces_items hitems]
  exact render_items hitems

end Filling

/-- Braces in the texts beside those of placeholders, a specifier with a brace of its own, and characters of two
bytes. -/
def Item.braced : List Item :=
  [.text "\x7bü\x7d", .argument 1 (some (-6)) (some ['D', '3']), .text "\x7b",
    .argument 0 none (some ['\x7b']), .text "\x7d"]

end Scriptlet.Template
