import Scriptlet.Proofs.TemplateGrammar
import Scriptlet.Standard.Strings

/-!
# Templates of interpolated strings

The template that is made for the content of an interpolated string is read back as that content: every text as
itself, and every hole as a placeholder with its number, its alignment and its specifier. If an alignment is no number,
its placeholder is reported; the braces are always balanced.
-/

namespace Scriptlet

open Interpolation

namespace Interpolation.Hole

/-- What the alignment of a hole asks for, if it is a number; blanks around it do not count. -/
def width? (hole : Hole) : Option Int32 :=
  match hole.alignment with
  | some text => Number.readInt32 (Text.trim text)
  | none => some 0

def body (count : Nat) (hole : Hole) : List Char :=
  (Number.natText count).toList ++ (hole.alignment.map (',' :: ·)).getD [] ++ (hole.specifier.map (':' :: ·)).getD []

end Interpolation.Hole

def Interpolation.Content.Aligned (content : Interpolation.Content) : Prop :=
  ∀ hole ∈ content.holes, hole.1.width?.isSome = true

namespace Template

/-- The pieces that holes and the texts behind them stand for, when so many holes came before. -/
def holePieces (count : Nat) : List (Hole × List Char) → List Piece
  | [] => []
  | (hole, text) :: rest =>
    .placeholder ⟨count, hole.width?.getD 0, hole.specifier.getD []⟩ ::
      (text.map .literal ++ holePieces (count + 1) rest)

theorem readPieces_doubled (offset : Nat) (text rest : List Char) :
    ∃ offset', readPieces offset (Content.doubled text ++ rest) =
      (readPieces offset' rest).map (text.map Piece.literal ++ ·) := by
  have hcovered : (Item.text (String.ofList text)).Covered 0 := trivial
  have hread := readPieces_item hcovered offset rest
  rw [Item.written, Item.pieces, String.toList_ofList] at hread
  exact ⟨_, hread⟩

theorem aligns_iff (hole : Hole) (width : Int32) : Aligns hole.alignment width ↔ hole.width? = some width := by
  unfold Hole.width?
  cases hole.alignment with
  | none => rw [aligns_none_iff, Option.some.injEq, eq_comm]
  | some text => exact aligns_some_iff

variable {quote : Char}

/-- A hole is read as a placeholder if its alignment is a number, and reported if not. -/
theorem readPieces_hole {hole : Hole} (hhole : hole.WellFormed quote) {count : Nat}
    (hcount : count < indexBound) (offset : Nat) (rest : List Char) :
    ∃ offset', readPieces offset ('\x7b' :: (Number.natText count).toList ++ hole.tail ++ rest) =
      match hole.width? with
      | some width => (readPieces offset' rest).map (.placeholder ⟨count, width, hole.specifier.getD []⟩ :: ·)
      | none => .error (.invalidPlaceholder (String.ofList (hole.body count))) := by
  have hwritten : '\x7b' :: (Number.natText count).toList ++ hole.tail ++ rest =
      '\x7b' :: (hole.body count ++ '\x7d' :: rest) := by
    simp [Hole.tail, Hole.body]
  have hopen : (hole.body count).head? ≠ some '\x7b' := by
    rw [Hole.body, List.append_assoc]
    exact head?_numbered _
  have halignment : ':' ∉ behind ',' hole.alignment ∧ '\x7d' ∉ behind ',' hole.alignment := by
    cases halignment : hole.alignment with
    | none => simp [behind]
    | some text =>
      obtain ⟨hplain, hcolon⟩ := hhole.alignment text halignment
      simpa [behind] using ⟨hcolon, fun hmem => (hplain _ hmem).1 rfl⟩
  have hclose : '\x7d' ∉ hole.body count := by
    refine close_not_mem_numbered halignment.2 ?_
    cases hspecifier : hole.specifier with
    | none => simp
    | some text => simpa using fun hmem => (hhole.specifier text hspecifier _ hmem).1 rfl
  have hspelled (p : Placeholder) : p.Spelled (hole.body count) ↔ _ := spelled_numbered_iff hcount halignment.1
  refine ⟨offset + (Text.bytes (hole.body count)).length + 2, ?_⟩
  rw [hwritten]
  cases hwidth : hole.width? with
  | some width =>
    exact readPieces_placeholder hopen hclose ((hspelled _).mpr ⟨rfl, (aligns_iff hole width).mpr hwidth, rfl⟩)
  | none =>
    refine readPieces_invalid hopen hclose fun p hp => ?_
    rw [hspelled, aligns_iff, hwidth] at hp
    cases hp.2.1

/-- The placeholders for holes are read back, or the first one is reported whose alignment is no number. -/
theorem readPieces_placeholders {holes : List (Hole × List Char)}
    (hholes : ∀ hole ∈ holes, hole.1.WellFormed quote) {count : Nat} (hcount : count + holes.length ≤ indexBound)
    (offset : Nat) : ((∀ hole ∈ holes, hole.1.width?.isSome = true) →
      readPieces offset (Content.placeholders count holes) = .ok (holePieces count holes)) ∧
    ((∃ hole ∈ holes, hole.1.width? = none) →
      ∃ body, readPieces offset (Content.placeholders count holes) = .error (.invalidPlaceholder body)) := by
  induction holes generalizing count offset with
  | nil => exact ⟨fun _ => by rw [Content.placeholders, readPieces, holePieces], by simp⟩
  | cons first rest ih =>
    obtain ⟨hole, text⟩ := first
    rw [List.length_cons] at hcount
    obtain ⟨offset₁, hhole⟩ := readPieces_hole (hholes _ List.mem_cons_self) (show count < indexBound by omega) offset
      (Content.doubled text ++ Content.placeholders (count + 1) rest)
    obtain ⟨offset₂, htext⟩ := readPieces_doubled offset₁ text (Content.placeholders (count + 1) rest)
    obtain ⟨hgood, hbad⟩ := ih (fun other hother => hholes other (List.mem_cons_of_mem _ hother))
      (show count + 1 + rest.length ≤ indexBound by omega) offset₂
    rw [Content.placeholders, hhole]
    refine ⟨fun hwidths => ?_, fun hwidths => ?_⟩
    · obtain ⟨width, hwidth⟩ := Option.isSome_iff_exists.mp (hwidths _ List.mem_cons_self)
      simp only at hwidth
      simp only [hwidth, htext, hgood fun other hother => hwidths other (List.mem_cons_of_mem _ hother), holePieces]
      rfl
    · cases hwidth : hole.width? with
      | none => exact ⟨_, rfl⟩
      | some width =>
        obtain ⟨other, hother, hnone⟩ := hwidths
        rcases List.mem_cons.mp hother with rfl | hother
        · simp [hwidth] at hnone
        · obtain ⟨body, hbody⟩ := hbad ⟨other, hother, hnone⟩
          exact ⟨body, by simp [htext, hbody, Except.map]⟩

theorem filterMap_index_literals (text : List Char) : (text.map Piece.literal).filterMap Piece.index? = [] := by
  induction text with
  | nil => rfl
  | cons c text ih => exact ih

theorem filterMap_index_holePieces (count : Nat) (holes : List (Hole × List Char)) :
    (holePieces count holes).filterMap Piece.index? = List.range' count holes.length := by
  induction holes generalizing count with
  | nil => rfl
  | cons first rest ih =>
    obtain ⟨hole, text⟩ := first
    simp only [holePieces, List.filterMap_cons, Piece.index?, List.filterMap_append, filterMap_index_literals, ih,
      List.nil_append, List.length_cons, List.range'_succ]

section Filling

variable (h : Heap)

/-- Holes filled in with values, each with the text behind it. The first value that its specifier does not apply to
decides. -/
def fillHoles : List (Hole × List Char) → List Value → Except Fault String
  | (hole, text) :: rest, v :: vs => do
    let filled ← argumentText h v (hole.specifier.getD [])
    let others ← fillHoles rest vs
    return pad (hole.width?.getD 0) filled ++ String.ofList text ++ others
  | _, _ => .ok ""

/-- What an interpolated string says for the values of its expressions: its texts with the values between them. -/
def fill (content : Interpolation.Content) (values : List Value) : Except Fault String := do
  return String.ofList content.lead ++ (← fillHoles h content.holes values)

theorem fill_fails (content : Interpolation.Content) (values : List Value) :
    Fails (Unsayable h values) (fill h content values) := by
  have hholes : ∀ holes vs, vs ⊆ values → Fails (Unsayable h values) (fillHoles h holes vs) := by
    intro holes vs hvs
    fun_induction fillHoles h holes vs with
    | case1 hole text rest v vs ih =>
      obtain ⟨hv, hvs⟩ := List.cons_subset.mp hvs
      exact (argumentText_fails h hv _).bind fun _ => (ih hvs).bind fun _ => .ok _
    | case2 => exact .ok _
  exact (hholes _ _ fun _ => id).bind fun _ => .ok _

/-- Rendering the pieces of holes is filling them in with the values from the first number on. -/
theorem render_holePieces {values vs : List Value} {count : Nat} {holes : List (Hole × List Char)}
    (hvalues : values.drop count = vs) (hlength : vs.length = holes.length) :
    render h values (holePieces count holes) = fillHoles h holes vs := by
  induction holes generalizing count vs with
  | nil =>
    rw [holePieces, render]
    cases vs with
    | nil => rfl
    | cons v vs => cases hlength
  | cons first rest ih =>
    obtain ⟨hole, text⟩ := first
    cases vs with
    | nil => cases hlength
    | cons v vs =>
      have hv : values[count]? = some v := by
        have hhead := congrArg List.head? hvalues
        rwa [List.head?_drop] at hhead
      have hvs : values.drop (count + 1) = vs := by
        rw [← List.drop_drop, hvalues]
        rfl
      rw [holePieces, render, fillHoles, pieceText, hv, render_literals, ih hvs (Nat.succ.inj hlength)]
      simp only [bind, Except.bind, Except.map]
      cases argumentText h v (hole.specifier.getD []) with
      | error e => rfl
      | ok filled =>
        cases fillHoles h rest vs with
        | error e => rfl
        | ok others => exact congrArg Except.ok String.append_assoc.symm

end Filling

/-- The template for a content is read back as this content if all alignments are numbers. Otherwise the first
placeholder with another alignment is reported. -/
theorem pieces_template {content : Interpolation.Content}
    (hholes : ∀ hole ∈ content.holes, hole.1.WellFormed quote) (hcount : content.holes.length ≤ indexBound) :
    (content.Aligned → pieces (String.ofList (content.template 0)) =
      .ok (content.lead.map .literal ++ holePieces 0 content.holes)) ∧
    (¬ content.Aligned → ∃ body, pieces (String.ofList (content.template 0)) = .error (.invalidPlaceholder body)) := by
  obtain ⟨offset, hlead⟩ := readPieces_doubled 0 content.lead (Content.placeholders 0 content.holes)
  obtain ⟨hgood, hbad⟩ := readPieces_placeholders hholes (show 0 + content.holes.length ≤ indexBound by omega) offset
  rw [pieces, String.toList_ofList, Interpolation.Content.template, hlead]
  refine ⟨fun haligned => by rw [hgood haligned]; rfl, fun haligned => ?_⟩
  obtain ⟨body, hbody⟩ := hbad (by simpa [Interpolation.Content.Aligned] using haligned)
  exact ⟨body, by rw [hbody]; rfl⟩

section Reading

variable {quote : Char} {content : Interpolation.Content} (hholes : ∀ hole ∈ content.holes, hole.1.WellFormed quote)
  (hcount : content.holes.length ≤ indexBound)
include hholes hcount

theorem indices_template (haligned : content.Aligned) :
    indices (String.ofList (content.template 0)) = .ok (List.range content.holes.length) := by
  rw [indices, (pieces_template hholes hcount).1 haligned, List.range_eq_range']
  simp only [Except.map, List.filterMap_append, filterMap_index_literals, filterMap_index_holePieces, List.nil_append]

theorem indices_template_error (haligned : ¬ content.Aligned) :
    ∃ body, indices (String.ofList (content.template 0)) = .error (.invalidPlaceholder body) := by
  obtain ⟨body, hpieces⟩ := (pieces_template hholes hcount).2 haligned
  exact ⟨body, by rw [indices, hpieces]; rfl⟩

theorem format_template (haligned : content.Aligned) (h : Heap) {values : List Value}
    (hvalues : values.length = content.holes.length) :
    format h (String.ofList (content.template 0)) values = fill h content values := by
  have hrender := render_holePieces h (List.drop_zero (l := values)) hvalues
  rw [format, (pieces_template hholes hcount).1 haligned, fill]
  change render h values (_ ++ _) = _
  rw [render_literals, hrender]
  cases fillHoles h content.holes values <;> rfl

end Reading

end Template

theorem eraseDups_of_nodup {l : List Nat} (h : l.Nodup) : l.eraseDups = l := by
  induction l with
  | nil => rfl
  | cons a l ih =>
    obtain ⟨ha, hl⟩ := List.nodup_cons.mp h
    have hfilter : l.filter (fun b => !b == a) = l := by
      refine List.filter_eq_self.mpr fun b hb => ?_
      have hne : b ≠ a := by
        rintro rfl
        exact ha hb
      simpa using hne
    rw [List.eraseDups_cons, hfilter, ih hl]

theorem Host.heap_bind {α : Type} (f : Heap → Host α) (w : World) : (Host.heap >>= f) w = f w.heap w :=
  rfl

namespace Standard

open Template

variable {values : List Value}

variable {quote : Char} {content : Interpolation.Content} (hholes : ∀ hole ∈ content.holes, hole.1.WellFormed quote)
  (hcount : content.holes.length ≤ indexBound)
include hholes hcount

/-- A call with the template for a content is accepted if all alignments are numbers and every hole has one argument,
and only then. -/
theorem checkFormat_template_iff (arguments : List (Option Value)) :
    checkFormat (some (.string (String.ofList (content.template 0))) :: arguments) = .ok () ↔
      content.Aligned ∧ arguments.length = content.holes.length := by
  by_cases haligned : content.Aligned
  · have hsorted : (List.range content.holes.length).mergeSort (· ≤ ·) = List.range content.holes.length :=
      List.mergeSort_of_pairwise (by simpa using List.pairwise_le_range)
    simp only [checkFormat, indices_template hholes hcount haligned, hsorted, eraseDups_of_nodup List.nodup_range,
      List.length_range]
    split
    · next missing hmissing =>
      have hmem := List.mem_range.mp (List.mem_of_find?_eq_some hmissing)
      have hle := List.find?_some hmissing
      simp only [decide_eq_true_eq] at hle
      simp only [reduceCtorEq, false_iff]
      omega
    · split
      · next hsame => simp [haligned, hsame]
      · next hdifferent => simp [Ne.symm hdifferent]
  · obtain ⟨body, hindices⟩ := indices_template_error hholes hcount haligned
    simp [checkFormat, hindices, haligned]

/-- Formatting with the template for a content and one value for every hole fills in the content, and leaves the world as
it is. -/
theorem formatText_template (haligned : content.Aligned) (hvalues : values.length = content.holes.length) (w : World) :
    (∃ text, fill w.heap content values = .ok text ∧
      formatText (.string (String.ofList (content.template 0)) :: values) w = .ok (.string text) w) ∨
    ∃ fault, fill w.heap content values = .error fault ∧ Unsayable w.heap values fault ∧
      formatText (.string (String.ofList (content.template 0)) :: values) w = .error fault w := by
  have hformat := format_template hholes hcount haligned w.heap hvalues
  simp only [formatText, textArgument, pure_bind, Host.heap_bind, hformat]
  cases hfill : fill w.heap content values with
  | ok text => exact .inl ⟨text, rfl, rfl⟩
  | error fault => exact .inr ⟨fault, rfl, fill_fails w.heap content values fault hfill, rfl⟩

end Standard

end Scriptlet
