import Mathlib.Data.Finset.Card
import Mathlib.Logic.Relation
import Scriptlet.Fault
import Scriptlet.Heap

/-!
# Texts without end

A collection contains values, some of them collections that contain further ones. A walk through them that goes
deeper than there are cells has come to one address twice, and what it came to contains itself. So a text has no end
if the value is, or leads to, a collection that contains itself, and only then; otherwise the walk that is cut off
at the number of cells gives the whole text.
-/

namespace Scriptlet

section MapM

variable {α β : Type} {f g : α → Option β} {l : List α}

theorem mapM_eq_none_iff : l.mapM f = none ↔ ∃ a ∈ l, f a = none := by
  induction l with
  | nil => simp
  | cons a l ih =>
    rw [List.mapM_cons]
    cases hf : f a with
    | none => simp [hf]
    | some b =>
      simp only [List.exists_mem_cons_iff, hf, reduceCtorEq, false_or, ← ih]
      cases l.mapM f <;> simp

theorem mapM_eq_some_of (h : ∀ a ∈ l, ∀ b, f a = some b → g a = some b) {bs : List β} (hf : l.mapM f = some bs) :
    l.mapM g = some bs := by
  induction l generalizing bs with
  | nil => exact hf
  | cons a l ih =>
    rw [List.mapM_cons] at hf ⊢
    obtain ⟨b, hb, hf⟩ := Option.bind_eq_some_iff.mp hf
    obtain ⟨rest, hrest, hbs⟩ := Option.bind_eq_some_iff.mp hf
    have hg := ih (fun a ha => h a (List.mem_cons_of_mem _ ha)) hrest
    rw [h a List.mem_cons_self b hb, hg]
    exact hbs

end MapM

namespace Heap

open Relation

/-- The values that a value contains, if it is a collection. -/
def contents (h : Heap) : Value → List Value
  | .sequence _ _ a => (h.items a).toList
  | .dictionary _ _ a => (h.entries a).flatMap fun e => [e.1, e.2]
  | _ => []

def Contains (h : Heap) (v w : Value) : Prop :=
  w ∈ h.contents v

/-- A value that leads to a collection which contains itself, directly or through others. -/
def Endless (h : Heap) (v : Value) : Prop :=
  ∃ w, ReflTransGen h.Contains v w ∧ TransGen h.Contains w w

/-- A heap with a collection that contains itself, directly or through others. -/
def Circular (h : Heap) : Prop :=
  ∃ v, TransGen h.Contains v v

variable {h : Heap} {u v w : Value} {depth : Nat}

theorem Endless.circular (hv : h.Endless v) : h.Circular := by
  obtain ⟨w, -, hw⟩ := hv
  exact ⟨w, hw⟩

/-- What is endless contains something that is endless too. -/
theorem Endless.exists_contains (hv : h.Endless v) : ∃ w, h.Contains v w ∧ h.Endless w := by
  obtain ⟨u, hvu, hu⟩ := hv
  rcases ReflTransGen.cases_head hvu with rfl | ⟨w, hvw, hwu⟩
  · obtain ⟨w, hvw, hwv⟩ := TransGen.head'_iff.mp hu
    exact ⟨w, hvw, v, hwv, hu⟩
  · exact ⟨w, hvw, u, hwu, hu⟩

theorem textWithin_succ_eq_none_iff :
    h.textWithin (depth + 1) v = none ↔ ∃ w, h.Contains v w ∧ h.textWithin depth w = none := by
  cases v with
  | sequence kind element a =>
    rw [textWithin, Option.map_eq_none_iff, mapM_eq_none_iff]
    rfl
  | dictionary key value a =>
    have hentry (e : Value × Value) :
        ((h.textWithin depth e.1).bind fun key => (h.textWithin depth e.2).map (key ++ ": " ++ ·)) = none ↔
          ∃ w ∈ [e.1, e.2], h.textWithin depth w = none := by
      cases hkey : h.textWithin depth e.1 <;> simp [hkey]
    simp only [textWithin, Contains, contents, Option.map_eq_none_iff, mapM_eq_none_iff, hentry, List.mem_flatMap]
    tauto
  | _ => simp [textWithin, Contains, contents]

theorem textWithin_eq_none_of_endless (hv : h.Endless v) (depth : Nat) : h.textWithin depth v = none := by
  induction depth generalizing v with
  | zero =>
    -- what contains something is a collection
    obtain ⟨w, hvw, -⟩ := hv.exists_contains
    cases v <;> first | rfl | cases hvw
  | succ depth ih =>
    obtain ⟨w, hvw, hw⟩ := hv.exists_contains
    exact textWithin_succ_eq_none_iff.mpr ⟨w, hvw, ih hw⟩

/-- The address of a collection. -/
def address? : Value → Option Address
  | .sequence _ _ a => some a
  | .dictionary _ _ a => some a
  | _ => none

/-- A collection that contains something has a cell, and the cell says what it contains. -/
theorem exists_cell (hvw : h.Contains v w) : ∃ a, address? v = some a ∧ a < h.cells.size ∧
    ∀ u, address? u = some a → h.contents u = [] ∨ h.contents u = h.contents v := by
  cases v with
  | sequence kind element a =>
    simp only [Contains, contents, items] at hvw
    split at hvw
    · next values hcell =>
      refine ⟨a, rfl, (Array.getElem?_eq_some_iff.mp hcell).1, fun u hu => ?_⟩
      cases u <;> cases hu
      · exact .inr rfl
      · exact .inl (by simp [contents, entries, hcell])
    · cases hvw
  | dictionary key value a =>
    simp only [Contains, contents, entries] at hvw
    split at hvw
    · next pairs hcell =>
      refine ⟨a, rfl, (Array.getElem?_eq_some_iff.mp hcell).1, fun u hu => ?_⟩
      cases u <;> cases hu
      · exact .inl (by simp [contents, items, hcell])
      · exact .inr rfl
    · cases hvw
  | _ => cases hvw

/-- The walk has come by as many addresses as are in `passed`, and each of them is that of a collection which leads to
where the walk is now. -/
theorem endless_of_textWithin (passed : Finset Address)
    (hpassed : ∀ a ∈ passed, ∃ u, address? u = some a ∧ TransGen h.Contains u v)
    (hmany : h.cells.size < depth + passed.card) (hnone : h.textWithin depth v = none) : h.Endless v := by
  induction depth generalizing v passed with
  | zero =>
    have hbound : passed ⊆ Finset.range h.cells.size := by
      intro a ha
      obtain ⟨u, hu, huv⟩ := hpassed a ha
      obtain ⟨w, huw, -⟩ := TransGen.head'_iff.mp huv
      obtain ⟨b, hb, hlt, -⟩ := exists_cell huw
      obtain rfl : a = b := Option.some.inj (hu.symm.trans hb)
      exact Finset.mem_range.mpr hlt
    have hcard := Finset.card_le_card hbound
    rw [Finset.card_range] at hcard
    omega
  | succ depth ih =>
    obtain ⟨w, hvw, hw⟩ := textWithin_succ_eq_none_iff.mp hnone
    obtain ⟨a, ha, -, hsame⟩ := exists_cell hvw
    by_cases hmem : a ∈ passed
    · -- the walk comes to an address for the second time
      obtain ⟨u, hu, huv⟩ := hpassed a hmem
      obtain ⟨x, hux, hxv⟩ := TransGen.head'_iff.mp huv
      have hvx : h.Contains v x := by
        rcases hsame u hu with hempty | hcontents
        · rw [Contains, hempty] at hux
          cases hux
        · rwa [Contains, ← hcontents]
      exact ⟨v, .refl, .head' hvx hxv⟩
    · have hinsert : ∀ b ∈ insert a passed, ∃ u, address? u = some b ∧ TransGen h.Contains u w := by
        intro b hb
        rcases Finset.mem_insert.mp hb with rfl | hb
        · exact ⟨v, ha, .single hvw⟩
        · obtain ⟨u, hu, huv⟩ := hpassed b hb
          exact ⟨u, hu, huv.tail hvw⟩
      have hmore : h.cells.size < depth + (insert a passed).card := by
        rw [Finset.card_insert_of_notMem hmem]
        omega
      obtain ⟨x, hwx, hx⟩ := ih (insert a passed) hinsert hmore hw
      exact ⟨x, .head hvw hwx, hx⟩

theorem textWithin_succ {text : String} (ht : h.textWithin depth v = some text) :
    h.textWithin (depth + 1) v = some text := by
  induction depth generalizing v text with
  | zero => cases v <;> first | exact ht | cases ht
  | succ depth ih =>
    cases v with
    | sequence kind element a =>
      obtain ⟨texts, htexts, rfl⟩ := Option.map_eq_some_iff.mp ht
      rw [textWithin, mapM_eq_some_of (fun w _ text => ih) htexts]
      rfl
    | dictionary key value a =>
      obtain ⟨texts, htexts, rfl⟩ := Option.map_eq_some_iff.mp ht
      rw [textWithin, mapM_eq_some_of (fun e _ text he => ?_) htexts]
      · rfl
      · obtain ⟨k, hk, he⟩ := Option.bind_eq_some_iff.mp he
        obtain ⟨x, hx, rfl⟩ := Option.map_eq_some_iff.mp he
        rw [ih hk, ih hx]
        rfl
    | _ => exact ht

theorem textWithin_mono {more : Nat} (hle : depth ≤ more) {text : String} (ht : h.textWithin depth v = some text) :
    h.textWithin more v = some text := by
  induction hle with
  | refl => exact ht
  | step _ ih => exact textWithin_succ ih

/-- A text has no end if the value leads to a collection that contains itself, and only then. -/
theorem text_eq_none_iff : h.text v = none ↔ h.Endless v :=
  ⟨endless_of_textWithin ∅ (by simp) (by simp), fun hv => textWithin_eq_none_of_endless hv _⟩

/-- The walk that is cut off misses no text: where any walk comes to an end, it does too, and gives the same. -/
theorem text_eq_some_iff {text : String} : h.text v = some text ↔ ∃ depth, h.textWithin depth v = some text := by
  refine ⟨fun ht => ⟨_, ht⟩, fun ⟨depth, ht⟩ => ?_⟩
  cases htext : h.text v with
  | none =>
    rw [textWithin_eq_none_of_endless (text_eq_none_iff.mp htext)] at ht
    cases ht
  | some other =>
    rcases le_total depth (h.cells.size + 1) with hle | hle
    · exact htext.symm.trans (textWithin_mono hle ht)
    · exact (textWithin_mono hle htext).symm.trans ht

theorem endless_of_scriptText (hnone : h.scriptText v = none) : h.Endless v := by
  unfold scriptText at hnone
  split at hnone
  · cases hnone
  · exact text_eq_none_iff.mp hnone

theorem circular_of_mapM {values : List Value} (hnone : values.mapM h.scriptText = none) : h.Circular := by
  obtain ⟨v, -, hv⟩ := mapM_eq_none_iff.mp hnone
  exact (endless_of_scriptText hv).circular

end Heap

/-- A computation that fails with such faults only. -/
def Fails (P : Fault → Prop) {α : Type} (r : Except Fault α) : Prop :=
  ∀ fault, r = .error fault → P fault

namespace Fails

variable {α β : Type} {P : Fault → Prop}

theorem ok (a : α) : Fails P (.ok a) := by
  intro fault h
  cases h

theorem error {fault : Fault} (h : P fault) : Fails P (.error fault : Except Fault α) := by
  rintro _ ⟨⟩
  exact h

theorem bind {r : Except Fault α} {f : α → Except Fault β} (hr : Fails P r) (hf : ∀ a, Fails P (f a)) :
    Fails P (r >>= f) := by
  cases r with
  | ok a => exact hf a
  | error fault => exact error (hr fault rfl)

theorem map {r : Except Fault α} (hr : Fails P r) (f : α → β) : Fails P (r.map f) := by
  cases r with
  | ok a => exact ok _
  | error fault => exact error (hr fault rfl)

theorem mapM {f : α → Except Fault β} {items : List α} (h : ∀ item ∈ items, Fails P (f item)) :
    Fails P (items.mapM f) := by
  induction items with
  | nil => exact ok _
  | cons item items ih =>
    obtain ⟨hitem, hitems⟩ := List.forall_mem_cons.mp h
    rw [List.mapM_cons]
    exact hitem.bind fun _ => (ih hitems).bind fun _ => ok _

theorem finite {o : Option α} (ho : o = none → P .endlessText) : Fails P (Scriptlet.finite o) := by
  cases o with
  | some a => exact ok a
  | none => exact error (ho rfl)

end Fails

end Scriptlet
