import Scriptlet.Proofs.WholeNumbers
import Scriptlet.Registry

/-!
# Places in texts

The members of strings count in characters, and agree on them: where a text is found is where it can be cut out. A
text is kept as bytes, though, and a search that compares bytes finds places in bytes. Since no character starts
inside another one, these are the same places: the first occurrence among the bytes stands behind the bytes of just
those characters that stand before the first occurrence among the characters.
-/

namespace Scriptlet

namespace Text

section Places

variable {α : Type} {pattern text : List α} {i j : Nat}

/-- The pattern stands at a place of the text, counted from its start, and at none before. -/
structure FirstAt (pattern text : List α) (i : Nat) : Prop where
  inside : i ≤ text.length
  found : pattern <+: text.drop i
  earliest : ∀ j < i, ¬ pattern <+: text.drop j

theorem take_drop_eq_iff (pattern text : List α) (i : Nat) :
    (text.drop i).take pattern.length = pattern ↔ pattern <+: text.drop i := by
  rw [List.prefix_iff_eq_take, eq_comm]

theorem FirstAt.eq_zero_iff (h : FirstAt pattern text i) : i = 0 ↔ pattern <+: text := by
  constructor
  · rintro rfl
    simpa using h.found
  · intro hprefix
    refine Nat.eq_zero_of_not_pos fun hpos => h.earliest 0 hpos ?_
    simpa using hprefix

end Places

variable {pattern text : List Char} {i : Nat}

theorem indexOf?_spec (pattern text : List Char) :
    (∃ i, indexOf? pattern text = some i ∧ FirstAt pattern text i) ∨
      (indexOf? pattern text = none ∧ ∀ i, ¬ pattern <+: text.drop i) := by
  induction text with
  | nil =>
    cases pattern with
    | nil => exact .inl ⟨0, rfl, ⟨Nat.le_refl _, List.prefix_refl _, by simp⟩⟩
    | cons c pattern => exact .inr ⟨rfl, by simp⟩
  | cons c text ih =>
    rw [indexOf?]
    by_cases hprefix : pattern <+: c :: text
    · rw [if_pos (List.isPrefixOf_iff_prefix.mpr hprefix)]
      exact .inl ⟨0, rfl, ⟨Nat.zero_le _, hprefix, by simp⟩⟩
    · rw [if_neg (mt List.isPrefixOf_iff_prefix.mp hprefix)]
      rcases ih with ⟨i, hi, hfirst⟩ | ⟨hnone, hnowhere⟩
      · refine .inl ⟨i + 1, by rw [hi]; rfl, ⟨Nat.succ_le_succ hfirst.inside, hfirst.found, ?_⟩⟩
        rintro (_ | j) hj
        · exact hprefix
        · exact hfirst.earliest j (Nat.lt_of_succ_lt_succ hj)
      · refine .inr ⟨by rw [hnone]; rfl, ?_⟩
        rintro (_ | i)
        · exact hprefix
        · exact hnowhere i

def bytes (cs : List Char) : List UInt8 :=
  cs.flatMap String.utf8EncodeChar

theorem bytes_toList (s : String) : bytes s.toList = s.toByteArray.data.toList := by
  conv => rhs; rw [← String.ofList_toList (s := s), String.toByteArray_ofList]
  simp [List.utf8Encode, bytes]

@[simp] theorem bytes_cons (c : Char) (cs : List Char) : bytes (c :: cs) = String.utf8EncodeChar c ++ bytes cs :=
  List.flatMap_cons

theorem bytes_append (cs more : List Char) : bytes (cs ++ more) = bytes cs ++ bytes more :=
  List.flatMap_append

theorem eq_of_encoded {c d : Char} {rest rest' : List UInt8}
    (h : String.utf8EncodeChar c ++ rest = String.utf8EncodeChar d ++ rest') : c = d := by
  have hdecode (c : Char) (rest : List UInt8) :
      (String.utf8EncodeChar c ++ rest).toByteArray.utf8DecodeChar? 0 = some c := by
    rw [List.toByteArray_append]
    exact ByteArray.utf8DecodeChar?_utf8EncodeChar_append
  exact Option.some.inj ((hdecode c rest).symm.trans (h ▸ hdecode d rest'))

theorem prefix_of_bytes (h : bytes pattern <+: bytes text) : pattern <+: text := by
  induction pattern generalizing text with
  | nil => exact List.nil_prefix
  | cons c pattern ih =>
    obtain ⟨rest, hrest⟩ := h
    rw [bytes_cons, List.append_assoc] at hrest
    cases text with
    | nil => exact absurd (List.append_eq_nil_iff.mp hrest).1 String.utf8EncodeChar_ne_nil
    | cons d text =>
      rw [bytes_cons] at hrest
      obtain rfl := eq_of_encoded hrest
      exact (List.prefix_cons_inj c).mpr (ih ⟨rest, List.append_cancel_left hrest⟩)

theorem place_of_bytes {k : Nat} (hpattern : pattern ≠ []) (h : bytes pattern <+: (bytes text).drop k) :
    ∃ i ≤ text.length, k = (bytes (text.take i)).length ∧ pattern <+: text.drop i := by
  obtain ⟨c, pattern, rfl⟩ := List.exists_cons_of_ne_nil hpattern
  induction text generalizing k with
  | nil =>
    rw [show bytes [] = [] from rfl, List.drop_nil, List.prefix_nil, bytes_cons] at h
    exact absurd (List.append_eq_nil_iff.mp h).1 String.utf8EncodeChar_ne_nil
  | cons d text ih =>
    rcases Nat.eq_zero_or_pos k with rfl | hpos
    · exact ⟨0, Nat.zero_le _, rfl, prefix_of_bytes h⟩
    by_cases hk : k < (String.utf8EncodeChar d).length
    · -- a byte inside a character starts no other one
      have hsize : 0 < (String.utf8EncodeChar c).length := by
        rw [String.length_utf8EncodeChar]
        exact c.utf8Size_pos
      have hbyte : (String.utf8EncodeChar c)[0] = (String.utf8EncodeChar d)[k] := by
        obtain ⟨rest, hrest⟩ := h
        have hhead := congrArg (·[0]?) hrest
        rw [← Option.some_inj, ← List.getElem?_eq_getElem, ← List.getElem?_eq_getElem]
        simpa [List.getElem?_append_left hsize, List.getElem?_append_left hk] using hhead
      have hstart : (String.utf8EncodeChar c)[0].IsUTF8FirstByte :=
        UInt8.isUTF8FirstByte_getElem_utf8EncodeChar.mpr rfl
      rw [hbyte] at hstart
      exact absurd (UInt8.isUTF8FirstByte_getElem_utf8EncodeChar.mp hstart) (Nat.ne_of_gt hpos)
    · have hbehind : (bytes (d :: text)).drop k = (bytes text).drop (k - (String.utf8EncodeChar d).length) := by
        rw [bytes_cons, List.drop_append, List.drop_eq_nil_of_le (Nat.le_of_not_lt hk), List.nil_append]
      obtain ⟨i, hi, hplace, hfound⟩ := ih (hbehind ▸ h)
      refine ⟨i + 1, Nat.succ_le_succ hi, ?_, hfound⟩
      rw [List.take_succ_cons, bytes_cons, List.length_append, ← hplace]
      omega

theorem FirstAt.inBytes (h : FirstAt pattern text i) :
    FirstAt (bytes pattern) (bytes text) (bytes (text.take i)).length := by
  have hsplit : bytes text = bytes (text.take i) ++ bytes (text.drop i) := by
    rw [← bytes_append, List.take_append_drop]
  refine ⟨by simp [hsplit], ?_, fun k hk hfound => ?_⟩
  · obtain ⟨rest, hrest⟩ := h.found
    rw [hsplit, List.drop_left, ← hrest, bytes_append]
    exact List.prefix_append _ _
  · by_cases hpattern : pattern = []
    · -- nothing stands before all characters already
      obtain rfl : i = 0 := h.eq_zero_iff.mpr (hpattern ▸ List.nil_prefix)
      exact absurd hk (Nat.not_lt_zero k)
    · obtain ⟨j, hj, rfl, hplace⟩ := place_of_bytes hpattern hfound
      refine h.earliest j (Nat.lt_of_not_le fun hij => ?_) hplace
      have htake : text.take j = text.take i ++ (text.take j).drop i := by
        conv => lhs; rw [← List.take_append_drop i (text.take j), List.take_take, Nat.min_eq_left hij]
      rw [htake, bytes_append, List.length_append] at hk
      omega

end Text

namespace Standard

variable {s p : String} {i n : Int32} {w : World}

/-- What a script gets from a string under a name: a property if there are no arguments, and otherwise the method that
takes them. -/
def ofString (s name : String) (arguments : Option (List Value)) : Host Value :=
  match Registry.standard.resolveMember (.value .string) name (arguments.map (·.map Value.runtimeType)) with
  | .ok m => m.call (.string s :: arguments.getD [])
  | .error e => throw (.overload name e)

theorem countValue_eq {count : Nat} (h : count ≤ 2147483647) (w : World) :
    ∃ c : Int32, c.toInt = count ∧ countValue count w = .ok (.int c) w := by
  cases hfit : Number.fit32 count with
  | none =>
    have := (Number.fit32_eq_none_iff _).mp hfit
    omega
  | some c => exact ⟨c, (Number.fit32_eq_some_iff _ _).mp hfit, by rw [countValue, hfit]; rfl⟩

theorem length_eq (h : s.length ≤ 2147483647) (w : World) :
    ∃ c : Int32, c.toInt = s.length ∧ ofString s "Length" none w = .ok (.int c) w :=
  countValue_eq h w

theorem contains_eq (s p : String) (w : World) :
    ofString s "Contains" (some [.string p]) w = .ok (.bool (Text.contains p.toList s.toList)) w :=
  rfl

theorem startsWith_eq (s p : String) (w : World) :
    ofString s "StartsWith" (some [.string p]) w = .ok (.bool (p.toList.isPrefixOf s.toList)) w :=
  rfl

theorem indexOf_eq_some {place : Nat} (h : Text.indexOf? p.toList s.toList = some place) (hplace : place ≤ 2147483647)
    (w : World) : ∃ c : Int32, c.toInt = place ∧ ofString s "IndexOf" (some [.string p]) w = .ok (.int c) w := by
  obtain ⟨c, hc, hcount⟩ := countValue_eq hplace w
  refine ⟨c, hc, ?_⟩
  rw [show ofString s "IndexOf" (some [.string p]) = indexOfText [.string s, .string p] from rfl]
  simp only [indexOfText, textArgument, pure_bind, h, hcount]

theorem indexOf_eq_none (h : Text.indexOf? p.toList s.toList = none) (w : World) :
    ofString s "IndexOf" (some [.string p]) w = .ok (.int (-1)) w := by
  rw [show ofString s "IndexOf" (some [.string p]) = indexOfText [.string s, .string p] from rfl]
  simp only [indexOfText, textArgument, pure_bind, h]
  rfl

/-- The rest of a string can be taken from every place between characters, its two ends included. -/
theorem suffix_eq (s : String) (i : Int32) (w : World) : ofString s "Substring" (some [.int i]) w =
    if 0 ≤ i.toInt ∧ i.toInt ≤ s.length then .ok (.string (String.ofList (s.toList.drop i.toInt.toNat))) w
    else .error (.indexOutOfRange i.toInt (s.length + 1)) w := by
  rw [show ofString s "Substring" (some [.int i]) = suffixFrom [.string s, .int i] from rfl]
  simp only [suffixFrom, textArgument, pure_bind, checkedIndex, String.length_toList]
  by_cases h : 0 ≤ i.toInt ∧ i.toInt ≤ s.length
  · rw [if_pos h, if_pos (by omega)]
    rfl
  · rw [if_neg h, if_neg (by omega)]
    rfl

theorem slice_eq (s : String) (i n : Int32) (w : World) : ofString s "Substring" (some [.int i, .int n]) w =
    if 0 ≤ i.toInt ∧ i.toInt ≤ s.length then
      if 0 ≤ n.toInt ∧ n.toInt ≤ s.length - i.toInt then
        .ok (.string (String.ofList ((s.toList.drop i.toInt.toNat).take n.toInt.toNat))) w
      else .error (.indexOutOfRange n.toInt (s.length - i.toInt.toNat)) w
    else .error (.indexOutOfRange i.toInt (s.length + 1)) w := by
  rw [show ofString s "Substring" (some [.int i, .int n]) = sliceFrom [.string s, .int i, .int n] from rfl]
  simp only [sliceFrom, textArgument, pure_bind, checkedIndex, String.length_toList]
  by_cases h : 0 ≤ i.toInt ∧ i.toInt ≤ s.length
  · rw [if_pos h, if_pos (by omega)]
    simp only [Host.ofExcept, pure_bind]
    by_cases hn : 0 ≤ n.toInt ∧ n.toInt ≤ s.length - i.toInt
    · rw [if_pos hn, if_pos (by omega)]
      rfl
    · rw [if_neg hn, if_neg (by omega)]
      rfl
  · rw [if_neg h, if_neg (by omega)]
    rfl

theorem slice_eq_iff (hn : n.toInt = p.length) : ofString s "Substring" (some [.int i, .int n]) w = .ok (.string p) w ↔
    0 ≤ i.toInt ∧ i.toInt ≤ s.length ∧ p.toList <+: s.toList.drop i.toInt.toNat := by
  have hcut : String.ofList ((s.toList.drop i.toInt.toNat).take n.toInt.toNat) = p ↔
      p.toList <+: s.toList.drop i.toInt.toNat := by
    rw [← Text.take_drop_eq_iff, hn, Int.toNat_natCast, String.length_toList, ← String.toList_inj, String.toList_ofList]
  rw [slice_eq]
  split
  · next hi =>
    split
    · rw [EStateM.Result.ok.injEq, Value.string.injEq, hcut]
      exact ⟨fun h => ⟨hi.1, hi.2, h.1⟩, fun h => ⟨h.2.2, rfl⟩⟩
    · next hlong =>
      have hshort : ¬ p.toList <+: s.toList.drop i.toInt.toNat := fun hfound => by
        have hlength := hfound.length_le
        rw [List.length_drop, String.length_toList, String.length_toList] at hlength
        omega
      simp only [reduceCtorEq, false_iff]
      exact fun h => hshort h.2.2
  · next hi =>
    simp only [reduceCtorEq, false_iff]
    exact fun h => hi ⟨h.1, h.2.1⟩

/-- What the members say about the first text in the second one, whose width is given: where it is, whether it is
there and whether it stands in front. The place found is the first one where the text can be cut out, and in bytes it
is the first one where the bytes of the text stand. -/
structure Finds (p s : String) (w : World) (width index : Int32) (contains starts : Bool) : Prop where
  contains_iff : contains = true ↔ 0 ≤ index.toInt
  absent_iff : contains = false ↔ index = -1
  starts_iff : starts = true ↔ index = 0
  somewhere_iff : contains = true ↔ ∃ i, ofString s "Substring" (some [.int i, .int width]) w = .ok (.string p) w
  found : contains = true → ofString s "Substring" (some [.int index, .int width]) w = .ok (.string p) w
  earliest : ∀ i, i.toInt < index.toInt → ofString s "Substring" (some [.int i, .int width]) w ≠ .ok (.string p) w
  inBytes : contains = true → Text.FirstAt p.toByteArray.data.toList s.toByteArray.data.toList
    (Text.bytes (s.toList.take index.toInt.toNat)).length

/-- What can be cut out of a string of this length: a front and a rest that make the whole at every place, so many
characters where there are so many, and nothing else. -/
structure Cuts (s : String) (w : World) (length : Int32) : Prop where
  whole : ∀ i, 0 ≤ i.toInt ∧ i.toInt ≤ length.toInt → ∃ front rest,
    ofString s "Substring" (some [.int 0, .int i]) w = .ok (.string front) w ∧
    ofString s "Substring" (some [.int i]) w = .ok (.string rest) w ∧ front ++ rest = s
  beyond : ∀ i, ¬ (0 ≤ i.toInt ∧ i.toInt ≤ length.toInt) →
    ∃ place count, ofString s "Substring" (some [.int i]) w = .error (.indexOutOfRange place count) w
  piece : ∀ i n, (0 ≤ i.toInt ∧ i.toInt ≤ length.toInt) ∧ 0 ≤ n.toInt ∧ n.toInt ≤ length.toInt - i.toInt →
    ∃ t, ofString s "Substring" (some [.int i, .int n]) w = .ok (.string t) w ∧
      t.toList = (s.toList.drop i.toInt.toNat).take n.toInt.toNat
  outside : ∀ i n, ¬ ((0 ≤ i.toInt ∧ i.toInt ≤ length.toInt) ∧ 0 ≤ n.toInt ∧ n.toInt ≤ length.toInt - i.toInt) →
    ∃ place count, ofString s "Substring" (some [.int i, .int n]) w = .error (.indexOutOfRange place count) w

theorem finds_of_firstAt {place : Nat} {index width : Int32} (h : Text.FirstAt p.toList s.toList place)
    (hindex : index.toInt = place) (hwidth : width.toInt = p.length) :
    Finds p s w width index true (p.toList.isPrefixOf s.toList) := by
  have hfound : ofString s "Substring" (some [.int index, .int width]) w = .ok (.string p) w := by
    have hinside := h.inside
    rw [String.length_toList] at hinside
    rw [slice_eq_iff hwidth, hindex, Int.toNat_natCast]
    exact ⟨by omega, by omega, h.found⟩
  refine ⟨by simp [hindex], ?_, ?_, iff_of_true rfl ⟨index, hfound⟩, fun _ => hfound, fun i hi hcut => ?_, fun _ => ?_⟩
  · have hne : index ≠ -1 := by
      rintro rfl
      rw [show (-1 : Int32).toInt = -1 from rfl] at hindex
      omega
    simp [hne]
  · rw [List.isPrefixOf_iff_prefix, ← h.eq_zero_iff, ← Int32.toInt_inj, hindex, Int32.toInt_zero]
    omega
  · obtain ⟨_, _, hprefix⟩ := (slice_eq_iff hwidth).mp hcut
    exact h.earliest _ (by omega) hprefix
  · rw [← Text.bytes_toList, ← Text.bytes_toList, hindex, Int.toNat_natCast]
    exact h.inBytes

theorem finds_of_absent {width : Int32} (h : ∀ i, ¬ p.toList <+: s.toList.drop i) (hwidth : width.toInt = p.length) :
    Finds p s w width (-1) false (p.toList.isPrefixOf s.toList) := by
  have hnowhere (i : Int32) : ofString s "Substring" (some [.int i, .int width]) w ≠ .ok (.string p) w := fun hcut =>
    h _ ((slice_eq_iff hwidth).mp hcut).2.2
  have hfront : ¬ p.toList <+: s.toList := by simpa using h 0
  refine ⟨by decide, by simp, ?_, by simp [hnowhere], by simp, fun i _ => hnowhere i, by simp⟩
  rw [List.isPrefixOf_iff_prefix]
  exact iff_of_false hfront (by decide)

theorem cuts_of_length {length : Int32} (hlength : length.toInt = s.length) (w : World) : Cuts s w length where
  whole i hi := by
    rw [hlength] at hi
    refine ⟨_, _, by rw [slice_eq, if_pos ⟨by decide, by simp⟩, if_pos (by simpa using hi)],
      by rw [suffix_eq, if_pos hi], ?_⟩
    rw [← String.ofList_append, show (0 : Int32).toInt.toNat = 0 from rfl, List.drop_zero, List.take_append_drop,
      String.ofList_toList]
  beyond i hi := by
    rw [hlength] at hi
    exact ⟨_, _, by rw [suffix_eq, if_neg hi]⟩
  piece i n h := by
    rw [hlength] at h
    exact ⟨_, by rw [slice_eq, if_pos h.1, if_pos h.2], String.toList_ofList⟩
  outside i n h := by
    rw [hlength] at h
    rw [slice_eq]
    by_cases hi : 0 ≤ i.toInt ∧ i.toInt ≤ s.length
    · exact ⟨_, _, by rw [if_pos hi, if_neg fun hn => h ⟨hi, hn⟩]⟩
    · exact ⟨_, _, by rw [if_neg hi]⟩

end Standard

open Standard

/-- The members of strings agree on where a character stands. Each of them gives an answer. The place where a text is
found is the first one where it can be cut out; the text is contained just if there is such a place, and the string
starts with it just if that is the first of all. A string is made of its characters up to any place and those behind
it. -/
theorem string_members_agree (s p : String) (hs : s.length ≤ 2147483647) (hp : p.length ≤ 2147483647) (w : World) :
    ∃ (length width index : Int32) (contains starts : Bool),
      ofString s "Length" none w = .ok (.int length) w ∧ length.toInt = s.length ∧
      ofString p "Length" none w = .ok (.int width) w ∧ width.toInt = p.length ∧
      ofString s "IndexOf" (some [.string p]) w = .ok (.int index) w ∧
      ofString s "Contains" (some [.string p]) w = .ok (.bool contains) w ∧
      ofString s "StartsWith" (some [.string p]) w = .ok (.bool starts) w ∧
      Finds p s w width index contains starts ∧ Cuts s w length := by
  obtain ⟨length, hlength, hlengthCall⟩ := length_eq hs w
  obtain ⟨width, hwidth, hwidthCall⟩ := length_eq hp w
  have hcuts := cuts_of_length hlength w
  have hcontains := contains_eq s p w
  have hstarts := startsWith_eq s p w
  rcases Text.indexOf?_spec p.toList s.toList with ⟨place, hplace, hfirst⟩ | ⟨hnone, habsent⟩
  · have hinside := hfirst.inside
    rw [String.length_toList] at hinside
    obtain ⟨index, hindex, hindexCall⟩ := indexOf_eq_some hplace (Nat.le_trans hinside hs) w
    rw [Text.contains, hplace] at hcontains
    exact ⟨length, width, index, _, _, hlengthCall, hlength, hwidthCall, hwidth, hindexCall, hcontains, hstarts,
      finds_of_firstAt hfirst hindex hwidth, hcuts⟩
  · rw [Text.contains, hnone] at hcontains
    exact ⟨length, width, -1, _, _, hlengthCall, hlength, hwidthCall, hwidth, indexOf_eq_none hnone w, hcontains,
      hstarts, finds_of_absent habsent hwidth, hcuts⟩

/-- Characters before the place take one byte or two, and the place is the fourth in characters and the fifth in
bytes. -/
theorem string_members_agree_accented :
    let w : World := ⟨.empty, ⟨"", none⟩, ⟨fun _ => 0, 0⟩⟩
    ofString "añb☕añ☕a" "IndexOf" (some [.string "☕a"]) w = .ok (.int 3) w ∧
    ofString "añb☕añ☕a" "Contains" (some [.string "☕a"]) w = .ok (.bool true) w ∧
    ofString "añb☕añ☕a" "Substring" (some [.int 3, .int 2]) w = .ok (.string "☕a") w ∧
    Text.FirstAt "☕a".toByteArray.data.toList "añb☕añ☕a".toByteArray.data.toList 4 := by
  intro w
  obtain ⟨length, width, index, contains, starts, -, -, hwidth, -, hindex, hcontains, -, hfinds, -⟩ :=
    string_members_agree "añb☕añ☕a" "☕a" (by decide) (by decide) w
  have hindexCall : ofString "añb☕añ☕a" "IndexOf" (some [.string "☕a"]) w = .ok (.int 3) w := rfl
  have hcontainsCall : ofString "añb☕añ☕a" "Contains" (some [.string "☕a"]) w = .ok (.bool true) w := rfl
  have hwidthCall : ofString "☕a" "Length" none w = .ok (.int 2) w := rfl
  cases hindexCall.symm.trans hindex
  cases hcontainsCall.symm.trans hcontains
  cases hwidthCall.symm.trans hwidth
  exact ⟨hindexCall, hcontainsCall, hfinds.found rfl, hfinds.inBytes rfl⟩

end Scriptlet
