import Scriptlet.Proofs.Frames
import Scriptlet.Standard.Collections

/-!
# Dictionaries as maps that remember an order

A dictionary of truth values, numbers or texts behaves like a finite map together with the order in which its keys were
first added. The map is said here by itself, without lists of entries: which keys there are, in which order, and what
each of them leads to. Every run of requests gets the same answers and the same errors from both, and the entries of the
dictionary are at any time those of the map.
-/

namespace Scriptlet

/-- The types whose values dictionaries tell apart by their content alone. -/
def Ty.isKeyType : Ty → Bool
  | .bool | .int | .long | .string => true
  | _ => false

/-- Whether a value may be given as a key: it becomes one of the key type by itself, or it is `null`. -/
def Value.Suits (k : Value) (key : Ty) : Prop :=
  k = .null ∨ (k.coerce key).runtimeType = key

namespace World

def Holds (w : World) (a : Address) (entries : List (Value × Value)) : Prop :=
  w.heap.cells[a]? = some (.entries entries)

def withEntries (w : World) (a : Address) (entries : List (Value × Value)) : World :=
  { w with heap := w.heap.setEntries a entries }

variable {w : World} {a : Address} {entries : List (Value × Value)}

theorem Holds.entries_eq (h : w.Holds a entries) : w.heap.entries a = entries := by
  unfold Holds at h
  simp [Heap.entries, h]

theorem Holds.withEntries (h : w.Holds a entries) (entries' : List (Value × Value)) :
    (w.withEntries a entries').Holds a entries' := by
  unfold Holds at h ⊢
  simp [World.withEntries, Heap.setEntries, Array.getElem?_modify, h]

theorem Holds.withEntries_self (h : w.Holds a entries) : w.withEntries a entries = w := by
  have hcells : (w.heap.setEntries a entries).cells = w.heap.cells := by
    refine Array.ext_getElem? fun i => ?_
    rw [Heap.setEntries, Array.getElem?_modify]
    split
    · next hi =>
      subst hi
      unfold Holds at h
      simp [h]
    · rfl
  cases w with
  | mk heap output clock =>
    cases heap with
    | mk cells => simpa [World.withEntries, Heap.setEntries] using hcells

end World

namespace Dictionary

/-- What may be asked of a dictionary. -/
inductive Request
  | add (key value : Value)
  | set (key value : Value)
  | get (key : Value)
  | contains (key : Value)
  | remove (key : Value)

def Request.key : Request → Value
  | .add key _ | .set key _ | .get key | .contains key | .remove key => key

/-- Carries out a request on the dictionary at an address, as the members of dictionaries do and as indexing does. A
request without an answer of its own gives `null`. -/
def Request.perform (key value : Ty) (a : Address) : Request → Host Value
  | .add k v => Standard.addEntry [.dictionary key value a, k, v]
  | .set k v => do
    let d ← Host.ofExcept (Dictionary.set ⟨key, value, (← Host.heap).entries a⟩ k v)
    Host.modifyHeap (·.setEntries a d.entries)
    return .null
  | .get k => do Host.ofExcept (Dictionary.get (← Host.heap) ⟨key, value, (← Host.heap).entries a⟩ k)
  | .contains k => Standard.containsKey [.dictionary key value a, k]
  | .remove k => Standard.removeEntry [.dictionary key value a, k]

def answerOf {α : Type} : EStateM.Result Fault World α → Except Fault α
  | .ok v _ => .ok v
  | .error fault _ => .error fault

/-- Carries out requests one after the other, whether they fail or not. -/
def performAll (key value : Ty) (a : Address) : List Request → World → List (Except Fault Value) × World
  | [], w => ([], w)
  | r :: rest, w =>
    let result := r.perform key value a w
    let later := performAll key value a rest (finalState result)
    (answerOf result :: later.1, later.2)

/-- A key by its content. -/
inductive Key
  | bool (b : Bool)
  | int (i : Int32)
  | long (l : Int64)
  | string (s : String)
deriving DecidableEq

namespace Key

/-- The key that a value stands for in a dictionary with keys of a type. -/
def of? : Ty → Value → Option Key
  | .bool, .bool b => some (.bool b)
  | .int, .int i => some (.int i)
  | .long, .int i => some (.long i.toInt64)
  | .long, .long l => some (.long l)
  | .string, .string s => some (.string s)
  | _, _ => none

def value : Key → Value
  | .bool b => .bool b
  | .int i => .int i
  | .long l => .long l
  | .string s => .string s

def text : Key → String
  | .bool b => if b then "true" else "false"
  | .int i => Number.intText i.toInt
  | .long l => Number.intText l.toInt
  | .string s => s

end Key

/-- A finite map and the order in which its keys were added. -/
structure OrderedMap where
  order : List Key
  find : Key → Option Value

namespace OrderedMap

def empty : OrderedMap := ⟨[], fun _ => none⟩

/-- Leads a key to a value; a new key comes last. -/
def put (m : OrderedMap) (k : Key) (v : Value) : OrderedMap where
  order := if k ∈ m.order then m.order else m.order ++ [k]
  find := fun k' => if k' = k then some v else m.find k'

def erase (m : OrderedMap) (k : Key) : OrderedMap where
  order := m.order.filter (· ≠ k)
  find := fun k' => if k' = k then none else m.find k'

/-- What a map answers, and what becomes of it. Values are widened to the type that is asked for. -/
def answer (value : Ty) (m : OrderedMap) (k : Key) : Request → Except Fault Value × OrderedMap
  | .add _ v =>
    if k ∈ m.order then (.error (.duplicateKey k.text), m) else (.ok .null, m.put k (v.coerce value))
  | .set _ v => (.ok .null, m.put k (v.coerce value))
  | .get _ => ((m.find k).elim (.error (.keyNotFound k.text)) .ok, m)
  | .contains _ => (.ok (.bool (decide (k ∈ m.order))), m)
  | .remove _ => (.ok (.bool (decide (k ∈ m.order))), m.erase k)

/-- What a map answers when the key is still to be read; what stands for no key is refused. -/
def respond (key value : Ty) (m : OrderedMap) (r : Request) : Except Fault Value × OrderedMap :=
  match Key.of? key r.key with
  | none => (.error (.nullValue "dictionary key"), m)
  | some k => m.answer value k r

def respondAll (key value : Ty) : List Request → OrderedMap → List (Except Fault Value) × OrderedMap
  | [], m => ([], m)
  | r :: rest, m =>
    let result := m.respond key value r
    let later := respondAll key value rest result.2
    (result.1 :: later.1, later.2)

end OrderedMap

/-- The entries of a dictionary are those of a map: the same keys in the same order, with the same values. -/
structure Represents (key : Ty) (m : OrderedMap) (entries : List (Value × Value)) : Prop where
  keys_eq : entries.map Prod.fst = m.order.map Key.value
  find_iff : ∀ k v, m.find k = some v ↔ (k.value, v) ∈ entries
  nodup : m.order.Nodup
  typed : ∀ k ∈ m.order, k.value.runtimeType = key

/-- The laws of a dictionary that was reached by requests: what its entries are like, and what the next request does. -/
structure Lawful (key value : Ty) (a : Address) (w : World) : Prop where
  keys : ∀ e ∈ w.heap.entries a, e.1 ≠ .null ∧ e.1.runtimeType = key
  distinct : (w.heap.entries a).Pairwise fun e e' => e.1.scriptEquals e'.1 = false
  null_refused : ∀ r : Request, r.key = .null →
    answerOf (r.perform key value a w) = .error (.nullValue "dictionary key")
  set_get : ∀ k v, k ≠ .null → k.Suits key → ∃ w', Request.perform key value a (.set k v) w = .ok .null w' ∧
    answerOf (Request.perform key value a (.get k) w') = .ok (v.coerce value) ∧
    ∀ k', k'.Suits key → (k'.coerce key).scriptEquals (k.coerce key) = false →
      answerOf (Request.perform key value a (.get k') w') = answerOf (Request.perform key value a (.get k') w)
  overwriting : ∀ k v w', k.Suits key → answerOf (Request.perform key value a (.contains k) w) = .ok (.bool true) →
    Request.perform key value a (.set k v) w = .ok .null w' →
    ∃ before old behind, w.heap.entries a = before ++ (k.coerce key, old) :: behind ∧
      w'.heap.entries a = before ++ (k.coerce key, v.coerce value) :: behind
  appending : ∀ k v w', k.Suits key → answerOf (Request.perform key value a (.contains k) w) = .ok (.bool false) →
    Request.perform key value a (.set k v) w = .ok .null w' ∨ Request.perform key value a (.add k v) w = .ok .null w' →
    w'.heap.entries a = w.heap.entries a ++ [(k.coerce key, v.coerce value)]
  removing : ∀ k found w', k.Suits key → Request.perform key value a (.remove k) w = .ok found w' →
    w'.heap.entries a = (w.heap.entries a).filter fun e => !e.1.scriptEquals (k.coerce key)
  duplicate_iff : ∀ k v, k.Suits key → ((∃ text, answerOf (Request.perform key value a (.add k v) w) =
    .error (.duplicateKey text)) ↔ answerOf (Request.perform key value a (.contains k) w) = .ok (.bool true))
  notFound_iff : ∀ k, k.Suits key → ((∃ text, answerOf (Request.perform key value a (.get k) w) =
    .error (.keyNotFound text)) ↔ answerOf (Request.perform key value a (.contains k) w) = .ok (.bool false))
  failing : ∀ (r : Request) fault w', r.perform key value a w = .error fault w' → w' = w

/-! ## Keys -/

namespace Key

variable {key : Ty} {k k' : Key} {v w : Value}

theorem value_inj (h : k.value = k'.value) : k = k' := by
  cases k <;> cases k' <;> cases h <;> rfl

theorem value_ne_null (k : Key) : k.value ≠ .null := by
  cases k <;> simp [value]

theorem isNull_value (k : Key) : k.value.isNull = false := by
  cases k <;> rfl

theorem scriptEquals_iff (h : k.value.runtimeType = k'.value.runtimeType) :
    k.value.scriptEquals k'.value = true ↔ k = k' := by
  cases k <;> cases k' <;> simp [value, Value.runtimeType, Value.scriptEquals] at h ⊢

theorem text_value (h : Heap) (k : Key) : finite (h.text k.value) = .ok k.text := by
  cases k <;> rfl

/-- What may be given as a key, apart from `null`, stands for a key of its type. -/
theorem exists_of_suits (hkey : key.isKeyType = true) (hsuits : v.Suits key) (hnull : v ≠ .null) :
    ∃ k, of? key v = some k ∧ k.value = v.coerce key ∧ k.value.runtimeType = key := by
  have hty : (v.coerce key).runtimeType = key := hsuits.resolve_left hnull
  cases key with
  | bool | int | long | string =>
    cases v <;> simp [Value.coerce, Value.runtimeType] at hty <;> exact ⟨_, rfl, rfl, rfl⟩
  | _ => cases hkey

theorem of?_null (key : Ty) : of? key .null = none := by
  cases key <;> rfl

end Key

/-! ## Lists of entries -/

section Entries

variable {k v : Value} {entries before behind : List (Value × Value)} {e : Value × Value}

theorem put_of_absent (h : ∀ e ∈ entries, e.1.scriptEquals k = false) :
    Dictionary.put k v entries = entries ++ [(k, v)] := by
  induction entries with
  | nil => rfl
  | cons e rest ih =>
    have hrest := ih fun e' he' => h e' (List.mem_cons_of_mem _ he')
    simp [Dictionary.put, h e List.mem_cons_self, hrest]

theorem put_of_present (hbefore : ∀ e ∈ before, e.1.scriptEquals k = false) (he : e.1.scriptEquals k = true) :
    Dictionary.put k v (before ++ e :: behind) = before ++ (e.1, v) :: behind := by
  induction before with
  | nil => simp [Dictionary.put, he]
  | cons e' rest ih =>
    have hrest := ih fun e'' he'' => hbefore e'' (List.mem_cons_of_mem _ he'')
    simp [Dictionary.put, hbefore e' List.mem_cons_self, hrest]

theorem drop_eq_filter
    (h : entries.Pairwise fun e e' => e.1.scriptEquals k = true → e'.1.scriptEquals k = false) :
    Dictionary.drop k entries = entries.filter fun e => !e.1.scriptEquals k := by
  induction entries with
  | nil => rfl
  | cons e rest ih =>
    obtain ⟨hfirst, hrest⟩ := List.pairwise_cons.mp h
    by_cases he : e.1.scriptEquals k = true
    · have hself : rest.filter (fun e => !e.1.scriptEquals k) = rest :=
        List.filter_eq_self.mpr fun e' he' => by simp [hfirst e' he' he]
      simp [Dictionary.drop, he, hself]
    · simp [Dictionary.drop, he, ih hrest]

end Entries

/-! ## Entries of a map -/

namespace Represents

variable {key : Ty} {m : OrderedMap} {entries : List (Value × Value)} {k : Key} {v : Value}

theorem empty (key : Ty) : Represents key .empty [] := by
  constructor <;> simp [OrderedMap.empty]

variable (h : Represents key m entries)

include h

variable {e : Value × Value}

theorem exists_key (he : e ∈ entries) : ∃ k ∈ m.order, k.value = e.1 := by
  have hmem : e.1 ∈ entries.map Prod.fst := List.mem_map_of_mem he
  rw [h.keys_eq] at hmem
  exact List.mem_map.mp hmem

theorem mem_order_iff : k ∈ m.order ↔ ∃ v, (k.value, v) ∈ entries := by
  constructor
  · intro hk
    have hmem : k.value ∈ entries.map Prod.fst := by
      rw [h.keys_eq]
      exact List.mem_map_of_mem hk
    obtain ⟨e, he, hek⟩ := List.mem_map.mp hmem
    exact ⟨e.2, hek ▸ he⟩
  · rintro ⟨v, hv⟩
    obtain ⟨k', hk', hvalue⟩ := h.exists_key hv
    exact Key.value_inj hvalue ▸ hk'

theorem mem_order_iff_find : k ∈ m.order ↔ (m.find k).isSome = true := by
  simp only [h.mem_order_iff, Option.isSome_iff_exists, h.find_iff]

theorem keys_nodup : (entries.map Prod.fst).Nodup := by
  rw [h.keys_eq]
  exact List.Pairwise.map _ (fun _ _ hne heq => hne (Key.value_inj heq)) h.nodup

theorem ne_of_not_mem (habsent : k ∉ m.order) (he : e ∈ entries) : e.1 ≠ k.value := by
  intro hek
  exact habsent (h.mem_order_iff.mpr ⟨e.2, hek ▸ he⟩)

variable (hk : k.value.runtimeType = key)

include hk

theorem scriptEquals_iff (he : e ∈ entries) : e.1.scriptEquals k.value = true ↔ e.1 = k.value := by
  obtain ⟨k', hk', hvalue⟩ := h.exists_key he
  rw [← hvalue, Key.scriptEquals_iff ((h.typed k' hk').trans hk.symm)]
  exact ⟨fun h => by rw [h], Key.value_inj⟩

theorem lookup_eq : lookup k.value entries = m.find k := by
  unfold lookup
  cases hfound : entries.find? fun e => e.1.scriptEquals k.value with
  | none =>
    have hnone := List.find?_eq_none.mp hfound
    cases hfind : m.find k with
    | none => rfl
    | some v =>
      have hmem := (h.find_iff k v).mp hfind
      exact absurd ((h.scriptEquals_iff hk hmem).mpr rfl) (hnone _ hmem)
  | some e =>
    have hmem := List.mem_of_find?_eq_some hfound
    have hequals := List.find?_some hfound
    have hek := (h.scriptEquals_iff hk hmem).mp hequals
    exact ((h.find_iff k e.2).mpr (hek ▸ hmem)).symm

theorem scriptEquals_eq_false (he : e ∈ entries) (hne : e.1 ≠ k.value) : e.1.scriptEquals k.value = false :=
  Bool.eq_false_iff.mpr fun hequals => hne ((h.scriptEquals_iff hk he).mp hequals)

theorem put_absent (habsent : k ∉ m.order) (v : Value) :
    Dictionary.put k.value v entries = entries ++ [(k.value, v)] :=
  put_of_absent fun _ he => h.scriptEquals_eq_false hk he (h.ne_of_not_mem habsent he)

/-- The entry of a key has its place, and overwriting it leaves the others where they are. -/
theorem exists_place (hpresent : k ∈ m.order) :
    ∃ before old behind, entries = before ++ (k.value, old) :: behind ∧ (∀ e ∈ before, e.1 ≠ k.value) ∧
      (∀ e ∈ behind, e.1 ≠ k.value) ∧ ∀ v, Dictionary.put k.value v entries = before ++ (k.value, v) :: behind := by
  obtain ⟨old, hmem⟩ := h.mem_order_iff.mp hpresent
  obtain ⟨before, behind, rfl⟩ := List.append_of_mem hmem
  have hnodup := h.keys_nodup
  simp only [List.map_append, List.map_cons, List.nodup_append, List.nodup_cons, List.mem_map, List.mem_cons] at hnodup
  have hbefore : ∀ e ∈ before, e.1 ≠ k.value := fun e he => hnodup.2.2 e.1 ⟨e, he, rfl⟩ k.value (.inl rfl)
  have hbehind : ∀ e ∈ behind, e.1 ≠ k.value := fun e he hek => hnodup.2.1.1 ⟨e, he, hek⟩
  refine ⟨before, old, behind, rfl, hbefore, hbehind, fun v => put_of_present (fun e he => ?_) ?_⟩
  · exact h.scriptEquals_eq_false hk (List.mem_append_left _ he) (hbefore e he)
  · exact (h.scriptEquals_iff hk hmem).mpr rfl

theorem put (v : Value) : Represents key (m.put k v) (Dictionary.put k.value v entries) := by
  have hvalue {k' : Key} (hne : k' ≠ k) : k'.value ≠ k.value := fun heq => hne (Key.value_inj heq)
  by_cases hpresent : k ∈ m.order
  · obtain ⟨before, old, behind, hentries, hbefore, hbehind, hput⟩ := h.exists_place hk hpresent
    have horder : (m.put k v).order = m.order := if_pos hpresent
    refine ⟨?_, fun k' v' => ?_, horder ▸ h.nodup, horder ▸ h.typed⟩
    · rw [hput, horder, ← h.keys_eq, hentries]
      simp
    · rw [hput]
      by_cases hk' : k' = k
      · subst hk'
        have hbefore' : (k'.value, v') ∉ before := fun hmem => hbefore _ hmem rfl
        have hbehind' : (k'.value, v') ∉ behind := fun hmem => hbehind _ hmem rfl
        simp [OrderedMap.put, hbefore', hbehind', eq_comm]
      · have hfind := h.find_iff k' v'
        rw [hentries] at hfind
        simpa [OrderedMap.put, hk', hvalue hk'] using hfind
  · have horder : (m.put k v).order = m.order ++ [k] := if_neg hpresent
    rw [h.put_absent hk hpresent]
    refine ⟨by simp [horder, h.keys_eq], fun k' v' => ?_, ?_, ?_⟩
    · by_cases hk' : k' = k
      · subst hk'
        have habsent : (k'.value, v') ∉ entries := fun hmem => hpresent (h.mem_order_iff.mpr ⟨v', hmem⟩)
        simp [OrderedMap.put, habsent, eq_comm]
      · simpa [OrderedMap.put, hk', hvalue hk'] using h.find_iff k' v'
    · rw [horder, List.nodup_append]
      refine ⟨h.nodup, by simp, ?_⟩
      rintro k' hk' k'' hk'' rfl
      exact hpresent (List.mem_singleton.mp hk'' ▸ hk')
    · intro k' hk'
      rw [horder, List.mem_append, List.mem_singleton] at hk'
      rcases hk' with hk' | rfl
      · exact h.typed k' hk'
      · exact hk

theorem drop_eq : Dictionary.drop k.value entries = entries.filter fun e => !e.1.scriptEquals k.value := by
  refine drop_eq_filter (List.Pairwise.imp_of_mem ?_ (List.pairwise_map.mp h.keys_nodup))
  intro e e' he he' hne hequals
  have hek := (h.scriptEquals_iff hk he).mp hequals
  exact h.scriptEquals_eq_false hk he' fun hek' => hne (hek.trans hek'.symm)

theorem erase : Represents key (m.erase k) (Dictionary.drop k.value entries) := by
  have hmem {e : Value × Value} : e ∈ Dictionary.drop k.value entries ↔ e ∈ entries ∧ e.1 ≠ k.value := by
    rw [h.drop_eq hk, List.mem_filter]
    refine and_congr_right fun he => ?_
    rw [Bool.not_eq_true', Bool.eq_false_iff, ne_eq, h.scriptEquals_iff hk he]
  refine ⟨?_, fun k' v' => ?_, h.nodup.filter _, fun k' hk' => h.typed k' (List.mem_filter.mp hk').1⟩
  · have hkeys : (m.order.filter fun k' => !k'.value.scriptEquals k.value) = m.order.filter (· ≠ k) := by
      refine List.filter_congr fun k' hk' => ?_
      rw [Bool.eq_iff_iff, Bool.not_eq_true', Bool.eq_false_iff, ne_eq,
        Key.scriptEquals_iff ((h.typed k' hk').trans hk.symm), decide_eq_true_eq]
    calc (Dictionary.drop k.value entries).map Prod.fst
        = (entries.map Prod.fst).filter fun x => !x.scriptEquals k.value := by
          rw [h.drop_eq hk, List.filter_map]
          rfl
      _ = (m.order.filter fun k' => !k'.value.scriptEquals k.value).map Key.value := by
          rw [h.keys_eq, List.filter_map]
          rfl
      _ = (m.erase k).order.map Key.value := by rw [hkeys, OrderedMap.erase]
  · rw [hmem]
    by_cases hk' : k' = k
    · simp [OrderedMap.erase, hk']
    · have hvalue : k'.value ≠ k.value := fun heq => hk' (Key.value_inj heq)
      simp [OrderedMap.erase, hk', hvalue, h.find_iff]

end Represents

/-! ## Requests -/

section Requests

variable {key value : Ty} {a : Address} {w : World} {m : OrderedMap} {entries : List (Value × Value)} {r : Request}
  {k : Key}

/-- The answer to a request and the entries after it, apart from where the dictionary is. -/
def Request.outcome (h : Heap) (d : Dictionary) : Request → Except Fault (Value × List (Value × Value))
  | .add k v => (Dictionary.add h d k v).map fun d' => (.null, d'.entries)
  | .set k v => (d.set k v).map fun d' => (.null, d'.entries)
  | .get k => (Dictionary.get h d k).map fun v => (v, d.entries)
  | .contains k => (d.contains k).map fun b => (.bool b, d.entries)
  | .remove k => (d.remove k).map fun found => (.bool found.1, found.2.entries)

/-- The state that a request leaves behind, and its answer. -/
def Request.settle (a : Address) (w : World) :
    Except Fault (Value × List (Value × Value)) → EStateM.Result Fault World Value
  | .ok (v, entries) => .ok v (w.withEntries a entries)
  | .error fault => .error fault w

theorem settle_change {α : Type} (x : Except Fault α) (f : α → Value) (changed : α → List (Value × Value)) :
    (Host.ofExcept x >>= fun y => Host.modifyHeap (·.setEntries a (changed y)) >>= fun _ => pure (f y)) w =
      Request.settle a w (x.map fun y => (f y, changed y)) := by
  cases x <;> rfl

theorem prepareKey_null (d : Dictionary) : d.prepareKey .null = .error (.nullValue "dictionary key") := by
  simp [prepareKey, Value.coerce, Value.isNull]

theorem prepareKey_of_value {d : Dictionary} {k : Key} {v : Value} (h : k.value = v.coerce d.key) :
    d.prepareKey v = .ok k.value := by
  rw [prepareKey, ← h, k.isNull_value]
  rfl

theorem Request.outcome_null (h : Heap) (d : Dictionary) (hr : r.key = .null) :
    r.outcome h d = .error (.nullValue "dictionary key") := by
  cases r <;> cases hr <;>
    simp [outcome, Dictionary.add, Dictionary.set, Dictionary.get, Dictionary.contains, Dictionary.remove,
      prepareKey_null, bind, Except.bind, Except.map]

section Holds

variable (hw : w.Holds a entries)

include hw

theorem settle_look {α : Type} (x : Except Fault α) (f : α → Value) :
    (Host.ofExcept x >>= fun y => pure (f y)) w = Request.settle a w (x.map fun y => (f y, entries)) := by
  cases x with
  | ok y =>
    change EStateM.Result.ok (f y) w = .ok (f y) (w.withEntries a entries)
    rw [hw.withEntries_self]
  | error fault => rfl

theorem Request.perform_eq (r : Request) :
    r.perform key value a w = settle a w (r.outcome w.heap ⟨key, value, entries⟩) := by
  obtain rfl := hw.entries_eq
  cases r with
  | add k v => exact settle_change (Dictionary.add w.heap ⟨key, value, w.heap.entries a⟩ k v) _ _
  | set k v => exact settle_change (Dictionary.set ⟨key, value, w.heap.entries a⟩ k v) _ _
  | get k =>
    have h := settle_look hw (Dictionary.get w.heap ⟨key, value, w.heap.entries a⟩ k) fun v => v
    rw [bind_pure] at h
    exact h
  | contains k => exact settle_look hw (Dictionary.contains ⟨key, value, w.heap.entries a⟩ k) Value.bool
  | remove k => exact settle_change (Dictionary.remove ⟨key, value, w.heap.entries a⟩ k) (fun r => .bool r.1) _

variable {k' : Value}

theorem perform_set {v : Value} (hvalue : k.value = k'.coerce key) : Request.perform key value a (.set k' v) w =
      .ok .null (w.withEntries a (Dictionary.put k.value (v.coerce value) entries)) := by
  have hprepared : Dictionary.prepareKey ⟨key, value, entries⟩ k' = .ok k.value := prepareKey_of_value hvalue
  rw [Request.perform_eq hw, Request.outcome, Dictionary.set, hprepared]
  rfl

theorem perform_remove (hvalue : k.value = k'.coerce key) : Request.perform key value a (.remove k') w =
      .ok (.bool (lookup k.value entries).isSome) (w.withEntries a (Dictionary.drop k.value entries)) := by
  have hprepared : Dictionary.prepareKey ⟨key, value, entries⟩ k' = .ok k.value := prepareKey_of_value hvalue
  rw [Request.perform_eq hw, Request.outcome, Dictionary.remove, hprepared]
  rfl

theorem perform_add {v : Value} (hvalue : k.value = k'.coerce key) (habsent : lookup k.value entries = none) :
    Request.perform key value a (.add k' v) w =
      .ok .null (w.withEntries a (entries ++ [(k.value, v.coerce value)])) := by
  have hprepared : Dictionary.prepareKey ⟨key, value, entries⟩ k' = .ok k.value := prepareKey_of_value hvalue
  rw [Request.perform_eq hw, Request.outcome, Dictionary.add, hprepared]
  simp only [bind, Except.bind, habsent]
  rfl

theorem answer_null (r : Request) (hr : r.key = .null) :
    answerOf (r.perform key value a w) = .error (.nullValue "dictionary key") := by
  rw [r.perform_eq hw, r.outcome_null _ _ hr]
  rfl

theorem failed_eq {fault : Fault} {w' : World} (hfails : r.perform key value a w = .error fault w') : w' = w := by
  rw [r.perform_eq hw] at hfails
  cases houtcome : r.outcome w.heap ⟨key, value, entries⟩ with
  | ok result =>
    rw [houtcome] at hfails
    cases hfails
  | error fault' =>
    rw [houtcome] at hfails
    cases hfails
    rfl

end Holds

/-- A map and a dictionary give the same answer and are the same afterwards; an error leaves both as they were. -/
inductive Agrees (key : Ty) (m : OrderedMap) :
    Except Fault Value × OrderedMap → Except Fault (Value × List (Value × Value)) → Prop
  | ok {v : Value} {m' : OrderedMap} {entries' : List (Value × Value)} (h : Represents key m' entries') :
      Agrees key m (.ok v, m') (.ok (v, entries'))
  | error (fault : Fault) : Agrees key m (.error fault, m) (.error fault)

/-- One request, by what it asks for. -/
theorem Represents.agrees_of_key (h : Represents key m entries) (heap : Heap) (hk : k.value.runtimeType = key)
    (hvalue : k.value = r.key.coerce key) :
    Agrees key m (m.answer value k r) (r.outcome heap ⟨key, value, entries⟩) := by
  have hlookup := h.lookup_eq hk
  have hprepared : Dictionary.prepareKey ⟨key, value, entries⟩ r.key = .ok k.value := prepareKey_of_value hvalue
  have hpresent : k ∈ m.order ↔ (m.find k).isSome = true := h.mem_order_iff_find
  have hdecide : decide (k ∈ m.order) = (m.find k).isSome := by rw [Bool.eq_iff_iff, decide_eq_true_eq, hpresent]
  cases r with
  | add k' v =>
    simp only [Request.key] at hprepared
    simp only [OrderedMap.answer, Request.outcome, Dictionary.add, hprepared, bind, Except.bind, hlookup]
    cases hfind : m.find k with
    | none =>
      have habsent : k ∉ m.order := by simp [hpresent, hfind]
      rw [if_neg habsent]
      have hput := h.put hk (v.coerce value)
      rw [h.put_absent hk habsent] at hput
      exact .ok hput
    | some old =>
      rw [if_pos (by simp [hpresent, hfind]), k.text_value]
      exact .error _
  | set k' v =>
    simp only [Request.key] at hprepared
    simp only [OrderedMap.answer, Request.outcome, Dictionary.set, hprepared, bind, Except.bind]
    exact .ok (h.put hk _)
  | get k' =>
    simp only [Request.key] at hprepared
    simp only [OrderedMap.answer, Request.outcome, Dictionary.get, hprepared, bind, Except.bind, hlookup]
    cases m.find k with
    | none =>
      rw [k.text_value]
      exact .error _
    | some v => exact .ok h
  | contains k' =>
    simp only [Request.key] at hprepared
    simp only [OrderedMap.answer, Request.outcome, Dictionary.contains, hprepared, bind, Except.bind, hlookup]
    rw [hdecide]
    exact .ok h
  | remove k' =>
    simp only [Request.key] at hprepared
    simp only [OrderedMap.answer, Request.outcome, Dictionary.remove, hprepared, bind, Except.bind, hlookup]
    rw [hdecide]
    exact .ok (h.erase hk)

theorem Represents.agrees (h : Represents key m entries) (heap : Heap) (hkey : key.isKeyType = true)
    (hsuits : r.key.Suits key) : Agrees key m (m.respond key value r) (r.outcome heap ⟨key, value, entries⟩) := by
  by_cases hnull : r.key = .null
  · rw [OrderedMap.respond, hnull, Key.of?_null, Request.outcome_null _ _ hnull]
    exact .error _
  · obtain ⟨k, hof, hvalue, hk⟩ := Key.exists_of_suits hkey hsuits hnull
    rw [OrderedMap.respond, hof]
    exact h.agrees_of_key heap hk hvalue

/-- A run of requests, by induction on them: after each one the entries are still those of the map. -/
theorem Represents.performAll (hkey : key.isKeyType = true) :
    ∀ (requests : List Request) {m : OrderedMap} {entries : List (Value × Value)} {w : World}, Represents key m entries →
      w.Holds a entries → (∀ r ∈ requests, r.key.Suits key) →
      ∃ entries', (performAll key value a requests w).1 = (OrderedMap.respondAll key value requests m).1 ∧
        (performAll key value a requests w).2.Holds a entries' ∧
        Represents key (OrderedMap.respondAll key value requests m).2 entries'
  | [], m, entries, w, h, hw, _ => ⟨entries, rfl, hw, h⟩
  | r :: rest, m, entries, w, h, hw, hsuits => by
    obtain ⟨hr, hrest⟩ := List.forall_mem_cons.mp hsuits
    have hagrees : Agrees key m (m.respond key value r) _ := h.agrees w.heap hkey hr
    simp only [Dictionary.performAll, OrderedMap.respondAll, r.perform_eq hw]
    generalize m.respond key value r = response at hagrees ⊢
    generalize r.outcome w.heap ⟨key, value, entries⟩ = outcome at hagrees ⊢
    cases hagrees with
    | ok h' =>
      obtain ⟨entries', hanswers, hholds, hrepresents⟩ := Represents.performAll hkey rest h' (hw.withEntries _) hrest
      exact ⟨entries', congrArg _ hanswers, hholds, hrepresents⟩
    | error fault =>
      obtain ⟨entries', hanswers, hholds, hrepresents⟩ := Represents.performAll hkey rest h hw hrest
      exact ⟨entries', congrArg _ hanswers, hholds, hrepresents⟩

/-! ## Laws -/

section Laws

variable (h : Represents key m entries) (hw : w.Holds a entries) (hkey : key.isKeyType = true)

include h hw hkey

theorem Represents.answer_eq
    (r : Request) (hsuits : r.key.Suits key) : answerOf (r.perform key value a w) = (m.respond key value r).1 := by
  have hagrees : Agrees key m (m.respond key value r) _ := h.agrees w.heap hkey hsuits
  rw [r.perform_eq hw]
  generalize m.respond key value r = response at hagrees ⊢
  generalize r.outcome w.heap ⟨key, value, entries⟩ = outcome at hagrees ⊢
  cases hagrees <;> rfl

section Keys

variable {k' : Value} (hsuits : k'.Suits key)

include hsuits

theorem Represents.answer_contains (hof : Key.of? key k' = some k) :
    answerOf (Request.perform key value a (.contains k') w) = .ok (.bool (decide (k ∈ m.order))) := by
  rw [h.answer_eq hw hkey (.contains k') hsuits, OrderedMap.respond, Request.key, hof]
  rfl

/-- What is said to be there, or not to be there, is not `null`; it stands for a key that the map has or has not. -/
theorem Represents.exists_of_contains {b : Bool}
    (hcontains : answerOf (Request.perform key value a (.contains k') w) = .ok (.bool b)) :
    ∃ k, Key.of? key k' = some k ∧ k.value = k'.coerce key ∧ k.value.runtimeType = key ∧ (k ∈ m.order ↔ b = true) := by
  have hnull : k' ≠ .null := by
    rintro rfl
    rw [answer_null hw _ rfl] at hcontains
    cases hcontains
  obtain ⟨k, hof, hvalue, hk⟩ := Key.exists_of_suits hkey hsuits hnull
  rw [h.answer_contains hw hkey hsuits hof, Except.ok.injEq, Value.bool.injEq] at hcontains
  exact ⟨k, hof, hvalue, hk, by rw [← hcontains, decide_eq_true_eq]⟩

theorem Represents.error_iff {r : Request} (hr : r.key = k') (fails : String → Fault) (b : Bool)
    (hfails : ∀ text, fails text ≠ .nullValue "dictionary key")
    (hanswer : ∀ k, Key.of? key k' = some k →
      ((∃ text, (m.answer value k r).1 = .error (fails text)) ↔ decide (k ∈ m.order) = b)) :
    (∃ text, answerOf (r.perform key value a w) = .error (fails text)) ↔
      answerOf (Request.perform key value a (.contains k') w) = .ok (.bool b) := by
  subst hr
  by_cases hnull : r.key = .null
  · rw [answer_null hw r hnull, answer_null hw (.contains r.key) hnull]
    refine iff_of_false ?_ (by simp)
    rintro ⟨text, htext⟩
    exact hfails text (Except.error.inj htext).symm
  · obtain ⟨k, hof, -, -⟩ := Key.exists_of_suits hkey hsuits hnull
    rw [h.answer_contains hw hkey hsuits hof, h.answer_eq hw hkey r hsuits, OrderedMap.respond, hof, Except.ok.injEq,
      Value.bool.injEq]
    exact hanswer k hof

end Keys

theorem Represents.lawful : Lawful key value a w where
  keys := by
    intro e he
    rw [hw.entries_eq] at he
    obtain ⟨k, hk, hvalue⟩ := h.exists_key he
    exact ⟨hvalue ▸ k.value_ne_null, hvalue ▸ h.typed k hk⟩
  distinct := by
    rw [hw.entries_eq]
    refine List.Pairwise.imp_of_mem ?_ (List.pairwise_map.mp h.keys_nodup)
    intro e e' he he' hne
    obtain ⟨k, hk, hvalue⟩ := h.exists_key he'
    rw [← hvalue] at hne ⊢
    exact h.scriptEquals_eq_false (h.typed k hk) he hne
  null_refused := fun r hr => answer_null hw r hr
  set_get := by
    intro k' v hnull hsuits
    obtain ⟨k, hof, hvalue, hk⟩ := Key.exists_of_suits hkey hsuits hnull
    have hput := h.put hk (v.coerce value)
    have hholds := hw.withEntries (Dictionary.put k.value (v.coerce value) entries)
    refine ⟨_, perform_set hw hvalue, ?_, fun k'' hsuits' hother => ?_⟩
    · rw [hput.answer_eq hholds hkey (.get k') hsuits, OrderedMap.respond, Request.key, hof]
      simp [OrderedMap.answer, OrderedMap.put]
    · by_cases hnull' : k'' = .null
      · rw [answer_null hholds (.get k'') hnull', answer_null hw (.get k'') hnull']
      · obtain ⟨other, hof', hvalue', hother'⟩ := Key.exists_of_suits hkey hsuits' hnull'
        have hne : other ≠ k := by
          rintro rfl
          rw [← hvalue, ← hvalue', (Key.scriptEquals_iff rfl).mpr rfl] at hother
          cases hother
        rw [hput.answer_eq hholds hkey (.get k'') hsuits', h.answer_eq hw hkey (.get k'') hsuits',
          OrderedMap.respond, OrderedMap.respond, Request.key, hof']
        simp [OrderedMap.answer, OrderedMap.put, hne]
  overwriting := by
    intro k' v w' hsuits hcontains hset
    obtain ⟨k, -, hvalue, hk, hmem⟩ := h.exists_of_contains hw hkey hsuits hcontains
    obtain ⟨before, old, behind, hplace, -, -, hput⟩ := h.exists_place hk (hmem.mpr rfl)
    rw [perform_set hw hvalue] at hset
    cases hset
    refine ⟨before, old, behind, ?_, ?_⟩
    · rw [hw.entries_eq, ← hvalue, hplace]
    · rw [(hw.withEntries _).entries_eq, hput, hvalue]
  appending := by
    intro k' v w' hsuits hcontains hdone
    obtain ⟨k, -, hvalue, hk, hmem⟩ := h.exists_of_contains hw hkey hsuits hcontains
    have habsent : k ∉ m.order := by simp [hmem]
    have hlookup : lookup k.value entries = none := by
      rw [h.lookup_eq hk, ← Option.not_isSome_iff_eq_none, ← h.mem_order_iff_find]
      exact habsent
    rw [perform_set hw hvalue, perform_add hw hvalue hlookup, h.put_absent hk habsent, or_self] at hdone
    cases hdone
    rw [(hw.withEntries _).entries_eq, hw.entries_eq, hvalue]
  removing := by
    intro k' found w' hsuits hremove
    have hnull : k' ≠ .null := by
      rintro rfl
      have hanswer : answerOf (Request.perform key value a (.remove .null) w) = _ := answer_null hw _ rfl
      rw [hremove] at hanswer
      cases hanswer
    obtain ⟨k, -, hvalue, hk⟩ := Key.exists_of_suits hkey hsuits hnull
    rw [perform_remove hw hvalue] at hremove
    cases hremove
    rw [(hw.withEntries _).entries_eq, hw.entries_eq, h.drop_eq hk, hvalue]
  duplicate_iff := by
    intro k' v hsuits
    refine h.error_iff hw hkey hsuits rfl Fault.duplicateKey true (by simp) fun k hof => ?_
    by_cases hk : k ∈ m.order <;> simp [OrderedMap.answer, hk]
  notFound_iff := by
    intro k' hsuits
    refine h.error_iff hw hkey hsuits rfl Fault.keyNotFound false (by simp) fun k hof => ?_
    rw [decide_eq_false_iff_not, h.mem_order_iff_find]
    cases hfind : m.find k <;> simp [OrderedMap.answer, hfind]
  failing := fun r fault w' hfails => failed_eq hw hfails

end Laws

end Requests

/-- A dictionary that starts empty refines a finite map with the order of its keys: it answers every run of requests as
the map does, and what it was brought to has the entries of the map and obeys the laws of one. -/
theorem refines_ordered_map {key : Ty} (hkey : key.isKeyType = true) (value : Ty) {w : World} {a : Address}
    (hempty : w.Holds a []) (requests : List Request) (hsuits : ∀ r ∈ requests, r.key.Suits key) :
    (performAll key value a requests w).1 = (OrderedMap.respondAll key value requests .empty).1 ∧
    Represents key (OrderedMap.respondAll key value requests .empty).2
      ((performAll key value a requests w).2.heap.entries a) ∧
    Lawful key value a (performAll key value a requests w).2 := by
  obtain ⟨entries, hanswers, hholds, hrepresents⟩ := Represents.performAll hkey requests (.empty key) hempty hsuits
  refine ⟨hanswers, ?_, hrepresents.lawful hholds hkey⟩
  rwa [hholds.entries_eq]

/-- Requests for keys that are longs, some of them given as ints. -/
def sampleRequests : List Request :=
  [.add (.int 1) (.int 10), .add (.long 2) (.int 20), .set (.long 1) (.int 11), .add (.int 2) (.int 21), .get .null,
    .get (.int 1), .remove (.int 1), .contains (.long 1), .get (.long 1)]

def sampleWorld : World :=
  ⟨⟨#[.entries []]⟩, ⟨"", none⟩, ⟨fun _ => 0, 0⟩⟩

/-- Ints and longs that are the same number are one key. -/
theorem refines_ordered_map_widenedKeys :
    sampleWorld.Holds 0 [] ∧ (∀ r ∈ sampleRequests, r.key.Suits .long) ∧
    (performAll .long .long 0 sampleRequests sampleWorld).1 =
      [.ok .null, .ok .null, .ok .null, .error (.duplicateKey "2"), .error (.nullValue "dictionary key"),
        .ok (.long 11), .ok (.bool true), .ok (.bool false), .error (.keyNotFound "1")] ∧
    Lawful .long .long 0 (performAll .long .long 0 sampleRequests sampleWorld).2 := by
  have hsuits : ∀ r ∈ sampleRequests, r.key.Suits .long := by
    simp only [sampleRequests, List.forall_mem_cons]
    exact ⟨.inr rfl, .inr rfl, .inr rfl, .inr rfl, .inl rfl, .inr rfl, .inr rfl, .inr rfl, .inr rfl, by simp⟩
  obtain ⟨hanswers, -, hlawful⟩ := refines_ordered_map rfl .long (show sampleWorld.Holds 0 [] from rfl) sampleRequests hsuits
  exact ⟨rfl, hsuits, hanswers.trans rfl, hlawful⟩

end Dictionary

end Scriptlet
