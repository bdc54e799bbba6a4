import Scriptlet.Proofs.Fits
import Scriptlet.Proofs.Plain
import Scriptlet.Registry

/-!
# Orderly members

What a member of the host may do to a run, apart from its work on values. It cannot reach variables, frames or
limits. An orderly one besides only adds to the output, and its faults are its own: it does not report that a limit
was exceeded or that a variable is missing, and that a text has no end only where a collection contains itself. All
members that come with the language are orderly, whatever they are given. Most of them are quiet: they look at the heap
without changing it and give a plain value of the declared type. The others are careful: where they fail, the heap is
as it was.
-/

namespace Scriptlet

namespace Mild

open Fails (ok)

variable {h : Heap}

theorem argumentText (v : Value) (specifier : List Char) : Mild h (Template.argumentText h v specifier) := by
  unfold Template.argumentText
  split
  · exact scriptText v
  · exact scriptText v
  · split
    · exact ok _
    · exact (text v).bind fun _ => error id

theorem render (arguments : List Value) (pieces : List Template.Piece) :
    Mild h (Template.render h arguments pieces) := by
  induction pieces with
  | nil => exact ok _
  | cons piece rest ih =>
    refine Fails.bind ?_ fun _ => ih.bind fun _ => ok _
    cases piece with
    | literal c => exact ok _
    | placeholder p =>
      simp only [Template.pieceText]
      split
      · exact (argumentText _ _).map _
      · exact error id

theorem format (template : String) (arguments : List Value) : Mild h (Template.format h template arguments) := by
  refine Fails.bind ?_ fun pieces => render arguments pieces
  cases Template.pieces template with
  | ok pieces => exact ok _
  | error e => exact error id

end Mild

/-- The second output is the first one with something written behind it. -/
def Output.Extends (a b : Output) : Prop :=
  ∃ more, b.text = a.text ++ more

theorem Output.Extends.refl (a : Output) : a.Extends a :=
  ⟨"", by simp⟩

theorem Output.Extends.trans {a b c : Output} (h : a.Extends b) (h' : b.Extends c) : a.Extends c := by
  obtain ⟨more, hmore⟩ := h
  obtain ⟨more', hmore'⟩ := h'
  exact ⟨more ++ more', by rw [hmore', hmore, String.append_assoc]⟩

/-- Work of the host that only adds to the output, and whose faults are not about the run. -/
structure Host.Orderly {α : Type} (x : Host α) : Prop where
  output : ∀ w : World, w.output.Extends (finalState (x w)).output
  faults : ∀ w fault w', x w = .error fault w' → fault.Proper w'.heap

def Member.Orderly (m : Member) : Prop :=
  ∀ arguments, (m.call arguments).Orderly

namespace Host.Orderly

variable {α β : Type}

theorem pure (a : α) : Orderly (Pure.pure a : Host α) :=
  ⟨fun _ => .refl _, fun _ _ _ h => nomatch h⟩

theorem throw {fault : Fault} (h : ¬ fault.IsAmbient) : Orderly (MonadExcept.throw fault : Host α) := by
  refine ⟨fun _ => .refl _, fun _ _ _ h' => ?_⟩
  cases h'
  exact .of_not_isAmbient h

/-- What follows need only be orderly for the results that can be. -/
theorem bind_of {x : Host α} {f : α → Host β} (hx : Orderly x) (hf : ∀ w a w', x w = .ok a w' → Orderly (f a)) :
    Orderly (x >>= f) := by
  refine ⟨fun w => ?_, fun w fault w' h => ?_⟩
  · exact finalState_bind_of (w.output.Extends ·.output) (hx.output w) fun a w' hxw hout =>
      hout.trans ((hf w a w' hxw).output w')
  · rcases error_of_bind h with h | ⟨a, w₁, hxw, h⟩
    · exact hx.faults w fault w' h
    · exact (hf w a w₁ hxw).faults w₁ fault w' h

theorem bind {x : Host α} {f : α → Host β} (hx : Orderly x) (hf : ∀ a, Orderly (f a)) : Orderly (x >>= f) :=
  hx.bind_of fun _ a _ _ => hf a

theorem of_ok {x : Host α} (f : World → α) (g : World → World) (hx : ∀ w, x w = .ok (f w) (g w))
    (hg : ∀ w, (g w).output = w.output) : Orderly x := by
  refine ⟨fun w => ?_, fun w fault w' h => ?_⟩
  · rw [hx, finalState_ok, hg]
    exact .refl _
  · rw [hx] at h
    cases h

theorem heap : Orderly Host.heap :=
  of_ok (·.heap) id (fun _ => rfl) fun _ => rfl

theorem modifyHeap (f : Heap → Heap) : Orderly (Host.modifyHeap f) :=
  of_ok (fun _ => ()) (fun w => { w with heap := f w.heap }) (fun _ => rfl) fun _ => rfl

theorem allocate (c : Cell) : Orderly (Host.allocate c) :=
  of_ok (fun w => w.heap.cells.size) (fun w => { w with heap := ⟨w.heap.cells.push c⟩ }) (fun _ => rfl)
    fun _ => rfl

theorem now : Orderly Host.now :=
  of_ok (fun w => w.clock.reading w.clock.looks)
    (fun w => { w with clock := { w.clock with looks := w.clock.looks + 1 } }) (fun _ => rfl) fun _ => rfl

theorem newSequence (kind : SequenceKind) (element : Ty) (items : Array Value) :
    Orderly (Host.newSequence kind element items) :=
  (allocate _).bind fun _ => pure _

end Host.Orderly

/-- A plain value of a type, or the nothing of a call without a result. -/
def Value.PlainOf (ty : Ty) (v : Value) : Prop :=
  v.IsPlain ∧ (v.runtimeType = ty ∨ (ty = .void ∧ v = .null))

/-- Orderly work that leaves the heap alone and whose results have a property. -/
structure Host.Quiet {α : Type} (x : Host α) (R : α → Prop) : Prop extends Host.Orderly x where
  heap_eq : ∀ w, (finalState (x w)).heap = w.heap
  result : ∀ w a w', x w = .ok a w' → R a

def Member.Quiet (m : Member) : Prop :=
  ∀ arguments, (m.call arguments).Quiet (·.PlainOf m.returns)

theorem Member.Quiet.orderly {m : Member} (h : m.Quiet) : m.Orderly :=
  fun arguments => (h arguments).toOrderly

namespace Host.Quiet

variable {α β : Type} {R : α → Prop} {S : β → Prop}

theorem pure {a : α} (h : R a) : Quiet (Pure.pure a : Host α) R := by
  refine ⟨.pure a, fun _ => rfl, ?_⟩
  rintro _ _ _ ⟨⟩
  exact h

theorem plain {v : Value} (h : v.IsPlain) : Quiet (Pure.pure v : Host Value) (·.PlainOf v.runtimeType) :=
  pure ⟨h, .inl rfl⟩

theorem throw {fault : Fault} (h : ¬ fault.IsAmbient) : Quiet (MonadExcept.throw fault : Host α) R := by
  refine ⟨.throw h, fun _ => rfl, ?_⟩
  rintro _ _ _ ⟨⟩

theorem bind {x : Host α} {f : α → Host β} (hx : Quiet x R) (hf : ∀ a, R a → Quiet (f a) S) :
    Quiet (x >>= f) S := by
  refine ⟨hx.toOrderly.bind_of fun w a w' h => (hf a (hx.result w a w' h)).toOrderly, fun w => ?_, fun w b w' h => ?_⟩
  · exact finalState_bind_of (·.heap = w.heap) (hx.heap_eq w) fun a w' hxw hheap =>
      ((hf a (hx.result w a w' hxw)).heap_eq w').trans hheap
  · obtain ⟨a, w₁, ha, hb⟩ := ok_of_bind h
    exact (hf a (hx.result w a w₁ ha)).result w₁ b w' hb

/-- A plain result that depends on the heap. -/
theorem ofExcept_heap {f : Heap → Except Fault α} (hf : ∀ h, Mild h (f h)) :
    Quiet (Host.heap >>= fun h => Host.ofExcept (f h)) fun _ => True := by
  have heq (w : World) : (Host.heap >>= fun h => Host.ofExcept (f h)) w = Host.ofExcept (f w.heap) w := rfl
  refine ⟨⟨fun w => ?_, fun w fault w' h => ?_⟩, fun w => ?_, fun _ _ _ _ => trivial⟩
  · rw [heq]
    cases f w.heap <;> exact .refl _
  · rw [heq] at h
    cases hr : f w.heap with
    | ok a =>
      rw [hr] at h
      cases h
    | error =>
      rw [hr] at h
      cases h
      exact hf _ fault hr
  · rw [heq]
    cases f w.heap <;> rfl

theorem heap_bind {f : Heap → Except Fault α} {g : α → Host β} (hf : ∀ h, Mild h (f h)) (hg : ∀ a, Quiet (g a) S) :
    Quiet (Host.heap >>= fun h => Host.ofExcept (f h) >>= g) S :=
  (ofExcept_heap hf).bind fun a _ => hg a

theorem ofExcept {r : Except Fault α} (h : ∀ {h : Heap}, Mild h r) : Quiet (Host.ofExcept r) fun _ => True :=
  ofExcept_heap fun _ => h

theorem heap : Quiet Host.heap fun _ => True :=
  ⟨.heap, fun _ => rfl, fun _ _ _ _ => trivial⟩

theorem scriptText (v : Value) : Quiet (Host.scriptText v) fun _ => True :=
  ofExcept_heap fun _ => .scriptText v

theorem now : Quiet Host.now fun _ => True :=
  ⟨.now, fun _ => rfl, fun _ _ _ _ => trivial⟩

theorem writeLine (line : String) : Quiet (Host.writeLine line) fun _ => True := by
  have hget : ∀ (f : World → Host Unit) w, (get >>= f) w = f w w := fun _ _ => rfl
  have hfails : ∀ {w : World} {reason}, w.output.failure = some reason →
      Host.writeLine line w = .error (.output reason) w := by
    intro w reason hf
    rw [Host.writeLine, hget, hf]
    rfl
  have hwrites : ∀ {w : World}, w.output.failure = none → Host.writeLine line w =
      .ok () { w with output := { w.output with text := w.output.text ++ line ++ "\n" } } := by
    intro w hf
    rw [Host.writeLine, hget, hf]
    rfl
  refine ⟨⟨fun w => ?_, fun w fault w' h => ?_⟩, fun w => ?_, fun _ _ _ _ => trivial⟩
  · cases hf : w.output.failure with
    | some reason =>
      rw [hfails hf]
      exact .refl _
    | none =>
      rw [hwrites hf]
      exact ⟨line ++ "\n", by simp [String.append_assoc]⟩
  · cases hf : w.output.failure with
    | some reason =>
      rw [hfails hf] at h
      cases h
      exact .of_not_isAmbient id
    | none =>
      rw [hwrites hf] at h
      cases h
  · cases hf : w.output.failure with
    | some reason => rw [hfails hf]; rfl
    | none => rw [hwrites hf]; rfl

end Host.Quiet

/-- Work of the host that leaves the heap as it found it when it fails. -/
def Host.AllOrNothing {α : Type} (x : Host α) : Prop :=
  ∀ w fault w', x w = .error fault w' → w'.heap = w.heap

/-- Orderly work that does all or nothing. -/
structure Host.Careful {α : Type} (x : Host α) : Prop extends Host.Orderly x where
  allOrNothing : x.AllOrNothing

def Member.Careful (m : Member) : Prop :=
  ∀ arguments, (m.call arguments).Careful

namespace Host.Careful

variable {α β : Type} {R : α → Prop}

theorem of_quiet {x : Host α} (hx : x.Quiet R) : Careful x := by
  refine ⟨hx.toOrderly, fun w fault w' h => ?_⟩
  have hheap := hx.heap_eq w
  rwa [h, finalState_error] at hheap

theorem throw {fault : Fault} (h : ¬ fault.IsAmbient) : Careful (MonadExcept.throw fault : Host α) :=
  of_quiet (.throw (R := fun _ => True) h)

/-- Only what looks at the heap may stand in front of work that may still fail. -/
theorem bind_of_quiet {x : Host α} {f : α → Host β} (hx : x.Quiet R) (hf : ∀ a, Careful (f a)) :
    Careful (x >>= f) := by
  refine ⟨hx.toOrderly.bind fun a => (hf a).toOrderly, fun w fault w' h => ?_⟩
  have hheap := hx.heap_eq w
  rcases error_of_bind h with h | ⟨a, w₁, hxw, h⟩
  · rwa [h] at hheap
  · rw [hxw] at hheap
    exact ((hf a).allOrNothing w₁ fault w' h).trans hheap

theorem heap_bind {f : Heap → Except Fault α} {g : α → Host β} (hf : ∀ h, Mild h (f h)) (hg : ∀ a, Careful (g a)) :
    Careful (Host.heap >>= fun h => Host.ofExcept (f h) >>= g) :=
  bind_of_quiet (x := Host.heap >>= fun h => Host.ofExcept (f h)) (.ofExcept_heap hf) hg

theorem modifyHeap (f : Heap → Heap) (a : α) : Careful (Host.modifyHeap f >>= fun _ => pure a) := by
  refine ⟨(Orderly.modifyHeap f).bind fun _ => .pure a, fun w fault w' h => ?_⟩
  cases h

theorem newSequence (kind : SequenceKind) (element : Ty) (items : Array Value) :
    Careful (Host.newSequence kind element items) := by
  refine ⟨.newSequence kind element items, fun w fault w' h => ?_⟩
  cases h

end Host.Careful

namespace Standard

variable (arguments : List Value)

section Quiet

open Host.Quiet

theorem countValue_quiet (n : Nat) : (countValue n).Quiet (·.PlainOf .int) := by
  unfold countValue
  split
  · exact plain trivial
  · exact throw id

theorem textArgument_quiet (member : String) (v : Value) : (textArgument member v).Quiet fun _ => True := by
  cases v <;> first | exact pure trivial | exact throw id

theorem doubleArgument_quiet (member : String) (v : Value) : (doubleArgument member v).Quiet fun _ => True := by
  unfold doubleArgument
  split
  · exact pure trivial
  · exact throw id

theorem sequenceArgument_quiet (member : String) (v : Value) : (sequenceArgument member v).Quiet fun _ => True := by
  cases v <;> first | exact pure trivial | exact throw id

theorem dictionaryArgument_quiet (member : String) (v : Value) :
    (dictionaryArgument member v).Quiet fun _ => True := by
  cases v <;> first | exact heap.bind fun _ _ => pure trivial | exact throw id

theorem indexOf_quiet : (indexOf arguments).Quiet (·.PlainOf .int) := by
  unfold indexOf
  split
  · refine (sequenceArgument_quiet _ _).bind fun _ _ => heap.bind fun _ _ => ?_
    dsimp only
    split
    · exact countValue_quiet _
    · exact plain trivial
  · exact throw id

theorem count_quiet (member : String) (arguments : List Value) : (count member arguments).Quiet (·.PlainOf .int) := by
  unfold count
  split
  · exact (sequenceArgument_quiet _ _).bind fun _ _ => heap.bind fun _ _ => countValue_quiet _
  · exact throw id

theorem contains_quiet : (contains arguments).Quiet (·.PlainOf .bool) := by
  unfold contains
  split
  · exact (sequenceArgument_quiet _ _).bind fun _ _ => heap.bind fun _ _ => plain trivial
  · exact throw id

theorem entryCount_quiet : (entryCount arguments).Quiet (·.PlainOf .int) := by
  unfold entryCount
  split
  · exact (dictionaryArgument_quiet _ _).bind fun _ _ => countValue_quiet _
  · exact throw id

theorem containsKey_quiet : (containsKey arguments).Quiet (·.PlainOf .bool) := by
  unfold containsKey
  split
  · refine (dictionaryArgument_quiet _ _).bind fun d _ => ?_
    exact (ofExcept ((Mild.prepareKey d.1 _).bind fun _ => .ok _)).bind fun _ _ => plain trivial
  · exact throw id

theorem containsValue_quiet : (containsValue arguments).Quiet (·.PlainOf .bool) := by
  unfold containsValue
  split
  · exact (dictionaryArgument_quiet _ _).bind fun _ _ => plain trivial
  · exact throw id

theorem universalMembers_quiet : ∀ m ∈ universalMembers, m.Quiet := by
  refine List.forall_mem_singleton.mpr fun arguments => ?_
  change (toText arguments).Quiet (·.PlainOf .string)
  unfold toText
  split
  · exact (scriptText _).bind fun _ _ => plain trivial
  · exact throw id

theorem unaryDouble_quiet (name : String) (f : Float → Float) : (unaryDouble name f).Quiet := by
  intro arguments
  simp only [unaryDouble, Member.method]
  split
  · exact (doubleArgument_quiet _ _).bind fun _ _ => plain trivial
  · exact throw id

theorem binaryDouble_quiet (name : String) (f : Float → Float → Float) : (binaryDouble name f).Quiet := by
  intro arguments
  simp only [binaryDouble, Member.method]
  split
  · exact (doubleArgument_quiet _ _).bind fun _ _ => (doubleArgument_quiet _ _).bind fun _ _ =>
      plain trivial
  · exact throw id

theorem binaryInt_quiet (name : String) (f : Int32 → Int32 → Int32) : (binaryInt name f).Quiet := by
  intro arguments
  simp only [binaryInt, Member.method]
  split
  · exact plain trivial
  · exact throw id

theorem absInt_quiet : (absInt arguments).Quiet (·.PlainOf .int) := by
  unfold absInt
  split
  · split
    · exact plain trivial
    · exact throw id
  · exact throw id

theorem clampInt_quiet : (clampInt arguments).Quiet (·.PlainOf .int) := by
  unfold clampInt
  split
  · split
    · exact plain trivial
    · exact throw id
  · exact throw id

theorem clampNumbers_quiet : (clampNumbers arguments).Quiet (·.PlainOf .double) := by
  unfold clampNumbers
  split
  · refine (doubleArgument_quiet _ _).bind fun _ _ => (doubleArgument_quiet _ _).bind fun _ _ =>
      (doubleArgument_quiet _ _).bind fun _ _ => ?_
    split
    · exact plain trivial
    · exact throw id
  · exact throw id

theorem mathMembers_quiet : ∀ m ∈ mathMembers, m.Quiet := by
  simp only [mathMembers, List.forall_mem_cons]
  exact ⟨fun _ => plain trivial, fun _ => plain trivial, absInt_quiet, unaryDouble_quiet _ _,
    binaryInt_quiet _ _, binaryDouble_quiet _ _, binaryInt_quiet _ _, binaryDouble_quiet _ _, binaryDouble_quiet _ _,
    unaryDouble_quiet _ _, unaryDouble_quiet _ _, unaryDouble_quiet _ _, unaryDouble_quiet _ _, clampInt_quiet,
    clampNumbers_quiet, by simp⟩

theorem log_quiet (name : String) : (log name).Quiet := by
  intro arguments
  simp only [log, Member.method]
  split
  · exact (scriptText _).bind fun _ _ => (writeLine _).bind fun _ _ => pure ⟨trivial, .inr ⟨rfl, rfl⟩⟩
  · exact throw id

theorem debugMembers_quiet : ∀ m ∈ debugMembers, m.Quiet := by
  simp only [debugMembers, List.forall_mem_cons]
  exact ⟨log_quiet _, log_quiet _, log_quiet _, by simp⟩

theorem systemMembers_quiet : ∀ m ∈ systemMembers, m.Quiet :=
  List.forall_mem_singleton.mpr fun _ => now.bind fun _ _ => plain trivial

theorem formatText_quiet : (formatText arguments).Quiet (·.PlainOf .string) := by
  unfold formatText
  split
  · exact (textArgument_quiet _ _).bind fun _ _ =>
      heap_bind (fun _ => .format _ _) fun _ => plain trivial
  · exact throw id

theorem isNullOrEmpty_quiet : (isNullOrEmpty arguments).Quiet (·.PlainOf .bool) := by
  unfold isNullOrEmpty
  split
  · exact plain trivial
  · exact plain trivial
  · exact throw id

theorem join_quiet : (join arguments).Quiet (·.PlainOf .string) := by
  unfold join
  split
  · refine (textArgument_quiet _ _).bind fun _ _ => ?_
    split
    · exact heap_bind (fun _ => .finite Heap.circular_of_mapM) fun _ => plain trivial
    · exact throw id
    · exact throw id
  · exact throw id

theorem textLength_quiet : (textLength arguments).Quiet (·.PlainOf .int) := by
  unfold textLength
  split
  · exact (textArgument_quiet _ _).bind fun _ _ => countValue_quiet _
  · exact throw id

theorem transformText_quiet (member : String) (f : String → String) (arguments : List Value) :
    (transformText member f arguments).Quiet (·.PlainOf .string) := by
  unfold transformText
  split
  · exact (textArgument_quiet _ _).bind fun _ _ => plain trivial
  · exact throw id

theorem compareTexts_quiet (member : String) (f : List Char → List Char → Bool) (arguments : List Value) :
    (compareTexts member f arguments).Quiet (·.PlainOf .bool) := by
  unfold compareTexts
  split
  · exact (textArgument_quiet _ _).bind fun _ _ => (textArgument_quiet _ _).bind fun _ _ => plain trivial
  · exact throw id

theorem indexOfText_quiet : (indexOfText arguments).Quiet (·.PlainOf .int) := by
  unfold indexOfText
  split
  · refine (textArgument_quiet _ _).bind fun _ _ => (textArgument_quiet _ _).bind fun _ _ => ?_
    split
    · exact countValue_quiet _
    · exact plain trivial
  · exact throw id

theorem replaceText_quiet : (replaceText arguments).Quiet (·.PlainOf .string) := by
  unfold replaceText
  split
  · exact (textArgument_quiet _ _).bind fun _ _ => (textArgument_quiet _ _).bind fun _ _ =>
      (textArgument_quiet _ _).bind fun _ _ => plain trivial
  · exact throw id

theorem suffixFrom_quiet : (suffixFrom arguments).Quiet (·.PlainOf .string) := by
  unfold suffixFrom
  split
  · refine (textArgument_quiet _ _).bind fun _ _ => (ofExcept (.checkedIndex _ _)).bind fun _ _ => ?_
    exact plain trivial
  · exact throw id

theorem sliceFrom_quiet : (sliceFrom arguments).Quiet (·.PlainOf .string) := by
  unfold sliceFrom
  split
  · refine (textArgument_quiet _ _).bind fun _ _ => (ofExcept (.checkedIndex _ _)).bind fun _ _ => ?_
    split
    · exact plain trivial
    · exact throw id
  · exact throw id

theorem stringStatics_quiet : ∀ m ∈ stringStatics, m.Quiet := by
  simp only [stringStatics, List.forall_mem_cons]
  exact ⟨formatText_quiet, isNullOrEmpty_quiet, join_quiet, by simp⟩

theorem stringMembers_quiet : ∀ m ∈ stringMembers, m.Quiet := by
  simp only [stringMembers, List.forall_mem_cons]
  exact ⟨textLength_quiet, transformText_quiet _ _, transformText_quiet _ _, transformText_quiet _ _,
    compareTexts_quiet _ fun s p => Text.contains p s, compareTexts_quiet _ fun s p => p.isPrefixOf s,
    compareTexts_quiet _ fun s p => p.isSuffixOf s, indexOfText_quiet, replaceText_quiet, suffixFrom_quiet,
    sliceFrom_quiet, by simp⟩

end Quiet

section Careful

open Host.Careful

theorem append_careful (member : String) (arguments : List Value) : (append member arguments).Careful := by
  unfold append
  split
  · exact bind_of_quiet (sequenceArgument_quiet _ _) fun _ => modifyHeap _ _
  · exact throw id

theorem insertAt_careful : (insertAt arguments).Careful := by
  unfold insertAt
  split
  · refine bind_of_quiet (sequenceArgument_quiet _ _) fun _ => bind_of_quiet .heap fun _ => ?_
    exact bind_of_quiet (.ofExcept (.checkedIndex _ _)) fun _ => modifyHeap _ _
  · exact throw id

theorem removeAt_careful : (removeAt arguments).Careful := by
  unfold removeAt
  split
  · refine bind_of_quiet (sequenceArgument_quiet _ _) fun _ => bind_of_quiet .heap fun _ => ?_
    exact bind_of_quiet (.ofExcept (.place _ _ _)) fun _ => modifyHeap _ _
  · exact throw id

theorem clear_careful : (clear arguments).Careful := by
  unfold clear
  split
  · exact bind_of_quiet (sequenceArgument_quiet _ _) fun _ => modifyHeap _ _
  · exact throw id

theorem nextAt_quiet (kind : SequenceKind) (address : Address) : (nextAt kind address).Quiet fun _ => True :=
  Host.Quiet.heap.bind fun _ _ => .pure trivial

theorem dequeue_careful : (dequeue arguments).Careful := by
  unfold dequeue
  split
  · refine bind_of_quiet (sequenceArgument_quiet _ _) fun _ => bind_of_quiet (nextAt_quiet _ _) fun first => ?_
    cases first with
    | none => exact throw id
    | some first => exact modifyHeap _ _
  · exact throw id

theorem pop_careful : (pop arguments).Careful := by
  unfold pop
  split
  · refine bind_of_quiet (sequenceArgument_quiet _ _) fun _ => bind_of_quiet (nextAt_quiet _ _) fun last => ?_
    cases last with
    | none => exact throw id
    | some last => exact modifyHeap _ _
  · exact throw id

theorem peek_careful (kind : SequenceKind) (arguments : List Value) : (peek kind arguments).Careful := by
  unfold peek
  split
  · refine bind_of_quiet (sequenceArgument_quiet _ _) fun _ => bind_of_quiet (nextAt_quiet _ _) fun next => ?_
    cases next with
    | none => exact throw id
    | some next => exact of_quiet (.pure (R := fun _ => True) trivial)
  · exact throw id

theorem sequenceMembers_careful (kind : SequenceKind) (element : Ty) :
    ∀ m ∈ sequenceMembers kind element, m.Careful := by
  have hgrowable : ∀ m ∈ growableMembers element, m.Careful := by
    simp only [growableMembers, List.forall_mem_cons]
    exact ⟨fun _ => of_quiet (count_quiet _ _), clear_careful, fun _ => of_quiet (contains_quiet _), by simp⟩
  cases kind with
  | array => exact List.forall_mem_singleton.mpr fun _ => of_quiet (count_quiet _ _)
  | list =>
    simp only [sequenceMembers, List.forall_mem_append, List.forall_mem_cons]
    exact ⟨⟨append_careful _, insertAt_careful, fun _ => of_quiet (indexOf_quiet _),
      removeAt_careful, by simp⟩, hgrowable⟩
  | queue =>
    simp only [sequenceMembers, List.forall_mem_append, List.forall_mem_cons]
    exact ⟨⟨append_careful _, dequeue_careful, peek_careful _, by simp⟩, hgrowable⟩
  | stack =>
    simp only [sequenceMembers, List.forall_mem_append, List.forall_mem_cons]
    exact ⟨⟨append_careful _, pop_careful, peek_careful _, by simp⟩, hgrowable⟩

theorem addEntry_careful : (addEntry arguments).Careful := by
  unfold addEntry
  split
  · exact bind_of_quiet (dictionaryArgument_quiet _ _) fun _ =>
      heap_bind (fun _ => .dictionary_add _ _ _) fun _ => modifyHeap _ _
  · exact throw id

theorem removeEntry_careful : (removeEntry arguments).Careful := by
  unfold removeEntry
  split
  · next receiver key =>
    refine bind_of_quiet (dictionaryArgument_quiet _ _) fun d => ?_
    have hremove : Host.Quiet (Host.ofExcept (d.1.remove key)) fun _ => True :=
      .ofExcept ((Mild.prepareKey d.1 key).bind fun _ => .ok _)
    exact bind_of_quiet hremove fun _ => modifyHeap _ _
  · exact throw id

theorem clearEntries_careful : (clearEntries arguments).Careful := by
  unfold clearEntries
  split
  · exact bind_of_quiet (dictionaryArgument_quiet _ _) fun _ => modifyHeap _ _
  · exact throw id

theorem keys_careful : (keys arguments).Careful := by
  unfold keys
  split
  · exact bind_of_quiet (dictionaryArgument_quiet _ _) fun _ => newSequence _ _ _
  · exact throw id

theorem values_careful : (values arguments).Careful := by
  unfold values
  split
  · exact bind_of_quiet (dictionaryArgument_quiet _ _) fun _ => newSequence _ _ _
  · exact throw id

theorem collectionMembers_careful (ty : Ty) : ∀ m ∈ collectionMembers ty, m.Careful := by
  cases ty with
  | sequence kind element => exact sequenceMembers_careful kind element
  | dictionary key value =>
    simp only [collectionMembers, dictionaryMembers, List.forall_mem_cons]
    exact ⟨fun _ => of_quiet (entryCount_quiet _), addEntry_careful, fun _ => of_quiet (containsKey_quiet _),
      fun _ => of_quiet (containsValue_quiet _), removeEntry_careful, clearEntries_careful,
      keys_careful, values_careful, by simp⟩
  | _ => simp [collectionMembers]

end Careful

end Standard

namespace Registry

/-- A property of all members that the host registered. -/
def AllMembers (r : Registry) (P : Member → Prop) : Prop :=
  (∀ entry ∈ r.statics, P entry.2) ∧ ∀ entry ∈ r.instances, P entry.2

variable {r : Registry} {name : String} {m : Member}

theorem AllMembers.mono {P Q : Member → Prop} (h : r.AllMembers P) (hPQ : ∀ m, P m → Q m) : r.AllMembers Q :=
  ⟨fun entry he => hPQ _ (h.1 entry he), fun entry he => hPQ _ (h.2 entry he)⟩

theorem mem_firstNamed {table : MemberTable} {owners : List String}
    (h : m ∈ firstNamed table name owners) : ∃ owner ∈ owners, (owner, m) ∈ table := by
  induction owners with
  | nil => simp [firstNamed] at h
  | cons owner rest ih =>
    rw [firstNamed] at h
    split at h
    · obtain ⟨other, hother, hm⟩ := ih h
      exact ⟨other, List.mem_cons_of_mem _ hother, hm⟩
    · obtain ⟨entry, hentry, rfl⟩ := List.mem_map.mp h
      obtain ⟨htable, howner⟩ := List.mem_filter.mp hentry
      simp only [Bool.and_eq_true, decide_eq_true_eq] at howner
      exact ⟨owner, List.mem_cons_self, howner.1 ▸ htable⟩

theorem mem_valueMembers {ty : Ty} (h : m ∈ r.valueMembers ty name) :
    m ∈ Standard.collectionMembers ty ∨ m ∈ Standard.universalMembers ∨
      ∃ owner ∈ r.instanceOwners ty, (owner, m) ∈ r.instances := by
  unfold valueMembers at h
  split at h
  · split at h
    · exact .inr (.inl (List.mem_filter.mp h).1)
    · exact .inr (.inr (mem_firstNamed h))
  · exact .inl (List.mem_filter.mp h).1

/-- What holds of the registered members and of all orderly ones holds of the members of values. -/
theorem AllMembers.valueMembers {P : Member → Prop} (h : r.AllMembers P)
    (horderly : ∀ m : Member, m.Orderly → P m) {ty : Ty} (hm : m ∈ r.valueMembers ty name) : P m := by
  rcases mem_valueMembers hm with hcollection | huniversal | ⟨owner, -, hentry⟩
  · exact horderly m fun arguments => (Standard.collectionMembers_careful ty m hcollection arguments).toOrderly
  · exact horderly m (Standard.universalMembers_quiet m huniversal).orderly
  · exact h.2 _ hentry

theorem standard_quiet : Registry.standard.AllMembers Member.Quiet := by
  have hmap : ∀ (owner : String) (members : List Member), (∀ m ∈ members, m.Quiet) →
      ∀ entry ∈ members.map (owner, ·), entry.2.Quiet := by
    intro owner members h entry hentry
    obtain ⟨m, hm, rfl⟩ := List.mem_map.mp hentry
    exact h m hm
  refine ⟨?_, hmap _ _ Standard.stringMembers_quiet⟩
  simp only [Registry.standard, List.forall_mem_append]
  exact ⟨⟨⟨hmap _ _ Standard.mathMembers_quiet, hmap _ _ Standard.debugMembers_quiet⟩,
    hmap _ _ Standard.systemMembers_quiet⟩, hmap _ _ Standard.stringStatics_quiet⟩

theorem standard_orderly : Registry.standard.AllMembers Member.Orderly :=
  standard_quiet.mono fun _ => Member.Quiet.orderly

end Registry

end Scriptlet
