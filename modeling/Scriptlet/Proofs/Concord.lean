import Scriptlet.Proofs.Parts
import Scriptlet.Proofs.Plain

/-!
# Recorded runs beside plain ones

The recorded evaluator and the plain one go through a program in the same way. So a relation between their computations
that is kept where computations are put together, and that the few actions on the state have, is had by all expressions,
statements and functions. That is shown here once, by one induction, for all such relations; a property of recorded
computations alone is one that does not look at the other side.
-/

namespace Scriptlet

/-- The variable that a place is, if it is one. -/
def Place.ref? : Place → Option VariableRef
  | .variable ref => some ref
  | .index _ _ => none

/-- The variable that a slot is, if it is one. -/
def Slot.ref? : Slot → Option VariableRef
  | .variable ref => some ref
  | .item _ _ _ | .entry _ _ _ _ => none

/-- The variable that an expression gives a value to when everything else in it is done. -/
def Expr.assigned? : Expr → Option VariableRef
  | .assign _ target _ _ _ => target.ref?
  | .increment _ target _ _ => target.ref?
  | _ => none

def Recorded.Gives {α : Type} (R : α → Prop) (x : Recorded α) : Prop :=
  ∀ c a c', x c = .ok a c' → R a

namespace Recorded.Gives

variable {α β : Type} {R : α → Prop} {S : β → Prop}

theorem pure {a : α} (h : R a) : Gives R (Pure.pure a : Recorded α) := by
  rintro c _ c' ⟨⟩
  exact h

theorem bind_of {x : Recorded α} {f : α → Recorded β} (hx : Gives R x) (hf : ∀ a, R a → Gives S (f a)) :
    Gives S (x >>= f) := by
  intro c b c' h
  obtain ⟨a, c₁, hxc, hfa⟩ := ok_of_bind h
  exact hf a (hx c a c₁ hxc) c₁ b c' hfa

theorem bind {x : Recorded α} {f : α → Recorded β} (hf : ∀ a, Gives S (f a)) : Gives S (x >>= f) :=
  bind_of (R := fun _ => True) (fun _ _ _ _ => trivial) fun a _ => hf a

end Recorded.Gives

/-- The variable that an expression itself reads or writes. -/
def Expr.accessed? : Expr → Option VariableRef
  | .variable _ ref => some ref
  | .assign _ target _ _ _ => target.ref?
  | .increment _ target _ _ => target.ref?
  | _ => none

mutual

/-- Whether a loop that may go on as long as a condition holds occurs in a statement. -/
def Statement.loops : Statement → Bool
  | .block _ body => Statement.anyLoops body
  | .conditional _ _ thenBranch none => thenBranch.loops
  | .conditional _ _ thenBranch (some elseBranch) => thenBranch.loops || elseBranch.loops
  | .whileLoop .. | .forLoop .. => true
  | .forEachLoop _ _ _ _ body => body.loops
  | .switchOn _ _ sections none => Section.anyLoops sections
  | .switchOn _ _ sections (some body) => Section.anyLoops sections || Statement.anyLoops body
  | .expression .. | .declaration .. | .breakStatement _ | .continueStatement _ | .returnStatement .. => false

def Statement.anyLoops : List Statement → Bool
  | [] => false
  | statement :: rest => statement.loops || Statement.anyLoops rest

def Section.anyLoops : List Section → Bool
  | [] => false
  | ⟨_, body⟩ :: rest => Statement.anyLoops body || Section.anyLoops rest

end

/-- A relation between recorded computations and plain ones: one that is for expressions, and a weaker one for
statements. Variables have to be `seen` where they are accessed. If a computation for an expression succeeds, a write to
a variable may be left to be written down. The loops of the two runs may take different numbers of rounds, and there may
be relations for which there must not be any. -/
structure Concord (s : Setting) where
  inner : {α : Type} → Option VariableRef → Recorded α → Run α → Prop
  outer : {α : Type} → Recorded α → Run α → Prop
  seen : Lexical → VariableRef → Prop
  rounds : Nat
  rounds' : Nat
  loops : Prop
  pure : ∀ {α : Type} (a : α), inner none (Pure.pure a) (Pure.pure a)
  bind : ∀ {α β : Type} {pending : Option VariableRef} {x : Recorded α} {y : Run α} {f : α → Recorded β}
    {g : α → Run β}, inner none x y → (∀ a, inner pending (f a) (g a)) → inner pending (x >>= f) (y >>= g)
  place : ∀ {α : Type} {visible : Lexical} {ref? : Option VariableRef} {x : Recorded Slot} {y : Run Slot}
    {f : Slot → Recorded α} {g : Slot → Run α}, inner none x y → Recorded.Gives (·.ref? = ref?) x →
      (∀ ref ∈ ref?, seen visible ref) →
      (∀ slot : Slot, (∀ ref ∈ slot.ref?, seen visible ref) → inner slot.ref? (f slot) (g slot)) →
        inner ref? (x >>= f) (y >>= g)
  map : ∀ {α β : Type} {pending : Option VariableRef} {x : Recorded α} {y : Run α} (f : α → β), inner pending x y →
    inner pending (x >>= fun a => Pure.pure (f a)) (y >>= fun a => Pure.pure (f a))
  quietly : ∀ {α : Type} {x : Run α}, x.Tame → inner none (Recorded.quietly x) x
  giving : ∀ {e : Expr} {x : Recorded Value} {y : Run Value}, inner e.assigned? x y → inner none (Recorded.giving e x) y
  read : ∀ visible p (slot : Slot), (∀ ref ∈ slot.ref?, seen visible ref) →
    inner none (Recorded.read visible p slot) (slot.read p)
  write : ∀ visible p (slot : Slot) v, (∀ ref ∈ slot.ref?, seen visible ref) →
    inner slot.ref? (Recorded.write visible s.classes p slot v) (slot.write s.classes p v)
  weaken : ∀ {α : Type} {x : Recorded α} {y : Run α}, inner none x y → outer x y
  andThen : ∀ {α β : Type} {x : Recorded α} {y : Run α} {f : α → Recorded β} {g : α → Run β},
    outer x y → (∀ a, outer (f a) (g a)) → outer (x >>= f) (y >>= g)
  repeatWhile : ∀ {condition : Recorded Bool} {condition' : Run Bool} {after : Recorded Unit} {after' : Run Unit}
    {body : Recorded Flow} {body' : Run Flow} (e : Event) (p : Position), loops → outer condition condition' →
      outer body body' → outer after after' →
        outer (Recorded.repeatWhile condition (Recorded.checkpoint e p) body after rounds)
          (Run.repeatWhile condition' (Run.checkpoint e p) body' after' rounds')
  checkpoint : ∀ e p, outer (Recorded.checkpoint e p) (Run.checkpoint e p)
  declare : ∀ name origin ty v, outer (Recorded.declare name origin ty v) (Run.declare name ty v)
  inScope : ∀ {α : Type} {x : Recorded α} {y : Run α}, outer x y → outer (Recorded.inScope x) (Run.inScope y)

namespace Concord

variable {s : Setting} (C : Concord s) {α β : Type}

def Admits (member : Member) : Prop :=
  ∀ p arguments, C.inner none (Recorded.quietly (Run.host p (member.call arguments)))
    (Run.host p (member.call arguments))

/-- Expressions that by themselves are no obstacle: their members are admitted, and their variables are seen. -/
def Permits (visible : Lexical) (e : Expr) : Prop :=
  e.Uses C.Admits ∧ ∀ ref ∈ e.accessed?, C.seen visible ref

/-- Statements with such expressions and, if need be, without loops. -/
structure Suits (exprs : List Expr) (loops : Bool) : Prop where
  permits : ∀ e ∈ exprs, ∀ visible, e.All (C.Permits visible)
  loops : loops = true → C.loops

theorem Suits.mono {C : Concord s} {exprs exprs' : List Expr} {loops loops' : Bool} (h : C.Suits exprs loops)
    (hexprs : ∀ e ∈ exprs', e ∈ exprs) (hloops : loops' = true → loops = true) : C.Suits exprs' loops' :=
  ⟨fun e he => h.permits e (hexprs e he), fun hl => h.loops (hloops hl)⟩

def Calls (recorded : RecordedInvoke) (invoke : Invoke) : Prop :=
  ∀ index arguments p, C.inner none (recorded index arguments p) (invoke index arguments p)

theorem first {x : Recorded α} {y : Run α} {f : α → Recorded β} {g : α → Run β} (hx : C.inner none x y)
    (hf : ∀ a, C.outer (f a) (g a)) : C.outer (x >>= f) (y >>= g) :=
  C.andThen (C.weaken hx) hf

theorem done (a : α) : C.outer (Pure.pure a) (Pure.pure a) :=
  C.weaken (C.pure a)

theorem forEach {check : Recorded Unit} {check' : Run Unit} {body : Value → Recorded Flow}
    {body' : Value → Run Flow} (hcheck : C.outer check check') (hbody : ∀ v, C.outer (body v) (body' v))
    (items : List Value) : C.outer (Recorded.forEach check body items) (Run.forEach check' body' items) := by
  induction items with
  | nil => exact C.done _
  | cons v rest ih =>
    refine C.andThen hcheck fun _ => C.andThen (hbody v) fun flow => ?_
    cases flow with
    | broken => exact C.done _
    | returned v => exact C.done _
    | normal => exact ih
    | continued => exact ih

end Concord

section Evaluator

variable {s : Setting} {C : Concord s} {recorded : RecordedInvoke} {invoke : Invoke}

theorem Place.recordSlot_ref? {s : Setting} {visible : Lexical} {invoke : RecordedInvoke} (place : Place) :
    Recorded.Gives (fun slot => slot.ref? = place.ref?) (place.recordSlot s visible invoke) := by
  cases place with
  | «variable» ref => exact .pure rfl
  | index collection key =>
    rw [Place.recordSlot]
    refine .bind fun _ => .bind fun found => ?_
    cases found with
    | sequence => exact .bind fun _ => .bind fun _ => .pure rfl
    | dictionary => exact .bind fun _ => .pure rfl

mutual

theorem Expr.record_related (hi : C.Calls recorded invoke) (visible : Lexical) :
    ∀ e : Expr, e.All (C.Permits visible) → C.inner none (e.record s visible recorded) (e.evaluate s invoke)
  | .literal _ v, _ => by
    rw [Expr.record, Expr.evaluate]
    exact C.giving (C.pure v)
  | .variable info ref, h => by
    rw [Expr.record, Expr.evaluate]
    exact C.giving (C.read visible info.position (.variable ref) h.here.2)
  | .unary info op operand, h => by
    rw [Expr.record, Expr.evaluate]
    exact C.giving <| C.bind (operand.record_related hi visible (h.inside _ (by simp [Expr.children]))) fun _ =>
      C.quietly (.located _ (.unary _ _))
  | .binary info left op right operandType, h => by
    rw [Expr.record, Expr.evaluate]
    exact C.giving <| C.bind (left.record_related hi visible (h.inside _ (by simp [Expr.children]))) fun _ =>
      C.bind (right.record_related hi visible (h.inside _ (by simp [Expr.children]))) fun _ =>
        C.quietly (.located_heap _ fun _ => .infixed _ _ _ _)
  | .logical info left op right, h => by
    rw [Expr.record, Expr.evaluate]
    have hright := right.record_related hi visible (h.inside _ (by simp [Expr.children]))
    refine C.giving <| C.bind (left.record_related hi visible (h.inside _ (by simp [Expr.children]))) fun _ =>
      C.bind (C.quietly (.truth _ _)) fun decided => ?_
    have hboth := fun r => C.bind (C.quietly (.truth right.position r)) fun b => C.pure (Value.bool b)
    cases op <;> cases decided <;> first | exact C.pure _ | exact C.bind hright hboth
  | .ternary info condition thenCase elseCase, h => by
    rw [Expr.record, Expr.evaluate]
    refine C.giving <| C.bind (condition.record_related hi visible (h.inside _ (by simp [Expr.children])))
      fun _ => C.bind (C.quietly (.truth _ _)) fun decided => ?_
    cases decided with
    | true =>
      exact C.bind (thenCase.record_related hi visible (h.inside _ (by simp [Expr.children]))) fun _ => C.pure _
    | false =>
      exact C.bind (elseCase.record_related hi visible (h.inside _ (by simp [Expr.children]))) fun _ => C.pure _
  | .assign info target op value operandType, h => by
    rw [Expr.record, Expr.evaluate]
    have hvalue := value.record_related hi visible (h.inside _ (by simp [Expr.children]))
    -- the variable that the write leaves pending is the one that the assignment is written down with
    refine C.giving <| C.place (target.recordSlot_related hi visible fun x hx =>
      h.inside x (List.mem_append_left _ hx)) target.recordSlot_ref? h.here.2 fun slot hslot => ?_
    cases op with
    | none => exact C.bind hvalue fun _ => C.write visible _ slot _ hslot
    | some op =>
      exact C.bind (C.read visible _ slot hslot) fun _ => C.bind hvalue fun _ =>
        C.bind (C.quietly (.located_heap _ fun _ => .compound _ _ _ _)) fun _ =>
          C.write visible _ slot _ hslot
  | .increment info target decrement prefixed, h => by
    rw [Expr.record, Expr.evaluate]
    exact C.giving <| C.place (target.recordSlot_related hi visible h.inside) target.recordSlot_ref? h.here.2
      fun slot hslot => C.bind (C.read visible _ slot hslot) fun _ =>
        C.bind (C.quietly (.located_heap _ fun _ => .infixed _ _ _ _)) fun _ =>
          C.map _ (C.write visible _ slot _ hslot)
  | .cast info operand, h => by
    rw [Expr.record, Expr.evaluate]
    exact C.giving <| C.bind (operand.record_related hi visible (h.inside _ (by simp [Expr.children]))) fun _ =>
      C.quietly (.located _ (.cast _ _ _))
  | .call info function arguments, h => by
    rw [Expr.record, Expr.evaluate]
    exact C.giving <| C.bind (Expr.recordAll_related hi visible arguments h.inside) fun values =>
      hi function values info.position
  | .staticMember info member arguments, h => by
    rw [Expr.record, Expr.evaluate]
    have hmember : C.Admits member := h.here.1
    exact C.giving <| C.bind (Expr.recordAll_related hi visible arguments h.inside) fun _ => hmember _ _
  | .instanceMember info member receiver arguments, h => by
    rw [Expr.record, Expr.evaluate]
    have hmember : C.Admits member := h.here.1
    refine C.giving <| C.bind (receiver.record_related hi visible (h.inside _ (by simp [Expr.children])))
      fun v => ?_
    split
    · exact C.quietly (.fail id _)
    · exact C.bind (Expr.recordAll_related hi visible arguments fun x hx => h.inside x (List.mem_cons_of_mem _ hx))
        fun _ => hmember _ _
  | .index info collection key, h => by
    rw [Expr.record, Expr.evaluate]
    have hkey := key.record_related hi visible (h.inside _ (by simp [Expr.children]))
    refine C.giving <| C.bind (collection.record_related hi visible (h.inside _ (by simp [Expr.children])))
      fun v => C.bind (C.quietly (.collection collection v)) fun found => ?_
    cases found with
    | sequence =>
      exact C.bind hkey fun _ => C.bind (C.quietly (.located _ (.asInt _))) fun _ => C.quietly (.item _ _ _)
    | dictionary => exact C.bind hkey fun _ => C.quietly (.entry _ _ _ _ _)
  | .newSequence info kind element items, h => by
    rw [Expr.record, Expr.evaluate]
    exact C.giving <| C.bind (Expr.recordAll_related hi visible items h.inside) fun _ =>
      C.quietly (.newSequence _ _ _ _)
  | .newArray info element length, h => by
    rw [Expr.record, Expr.evaluate]
    exact C.giving <| C.bind (length.record_related hi visible (h.inside _ (by simp [Expr.children]))) fun _ =>
      C.bind (C.quietly (.located _ (.asInt _))) fun _ => C.quietly (.newArray _ _ _)
  | .newDictionary info key value entries, h => by
    rw [Expr.record, Expr.evaluate]
    exact C.giving <| C.bind (Expr.recordEntries_related hi visible _ entries h.inside) fun _ =>
      C.quietly (.newDictionary _ _ _ _)

theorem Expr.recordAll_related (hi : C.Calls recorded invoke) (visible : Lexical) : ∀ es : List Expr,
    (∀ e ∈ es, e.All (C.Permits visible)) →
    C.inner none (Expr.recordAll s visible recorded es) (Expr.evaluateAll s invoke es)
  | [], _ => by
    rw [Expr.recordAll, Expr.evaluateAll]
    exact C.pure _
  | e :: rest, h => by
    rw [Expr.recordAll, Expr.evaluateAll]
    exact C.bind (e.record_related hi visible (h e List.mem_cons_self)) fun _ =>
      C.bind (Expr.recordAll_related hi visible rest fun x hx => h x (List.mem_cons_of_mem _ hx)) fun _ => C.pure _

theorem Expr.recordEntries_related (hi : C.Calls recorded invoke) (visible : Lexical) (d : Dictionary) :
    ∀ entries : List (Expr × Expr),
    (∀ e ∈ entries.flatMap (fun e => [e.1, e.2]), e.All (C.Permits visible)) →
    C.inner none (Expr.recordEntries s visible recorded d entries) (Expr.evaluateEntries s invoke d entries)
  | [], _ => by
    rw [Expr.recordEntries, Expr.evaluateEntries]
    exact C.pure _
  | (key, value) :: rest, h => by
    rw [Expr.recordEntries, Expr.evaluateEntries]
    exact C.bind (key.record_related hi visible (h key (by simp))) fun _ =>
      C.bind (value.record_related hi visible (h value (by simp))) fun _ =>
        C.bind (C.quietly (.located_heap _ fun _ => .dictionary_add _ _ _)) fun d =>
          Expr.recordEntries_related hi visible d rest fun x hx => h x (by simp [List.flatMap_cons, hx])

theorem Place.recordSlot_related (hi : C.Calls recorded invoke) (visible : Lexical) : ∀ place : Place,
    (∀ e ∈ place.children, e.All (C.Permits visible)) →
    C.inner none (place.recordSlot s visible recorded) (place.find s invoke)
  | .variable ref, _ => by
    rw [Place.recordSlot, Place.find]
    exact C.pure _
  | .index collection key, h => by
    rw [Place.recordSlot, Place.find]
    have hkey := key.record_related hi visible (h key (by simp [Place.children]))
    refine C.bind (collection.record_related hi visible (h collection (by simp [Place.children])))
      fun v => C.bind (C.quietly (.collection collection v)) fun found => ?_
    cases found with
    | sequence => exact C.bind hkey fun _ => C.bind (C.quietly (.located _ (.asInt _))) fun _ => C.pure _
    | dictionary => exact C.bind hkey fun _ => C.pure _

end

theorem Expr.recordOption_related (hi : C.Calls recorded invoke) (visible : Lexical) (e : Option Expr)
    (h : ∀ x ∈ e.toList, x.All (C.Permits visible)) :
    C.inner none (Expr.recordOption s visible recorded e) (Expr.evaluateOption s invoke e) := by
  cases e with
  | none => exact C.pure none
  | some e => exact C.bind (e.record_related hi visible (h e (by simp))) fun _ => C.pure _

theorem Expr.recordHolds_related (hi : C.Calls recorded invoke) (visible : Lexical) (e : Expr)
    (h : e.All (C.Permits visible)) : C.inner none (e.recordHolds s visible recorded) (e.holds s invoke) :=
  C.bind (e.record_related hi visible h) fun _ => C.quietly (.truth _ _)

theorem Expr.recordHoldsOption_related (hi : C.Calls recorded invoke) (visible : Lexical) (e : Option Expr)
    (h : ∀ x ∈ e.toList, x.All (C.Permits visible)) :
    C.inner none (Expr.recordHoldsOption s visible recorded e) (Expr.holdsOption s invoke e) := by
  cases e with
  | none => exact C.pure true
  | some e => exact e.recordHolds_related hi visible (h e (by simp))

mutual

theorem Statement.record_related (hi : C.Calls recorded invoke) :
    ∀ (statement : Statement) (visible : Lexical), C.Suits statement.exprs statement.loops →
    C.outer (statement.record s recorded C.rounds visible) (statement.execute s invoke C.rounds')
  | .expression _ e, visible, h => by
    rw [Statement.record, Statement.execute]
    exact C.first (e.record_related hi visible (h.permits e (by simp [Statement.exprs]) _)) fun _ => C.done _
  | .declaration position name ty initial, visible, h => by
    rw [Statement.record, Statement.execute]
    exact C.first (Expr.recordOption_related hi visible initial fun e he => h.permits e he _) fun _ =>
      C.andThen (C.declare _ _ _ _) fun _ => C.done _
  | .block _ body, visible, h => by
    rw [Statement.record, Statement.execute]
    exact C.inScope (Statement.recordAll_related hi body visible h)
  | .conditional _ condition thenBranch none, visible, h => by
    rw [Statement.record, Statement.execute]
    refine C.first (condition.recordHolds_related hi visible (h.permits _ (by simp [Statement.exprs]) _)) fun b => ?_
    cases b with
    | true =>
      exact thenBranch.record_related hi visible (h.mono (fun e he => by simp [Statement.exprs, he]) id)
    | false => exact C.done _
  | .conditional _ condition thenBranch (some elseBranch), visible, h => by
    rw [Statement.record, Statement.execute]
    refine C.first (condition.recordHolds_related hi visible (h.permits _ (by simp [Statement.exprs]) _)) fun b => ?_
    cases b with
    | true =>
      exact thenBranch.record_related hi visible (h.mono (fun e he => by simp [Statement.exprs, he])
        fun hl => by simp [Statement.loops, hl])
    | false =>
      exact elseBranch.record_related hi visible (h.mono (fun e he => by simp [Statement.exprs, he])
        fun hl => by simp [Statement.loops, hl])
  | .whileLoop p condition body, visible, h => by
    rw [Statement.record, Statement.execute]
    exact C.repeatWhile _ p (h.loops rfl)
      (C.weaken (condition.recordHolds_related hi visible (h.permits _ (by simp [Statement.exprs]) _)))
      (body.record_related hi visible (h.mono (fun e he => by simp [Statement.exprs, he]) fun _ => rfl)) (C.done _)
  | .forLoop p initial condition increments body, visible, h => by
    rw [Statement.record, Statement.execute]
    refine C.inScope <| C.andThen (Statement.recordAll_related hi initial visible
      (h.mono (fun e he => by simp [Statement.exprs, he]) fun _ => rfl)) fun _ => ?_
    exact C.repeatWhile _ p (h.loops rfl)
      (C.weaken (Expr.recordHoldsOption_related hi _ condition fun e he =>
        h.permits e (by simp [Statement.exprs, he]) _))
      (body.record_related hi _ (h.mono (fun e he => by simp [Statement.exprs, he]) fun _ => rfl))
      (C.first (Expr.recordAll_related hi _ increments fun e he => h.permits e (by simp [Statement.exprs, he]) _)
        fun _ => C.done _)
  | .forEachLoop p name ty collection body, visible, h => by
    rw [Statement.record, Statement.execute]
    refine C.first (collection.record_related hi visible (h.permits _ (by simp [Statement.exprs]) _)) fun v => ?_
    rw [← bind_assoc]
    refine C.first (C.quietly (.bind (.collection collection v) fun _ => .visited _)) fun items => ?_
    exact C.forEach (C.checkpoint _ _) (fun v => C.inScope <| C.andThen (C.declare _ _ _ _) fun _ =>
      body.record_related hi _ (h.mono (fun e he => by simp [Statement.exprs, he]) id)) items
  | .switchOn _ value sections none, visible, h => by
    rw [Statement.record, Statement.execute]
    refine C.first (value.record_related hi visible (h.permits _ (by simp [Statement.exprs]) _)) fun v =>
      C.andThen (Section.recordMatching_related hi v sections visible
        (h.mono (fun e he => by simp [Statement.exprs, he]) id)) fun flow? => ?_
    cases flow? with
    | some flow => cases flow <;> exact C.done _
    | none => exact C.done _
  | .switchOn _ value sections (some body), visible, h => by
    rw [Statement.record, Statement.execute]
    have hbody := Statement.recordAll_related hi body visible (h.mono (fun e he => by simp [Statement.exprs, he])
      fun hl => by simp [Statement.loops, hl])
    refine C.first (value.record_related hi visible (h.permits _ (by simp [Statement.exprs]) _)) fun v =>
      C.andThen (Section.recordMatching_related hi v sections visible
        (h.mono (fun e he => by simp [Statement.exprs, he]) fun hl => by simp [Statement.loops, hl])) fun flow? => ?_
    cases flow? with
    | some flow => cases flow <;> exact C.done _
    | none =>
      refine C.andThen (C.inScope hbody) fun flow => ?_
      cases flow <;> exact C.done _
  | .breakStatement _, _, _ => by
    rw [Statement.record, Statement.execute]
    exact C.done _
  | .continueStatement _, _, _ => by
    rw [Statement.record, Statement.execute]
    exact C.done _
  | .returnStatement _ value, visible, h => by
    rw [Statement.record, Statement.execute]
    exact C.first (Expr.recordOption_related hi visible value fun e he => h.permits e he _) fun _ => C.done _

theorem Statement.recordAll_related (hi : C.Calls recorded invoke) : ∀ (body : List Statement) (visible : Lexical),
    C.Suits (Statement.exprsOfAll body) (Statement.anyLoops body) →
    C.outer (Statement.recordAll s recorded C.rounds visible body) (Statement.executeAll s invoke C.rounds' body)
  | [], _, _ => by
    rw [Statement.recordAll, Statement.executeAll]
    exact C.done _
  | statement :: rest, visible, h => by
    rw [Statement.recordAll, Statement.executeAll]
    refine C.andThen (statement.record_related hi visible (h.mono (fun e he => by simp [Statement.exprsOfAll, he])
      fun hl => by simp [Statement.anyLoops, hl])) fun flow => ?_
    cases flow with
    | normal =>
      exact Statement.recordAll_related hi rest _ (h.mono (fun e he => by simp [Statement.exprsOfAll, he])
        fun hl => by simp [Statement.anyLoops, hl])
    | broken => exact C.done _
    | continued => exact C.done _
    | returned v => exact C.done _

theorem Section.recordMatching_related (hi : C.Calls recorded invoke) (v : Value) :
    ∀ (sections : List Section) (visible : Lexical),
    C.Suits (Section.exprsOfAll sections) (Section.anyLoops sections) →
    C.outer (Section.recordMatching s recorded C.rounds visible v sections)
      (Section.executeMatching s invoke C.rounds' v sections)
  | [], _, _ => by
    rw [Section.recordMatching, Section.executeMatching]
    exact C.done _
  | ⟨labels, body⟩ :: rest, visible, h => by
    rw [Section.recordMatching, Section.executeMatching]
    split
    · exact C.andThen (C.inScope (Statement.recordAll_related hi body visible
        (h.mono (fun e he => by simp [Section.exprsOfAll, he]) fun hl => by simp [Section.anyLoops, hl])))
        fun _ => C.done _
    · exact Section.recordMatching_related hi v rest visible
        (h.mono (fun e he => by simp [Section.exprsOfAll, he]) fun hl => by simp [Section.anyLoops, hl])

end

theorem recordParameters_related (function : Nat) (name : String) (p : Position) (index : Nat)
    (parameters : List Parameter) (arguments : List Value) :
    C.outer (recordParameters s function name p index parameters arguments)
      (bindParameters s name p index parameters arguments) := by
  induction parameters generalizing index arguments with
  | nil => exact C.done _
  | cons parameter ps ih =>
    cases arguments with
    | nil => exact C.done _
    | cons v vs =>
      rw [recordParameters, bindParameters]
      split
      · exact C.andThen (C.declare _ _ _ _) fun _ => ih (index + 1) vs
      · exact C.weaken (C.quietly (.fail id _))

theorem Function.record_related {execute : List Statement → Recorded Flow} {execute' : List Statement → Run Flow}
    (hcall : ∀ {x : Recorded Value} {y : Run Value} (p : Position) (function : Nat), C.outer x y →
      C.inner none (do Recorded.enterCall p; Recorded.inFrame do Recorded.note (.entry function); x)
        (do Run.enterCall p; Run.inFrame y))
    (function : Nat) (f : Function) (he : C.outer (execute f.body) (execute' f.body))
    (arguments : List Value) (p : Position) :
    C.inner none (f.record s function execute arguments p) (f.call s execute' arguments p) := by
  simp only [Function.record, Function.call]
  split
  · exact hcall p function <| C.andThen (recordParameters_related _ _ _ _ _ _) fun _ => C.andThen he fun _ =>
      C.weaken (C.quietly (.result _ _))
  · exact C.quietly (.fail id _)

end Evaluator

end Scriptlet
