import Scriptlet.Script

/-!
# The expressions of a program

A property of every expression that occurs somewhere, however deep, and the expressions that stand in
statements and programs.
-/

namespace Scriptlet

theorem Place.sizeOf_child {place : Place} {x : Expr} (hx : x ∈ place.children) : sizeOf x < sizeOf place := by
  cases place with
  | «variable» => simp [Place.children] at hx
  | index collection key =>
    simp only [Place.children, List.mem_cons, List.not_mem_nil, or_false] at hx
    rcases hx with rfl | rfl
    all_goals
      rw [Place.index.sizeOf_spec]
      omega

theorem Expr.sizeOf_child {e x : Expr} (hx : x ∈ e.children) : sizeOf x < sizeOf e := by
  have hlist : ∀ es : List Expr, x ∈ es → sizeOf x < sizeOf es := fun es h => List.sizeOf_lt_of_mem h
  cases e with
  | assign info target op value operandType =>
    rcases List.mem_append.mp hx with h | h
    · have := Place.sizeOf_child h
      simp
      omega
    · obtain rfl := List.mem_singleton.mp h
      simp
      omega
  | increment info target =>
    have := Place.sizeOf_child hx
    simp
    omega
  | call info function arguments =>
    have := hlist arguments hx
    simp
    omega
  | staticMember info member arguments =>
    have := hlist arguments hx
    simp
    omega
  | instanceMember info member receiver arguments =>
    rcases List.mem_cons.mp hx with rfl | h
    · simp
      omega
    · have := hlist arguments h
      simp
      omega
  | newSequence info kind element items =>
    have := hlist items hx
    simp
    omega
  | newDictionary info key value entries =>
    obtain ⟨entry, hentry, h⟩ := List.mem_flatMap.mp hx
    have hsize := List.sizeOf_lt_of_mem hentry
    obtain ⟨k, v⟩ := entry
    simp only [List.mem_cons, List.not_mem_nil, or_false] at h
    rcases h with rfl | rfl <;> simp at hsize ⊢ <;> omega
  | literal => simp [Expr.children] at hx
  | «variable» => simp [Expr.children] at hx
  | _ =>
    simp only [Expr.children, List.mem_cons, List.not_mem_nil, or_false] at hx
    rcases hx with rfl | rfl | rfl <;> simp <;> omega

/-- A property of an expression and of all expressions in it. -/
inductive Expr.All (P : Expr → Prop) : Expr → Prop
  | intro {e : Expr} (here : P e) (inside : ∀ x ∈ e.children, Expr.All P x) : Expr.All P e

namespace Expr.All

variable {P Q : Expr → Prop} {e : Expr}

theorem here (h : Expr.All P e) : P e := by
  cases h with
  | intro here => exact here

theorem inside (h : Expr.All P e) : ∀ x ∈ e.children, Expr.All P x := by
  cases h with
  | intro _ inside => exact inside

theorem mono (hpq : ∀ e, P e → Q e) (h : Expr.All P e) : Expr.All Q e := by
  induction h with
  | intro here _ ih => exact ⟨hpq _ here, ih⟩

theorem of_forall (h : ∀ e, P e) (e : Expr) : Expr.All P e :=
  ⟨h e, fun x _ => of_forall h x⟩
termination_by sizeOf e
decreasing_by exact Expr.sizeOf_child ‹_›

end Expr.All

/-- Whether the member that an expression calls, if it calls one, has a property. -/
def Expr.Uses (P : Member → Prop) : Expr → Prop
  | .staticMember _ m _ | .instanceMember _ m _ _ => P m
  | _ => True

theorem Expr.Uses.mono {P Q : Member → Prop} (h : ∀ m, P m → Q m) (e : Expr) (he : e.Uses P) : e.Uses Q := by
  cases e <;> first | trivial | exact h _ he

mutual

/-- The expressions that stand in a statement, without those inside of others. -/
def Statement.exprs : Statement → List Expr
  | .expression _ e => [e]
  | .declaration _ _ _ initial => initial.toList
  | .block _ body => Statement.exprsOfAll body
  | .conditional _ condition thenBranch none => condition :: thenBranch.exprs
  | .conditional _ condition thenBranch (some elseBranch) => condition :: (thenBranch.exprs ++ elseBranch.exprs)
  | .whileLoop _ condition body => condition :: body.exprs
  | .forLoop _ initial condition increments body =>
    Statement.exprsOfAll initial ++ condition.toList ++ increments ++ body.exprs
  | .forEachLoop _ _ _ collection body => collection :: body.exprs
  | .switchOn _ value sections none => value :: Section.exprsOfAll sections
  | .switchOn _ value sections (some body) =>
    value :: (Section.exprsOfAll sections ++ Statement.exprsOfAll body)
  | .breakStatement _ | .continueStatement _ => []
  | .returnStatement _ value => value.toList

def Statement.exprsOfAll : List Statement → List Expr
  | [] => []
  | statement :: rest => statement.exprs ++ Statement.exprsOfAll rest

def Section.exprsOfAll : List Section → List Expr
  | [] => []
  | ⟨_, body⟩ :: rest => Statement.exprsOfAll body ++ Section.exprsOfAll rest

end

def Function.exprs (f : Function) : List Expr :=
  Statement.exprsOfAll f.body

def Program.exprs (p : Program) : List Expr :=
  p.declarations.flatMap (·.initial.toList) ++ p.functions.flatMap Function.exprs

end Scriptlet
