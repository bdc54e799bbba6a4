import Scriptlet.Execution

/-!
# Chains of conditions

An `if` that stands directly in the else branch of another one goes on with a chain of conditions. The places of such
statements say whether their two words were read as one, and nothing that is executed depends on them. A chain is
executed by looking at one condition after the other, until one holds or the chain ends.
-/

namespace Scriptlet

namespace Statement

/-- An `if` without its place; other statements stay as they are. -/
def forgetPlace : Statement → Statement
  | .conditional _ condition thenBranch elseBranch => .conditional .start condition thenBranch elseBranch
  | statement => statement

end Statement

mutual

/-- The statement without the places of those `if` that go on with a chain. -/
def Statement.forgetElseIf : Statement → Statement
  | .expression p e => .expression p e
  | .declaration p name ty initial => .declaration p name ty initial
  | .block p body => .block p (Statement.forgetElseIfAll body)
  | .conditional p condition thenBranch none => .conditional p condition thenBranch.forgetElseIf none
  | .conditional p condition thenBranch (some elseBranch) =>
    .conditional p condition thenBranch.forgetElseIf (some elseBranch.forgetElseIf.forgetPlace)
  | .whileLoop p condition body => .whileLoop p condition body.forgetElseIf
  | .forLoop p initial condition increments body =>
    .forLoop p (Statement.forgetElseIfAll initial) condition increments body.forgetElseIf
  | .forEachLoop p name ty collection body => .forEachLoop p name ty collection body.forgetElseIf
  | .switchOn p value sections none => .switchOn p value (Section.forgetElseIfAll sections) none
  | .switchOn p value sections (some body) =>
    .switchOn p value (Section.forgetElseIfAll sections) (some (Statement.forgetElseIfAll body))
  | .breakStatement p => .breakStatement p
  | .continueStatement p => .continueStatement p
  | .returnStatement p value => .returnStatement p value

def Statement.forgetElseIfAll : List Statement → List Statement
  | [] => []
  | statement :: rest => statement.forgetElseIf :: Statement.forgetElseIfAll rest

def Section.forgetElseIfAll : List Section → List Section
  | [] => []
  | ⟨labels, body⟩ :: rest => ⟨labels, Statement.forgetElseIfAll body⟩ :: Section.forgetElseIfAll rest

end

def Function.forgetElseIf (f : Function) : Function :=
  { f with body := Statement.forgetElseIfAll f.body }

def Program.forgetElseIf (p : Program) : Program :=
  { p with functions := p.functions.map Function.forgetElseIf }

namespace Statement

theorem forgetElseIfAll_eq (body : List Statement) : forgetElseIfAll body = body.map forgetElseIf := by
  induction body with
  | nil => rfl
  | cons statement rest ih => simp [forgetElseIfAll, ih]

theorem forgetElseIf_conditional (p : Position) (condition : Expr) (thenBranch : Statement)
    (elseBranch : Option Statement) : (conditional p condition thenBranch elseBranch).forgetElseIf =
      .conditional p condition thenBranch.forgetElseIf (elseBranch.map fun branch => branch.forgetElseIf.forgetPlace) := by
  cases elseBranch <;> simp [forgetElseIf]

theorem forgetElseIf_switchOn (p : Position) (value : Expr) (sections : List Section)
    (otherwise : Option (List Statement)) : (switchOn p value sections otherwise).forgetElseIf =
      .switchOn p value (Section.forgetElseIfAll sections) (otherwise.map (List.map forgetElseIf)) := by
  cases otherwise <;> simp [forgetElseIf, forgetElseIfAll_eq]

end Statement

section Execution

variable (s : Setting) (invoke : Invoke) (rounds : Nat)

theorem Statement.execute_forgetPlace (statement : Statement) :
    statement.forgetPlace.execute s invoke rounds = statement.execute s invoke rounds := by
  cases statement with
  | conditional p condition thenBranch elseBranch =>
    cases elseBranch with
    | none => rw [Statement.forgetPlace, Statement.execute, Statement.execute]
    | some branch => rw [Statement.forgetPlace, Statement.execute, Statement.execute]
  | _ => rfl

mutual

/-- Execution does not depend on the places of the `if` in a chain. -/
theorem Statement.execute_forgetElseIf : ∀ statement : Statement,
    statement.forgetElseIf.execute s invoke rounds = statement.execute s invoke rounds
  | .expression _ _ => by rw [Statement.forgetElseIf]
  | .declaration _ _ _ _ => by rw [Statement.forgetElseIf]
  | .block _ body => by
    rw [Statement.forgetElseIf, Statement.execute, Statement.execute, Statement.executeAll_forgetElseIf body]
  | .conditional _ condition thenBranch none => by
    rw [Statement.forgetElseIf, Statement.execute, Statement.execute, Statement.execute_forgetElseIf thenBranch]
  | .conditional _ condition thenBranch (some elseBranch) => by
    rw [Statement.forgetElseIf, Statement.execute, Statement.execute, Statement.execute_forgetElseIf thenBranch,
      Statement.execute_forgetPlace, Statement.execute_forgetElseIf elseBranch]
  | .whileLoop _ condition body => by
    rw [Statement.forgetElseIf, Statement.execute, Statement.execute, Statement.execute_forgetElseIf body]
  | .forLoop _ initial condition increments body => by
    rw [Statement.forgetElseIf, Statement.execute, Statement.execute, Statement.executeAll_forgetElseIf initial,
      Statement.execute_forgetElseIf body]
  | .forEachLoop _ name ty collection body => by
    rw [Statement.forgetElseIf, Statement.execute, Statement.execute, Statement.execute_forgetElseIf body]
  | .switchOn _ value sections none => by
    rw [Statement.forgetElseIf, Statement.execute, Statement.execute]
    simp only [Section.executeMatching_forgetElseIf sections]
  | .switchOn _ value sections (some body) => by
    rw [Statement.forgetElseIf, Statement.execute, Statement.execute]
    simp only [Section.executeMatching_forgetElseIf sections, Statement.executeAll_forgetElseIf body]
  | .breakStatement _ => by rw [Statement.forgetElseIf]
  | .continueStatement _ => by rw [Statement.forgetElseIf]
  | .returnStatement _ _ => by rw [Statement.forgetElseIf]

theorem Statement.executeAll_forgetElseIf : ∀ body : List Statement,
    Statement.executeAll s invoke rounds (Statement.forgetElseIfAll body) = Statement.executeAll s invoke rounds body
  | [] => rfl
  | statement :: rest => by
    rw [Statement.forgetElseIfAll, Statement.executeAll, Statement.executeAll, Statement.execute_forgetElseIf statement,
      Statement.executeAll_forgetElseIf rest]

theorem Section.executeMatching_forgetElseIf : ∀ (sections : List Section) (v : Value),
    Section.executeMatching s invoke rounds v (Section.forgetElseIfAll sections) =
      Section.executeMatching s invoke rounds v sections
  | [], _ => rfl
  | ⟨labels, body⟩ :: rest, v => by
    rw [Section.forgetElseIfAll, Section.executeMatching, Section.executeMatching,
      Statement.executeAll_forgetElseIf body, Section.executeMatching_forgetElseIf rest v]

end

/-- Walks along a chain in one loop: if a condition fails, the next round looks at the `if` in the else branch. -/
def Statement.walk (condition : Expr) (thenBranch : Statement) : Option Statement → Run Flow
  | some (.conditional _ next nextBranch elseBranch) => do
    if ← condition.holds s invoke then thenBranch.execute s invoke rounds
    else Statement.walk next nextBranch elseBranch
  | some branch => do
    if ← condition.holds s invoke then thenBranch.execute s invoke rounds else branch.execute s invoke rounds
  | none => do
    if ← condition.holds s invoke then thenBranch.execute s invoke rounds else return .normal

theorem Statement.walk_eq_execute (p : Position) (condition : Expr) (thenBranch : Statement)
    (elseBranch : Option Statement) : Statement.walk s invoke rounds condition thenBranch elseBranch =
      (Statement.conditional p condition thenBranch elseBranch).execute s invoke rounds := by
  fun_induction Statement.walk s invoke rounds condition thenBranch elseBranch generalizing p with
  | case1 condition thenBranch q next nextBranch elseBranch ih => rw [Statement.execute, ih q]
  | case2 condition thenBranch branch hbranch => rw [Statement.execute]
  | case3 condition thenBranch => rw [Statement.execute]

end Execution

end Scriptlet
