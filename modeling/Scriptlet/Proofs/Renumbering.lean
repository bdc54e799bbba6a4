import Scriptlet.Script

/-!
# Renumbered programs

Calls name functions by their index, so a program whose functions stand in another order has other indices in its
calls, and nothing else about it is different. A choice between overloads does not depend on the order of the
candidates, if no two of them take the same types.
-/

namespace Scriptlet

variable (ρ : Nat → Nat)

mutual

/-- The expression in which every call has the new index of its function. -/
def Expr.renumber : Expr → Expr
  | .literal info v => .literal info v
  | .variable info ref => .variable info ref
  | .unary info op operand => .unary info op operand.renumber
  | .binary info left op right operandType => .binary info left.renumber op right.renumber operandType
  | .logical info left op right => .logical info left.renumber op right.renumber
  | .ternary info condition thenCase elseCase =>
    .ternary info condition.renumber thenCase.renumber elseCase.renumber
  | .assign info target op value operandType => .assign info target.renumber op value.renumber operandType
  | .increment info target decrement prefixed => .increment info target.renumber decrement prefixed
  | .cast info operand => .cast info operand.renumber
  | .call info function arguments => .call info (ρ function) (Expr.renumberAll arguments)
  | .staticMember info member arguments => .staticMember info member (Expr.renumberAll arguments)
  | .instanceMember info member receiver arguments =>
    .instanceMember info member receiver.renumber (Expr.renumberAll arguments)
  | .index info collection key => .index info collection.renumber key.renumber
  | .newSequence info kind element items => .newSequence info kind element (Expr.renumberAll items)
  | .newArray info element length => .newArray info element length.renumber
  | .newDictionary info key value entries => .newDictionary info key value (Expr.renumberEntries entries)

def Expr.renumberAll : List Expr → List Expr
  | [] => []
  | e :: rest => e.renumber :: Expr.renumberAll rest

def Expr.renumberEntries : List (Expr × Expr) → List (Expr × Expr)
  | [] => []
  | (key, value) :: rest => (key.renumber, value.renumber) :: Expr.renumberEntries rest

def Place.renumber : Place → Place
  | .variable ref => .variable ref
  | .index collection key => .index collection.renumber key.renumber

end

mutual

def Statement.renumber : Statement → Statement
  | .expression p e => .expression p (e.renumber ρ)
  | .declaration p name ty initial => .declaration p name ty (initial.map (·.renumber ρ))
  | .block p body => .block p (Statement.renumberAll body)
  | .conditional p condition thenBranch none => .conditional p (condition.renumber ρ) thenBranch.renumber none
  | .conditional p condition thenBranch (some elseBranch) =>
    .conditional p (condition.renumber ρ) thenBranch.renumber (some elseBranch.renumber)
  | .whileLoop p condition body => .whileLoop p (condition.renumber ρ) body.renumber
  | .forLoop p initial condition increments body =>
    .forLoop p (Statement.renumberAll initial) (condition.map (·.renumber ρ)) (increments.map (·.renumber ρ))
      body.renumber
  | .forEachLoop p name ty collection body => .forEachLoop p name ty (collection.renumber ρ) body.renumber
  | .switchOn p value sections none => .switchOn p (value.renumber ρ) (Section.renumberAll sections) none
  | .switchOn p value sections (some body) =>
    .switchOn p (value.renumber ρ) (Section.renumberAll sections) (some (Statement.renumberAll body))
  | .breakStatement p => .breakStatement p
  | .continueStatement p => .continueStatement p
  | .returnStatement p value => .returnStatement p (value.map (·.renumber ρ))

def Statement.renumberAll : List Statement → List Statement
  | [] => []
  | statement :: rest => statement.renumber :: Statement.renumberAll rest

def Section.renumberAll : List Section → List Section
  | [] => []
  | ⟨labels, body⟩ :: rest => ⟨labels, Statement.renumberAll body⟩ :: Section.renumberAll rest

end

def Declaration.renumber (d : Declaration) : Declaration :=
  { d with initial := d.initial.map (·.renumber ρ) }

def Function.renumber (f : Function) : Function :=
  { f with body := Statement.renumberAll ρ f.body }

section Expressions

@[simp] theorem Expr.info_renumber (e : Expr) : (e.renumber ρ).info = e.info := by
  cases e <;> rfl

@[simp] theorem Expr.ty_renumber (e : Expr) : (e.renumber ρ).ty = e.ty :=
  congrArg ExprInfo.ty (e.info_renumber ρ)

@[simp] theorem Expr.position_renumber (e : Expr) : (e.renumber ρ).position = e.position :=
  congrArg ExprInfo.position (e.info_renumber ρ)

@[simp] theorem Expr.height_renumber (e : Expr) : (e.renumber ρ).height = e.height :=
  congrArg ExprInfo.height (e.info_renumber ρ)

@[simp] theorem Expr.literal?_renumber (e : Expr) : (e.renumber ρ).literal? = e.literal? := by
  cases e <;> rfl

@[simp] theorem Expr.isExecutable_renumber (e : Expr) : (e.renumber ρ).isExecutable = e.isExecutable := by
  cases e <;> rfl

theorem Expr.renumberAll_eq (es : List Expr) : Expr.renumberAll ρ es = es.map (Expr.renumber ρ) := by
  induction es with
  | nil => rfl
  | cons e rest ih => simp [Expr.renumberAll, ih]

theorem Expr.renumberEntries_eq (entries : List (Expr × Expr)) :
    Expr.renumberEntries ρ entries = entries.map fun entry => (entry.1.renumber ρ, entry.2.renumber ρ) := by
  induction entries with
  | nil => rfl
  | cons entry rest ih => simp [Expr.renumberEntries, ih]

/-- Renumbering does not change heights, so neither what an expression over renumbered parts knows about itself. -/
@[simp] theorem ExprInfo.over_renumber (ty : Ty) (p : Position) (parts : List Expr) :
    ExprInfo.over ty p (parts.map (Expr.renumber ρ)) = ExprInfo.over ty p parts := by
  simp [ExprInfo.over, Function.comp_def]

@[simp] theorem Place.children_renumber (place : Place) :
    (place.renumber ρ).children = place.children.map (Expr.renumber ρ) := by
  cases place <;> rfl

end Expressions

section Statements

theorem Statement.renumberAll_eq (body : List Statement) :
    Statement.renumberAll ρ body = body.map (Statement.renumber ρ) := by
  induction body with
  | nil => rfl
  | cons statement rest ih => simp [Statement.renumberAll, ih]

theorem Statement.renumber_conditional (p : Position) (condition : Expr) (thenBranch : Statement)
    (elseBranch : Option Statement) :
    (Statement.conditional p condition thenBranch elseBranch).renumber ρ =
      .conditional p (condition.renumber ρ) (thenBranch.renumber ρ) (elseBranch.map (·.renumber ρ)) := by
  cases elseBranch <;> simp [Statement.renumber]

theorem Statement.renumber_switchOn (p : Position) (value : Expr) (sections : List Section)
    (otherwise : Option (List Statement)) :
    (Statement.switchOn p value sections otherwise).renumber ρ =
      .switchOn p (value.renumber ρ) (Section.renumberAll ρ sections) (otherwise.map (Statement.renumberAll ρ)) := by
  cases otherwise <;> simp [Statement.renumber]

end Statements

theorem exists_cons_cons_of_length {α : Type} {l : List α} (h : 2 ≤ l.length) :
    ∃ first second rest, l = first :: second :: rest := by
  rcases l with _ | ⟨first, _ | ⟨second, rest⟩⟩
  · simp at h
  · simp at h
  · exact ⟨first, second, rest, rfl⟩

/-- A choice between overloads does not depend on their order, if at most one takes the arguments exactly. -/
theorem selectOverload_perm {α β : Type} {takes : Fit → α → Bool} {takes' : Fit → β → Bool} {candidates : List α}
    {candidates' : List β} (g : α → β) (hperm : candidates'.Perm (candidates.map g))
    (htakes : ∀ fit a, takes' fit (g a) = takes fit a)
    (hunique : ∀ a ∈ candidates, ∀ b ∈ candidates, takes .exact a = true → takes .exact b = true → a = b)
    (arguments : List Ty) :
    selectOverload takes' candidates' arguments = (selectOverload takes candidates arguments).map g := by
  unfold selectOverload
  cases hexact : candidates.find? (takes .exact) with
  | some a =>
    have hmem := List.mem_of_find?_eq_some hexact
    have ha := List.find?_some hexact
    have hfound : candidates'.find? (takes' .exact) = some (g a) := by
      cases hfind : candidates'.find? (takes' .exact) with
      | none =>
        have hnone := List.find?_eq_none.mp hfind (g a) (hperm.mem_iff.mpr (List.mem_map_of_mem hmem))
        exact absurd ((htakes .exact a).trans ha) hnone
      | some b =>
        obtain ⟨a', ha', rfl⟩ := List.mem_map.mp (hperm.mem_iff.mp (List.mem_of_find?_eq_some hfind))
        have htaken := List.find?_some hfind
        rw [htakes] at htaken
        rw [hunique a' ha' a hmem htaken ha]
    simp [hfound, Except.map]
  | none =>
    have hnone : candidates'.find? (takes' .exact) = none := by
      refine List.find?_eq_none.mpr fun b hb => ?_
      obtain ⟨a, ha, rfl⟩ := List.mem_map.mp (hperm.mem_iff.mp hb)
      rw [htakes]
      exact List.find?_eq_none.mp hexact a ha
    have hloose : (candidates'.filter (takes' .loose)).Perm ((candidates.filter (takes .loose)).map g) := by
      have hfilter := hperm.filter (takes' .loose)
      rwa [List.filter_map, show takes' .loose ∘ g = takes .loose from funext (htakes .loose)] at hfilter
    rw [hnone]
    dsimp only
    generalize candidates.filter (takes .loose) = loose, candidates'.filter (takes' .loose) = loose' at hloose
    cases loose with
    | nil =>
      obtain rfl := List.perm_nil.mp hloose
      rfl
    | cons first rest =>
      cases rest with
      | nil =>
        obtain rfl := List.perm_singleton.mp hloose
        rfl
      | cons second rest =>
        obtain ⟨first', second', rest', rfl⟩ := exists_cons_cons_of_length (by simp [hloose.length_eq] : 2 ≤ loose'.length)
        simpa [Except.map] using hloose.length_eq

end Scriptlet
