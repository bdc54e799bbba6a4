import Scriptlet.Proofs.Checked

/-!
# The height of compiled expressions and the nesting of statements

Every expression that the grammar makes stores a height, worked out from the stored heights of its parts. So the
stored height is the number of expressions on the longest way down to a leaf. The rules that make an expression higher
in a loop refuse it once it is too high, and so does the rule by which every other rule is entered: what it gives is
never too high, nor is anything inside of it. How deep statements nest is counted here too, with how the nesting of a
statement comes from that of its parts.
-/

namespace Scriptlet

namespace Expr

/-- There is a way down to a leaf on which so many expressions stand, the first one among them. -/
inductive Descends : Expr → Nat → Prop
  | leaf {e : Expr} (h : e.children = []) : Descends e 1
  | step {e x : Expr} {n : Nat} (hx : x ∈ e.children) (h : Descends x n) : Descends e (n + 1)

/-- The stored height is the length of the longest way down to a leaf, and is not too great. -/
structure Measured (e : Expr) : Prop where
  reached : e.Descends e.height
  longest : ∀ n, e.Descends n → n ≤ e.height
  bounded : e.height ≤ Grammar.maxHeight

/-- The stored height is worked out from those of the parts. -/
def CountsParts (e : Expr) : Prop :=
  e.height = 1 + (e.children.map height).foldl max 0

/-- The stored heights are worked out from one another all the way down. -/
abbrev Counted (e : Expr) : Prop :=
  e.All CountsParts

theorem foldl_height (es : List Expr) : (es.map height).foldl max 0 = (es.map height).max?.getD 0 := by
  rw [List.foldl_max, Nat.zero_max]

variable {e : Expr}

theorem CountsParts.height_lt {x : Expr} (h : e.CountsParts) (hx : x ∈ e.children) : x.height < e.height := by
  have hmem : x.height ∈ e.children.map height := List.mem_map_of_mem hx
  rw [CountsParts, foldl_height] at h
  cases hmax : (e.children.map height).max? with
  | none =>
    rw [List.max?_eq_none_iff.mp hmax] at hmem
    cases hmem
  | some greatest =>
    have hle := (List.max?_eq_some_iff.mp hmax).2 x.height hmem
    rw [hmax, Option.getD_some] at h
    omega

theorem CountsParts.exists_part (h : e.CountsParts) (hparts : e.children ≠ []) :
    ∃ x ∈ e.children, e.height = x.height + 1 := by
  rw [CountsParts, foldl_height] at h
  cases hmax : (e.children.map height).max? with
  | none => exact absurd (List.map_eq_nil_iff.mp (List.max?_eq_none_iff.mp hmax)) hparts
  | some greatest =>
    obtain ⟨x, hx, rfl⟩ := List.mem_map.mp (List.max?_eq_some_iff.mp hmax).1
    refine ⟨x, hx, ?_⟩
    rw [hmax, Option.getD_some] at h
    omega

theorem CountsParts.height_of_leaf (h : e.CountsParts) (hparts : e.children = []) : e.height = 1 := by
  rw [CountsParts, hparts] at h
  exact h

theorem Counted.descends (h : e.Counted) : e.Descends e.height := by
  induction h with
  | @intro e here _ ih =>
    by_cases hparts : e.children = []
    · rw [here.height_of_leaf hparts]
      exact .leaf hparts
    · obtain ⟨x, hx, hheight⟩ := here.exists_part hparts
      rw [hheight]
      exact .step hx (ih x hx)

theorem Counted.le_height (h : e.Counted) {n : Nat} (hn : e.Descends n) : n ≤ e.height := by
  induction hn with
  | leaf hparts => exact Nat.le_of_eq (h.here.height_of_leaf hparts).symm
  | step hx _ ih =>
    have hlt := h.here.height_lt hx
    have hle := ih (h.inside _ hx)
    omega

/-- Heights that are worked out from one another and not too great at the top. -/
structure Bounded (e : Expr) : Prop where
  counted : e.Counted
  height : e.height ≤ Grammar.maxHeight

theorem Bounded.measured (h : e.Bounded) : e.All Measured := by
  obtain ⟨hcounted, hheight⟩ := h
  induction hcounted with
  | @intro e here inside ih =>
    have hcounted : e.Counted := .intro here inside
    refine .intro ⟨hcounted.descends, fun n hn => hcounted.le_height hn, hheight⟩ fun x hx => ih x hx ?_
    have hlt := here.height_lt hx
    omega

end Expr

/-- Whether a statement is a conditional one; behind `else` it is a link of a chain. -/
def Statement.isConditional : Statement → Bool
  | .conditional .. => true
  | _ => false

mutual

/-- How deep statements nest in a statement, itself included and the links of a chain taken for one. -/
def Statement.nesting : Statement → Nat
  | .block _ body => 1 + Statement.nestingOfAll body
  | .conditional _ _ thenBranch none => 1 + thenBranch.nesting
  | .conditional _ _ thenBranch (some elseBranch) =>
    max (1 + thenBranch.nesting) (elseBranch.nesting + if elseBranch.isConditional then 0 else 1)
  | .whileLoop _ _ body => 1 + body.nesting
  | .forLoop _ initial _ _ body => 1 + max (Statement.nestingOfAll initial) body.nesting
  | .forEachLoop _ _ _ _ body => 1 + body.nesting
  | .switchOn _ _ sections none => 1 + Section.nestingOfAll sections
  | .switchOn _ _ sections (some body) => 1 + max (Section.nestingOfAll sections) (Statement.nestingOfAll body)
  | .expression .. | .declaration .. | .breakStatement _ | .continueStatement _ | .returnStatement .. => 1

def Statement.nestingOfAll : List Statement → Nat
  | [] => 0
  | statement :: rest => max statement.nesting (Statement.nestingOfAll rest)

def Section.nestingOfAll : List Section → Nat
  | [] => 0
  | ⟨_, body⟩ :: rest => max (Statement.nestingOfAll body) (Section.nestingOfAll rest)

end

namespace Statement

theorem nesting_pos (s : Statement) : 0 < s.nesting := by
  unfold nesting
  split <;> omega

/-- A statement that nests so deep at most, and whose expressions are not too high. -/
structure Shallow (d : Nat) (s : Statement) : Prop where
  nesting : s.nesting ≤ d
  exprs : ∀ e ∈ s.exprs, e.Bounded

structure AllShallow (d : Nat) (body : List Statement) : Prop where
  nesting : nestingOfAll body ≤ d
  exprs : ∀ e ∈ exprsOfAll body, e.Bounded

variable {d : Nat}

theorem Shallow.mono {d' : Nat} {s : Statement} (h : s.Shallow d) (hd : d ≤ d') : s.Shallow d' :=
  ⟨Nat.le_trans h.nesting hd, h.exprs⟩

theorem AllShallow.mono {d' : Nat} {body : List Statement} (h : AllShallow d body) (hd : d ≤ d') :
    AllShallow d' body :=
  ⟨Nat.le_trans h.nesting hd, h.exprs⟩

theorem AllShallow.nil (d : Nat) : AllShallow d [] :=
  ⟨Nat.zero_le d, by simp [exprsOfAll]⟩

theorem AllShallow.cons {s : Statement} {rest : List Statement} (hs : s.Shallow d)
    (hrest : AllShallow d rest) : AllShallow d (s :: rest) := by
  constructor
  · simp only [nestingOfAll]
    exact Nat.max_le.mpr ⟨hs.nesting, hrest.nesting⟩
  · simp only [exprsOfAll, List.forall_mem_append]
    exact ⟨hs.exprs, hrest.exprs⟩

structure SectionsShallow (d : Nat) (sections : List Section) : Prop where
  nesting : Section.nestingOfAll sections ≤ d
  exprs : ∀ e ∈ Section.exprsOfAll sections, e.Bounded

theorem SectionsShallow.nil (d : Nat) : SectionsShallow d [] :=
  ⟨Nat.zero_le d, by simp [Section.exprsOfAll]⟩

theorem SectionsShallow.cons {labels : List Value} {body : List Statement} {rest : List Section}
    (hbody : AllShallow d body) (hrest : SectionsShallow d rest) : SectionsShallow d (⟨labels, body⟩ :: rest) := by
  constructor
  · simp only [Section.nestingOfAll]
    exact Nat.max_le.mpr ⟨hbody.nesting, hrest.nesting⟩
  · simp only [Section.exprsOfAll, List.forall_mem_append]
    exact ⟨hbody.exprs, hrest.exprs⟩

/-- What may stand behind `else`: a statement that nests so deep at most, or a link that may nest one deeper. -/
def Follows (d : Nat) (s : Statement) : Prop :=
  s.Shallow d ∨ s.isConditional = true ∧ s.Shallow (d + 1)

namespace Shallow

variable {d : Nat} {p : Position}

theorem expression {e : Expr} (he : e.Bounded) : Shallow (d + 1) (.expression p e) :=
  ⟨by simp [Statement.nesting], by simpa [Statement.exprs] using he⟩

theorem declaration {name : String} {ty : Ty} {initial : Option Expr} (h : ∀ e ∈ initial, e.Bounded) :
    Shallow (d + 1) (.declaration p name ty initial) :=
  ⟨by simp [Statement.nesting], by simpa [Statement.exprs] using h⟩

theorem returnStatement {value : Option Expr} (h : ∀ e ∈ value, e.Bounded) :
    Shallow (d + 1) (.returnStatement p value) :=
  ⟨by simp [Statement.nesting], by simpa [Statement.exprs] using h⟩

theorem breakStatement : Shallow (d + 1) (.breakStatement p) :=
  ⟨by simp [Statement.nesting], by simp [Statement.exprs]⟩

theorem continueStatement : Shallow (d + 1) (.continueStatement p) :=
  ⟨by simp [Statement.nesting], by simp [Statement.exprs]⟩

theorem block {body : List Statement} (h : AllShallow d body) : Shallow (d + 1) (.block p body) := by
  have hnesting := h.nesting
  refine ⟨?_, ?_⟩
  · simp only [Statement.nesting]
    omega
  · simpa only [Statement.exprs] using h.exprs

theorem conditional {condition : Expr} {thenBranch : Statement} {elseBranch : Option Statement}
    (hc : condition.Bounded) (ht : thenBranch.Shallow d) (he : ∀ s ∈ elseBranch, s.Follows d) :
    Shallow (d + 1) (.conditional p condition thenBranch elseBranch) := by
  have hthen := ht.nesting
  cases elseBranch with
  | none =>
    constructor
    · simp only [Statement.nesting]
      omega
    · simp only [Statement.exprs, List.forall_mem_cons]
      exact ⟨hc, ht.exprs⟩
  | some branch =>
    have hbranch : (∀ e ∈ branch.exprs, e.Bounded) ∧ branch.nesting + (if branch.isConditional then 0 else 1) ≤ d + 1 := by
      rcases he branch rfl with hother | ⟨hlink, hother⟩
      · have hnesting := hother.nesting
        refine ⟨hother.exprs, ?_⟩
        split <;> omega
      · have hnesting := hother.nesting
        refine ⟨hother.exprs, ?_⟩
        rw [if_pos hlink]
        omega
    constructor
    · simp only [Statement.nesting]
      exact Nat.max_le.mpr ⟨by omega, hbranch.2⟩
    · simp only [Statement.exprs, List.forall_mem_cons, List.forall_mem_append]
      exact ⟨hc, ht.exprs, hbranch.1⟩

variable {body : Statement}

theorem whileLoop {condition : Expr} (hc : condition.Bounded) (hb : body.Shallow d) :
    Shallow (d + 1) (.whileLoop p condition body) := by
  have hnesting := hb.nesting
  constructor
  · simp only [Statement.nesting]
    omega
  · simp only [Statement.exprs, List.forall_mem_cons]
    exact ⟨hc, hb.exprs⟩

/-- What a `for` does first does not nest, so it is no deeper than the body. -/
theorem forLoop {initial : List Statement} {condition : Option Expr} {increments : List Expr}
    (hi : AllShallow 1 initial) (hc : ∀ e ∈ condition, e.Bounded) (hn : ∀ e ∈ increments, e.Bounded)
    (hb : body.Shallow d) : Shallow (d + 1) (.forLoop p initial condition increments body) := by
  have hinitial := hi.nesting
  have hbody := hb.nesting
  have hpos := body.nesting_pos
  constructor
  · simp only [Statement.nesting]
    omega
  · simp only [Statement.exprs, List.forall_mem_append]
    exact ⟨⟨⟨hi.exprs, by simpa using hc⟩, hn⟩, hb.exprs⟩

theorem forEachLoop {name : String} {ty : Ty} {collection : Expr} (hc : collection.Bounded)
    (hb : body.Shallow d) : Shallow (d + 1) (.forEachLoop p name ty collection body) := by
  have hnesting := hb.nesting
  constructor
  · simp only [Statement.nesting]
    omega
  · simp only [Statement.exprs, List.forall_mem_cons]
    exact ⟨hc, hb.exprs⟩

theorem switchOn {value : Expr} {sections : List Section} {otherwise : Option (List Statement)} (hv : value.Bounded)
    (hs : SectionsShallow d sections) (ho : ∀ body ∈ otherwise, AllShallow d body) :
    Shallow (d + 1) (.switchOn p value sections otherwise) := by
  have hsections := hs.nesting
  cases otherwise with
  | none =>
    constructor
    · simp only [Statement.nesting]
      omega
    · simp only [Statement.exprs, List.forall_mem_cons]
      exact ⟨hv, hs.exprs⟩
  | some body =>
    have hbody := ho body rfl
    have hnesting := hbody.nesting
    constructor
    · simp only [Statement.nesting]
      omega
    · simp only [Statement.exprs, List.forall_mem_cons, List.forall_mem_append]
      exact ⟨hv, hs.exprs, hbody.exprs⟩

end Shallow

end Statement

end Scriptlet
