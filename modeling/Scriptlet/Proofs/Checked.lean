import Scriptlet.Proofs.Chronicle
import Scriptlet.Proofs.Fits
import Scriptlet.Proofs.Parts

/-!
# Checked programs

What the compiler promises about the programs it gives, stated without the compiler. At every place the types
written into an expression agree with those of its parts and with what is visible there, a declared name is new,
the initial value of a variable and the value of a `return` can be stored where they go, and `break` and
`continue` stand inside of something they can leave.
-/

namespace Scriptlet

/-- What a place in a program is checked against: the host, the functions of the program, the return type of the
function around it, and the loops and switches around it. -/
structure Checking where
  registry : Registry
  signatures : List Signature
  returns : Ty
  breakables : List Breakable

namespace Checking

def classes (k : Checking) : Hierarchy :=
  k.registry.classes

def inside (k : Checking) (b : Breakable) : Checking :=
  { k with breakables := b :: k.breakables }

end Checking

/-- Whether a reference is to a visible variable of the type it names. -/
def VariableRef.Visible (visible : Lexical) (ref : VariableRef) : Prop :=
  ∃ origin, visible.lookup ref.name = some ⟨ref.declared, origin⟩

/-- Whether a collection holds values of a type under keys such as a given one. -/
def Expr.HoldsUnder (classes : Hierarchy) (ty : Ty) (collection key : Expr) : Prop :=
  ∃ keyType, Grammar.indexTypes? collection.ty = some (keyType, ty) ∧ classes.accepts keyType key.ty = true

/-- Whether a place holds values of a type. -/
def Place.Holds (classes : Hierarchy) (visible : Lexical) (ty : Ty) : Place → Prop
  | .variable ref => ref.declared = ty ∧ ref.Visible visible
  | .index collection key => collection.HoldsUnder classes ty key

/-- Whether a member can be used with some arguments: a property has none, and those of a method fit its
parameters. -/
def Member.UsableWith (m : Member) (classes : Hierarchy) (arguments : List Expr) : Prop :=
  (m.kind = .property ∧ arguments = []) ∨ m.takes classes (arguments.map Expr.ty) .loose = true

/-- Whether the types that an expression knows agree with those of its parts. -/
def Expr.Agrees (k : Checking) (visible : Lexical) : Expr → Prop
  | .literal info v => v.IsPlain ∧ v.Fits k.classes info.ty
  | .variable info ref => ref.declared = info.ty ∧ ref.Visible visible
  | .unary info .not _ => info.ty = .bool
  | .unary info .negate operand => info.ty = operand.ty ∧ operand.ty.isNumeric = true
  | .binary info left op right operand =>
    Operation.infixed k.classes op left.ty right.ty = some ⟨info.ty, operand⟩
  | .logical info _ _ _ => info.ty = .bool
  | .ternary info _ thenCase elseCase =>
    k.classes.accepts info.ty thenCase.ty = true ∧ k.classes.accepts info.ty elseCase.ty = true
  | .assign info target _ _ _ => target.Holds k.classes visible info.ty
  | .increment info target _ _ => target.Holds k.classes visible info.ty
  | .cast _ _ => True
  | .call info function _ => ∃ signature, k.signatures[function]? = some signature ∧ info.ty = signature.returns
  | .staticMember info member arguments =>
    member.UsableWith k.classes arguments ∧ ∃ owner, (owner, member) ∈ k.registry.statics ∧
      (info.ty = member.returns ∨ (member.name = "new" ∧ info.ty.text = owner))
  | .instanceMember info member receiver arguments =>
    member.UsableWith k.classes arguments ∧ info.ty = member.returns ∧
      ∃ name, member ∈ k.registry.valueMembers receiver.ty name
  | .index info collection key => collection.HoldsUnder k.classes info.ty key
  | .newSequence info kind element items =>
    info.ty = .sequence kind element ∧ ∀ e ∈ items, k.classes.accepts element e.ty = true
  | .newArray info element _ => info.ty = .sequence .array element
  | .newDictionary info key value entries =>
    info.ty = .dictionary key value ∧
      ∀ e ∈ entries, k.classes.accepts key e.1.ty = true ∧ k.classes.accepts value e.2.ty = true

/-- An expression that is right at a place, with all that is in it. -/
def Expr.Checked (k : Checking) (visible : Lexical) (e : Expr) : Prop :=
  e.All (Expr.Agrees k visible)

namespace Expr.Checked

variable {k : Checking} {visible : Lexical} {e : Expr}

theorem here (h : e.Checked k visible) : e.Agrees k visible :=
  Expr.All.here h

theorem inside (h : e.Checked k visible) : ∀ x ∈ e.children, x.Checked k visible :=
  Expr.All.inside h

end Expr.Checked

/-- An expression whose value can be stored as a type. -/
def Expr.CheckedAs (k : Checking) (visible : Lexical) (ty : Ty) (e : Expr) : Prop :=
  e.Checked k visible ∧ k.classes.accepts ty e.ty = true

/-- Whether control leaves a statement by its end, if at all. -/
def Statement.IsSimple : Statement → Prop
  | .expression _ _ | .declaration _ _ _ _ => True
  | _ => False

/-- Sections whose labels fit the type of the value they are compared with, no two of them equal to scripts. -/
structure Section.Apart (classes : Hierarchy) (ty : Ty) (sections : List Section) : Prop where
  fits : ∀ v ∈ sections.flatMap (·.labels), v.Fits classes ty
  differ : (sections.flatMap (·.labels)).Pairwise fun a b => a.scriptEquals b = false

mutual

/-- A statement that is right at a place. -/
def Statement.Checked (k : Checking) (visible : Lexical) : Statement → Prop
  | .expression _ e => e.Checked k visible
  | .declaration _ name ty initial =>
    visible.lookup name = none ∧ ∀ e ∈ initial, e.CheckedAs k visible ty
  | .block _ body => Statement.AllChecked k visible body
  | .conditional _ condition thenBranch none => condition.Checked k visible ∧ thenBranch.Checked k visible
  | .conditional _ condition thenBranch (some elseBranch) =>
    condition.Checked k visible ∧ thenBranch.Checked k visible ∧ elseBranch.Checked k visible
  | .whileLoop _ condition body => condition.Checked k visible ∧ body.Checked (k.inside .loop) visible
  | .forLoop _ initial condition increments body =>
    (∀ statement ∈ initial, statement.IsSimple) ∧ Statement.AllChecked k visible initial ∧
      (∀ e ∈ condition, e.Checked k (Statement.visibleAfter visible initial)) ∧
      (∀ e ∈ increments, e.Checked k (Statement.visibleAfter visible initial)) ∧
      body.Checked (k.inside .loop) (Statement.visibleAfter visible initial)
  | .forEachLoop p name ty collection body =>
    visible.lookup name = none ∧ collection.Checked k visible ∧
      (∃ element, Grammar.elementType? collection.ty = some element ∧ k.classes.accepts ty element = true) ∧
      body.Checked (k.inside .loop) ((name, ⟨ty, .statement p⟩) :: visible)
  | .switchOn _ value sections none =>
    (value.Checked k visible ∧ Section.Apart k.classes value.ty sections) ∧
      Section.AllChecked (k.inside .switch) visible sections
  | .switchOn _ value sections (some body) =>
    (value.Checked k visible ∧ Section.Apart k.classes value.ty sections) ∧
      Section.AllChecked (k.inside .switch) visible sections ∧ Statement.AllChecked (k.inside .switch) visible body
  | .breakStatement _ => k.breakables ≠ []
  | .continueStatement _ => .loop ∈ k.breakables
  | .returnStatement _ none => k.returns = .void
  | .returnStatement _ (some e) => k.returns ≠ .void ∧ e.CheckedAs k visible k.returns

/-- Statements that are right one behind the other: each sees what those before it declare. -/
def Statement.AllChecked (k : Checking) (visible : Lexical) : List Statement → Prop
  | [] => True
  | statement :: rest =>
    statement.Checked k visible ∧ Statement.AllChecked k (statement.declares ++ visible) rest

/-- Sections of a switch that are right. -/
def Section.AllChecked (k : Checking) (visible : Lexical) : List Section → Prop
  | [] => True
  | ⟨_, body⟩ :: rest => Statement.AllChecked k visible body ∧ Section.AllChecked k visible rest

end

def Declaration.AllChecked (k : Checking) (visible : Lexical) : List Declaration → Prop
  | [] => True
  | d :: rest =>
    visible.lookup d.name = none ∧ (∀ e ∈ d.initial, e.CheckedAs k visible d.ty) ∧
      Declaration.AllChecked k ((d.name, d.toVariable) :: visible) rest

def Program.checking (p : Program) (r : Registry) : Checking :=
  ⟨r, p.functions.map (·.signature), .void, []⟩

/-- A program that is right for a host. -/
structure Program.Checked (r : Registry) (p : Program) : Prop where
  declarations : Declaration.AllChecked (p.checking r) [] p.declarations
  functions : ∀ index f, p.functions[index]? = some f →
    Statement.AllChecked { p.checking r with returns := f.signature.returns }
      (Parameter.visible index 0 f.signature.parameters (Declaration.visibleAfter [] p.declarations)) f.body

/-- An expression that is right at some place, for a host. -/
def Expr.CheckedFor (r : Registry) (e : Expr) : Prop :=
  ∃ k : Checking, k.registry = r ∧ ∃ visible, e.Checked k visible

theorem Expr.CheckedFor.uses {r : Registry} {P : Member → Prop} {e : Expr} (h : e.CheckedFor r)
    (hstatic : ∀ entry ∈ r.statics, P entry.2) (hvalue : ∀ ty name, ∀ m ∈ r.valueMembers ty name, P m) :
    e.All (Expr.Uses P) := by
  obtain ⟨k, rfl, visible, hchecked⟩ := h
  refine Expr.All.mono (fun e he => ?_) hchecked
  cases e with
  | staticMember info member arguments =>
    obtain ⟨-, owner, howner, -⟩ := he
    exact hstatic _ howner
  | instanceMember info member receiver arguments =>
    obtain ⟨-, -, name, hmember⟩ := he
    exact hvalue _ _ _ hmember
  | _ => trivial

mutual

theorem Statement.Checked.exprs : ∀ {statement : Statement} {k : Checking} {visible : Lexical},
    statement.Checked k visible → ∀ e ∈ statement.exprs, e.CheckedFor k.registry
  | .expression _ e, k, visible, h, x, hx => by
    rw [Statement.Checked] at h
    obtain rfl := List.mem_singleton.mp hx
    exact ⟨k, rfl, visible, h⟩
  | .declaration _ _ _ initial, k, visible, h, x, hx => by
    rw [Statement.Checked] at h
    exact ⟨k, rfl, visible, (h.2 x (Option.mem_toList.mp hx)).1⟩
  | .block _ body, k, visible, h, x, hx => by
    rw [Statement.Checked] at h
    exact Statement.AllChecked.exprs h x hx
  | .conditional _ condition thenBranch none, k, visible, h, x, hx => by
    rw [Statement.Checked] at h
    rcases List.mem_cons.mp hx with rfl | hx
    · exact ⟨k, rfl, visible, h.1⟩
    · exact Statement.Checked.exprs h.2 x hx
  | .conditional _ condition thenBranch (some elseBranch), k, visible, h, x, hx => by
    rw [Statement.Checked] at h
    rcases List.mem_cons.mp hx with rfl | hx
    · exact ⟨k, rfl, visible, h.1⟩
    · rcases List.mem_append.mp hx with hx | hx
      · exact Statement.Checked.exprs h.2.1 x hx
      · exact Statement.Checked.exprs h.2.2 x hx
  | .whileLoop _ condition body, k, visible, h, x, hx => by
    rw [Statement.Checked] at h
    rcases List.mem_cons.mp hx with rfl | hx
    · exact ⟨k, rfl, visible, h.1⟩
    · exact Statement.Checked.exprs (k := k.inside .loop) h.2 x hx
  | .forLoop _ initial condition increments body, k, visible, h, x, hx => by
    rw [Statement.Checked] at h
    obtain ⟨-, hinitial, hcondition, hincrements, hbody⟩ := h
    simp only [Statement.exprs, List.mem_append, Option.mem_toList] at hx
    rcases hx with ((hx | hx) | hx) | hx
    · exact Statement.AllChecked.exprs hinitial x hx
    · exact ⟨k, rfl, _, hcondition x hx⟩
    · exact ⟨k, rfl, _, hincrements x hx⟩
    · exact Statement.Checked.exprs (k := k.inside .loop) hbody x hx
  | .forEachLoop _ _ _ collection body, k, visible, h, x, hx => by
    rw [Statement.Checked] at h
    obtain ⟨-, hcollection, -, hbody⟩ := h
    rcases List.mem_cons.mp hx with rfl | hx
    · exact ⟨k, rfl, visible, hcollection⟩
    · exact Statement.Checked.exprs (k := k.inside .loop) hbody x hx
  | .switchOn _ value sections none, k, visible, h, x, hx => by
    rw [Statement.Checked] at h
    rcases List.mem_cons.mp hx with rfl | hx
    · exact ⟨k, rfl, visible, h.1.1⟩
    · exact Section.AllChecked.exprs (k := k.inside .switch) h.2 x hx
  | .switchOn _ value sections (some body), k, visible, h, x, hx => by
    rw [Statement.Checked] at h
    rcases List.mem_cons.mp hx with rfl | hx
    · exact ⟨k, rfl, visible, h.1.1⟩
    · rcases List.mem_append.mp hx with hx | hx
      · exact Section.AllChecked.exprs (k := k.inside .switch) h.2.1 x hx
      · exact Statement.AllChecked.exprs (k := k.inside .switch) h.2.2 x hx
  | .breakStatement _, _, _, _, _, hx => nomatch hx
  | .continueStatement _, _, _, _, _, hx => nomatch hx
  | .returnStatement _ none, _, _, _, _, hx => nomatch hx
  | .returnStatement _ (some e), k, visible, h, x, hx => by
    rw [Statement.Checked] at h
    obtain rfl := List.mem_singleton.mp hx
    exact ⟨k, rfl, visible, h.2.1⟩

theorem Statement.AllChecked.exprs : ∀ {body : List Statement} {k : Checking} {visible : Lexical},
    Statement.AllChecked k visible body → ∀ e ∈ Statement.exprsOfAll body, e.CheckedFor k.registry
  | [], _, _, _, _, hx => nomatch hx
  | statement :: rest, k, visible, h, x, hx => by
    rw [Statement.AllChecked] at h
    rcases List.mem_append.mp hx with hx | hx
    · exact Statement.Checked.exprs h.1 x hx
    · exact Statement.AllChecked.exprs h.2 x hx

theorem Section.AllChecked.exprs : ∀ {sections : List Section} {k : Checking} {visible : Lexical},
    Section.AllChecked k visible sections → ∀ e ∈ Section.exprsOfAll sections, e.CheckedFor k.registry
  | [], _, _, _, _, hx => nomatch hx
  | ⟨_, body⟩ :: rest, k, visible, h, x, hx => by
    rw [Section.AllChecked] at h
    rcases List.mem_append.mp hx with hx | hx
    · exact Statement.AllChecked.exprs h.1 x hx
    · exact Section.AllChecked.exprs h.2 x hx

end

theorem Declaration.AllChecked.exprs {k : Checking} {declarations : List Declaration} {visible : Lexical}
    (h : Declaration.AllChecked k visible declarations) :
    ∀ e ∈ declarations.flatMap (·.initial.toList), e.CheckedFor k.registry := by
  induction declarations generalizing visible with
  | nil => exact fun e he => nomatch he
  | cons d rest ih =>
    obtain ⟨-, hinitial, hrest⟩ := h
    intro e he
    rw [List.flatMap_cons] at he
    rcases List.mem_append.mp he with he | he
    · exact ⟨k, rfl, visible, (hinitial e (Option.mem_toList.mp he)).1⟩
    · exact ih hrest e he

theorem Program.Checked.exprs {r : Registry} {p : Program} (h : p.Checked r) : ∀ e ∈ p.exprs, e.CheckedFor r := by
  intro e he
  rcases List.mem_append.mp he with he | he
  · exact h.declarations.exprs e he
  · obtain ⟨f, hf, he⟩ := List.mem_flatMap.mp he
    obtain ⟨index, hindex⟩ := List.getElem?_of_mem hf
    exact (h.functions index f hindex).exprs e he

end Scriptlet
