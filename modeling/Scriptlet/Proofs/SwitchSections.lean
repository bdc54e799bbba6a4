import Scriptlet.Proofs.Compiled.Programs

/-!
# The order of the sections of a switch

The labels of a compiled switch are widened to the type of its value and refused if they repeat one another. Values
of `bool`, `int`, `long` and `string` are equal to scripts only if they are the same, so such a value leads to one
section at most, and it leads to the same one in whatever order the sections stand.
-/

namespace Scriptlet

/-- The statements that stand directly in a statement. -/
def Statement.children : Statement → List Statement
  | .block _ body => body
  | .conditional _ _ thenBranch elseBranch => thenBranch :: elseBranch.toList
  | .whileLoop _ _ body | .forEachLoop _ _ _ _ body => [body]
  | .forLoop _ initial _ _ body => initial ++ [body]
  | .switchOn _ _ sections otherwise => sections.flatMap (·.body) ++ otherwise.getD []
  | _ => []

/-- A statement that stands in a body, at whatever depth. -/
inductive Statement.Within (body : List Statement) : Statement → Prop
  | here {statement : Statement} (h : statement ∈ body) : Within body statement
  | inside {outer statement : Statement} (h : Within body outer) (hchild : statement ∈ outer.children) :
    Within body statement

def Statement.CheckedFor (r : Registry) (statement : Statement) : Prop :=
  ∃ k : Checking, k.registry = r ∧ ∃ visible, statement.Checked k visible

theorem Statement.AllChecked.mem {k : Checking} {body : List Statement} {statement : Statement}
    (hmem : statement ∈ body) : ∀ {visible : Lexical}, AllChecked k visible body → statement.CheckedFor k.registry := by
  induction body with
  | nil => cases hmem
  | cons first rest ih =>
    intro visible h
    rw [AllChecked] at h
    rcases List.mem_cons.mp hmem with rfl | hmem
    · exact ⟨k, rfl, visible, h.1⟩
    · exact ih hmem h.2

theorem Section.AllChecked.mem {k : Checking} {visible : Lexical} {sections : List Section} {statement : Statement}
    (hmem : statement ∈ sections.flatMap (·.body)) (h : AllChecked k visible sections) :
    statement.CheckedFor k.registry := by
  induction sections with
  | nil => cases hmem
  | cons c rest ih =>
    obtain ⟨labels, body⟩ := c
    rw [AllChecked] at h
    rcases List.mem_append.mp (List.flatMap_cons ▸ hmem) with hmem | hmem
    · exact h.1.mem hmem
    · exact ih hmem h.2

theorem Statement.CheckedFor.child {r : Registry} {outer statement : Statement} (h : outer.CheckedFor r)
    (hmem : statement ∈ outer.children) : statement.CheckedFor r := by
  obtain ⟨k, rfl, visible, h⟩ := h
  cases outer with
  | block position body => exact AllChecked.mem hmem h
  | conditional position condition thenBranch elseBranch =>
    cases elseBranch with
    | none =>
      obtain rfl := List.mem_singleton.mp hmem
      exact ⟨k, rfl, visible, h.2⟩
    | some elseBranch =>
      rcases List.mem_cons.mp hmem with rfl | hmem
      · exact ⟨k, rfl, visible, h.2.1⟩
      · obtain rfl := List.mem_singleton.mp hmem
        exact ⟨k, rfl, visible, h.2.2⟩
  | whileLoop position condition body =>
    obtain rfl := List.mem_singleton.mp hmem
    exact ⟨k.inside .loop, rfl, visible, h.2⟩
  | forLoop position initial condition increments body =>
    obtain ⟨-, hinitial, -, -, hbody⟩ := h
    rcases List.mem_append.mp hmem with hmem | hmem
    · exact hinitial.mem hmem
    · obtain rfl := List.mem_singleton.mp hmem
      exact ⟨k.inside .loop, rfl, _, hbody⟩
  | forEachLoop position name ty collection body =>
    obtain rfl := List.mem_singleton.mp hmem
    exact ⟨k.inside .loop, rfl, _, h.2.2.2⟩
  | switchOn position value sections otherwise =>
    cases otherwise with
    | none => exact Section.AllChecked.mem (k := k.inside .switch) (by simpa [children] using hmem) h.2
    | some body =>
      rcases List.mem_append.mp hmem with hmem | hmem
      · exact Section.AllChecked.mem (k := k.inside .switch) hmem h.2.1
      · exact AllChecked.mem (k := k.inside .switch) hmem h.2.2
  | _ => cases hmem

/-- The labels of a switch in a compiled script fit its value and differ from one another. -/
theorem Script.apart_of_compile {r : Registry} {source : String} {script : Script}
    (h : Script.compile r source = .ok script) {f : Function} (hf : f ∈ script.program.functions) {p : Position}
    {value : Expr} {sections : List Section} {otherwise : Option (List Statement)}
    (hs : Statement.Within f.body (.switchOn p value sections otherwise)) :
    Section.Apart r.classes value.ty sections := by
  have hright : ∀ statement, Statement.Within f.body statement → statement.CheckedFor r := by
    intro statement hwithin
    induction hwithin with
    | here hmem =>
      obtain ⟨index, hindex⟩ := List.getElem?_of_mem hf
      exact ((Script.checked_of_compile h).2.functions index f hindex).mem hmem
    | inside _ hchild ih => exact ih.child hchild
  obtain ⟨k, rfl, visible, hchecked⟩ := hright _ hs
  cases otherwise with
  | none => exact hchecked.1.2
  | some body => exact hchecked.1.2

/-- A value of a type; `null` is one of the strings. -/
def Value.BelongsTo (ty : Ty) (v : Value) : Prop :=
  v.runtimeType = ty ∨ ty = .string ∧ v = .null

/-- The types whose values are equal to scripts only if they are the same. -/
def Ty.discrete : List Ty :=
  [.bool, .int, .long, .string]

section Values

variable {ty : Ty} {v w : Value}

theorem Value.Fits.belongsTo {classes : Hierarchy} (hty : ty ∈ Ty.discrete) (h : v.Fits classes ty) :
    v.BelongsTo ty := by
  simp only [Ty.discrete, List.mem_cons, List.not_mem_nil, or_false] at hty
  rcases h with ⟨haccepts, hcoerce⟩ | ⟨rfl, -⟩
  · rcases Hierarchy.accepts_iff.mp haccepts with heq | ⟨hnull, href⟩ | ⟨rfl, -⟩ | hsub | hwidens
    · exact .inl heq.symm
    · rcases hty with rfl | rfl | rfl | rfl
      iterate 3 cases href
      cases v <;> first | exact .inr ⟨rfl, rfl⟩ | cases hnull
    · simp at hty
    · obtain ⟨_, _, _, rfl, -⟩ := Hierarchy.isSubtype_iff.mp hsub
      simp at hty
    · exact .inl (Fits.runtimeType_eq (Ty.isNumeric_of_widens hwidens).2 (.inl ⟨haccepts, hcoerce⟩))
  · simp at hty

theorem Value.scriptEquals_iff (hty : ty ∈ Ty.discrete) (hv : v.BelongsTo ty) (hw : w.BelongsTo ty) :
    v.scriptEquals w = true ↔ v = w := by
  simp only [Ty.discrete, List.mem_cons, List.not_mem_nil, or_false] at hty
  rcases hty with rfl | rfl | rfl | rfl <;> cases v <;> simp [BelongsTo, runtimeType] at hv <;>
    cases w <;> simp [BelongsTo, runtimeType] at hw <;> simp [scriptEquals, numericEquals, toDouble?]

end Values

/-- Whether a section has a label that is equal to a value. -/
def Section.leads (v : Value) (c : Section) : Bool :=
  c.labels.any (·.scriptEquals v)

/-- Executes the section that was chosen, if there is one. -/
def Section.executeChosen (s : Setting) (invoke : Invoke) (rounds : Nat) : Option Section → Run (Option Flow)
  | none => return none
  | some c => do return some (← Run.inScope (Statement.executeAll s invoke rounds c.body))

theorem Section.executeMatching_eq (s : Setting) (invoke : Invoke) (rounds : Nat) (v : Value)
    (sections : List Section) :
    executeMatching s invoke rounds v sections = executeChosen s invoke rounds (sections.find? (·.leads v)) := by
  induction sections with
  | nil => rfl
  | cons c rest ih =>
    obtain ⟨labels, body⟩ := c
    rw [executeMatching, List.find?_cons, ih, leads]
    cases labels.any (·.scriptEquals v) <;> rfl

theorem find?_eq_of_perm {α : Type} {p : α → Bool} {l l' : List α} (h : l'.Perm l)
    (hone : (l.filter p).length ≤ 1) : l'.find? p = l.find? p := by
  have hfilter : l'.filter p = l.filter p := by
    have hperm := h.filter p
    cases hfound : l.filter p with
    | nil => exact List.perm_nil.mp (hfound ▸ hperm)
    | cons a rest =>
      obtain rfl : rest = [] := by
        rw [hfound, List.length_cons] at hone
        exact List.length_eq_zero_iff.mp (by omega)
      exact List.perm_singleton.mp (hfound ▸ hperm)
  rw [← List.head?_filter, ← List.head?_filter, hfilter]

namespace Section.Apart

variable {classes : Hierarchy} {ty : Ty} {sections : List Section} (h : Section.Apart classes ty sections)
include h

theorem differ_both (hty : ty ∈ Ty.discrete) : (sections.flatMap (·.labels)).Pairwise
    fun a b => a.scriptEquals b = false ∧ b.scriptEquals a = false := by
  refine h.differ.imp_of_mem fun {a b} ha hb hdiffer => ⟨hdiffer, ?_⟩
  have ha := (h.fits a ha).belongsTo hty
  have hb := (h.fits b hb).belongsTo hty
  rw [← Bool.not_eq_true, Value.scriptEquals_iff hty hb ha]
  rintro rfl
  rw [(Value.scriptEquals_iff hty ha ha).mpr rfl] at hdiffer
  cases hdiffer

theorem leads_one (hty : ty ∈ Ty.discrete) {v : Value} (hv : v.BelongsTo ty) :
    (sections.filter (·.leads v)).length ≤ 1 := by
  have hlabel : ∀ c ∈ sections, c.leads v = true → v ∈ c.labels := by
    intro c hc hleads
    obtain ⟨label, hlabel, heq⟩ := List.any_eq_true.mp hleads
    have hfits := h.fits label (List.mem_flatMap.mpr ⟨c, hc, hlabel⟩)
    exact (Value.scriptEquals_iff hty (hfits.belongsTo hty) hv).mp heq ▸ hlabel
  have happart : (sections.filter (·.leads v)).Pairwise fun c d => v ∈ c.labels → v ∉ d.labels := by
    refine ((List.pairwise_flatMap.mp h.differ).2.imp fun {c d} hdiffer hc hd => ?_).filter _
    have hself := hdiffer v hc v hd
    rw [(Value.scriptEquals_iff hty hv hv).mpr rfl] at hself
    cases hself
  have hall : ∀ c ∈ sections.filter (·.leads v), v ∈ c.labels := by
    intro c hc
    obtain ⟨hmem, hleads⟩ := List.mem_filter.mp hc
    exact hlabel c hmem hleads
  cases hfound : sections.filter (·.leads v) with
  | nil => simp
  | cons c rest =>
    cases rest with
    | nil => simp
    | cons d rest =>
      rw [hfound] at happart hall
      exact absurd (hall d (by simp)) ((List.pairwise_cons.mp happart).1 d (by simp) (hall c (by simp)))

end Section.Apart

/-- In a compiled script no two labels of a switch over `bool`, `int`, `long` or `string` are equal, in either
direction. A value of that type therefore leads to one section at most. Whatever the order of the sections, it is the
one that is executed, and the switch ends in the same way and in the same state, with the same fault if its value
or what it executes has one. -/
theorem switch_sections_unordered {r : Registry} {source : String} {script : Script}
    (h : Script.compile r source = .ok script) {f : Function} (hf : f ∈ script.program.functions) {p : Position}
    {value : Expr} {sections : List Section} {otherwise : Option (List Statement)}
    (hs : Statement.Within f.body (.switchOn p value sections otherwise)) (hty : value.ty ∈ Ty.discrete) :
    ((sections.flatMap (·.labels)).Pairwise fun a b => a.scriptEquals b = false ∧ b.scriptEquals a = false) ∧
    (∀ v : Value, v.BelongsTo value.ty → (sections.filter (·.leads v)).length ≤ 1) ∧
    ∀ sections' : List Section, sections'.Perm sections → ∀ (s : Setting) (invoke : Invoke) (rounds : Nat),
      (∀ v : Value, v.BelongsTo value.ty → Section.executeMatching s invoke rounds v sections' =
        Section.executeChosen s invoke rounds (sections.find? (·.leads v))) ∧
      ∀ m : Machine, (∀ v m', value.evaluate s invoke m = .ok v m' → v.BelongsTo value.ty) →
        (Statement.switchOn p value sections' otherwise).execute s invoke rounds m =
          (Statement.switchOn p value sections otherwise).execute s invoke rounds m := by
  have hapart := Script.apart_of_compile h hf hs
  refine ⟨hapart.differ_both hty, fun v hv => hapart.leads_one hty hv, fun sections' hperm s invoke rounds => ?_⟩
  have hchosen : ∀ v : Value, v.BelongsTo value.ty → Section.executeMatching s invoke rounds v sections' =
      Section.executeChosen s invoke rounds (sections.find? (·.leads v)) := by
    intro v hv
    rw [Section.executeMatching_eq, find?_eq_of_perm hperm (hapart.leads_one hty hv)]
  refine ⟨hchosen, fun m hvalue => ?_⟩
  rw [Statement.execute, Statement.execute]
  simp only [bind, EStateM.bind]
  cases hv : value.evaluate s invoke m with
  | error e m' => rfl
  | ok v m' =>
    dsimp only
    rw [hchosen v (hvalue v m' hv), Section.executeMatching_eq]

def Statement.switches (ty : Ty) (labels : List Nat) : Statement → Bool
  | .switchOn _ value sections _ => value.ty == ty && sections.map (·.labels.length) == labels
  | _ => false

/-- A script with a switch in a loop; one section is reached by `null` too, and one is also the default. -/
def Script.branching : String :=
  "int f(string s,int n)\x7bwhile(n>0)switch(s)\x7bcase \"a\":case null:n--;break;case \"b\":default:return n;\x7d" ++
    "return 0;\x7d"

/-- In that script both sections may change places. -/
theorem switch_sections_unordered_reversed :
    ∃ script, Script.compile .standard Script.branching = .ok script ∧ ∃ f ∈ script.program.functions,
      ∃ p value sections otherwise, Statement.Within f.body (.switchOn p value sections otherwise) ∧
        value.ty = .string ∧ sections.map (·.labels.length) = [2, 1] ∧
        (sections.filter (·.leads .null)).length ≤ 1 ∧
        ∀ (s : Setting) (invoke : Invoke) (rounds : Nat) (m : Machine),
          (∀ v m', value.evaluate s invoke m = .ok v m' → v.BelongsTo .string) →
          (Statement.switchOn p value sections.reverse otherwise).execute s invoke rounds m =
            (Statement.switchOn p value sections otherwise).execute s invoke rounds m := by
  have hscript : ((Script.compile .standard Script.branching).toOption.any fun script =>
      script.program.functions.any fun f => f.body.any fun loop => loop.children.any fun statement =>
        statement.switches .string [2, 1]) = true := by
    decide +kernel
  obtain ⟨script, h, hscript⟩ := exists_ok_of_any hscript
  obtain ⟨f, hf, hbody⟩ := List.any_eq_true.mp hscript
  obtain ⟨loop, hloop, hinside⟩ := List.any_eq_true.mp hbody
  obtain ⟨statement, hstatement, hswitch⟩ := List.any_eq_true.mp hinside
  have hwithin := Statement.Within.inside (.here hloop) hstatement
  cases statement with
  | switchOn p value sections otherwise =>
    rw [Statement.switches, Bool.and_eq_true, beq_iff_eq, beq_iff_eq] at hswitch
    obtain ⟨hty, hlabels⟩ := hswitch
    obtain ⟨-, hone, hperm⟩ := switch_sections_unordered h hf hwithin (by rw [hty]; decide)
    rw [hty] at hone hperm
    exact ⟨script, h, f, hf, p, value, sections, otherwise, hwithin, hty, hlabels, hone .null (.inr ⟨rfl, rfl⟩),
      fun s invoke rounds => (hperm _ (List.reverse_perm sections) s invoke rounds).2⟩
  | _ => cases hswitch

end Scriptlet
