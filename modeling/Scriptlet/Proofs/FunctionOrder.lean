import Mathlib.Logic.Equiv.Basic
import Scriptlet.Proofs.ExpandedTokens
import Scriptlet.Proofs.FunctionTables
import Scriptlet.Proofs.Mirroring.Items

/-!
# The order of functions

A program consists of declarations and functions. Main statement: if a program compiles, it also compiles when its
functions stand at other places among the declarations and in another order. The declarations and functions are the
same then, except that calls name the functions by their new numbers, and a call by name means the same function.
-/

namespace Scriptlet

section Indices

/-- The indices behind a first element, when the indices without it are changed. -/
def shiftIndex (ρ : Nat → Nat) : Nat → Nat
  | 0 => 0
  | i + 1 => ρ i + 1

theorem shiftIndex_shiftIndex {ρ τ : Nat → Nat} (h : ∀ i, ρ (τ i) = i) (i : Nat) :
    shiftIndex ρ (shiftIndex τ i) = i := by
  cases i with
  | zero => rfl
  | succ i => simp [shiftIndex, h]

/-- A permutation of the indices behind a first one. -/
def shiftPerm (ρ : Equiv.Perm Nat) : Equiv.Perm Nat where
  toFun := shiftIndex ρ
  invFun := shiftIndex ρ.symm
  left_inv := shiftIndex_shiftIndex ρ.symm_apply_apply
  right_inv := shiftIndex_shiftIndex ρ.apply_symm_apply

/-- Lists with the same elements differ by a permutation of the indices. -/
theorem exists_perm_getElem? {α : Type} {l l' : List α} (h : l'.Perm l) :
    ∃ ρ : Equiv.Perm Nat, ∀ i, l'[ρ i]? = l[i]? := by
  induction h with
  | nil => exact ⟨Equiv.refl Nat, fun _ => rfl⟩
  | cons a _ ih =>
    obtain ⟨ρ, hρ⟩ := ih
    refine ⟨shiftPerm ρ, fun i => ?_⟩
    cases i with
    | zero => rfl
    | succ i => exact hρ i
  | swap a b l =>
    refine ⟨Equiv.swap 0 1, fun i => ?_⟩
    rcases i with _ | _ | i
    · rfl
    · rfl
    · rw [Equiv.swap_apply_of_ne_of_ne (by omega) (by omega)]
      rfl
  | trans _ _ ih ih' =>
    obtain ⟨ρ, hρ⟩ := ih
    obtain ⟨τ, hτ⟩ := ih'
    exact ⟨τ.trans ρ, fun i => (hρ (τ i)).trans (hτ i)⟩

end Indices

section Resolution

variable {r : Registry} {p p' : Program} {ρ : Equiv.Perm Nat}

theorem Script.candidates_perm (hρ : ∀ i, p'.functions[ρ i]? = (p.functions[i]?).map (Function.renumber ρ))
    (name : String) : (Script.candidates ⟨r, p'⟩ name).Perm
      ((Script.candidates ⟨r, p⟩ name).map fun c => (ρ c.1, c.2.renumber ρ)) := by
  have hperm := ((zipIdx_perm hρ).filter fun f => f.1.signature.name = name).map fun f => (f.2, f.1)
  simpa [Script.candidates, List.filter_map, Function.comp_def, Function.renumber] using hperm

theorem Script.eq_of_takes (hapart : (p.functions.map (·.signature)).Pairwise Signature.Apart) {name : String}
    {c d : Nat × Function} (hc : c ∈ Script.candidates ⟨r, p⟩ name) (hd : d ∈ Script.candidates ⟨r, p⟩ name)
    {classes : Hierarchy} {arguments : List Ty} (hctakes : c.2.signature.takes classes arguments .exact = true)
    (hdtakes : d.2.signature.takes classes arguments .exact = true) : c = d := by
  have hpairwise : (Script.candidates ⟨r, p⟩ name).Pairwise fun c d =>
      c.2.signature.parameterTypes ≠ d.2.signature.parameterTypes := by
    rw [Script.candidates, List.pairwise_map]
    exact pairwise_named hapart name
  have hsymm : Std.Symm fun c d : Nat × Function => c.2.signature.parameterTypes ≠ d.2.signature.parameterTypes :=
    ⟨fun _ _ h => h.symm⟩
  by_contra hne
  refine hpairwise.forall hc hd hne ?_
  rw [Grammar.parameterTypes_eq_of_takes hctakes, Grammar.parameterTypes_eq_of_takes hdtakes]

theorem Script.resolve_renumbered (hρ : ∀ i, p'.functions[ρ i]? = (p.functions[i]?).map (Function.renumber ρ))
    (hapart : (p.functions.map (·.signature)).Pairwise Signature.Apart) (name : String) (arguments : List Value) :
    Script.resolve ⟨r, p'⟩ name arguments =
      (Script.resolve ⟨r, p⟩ name arguments).map fun c => (ρ c.1, c.2.renumber ρ) := by
  have hperm := Script.candidates_perm (r := r) hρ name
  have hselect : selectOverload
      (fun fit c => c.2.signature.takes r.classes (arguments.map Value.runtimeType) fit) (Script.candidates ⟨r, p'⟩ name)
        (arguments.map Value.runtimeType) = (selectOverload
      (fun fit c => c.2.signature.takes r.classes (arguments.map Value.runtimeType) fit) (Script.candidates ⟨r, p⟩ name)
        (arguments.map Value.runtimeType)).map fun c => (ρ c.1, c.2.renumber ρ) :=
    selectOverload_perm _ hperm (fun _ _ => rfl) (fun c hc d hd => Script.eq_of_takes hapart hc hd) _
  unfold Script.resolve
  generalize Script.candidates ⟨r, p⟩ name = candidates, Script.candidates ⟨r, p'⟩ name = candidates' at hperm hselect
  rcases candidates with _ | ⟨only, _ | ⟨second, rest⟩⟩
  · obtain rfl := List.perm_nil.mp hperm
    rfl
  · obtain rfl := List.perm_singleton.mp hperm
    rfl
  · have hlength : 2 ≤ candidates'.length := by simp [hperm.length_eq]
    obtain ⟨first', second', rest', rfl⟩ := exists_cons_cons_of_length hlength
    dsimp only
    rw [hselect]
    cases selectOverload _ (only :: second :: rest) _ <;> rfl

end Resolution

namespace Grammar

open Rule

namespace Piece

def isFunction : Piece → Bool
  | .function _ _ _ _ => true
  | .declaration _ => false

def declaration? : Piece → Option (List Token)
  | .function _ _ _ _ => none
  | .declaration tokens => some tokens

def signature? : Piece → Option Signature
  | .function signature _ _ _ => some signature
  | .declaration _ => none

/-- The same pieces, with the functions at any places and the declarations in their order. -/
structure Rearranged (pieces pieces' : List Piece) : Prop where
  perm : pieces'.Perm pieces
  declarations : pieces'.filterMap declaration? = pieces.filterMap declaration?

/-- The declarations of a program, and behind them its functions in reverse order. -/
def backwards (pieces : List Piece) : List Piece :=
  pieces.filter (!·.isFunction) ++ (pieces.filter isFunction).reverse

theorem rearranged_backwards (pieces : List Piece) : Rearranged pieces (backwards pieces) where
  perm := ((List.reverse_perm _).append_left _).trans
    (List.perm_append_comm.trans (List.filter_append_perm isFunction pieces))
  declarations := by
    have hdeclarations : (pieces.filter (!·.isFunction)).filterMap declaration? = pieces.filterMap declaration? := by
      rw [List.filterMap_filter]
      refine List.filterMap_congr fun piece _ => ?_
      cases piece <;> rfl
    have hfunctions : (pieces.filter isFunction).reverse.filterMap declaration? = [] := by
      rw [List.filterMap_eq_nil_iff]
      intro piece hpiece
      have hfunction := (List.mem_filter.mp (List.mem_reverse.mp hpiece)).2
      cases piece with
      | function signature p head body => rfl
      | declaration tokens => cases hfunction
    rw [backwards, List.filterMap_append, hdeclarations, hfunctions, List.append_nil]

theorem signatures_items (pieces : List Piece) (tail : List Token) :
    Item.signatures (items pieces tail) = pieces.filterMap signature? := by
  induction pieces with
  | nil => rfl
  | cons piece pieces ih =>
    cases piece with
    | function signature p head body => exact congrArg (signature :: ·) ih
    | declaration tokens => exact ih

theorem map_some_signatures (pieces : List Piece) :
    (pieces.filterMap signature?).map some = (pieces.filter isFunction).map signature? := by
  induction pieces with
  | nil => rfl
  | cons piece pieces ih =>
    cases piece with
    | function signature p head body => exact congrArg (some signature :: ·) ih
    | declaration tokens => exact ih

theorem signatures_getElem? {pieces pieces' : List Piece} {ρ : Nat → Nat}
    (hρ : ∀ i, (pieces'.filter isFunction)[ρ i]? = (pieces.filter isFunction)[i]?) (i : Nat) :
    (pieces'.filterMap signature?)[ρ i]? = (pieces.filterMap signature?)[i]? := by
  have hsome : ((pieces'.filterMap signature?).map some)[ρ i]? = ((pieces.filterMap signature?).map some)[i]? := by
    rw [map_some_signatures, map_some_signatures, List.getElem?_map, List.getElem?_map, hρ]
  rw [List.getElem?_map, List.getElem?_map] at hsome
  exact Option.map_injective (Option.some_injective _) hsome

end Piece

/-- A function is what the body of a piece is read as. -/
inductive FunctionRead (env : Env) : Piece → Function → Prop
  | intro {signature : Signature} {p : Position} {head body : List Token} {statements : List Statement}
      (h : BodyRead env signature body statements) :
      FunctionRead env (.function signature p head body) ⟨signature, statements, p⟩

/-- The declarations that pieces are read as, one behind the other. -/
inductive DeclarationsRead : Env → List (List Token) → List Declaration → Env → Prop
  | nil (env : Env) : DeclarationsRead env [] [] env
  | cons {env last : Env} {tokens : List Token} {found : Option Declaration × Declared} {texts : List (List Token)}
      {others : List Declaration} (h : DeclarationRead env tokens found)
      (hrest : DeclarationsRead (env.withScopes (addDeclared found.2)) texts others last) :
      DeclarationsRead env (tokens :: texts) (found.1.toList ++ others) last

section Reading

variable {depth : Nat} {start env last : Env} {pieces : List Piece} {tail : List Token}
  {declarations : List Declaration} {ρ : Nat → Nat}

theorem declarationsRead_of_compileDeclarations (hfound : Piece.Each (Piece.Found depth start) pieces tail)
    (h : compileDeclarations env (Piece.items pieces tail) = .ok (declarations, last)) :
    DeclarationsRead env (pieces.filterMap Piece.declaration?) declarations last := by
  induction pieces generalizing env declarations with
  | nil =>
    cases h
    exact .nil _
  | cons piece pieces ih =>
    cases piece with
    | function signature p head body => exact ih hfound.2 h
    | declaration tokens =>
      obtain ⟨found, hone, h⟩ := exists_ok_of_bind h
      obtain ⟨⟨others, last'⟩, hothers, ⟨⟩⟩ := exists_ok_of_bind h
      refine .cons ?_ (ih hfound.2 hothers)
      obtain ⟨⟨found, rest⟩, hread, ⟨⟩⟩ := exists_ok_of_bind hone
      have hskipped := Item.skipped_of_itemOf _ _ _ _ hfound.1
      have hleft : (Item.declaration (tokens ++ Piece.joined pieces tail)).leftover env = .ok rest := by
        rw [Item.leftover, hread]
        rfl
      obtain rfl := (Item.skipped_eq_of_leftover hleft).symm.trans hskipped
      exact ⟨_, hread⟩

theorem functionsRead_of_compileFunctions (hfound : Piece.Each (Piece.Found depth start) pieces tail)
    {functions : List Function} (h : compileFunctions env (Piece.items pieces tail) = .ok functions) :
    List.Forall₂ (FunctionRead env) (pieces.filter Piece.isFunction) functions := by
  induction pieces generalizing functions with
  | nil =>
    cases h
    exact .nil
  | cons piece pieces ih =>
    cases piece with
    | declaration tokens => exact ih hfound.2 h
    | function signature p head body =>
      obtain ⟨f, hone, h⟩ := exists_ok_of_bind h
      obtain ⟨others, hothers, ⟨⟩⟩ := exists_ok_of_bind h
      refine .cons ?_ (ih hfound.2 hothers)
      obtain ⟨⟨statements, rest⟩, hread, ⟨⟩⟩ := exists_ok_of_bind hone
      have hskipped := Item.skipped_of_itemOf _ _ _ _ hfound.1
      have hleft : (Item.function signature (body ++ Piece.joined pieces tail) p).leftover env = .ok rest := by
        rw [Item.leftover, hread]
        rfl
      obtain rfl := (Item.skipped_eq_of_leftover hleft).symm.trans hskipped
      exact .intro ⟨_, hread⟩

theorem DeclarationsRead.read_of_mem {texts : List (List Token)}
    (h : DeclarationsRead env texts declarations last) {tokens : List Token} (htokens : tokens ∈ texts) :
    ∃ inner found, DeclarationRead inner tokens found := by
  induction h with
  | nil => cases htokens
  | cons hone _ ih =>
    rcases List.mem_cons.mp htokens with rfl | htokens
    · exact ⟨_, _, hone⟩
    · exact ih htokens

theorem DeclarationRead.isValue {tokens : List Token} {found : Option Declaration × Declared}
    (h : DeclarationRead env tokens found) : ∀ d ∈ found.2, d.2.IsValue := by
  obtain ⟨rest, hok⟩ := h
  exact wholeDeclaration_isValue env _ _ _ hok

theorem DeclarationsRead.compile {texts : List (List Token)}
    (h : DeclarationsRead env texts declarations last) {env' : Env} (henv : env.Renumbers ρ env')
    (hpieces : pieces.filterMap Piece.declaration? = texts) (tail : List Token) : ∃ last',
      compileDeclarations env' (Piece.items pieces tail) = .ok (declarations.map (Declaration.renumber ρ), last') ∧
        last.Renumbers ρ last' := by
  induction pieces generalizing env env' texts declarations with
  | nil =>
    subst hpieces
    cases h
    exact ⟨env', rfl, henv⟩
  | cons piece pieces ih =>
    cases piece with
    | function signature p head body => exact ih h henv hpieces
    | declaration tokens =>
      subst hpieces
      cases h with
      | @cons _ _ _ found _ others hone hrest =>
        obtain ⟨last', hcompiled, hlast⟩ := ih hrest (henv.addDeclared hone.isValue) rfl
        refine ⟨last', ?_, hlast⟩
        have hfirst := hone.compileDeclaration henv (Piece.joined pieces tail)
        rw [Piece.items, Piece.item, compileDeclarations, hfirst]
        change (compileDeclarations _ _ >>= _) = _
        rw [hcompiled]
        cases hd : found.1 <;> simp [Bind.bind, Except.bind, Pure.pure, Except.pure]

theorem compileFunctions_of_read {env' : Env} (henv : env.Renumbers ρ env')
    (hread : ∀ piece ∈ pieces.filter Piece.isFunction, ∃ f, FunctionRead env piece f) (tail : List Token) : ∃ functions,
      compileFunctions env' (Piece.items pieces tail) = .ok functions ∧
        List.Forall₂ (fun piece f' => ∀ f, FunctionRead env piece f → f' = f.renumber ρ)
          (pieces.filter Piece.isFunction) functions := by
  induction pieces with
  | nil => exact ⟨[], rfl, .nil⟩
  | cons piece pieces ih =>
    cases piece with
    | declaration tokens => exact ih hread
    | function signature p head body =>
      obtain ⟨others, hothers, hall⟩ := ih fun piece hpiece => hread piece (List.mem_cons_of_mem _ hpiece)
      have hone := fun statements (h : BodyRead env signature body statements) =>
        h.compileFunction henv (Piece.joined pieces tail) p
      obtain ⟨f, hf⟩ := hread _ List.mem_cons_self
      cases hf with
      | @intro _ _ _ _ statements hbody =>
        refine ⟨⟨signature, Statement.renumberAll ρ statements, p⟩ :: others, ?_, .cons ?_ hall⟩
        · rw [Piece.items, Piece.item, compileFunctions, hone _ hbody]
          change (compileFunctions env' (Piece.items pieces tail) >>= _) = _
          rw [hothers]
          rfl
        · rintro f ⟨hother⟩
          exact Except.ok.inj ((hone _ hbody).symm.trans (hone _ hother))

theorem found_anywhere (hstart : start.Renumbers ρ start) (hfound : Piece.Each (Piece.Found depth start) pieces tail)
    (hfunctions : ∀ piece ∈ pieces.filter Piece.isFunction, ∃ f, FunctionRead env piece f)
    (hdeclarations : ∀ tokens ∈ pieces.filterMap Piece.declaration?, ∃ inner found, DeclarationRead inner tokens found)
    {piece : Piece} (hpiece : piece ∈ pieces) (rest : List Token) : piece.Found depth start rest := by
  have hmem := hpiece
  obtain ⟨before, after, rfl⟩ := List.append_of_mem hpiece
  have hplace := hfound.of_split
  cases piece with
  | function signature p head body =>
    obtain ⟨f, hf⟩ := hfunctions _ (List.mem_filter.mpr ⟨hmem, rfl⟩)
    cases hf with
    | intro hbody => exact hplace.function hstart hbody rest
  | declaration tokens =>
    obtain ⟨inner, found, hread⟩ := hdeclarations tokens (List.mem_filterMap.mpr ⟨_, hmem, rfl⟩)
    exact hplace.declaration hstart hread rest

theorem itemsFrom_of_found (hends : firstKind tail = .endOfInput) {steps : Steps}
    (hsteps : (Piece.joined pieces tail).length < steps.length)
    (hfound : Piece.Each (Piece.Found depth start) pieces tail) :
    itemsFrom depth steps start (Piece.joined pieces tail) = .ok (Piece.items pieces tail, tail) := by
  induction pieces generalizing steps with
  | nil =>
    cases steps with
    | nil => simp at hsteps
    | cons step steps =>
      rw [itemsFrom_cons]
      change (if (firstKind tail).isEnd = true then _ else _ : Rule (List Item)) start tail = _
      rw [hends]
      rfl
  | cons piece pieces ih =>
    cases steps with
    | nil => simp at hsteps
    | cons step steps =>
      rw [Piece.joined_cons] at hsteps ⊢
      have hpiece : itemOf depth (firstKind (piece.text ++ Piece.joined pieces tail)) start
          (piece.text ++ Piece.joined pieces tail) =
            .ok (piece.item (Piece.joined pieces tail), Piece.joined pieces tail) := hfound.1
      obtain ⟨piece', hne, htext, -⟩ := itemOf_isPiece depth _ _ hpiece
      have hlength := List.length_pos_iff.mpr hne
      rw [← List.append_cancel_right htext] at hlength
      have hkind : (firstKind (piece.text ++ Piece.joined pieces tail)).isEnd = false := by
        cases hkind : firstKind (piece.text ++ Piece.joined pieces tail) with
        | endOfInput =>
          rw [hkind] at hpiece
          cases hpiece
        | _ => rfl
      rw [itemsFrom_cons]
      change (if (firstKind (piece.text ++ Piece.joined pieces tail)).isEnd = true then _ else _ : Rule (List Item)) start
        (piece.text ++ Piece.joined pieces tail) = _
      rw [hkind, if_neg Bool.false_ne_true, bind_ok hpiece, bind_ok (ih (by simp at hsteps; omega) hfound.2)]
      rfl

theorem each_of_forall {P : Piece → List Token → Prop} (h : ∀ piece ∈ pieces, ∀ rest, P piece rest) :
    Piece.Each P pieces tail := by
  induction pieces with
  | nil => trivial
  | cons piece pieces ih =>
    exact ⟨h piece List.mem_cons_self _, ih fun piece hpiece => h piece (List.mem_cons_of_mem _ hpiece)⟩

end Reading

variable {registry : Registry} {tokens : List Token} {pieces : List Piece} {env : Env}

theorem Splits.expand_joined {pieces' : List Piece}
    {tail : List Token} (h : Splits registry tokens pieces tail) (hperm : pieces'.Perm pieces) :
    Expansion.expand (Piece.joined pieces' tail) = Piece.joined pieces' tail := by
  refine Expansion.expand_eq_self fun token htoken => Expansion.expandToken_of_mem_expand tokens ?_
  rw [h.joined]
  exact ((hperm.flatMap_right Piece.text).append_right tail).mem_iff.mp htoken

theorem items_of_splits {tail : List Token} (h : Splits registry tokens pieces tail) :
    items (.initial registry) (Expansion.expand tokens) = .ok (Piece.items pieces tail) := by
  have hfound : enter .program (fun depth => withSteps (itemsFrom depth)) maxDepth (.initial registry)
      (Piece.joined pieces tail) = .ok (Piece.items pieces tail, tail) :=
    itemsFrom_of_found h.ends (by simp) h.found
  rw [items, h.joined, hfound]
  rfl

theorem program_of_passes {found : List Item} {declared : Env}
    {p : Program} (hfound : items (.initial registry) (Expansion.expand tokens) = .ok found)
    (hdeclared : declareFunctions (.initial registry) found = .ok declared)
    (hdeclarations : compileDeclarations declared found = .ok (p.declarations, env))
    (hfunctions : compileFunctions env found = .ok p.functions) : program registry tokens = .ok p := by
  unfold program
  simp only [Bind.bind, Except.bind, hfound, hdeclared, hdeclarations, hfunctions]
  rfl

section Declaring

variable {registry : Registry} {declared : Env} {pieces pieces' : List Piece} {tail : List Token}

theorem known_of_declareFunctions
    (h : declareFunctions (.initial registry) (Piece.items pieces tail) = .ok declared) :
    declared.Known registry ∧ declared.signatures = pieces.filterMap Piece.signature? := by
  rw [← Piece.signatures_items pieces tail]
  exact (Env.Known.initial registry).of_declareFunctions h

theorem apart_of_declareFunctions
    (h : declareFunctions (.initial registry) (Piece.items pieces tail) = .ok declared) :
    (pieces.filterMap Piece.signature?).Pairwise Signature.Apart := by
  obtain ⟨hknown, hsignatures⟩ := known_of_declareFunctions h
  rw [← hsignatures]
  exact hknown.apart

theorem declareFunctions_rearranged
    (h : declareFunctions (.initial registry) (Piece.items pieces tail) = .ok declared)
    (hperm : pieces'.Perm pieces) {ρ : Equiv.Perm Nat}
    (hρ : ∀ i, (pieces'.filter Piece.isFunction)[ρ i]? = (pieces.filter Piece.isFunction)[i]?) (tail' : List Token) :
    ∃ declared', declareFunctions (.initial registry) (Piece.items pieces' tail') = .ok declared' ∧
      declared.Renumbers ρ declared' := by
  have hapart : (Item.signatures (Piece.items pieces' tail')).Pairwise Signature.Apart := by
    rw [Piece.signatures_items]
    exact ((hperm.filterMap Piece.signature?).pairwise_iff fun h => h.symm).mpr (apart_of_declareFunctions h)
  obtain ⟨declared', hdeclared', -⟩ := (Env.Known.initial registry).declareFunctions hapart
  obtain ⟨hknown, hsignatures⟩ := known_of_declareFunctions h
  obtain ⟨hknown', hsignatures'⟩ := known_of_declareFunctions hdeclared'
  refine ⟨declared', hdeclared', hknown.renumbers hknown' fun i => ?_⟩
  rw [hsignatures, hsignatures']
  exact Piece.signatures_getElem? hρ i

end Declaring

section Pairing

variable {α β γ : Type} {R : α → β → Prop} {S : α → γ → Prop}

theorem forall₂_getElem? {l : List α} {l' : List β} (h : List.Forall₂ R l l') (i : Nat) :
    Option.Rel R l[i]? l'[i]? := by
  induction h generalizing i with
  | nil => exact .none
  | cons hone _ ih =>
    cases i with
    | zero => exact .some hone
    | succ i => exact ih i

theorem exists_of_forall₂ {l : List α} {l' : List β} (h : List.Forall₂ R l l') {a : α} (ha : a ∈ l) : ∃ b, R a b := by
  induction h with
  | nil => cases ha
  | cons hone _ ih =>
    rcases List.mem_cons.mp ha with rfl | ha
    · exact ⟨_, hone⟩
    · exact ih ha

end Pairing

theorem signatures_of_read {functions : List Function}
    (h : List.Forall₂ (FunctionRead env) (pieces.filter Piece.isFunction) functions) :
    functions.map (·.signature) = pieces.filterMap Piece.signature? := by
  induction pieces generalizing functions with
  | nil =>
    cases h
    rfl
  | cons piece pieces ih =>
    cases piece with
    | declaration tokens => exact ih h
    | function signature p head body =>
      cases h with
      | cons hone hrest =>
        cases hone
        exact congrArg (signature :: ·) (ih hrest)

theorem functions_rearranged {pieces' : List Piece} {functions functions' : List Function}
    {ρ : Nat → Nat} (hρ : ∀ i, pieces'[ρ i]? = pieces[i]?) (h : List.Forall₂ (FunctionRead env) pieces functions)
    (h' : List.Forall₂ (fun piece f' => ∀ f, FunctionRead env piece f → f' = f.renumber ρ) pieces' functions')
    (i : Nat) : functions'[ρ i]? = (functions[i]?).map (Function.renumber ρ) := by
  have hone := forall₂_getElem? h i
  have hother := forall₂_getElem? h' (ρ i)
  rw [hρ] at hother
  generalize pieces[i]? = piece, functions[i]? = f, functions'[ρ i]? = f' at hone hother ⊢
  cases hone with
  | none =>
    cases hother
    rfl
  | some hread =>
    cases hother with
    | some hrenumber => exact congrArg some (hrenumber _ hread)

/-- The order of functions does not matter: a program that compiles also compiles when its functions stand at other
places among its items. Its declarations and functions are the same then, up to the numbers of the functions, and calls
by name lead to the same functions, whatever host the program runs in. -/
theorem function_order_immaterial {registry : Registry} {tokens : List Token} {p : Program}
    (h : program registry tokens = .ok p) :
    (∃ pieces tail, Splits registry tokens pieces tail) ∧
      ∀ pieces tail, Splits registry tokens pieces tail → ∀ pieces', Piece.Rearranged pieces pieces' →
        Expansion.expand (Piece.joined pieces' tail) = Piece.joined pieces' tail ∧
        ∀ moved, Expansion.expand moved = Piece.joined pieces' tail → ∃ (ρ : Equiv.Perm Nat) (p' : Program),
          (∀ i, (pieces'.filter Piece.isFunction)[ρ i]? = (pieces.filter Piece.isFunction)[i]?) ∧
          Splits registry moved pieces' tail ∧ program registry moved = .ok p' ∧
          p'.declarations = p.declarations.map (Declaration.renumber ρ) ∧
          (∀ i, p'.functions[ρ i]? = (p.functions[i]?).map (Function.renumber ρ)) ∧
          ∀ host name arguments, Script.resolve ⟨host, p'⟩ name arguments =
            (Script.resolve ⟨host, p⟩ name arguments).map fun c => (ρ c.1, c.2.renumber ρ) := by
  obtain ⟨found, declared, env, hfound, hdeclared, hdeclarations, hfunctions⟩ := passes_of_program h
  refine ⟨?_, fun pieces tail hsplit pieces' hmoved => ?_⟩
  · obtain ⟨pieces, tail, hsplit, -⟩ := splits_of_items hfound
    exact ⟨pieces, tail, hsplit⟩
  refine ⟨hsplit.expand_joined hmoved.perm, fun moved hexpand => ?_⟩
  rw [items_of_splits hsplit] at hfound
  cases hfound
  obtain ⟨ρ, hρ⟩ := exists_perm_getElem? (hmoved.perm.filter Piece.isFunction)
  obtain ⟨declared', hdeclared', hrenumbers⟩ := declareFunctions_rearranged hdeclared hmoved.perm hρ tail
  have hdeclarationsRead := declarationsRead_of_compileDeclarations hsplit.found hdeclarations
  obtain ⟨env', hdeclarations', henv⟩ := hdeclarationsRead.compile hrenumbers hmoved.declarations tail
  have hfunctionsRead := functionsRead_of_compileFunctions hsplit.found hfunctions
  have hread : ∀ piece ∈ pieces.filter Piece.isFunction, ∃ f, FunctionRead env piece f :=
    fun piece hpiece => exists_of_forall₂ hfunctionsRead hpiece
  obtain ⟨functions', hfunctions', hrenumbered⟩ := compileFunctions_of_read henv (fun piece hpiece =>
    hread piece ((hmoved.perm.filter _).mem_iff.mp hpiece)) tail
  have hstart : ((Env.initial registry).enter .program).Renumbers (Equiv.refl Nat)
      ((Env.initial registry).enter .program) :=
    ((Env.Known.initial registry).renumbers (Env.Known.initial registry) fun _ => rfl).enter _
  have hsplit' : Splits registry moved pieces' tail := by
    refine ⟨hexpand, hsplit.ends, each_of_forall fun piece hpiece => ?_⟩
    exact found_anywhere hstart hsplit.found hread (fun tokens => hdeclarationsRead.read_of_mem)
      (hmoved.perm.mem_iff.mp hpiece)
  have hfunctionsρ := functions_rearranged hρ hfunctionsRead hrenumbered
  refine ⟨ρ, ⟨p.declarations.map (Declaration.renumber ρ), functions'⟩, hρ, hsplit',
    program_of_passes (items_of_splits hsplit') hdeclared' hdeclarations' hfunctions', rfl, hfunctionsρ, ?_⟩
  refine fun host => Script.resolve_renumbered hfunctionsρ ?_
  rw [signatures_of_read hfunctionsRead]
  exact apart_of_declareFunctions hdeclared

/-- A program whose declaration calls a function behind it, which calls a function behind it in turn. -/
def callsAhead : String :=
  "int a=f();int f()\x7breturn g(2);\x7dint g(int n)\x7breturn n;\x7d"

theorem function_order_immaterial_callsAhead : ∃ tokens p pieces tail,
    Lexer.tokenize Registry.standard.resolveAlias callsAhead = .ok tokens ∧ program .standard tokens = .ok p ∧
      p.functions.length = 2 ∧ Splits .standard tokens pieces tail ∧ ∃ (ρ : Equiv.Perm Nat) (p' : Program),
        program .standard (Piece.joined (Piece.backwards pieces) tail) = .ok p' ∧
        p'.declarations = p.declarations.map (Declaration.renumber ρ) ∧
        ∀ i, p'.functions[ρ i]? = (p.functions[i]?).map (Function.renumber ρ) := by
  have hrun : ((Lexer.tokenize Registry.standard.resolveAlias callsAhead).toOption.any
      fun tokens => (program .standard tokens).toOption.any fun p => p.functions.length = 2) = true := by
    decide +kernel
  obtain ⟨tokens, htokens, hrun⟩ := exists_ok_of_any hrun
  obtain ⟨p, hp, hlength⟩ := exists_ok_of_any hrun
  obtain ⟨⟨pieces, tail, hsplit⟩, hmove⟩ := function_order_immaterial hp
  obtain ⟨hexpand, hprograms⟩ := hmove pieces tail hsplit _ (Piece.rearranged_backwards pieces)
  obtain ⟨ρ, p', -, -, hp', hdeclarations, hfunctions, -⟩ := hprograms _ hexpand
  exact ⟨tokens, p, pieces, tail, htokens, hp, of_decide_eq_true hlength, hsplit, ρ, p', hp', hdeclarations, hfunctions⟩

end Grammar

end Scriptlet
