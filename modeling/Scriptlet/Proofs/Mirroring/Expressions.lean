import Mathlib.Data.List.Pairwise
import Scriptlet.Proofs.Mirroring
import Scriptlet.Proofs.Nesting.Expressions

/-!
# Types and expressions in other surroundings

A type or an expression that is read in front of tokens is read in front of other tokens too, where the functions of
the script have other numbers and more rules may be entered. It is enough that a token stands behind it, and two if the
first of them opens a bracket, which could go on with the type or with the expression. Neither has an `else` in it, so
words that are joined make no difference.
-/

namespace Scriptlet.Grammar

open Rule

variable {χ : Change}

section Types

theorem arraysOver_isSuffix (ty : Ty) (tokens : List Token) : (arraysOver ty tokens).2 <:+ tokens := by
  obtain ⟨run, htokens, -⟩ := arraysOver_through ty tokens []
  exact ⟨run, htokens.symm⟩

theorem arraysOver_cons_of_ne {first : Token} (hfirst : first.kind ≠ .separator .openBracket) (ty : Ty)
    (rest : List Token) : arraysOver ty (first :: rest) = (ty, first :: rest) := by
  have hkind : first.kind.isSeparator .openBracket = false :=
    Bool.eq_false_iff.mpr fun h => hfirst (eq_of_isSeparator h)
  cases rest with
  | nil => rfl
  | cons second rest => simp [arraysOver, hkind]

/-- Behind a type one token is enough to see that no bracket pair follows, unless it opens a bracket. -/
theorem Joined.arraysOver {joins : Bool} {front front' left behind : List Token} (h : Joined joins front front')
    {ty found : Ty} (hleft : Ahead left)
    (hok : Grammar.arraysOver ty (front ++ behind) = (found, left ++ behind)) (behind' : List Token) :
    ∃ left', Grammar.arraysOver ty (front' ++ behind') = (found, left' ++ behind') ∧ Joined joins left left' := by
  fun_induction Grammar.arraysOver ty front generalizing front' with
  | case1 ty first second rest hpair ih =>
    cases h with
    | join hjoins p q h => cases hpair
    | keep _ h =>
      cases h with
      | join hjoins p q h => simp [TokenKind.isSeparator] at hpair
      | keep _ h =>
        simp only [List.cons_append, Grammar.arraysOver, hpair, if_true] at hok ⊢
        exact ih h hok
  | case2 ty first second rest hpair =>
    simp only [List.cons_append, Grammar.arraysOver, hpair, if_false, Prod.mk.injEq, Bool.false_eq_true] at hok
    obtain ⟨rfl, hok⟩ := hok
    obtain rfl : first :: second :: rest = left := List.append_cancel_right hok
    refine ⟨front', ?_, h⟩
    cases h with
    | join hjoins p q h => exact arraysOver_cons_of_ne (by simp) ty _
    | keep _ h =>
      cases h with
      | join hjoins p q h => simp [Grammar.arraysOver, TokenKind.isSeparator]
      | keep _ h => simp [Grammar.arraysOver, hpair]
  | case3 ty front hshort =>
    have hsuffix := arraysOver_isSuffix ty (front ++ behind)
    rw [hok, List.suffix_append_self_iff] at hsuffix
    rcases front with _ | ⟨first, _ | ⟨second, rest⟩⟩
    · exact absurd (List.suffix_nil.mp hsuffix) hleft.1
    · obtain rfl : left = [first] := hsuffix.eq_of_length_le (List.length_pos_iff.mpr hleft.1)
      obtain ⟨kind, p⟩ := first
      have hkind : kind ≠ .separator .openBracket := by
        rintro rfl
        exact hleft.2 p rfl
      rw [List.singleton_append, arraysOver_cons_of_ne hkind] at hok
      cases h with
      | keep _ h =>
        cases h
        cases hok
        exact ⟨_, arraysOver_cons_of_ne hkind _ _, .refl _⟩
    · exact absurd rfl (hshort first second rest)

theorem arraySuffixes_mirrors (ty : Ty) : (arraySuffixes ty).Mirrors χ Ahead id (arraySuffixes ty) := by
  refine ⟨fun env tokens rest found hok => ?_,
    fun env env' _ front front' left behind behind' found hfront hleft hok => ?_⟩
  · have hsuffix := arraysOver_isSuffix ty tokens
    simp only [arraySuffixes, Except.ok.injEq] at hok
    rwa [hok] at hsuffix
  · simp only [arraySuffixes, Except.ok.injEq] at hok
    obtain ⟨left', hok', hleft'⟩ := Joined.arraysOver hfront hleft hok behind'
    exact ⟨found, left', congrArg Except.ok hok', rfl, hleft'⟩

theorem namedType_mirrors {argument argument' : Rule Ty} (hspans : argument'.Spans false [] [])
    (h : argument.Mirrors χ Ahead id argument') : (namedType argument).Mirrors χ Ahead id (namedType argument') := by
  refine .here fun position => .peek (fun kind => ?_) (.expected _)
  split
  · exact .skip (.pure rfl)
  · refine .skip (.peekIte rfl rfl (fun _ => .skip ?_) (.fail _ _))
    refine MirrorsAt.bind (.withSteps (commaList_mirrors h rfl _) (commaList_steady hspans.progresses _ _))
      fun types => ?_
    rw [List.map_id]
    split
    · exact .pure rfl
    · exact .fail _ _
  · exact .fail _ _
  · exact .expected _

theorem typeRule_mirrors {depth depth' : Nat} (hdepth : depth ≤ depth') :
    (typeRule depth).Mirrors χ Ahead id (typeRule depth') := by
  induction depth generalizing depth' with
  | zero => exact .tooDeep
  | succ depth ih =>
    obtain ⟨depth', rfl⟩ := Nat.exists_eq_add_one_of_ne_zero (Nat.ne_zero_of_lt hdepth)
    have hargument := ih (Nat.le_of_succ_le_succ hdepth)
    exact .named ((namedType_mirrors (typeRule_spans depth') hargument).bind arraySuffixes_mirrors) _

end Types

section Checks

variable {ends : List Token → Prop}

theorem placeOf_mirrors (e : Expr) :
    (placeOf e).Mirrors χ ends (Place.renumber χ.ρ) (placeOf (e.renumber χ.ρ)) := by
  cases e <;> first | exact .pure rfl | exact .fail _ _

theorem assignmentOperand_mirrors (op : Option CompoundOp) (target : Ty) (p : Position) (value : Expr) :
    (assignmentOperand op target p value).Mirrors χ ends id (assignmentOperand op target p (value.renumber χ.ρ)) := by
  unfold assignmentOperand
  rw [Expr.ty_renumber]
  split
  · exact (expectAssignable_mirrors target value .assignment).andThen fun _ => .pure rfl
  · split
    · exact .fail _ _
    · exact .askIte (fun _ _ henv => henv.accepts _ _) (.pure rfl) (.fail _ _)
  · exact .ite (fun _ => .pure rfl) fun _ => .fail _ _

theorem caseType_mirrors (thenCase elseCase : Expr) :
    (caseType thenCase elseCase).Mirrors χ ends id (caseType (thenCase.renumber χ.ρ) (elseCase.renumber χ.ρ)) := by
  unfold caseType
  simp only [Expr.ty_renumber]
  refine .ask (fun env env' henv => ?_) fun env => .ite (fun _ => .pure rfl) fun _ => .ite (fun _ => .pure rfl) fun _ =>
    .fail _ _
  simp only [henv.accepts]

theorem combineLogical_mirrors (left : Expr) (op : LogicalOp) (right : Expr) :
    (combineLogical left op right).Mirrors χ ends (Expr.renumber χ.ρ)
      (combineLogical (left.renumber χ.ρ) op (right.renumber χ.ρ)) := by
  unfold combineLogical
  simp only [Expr.ty_renumber, Expr.position_renumber]
  exact .ite (fun _ => .pure (by simp [Expr.renumber, ExprInfo.over])) fun _ => .fail _ _

theorem combineInfix_mirrors (left : Expr) (op : InfixOp) (right : Expr) :
    (combineInfix left op right).Mirrors χ ends (Expr.renumber χ.ρ)
      (combineInfix (left.renumber χ.ρ) op (right.renumber χ.ρ)) := by
  unfold combineInfix
  simp only [Expr.ty_renumber, Expr.position_renumber]
  refine .ask (fun _ _ henv => by rw [henv.registry]) fun env => ?_
  split
  · exact .pure (by simp [Expr.renumber, ExprInfo.over])
  · exact .fail _ _

theorem incrementOf_mirrors (e : Expr) (decrement prefixed : Bool) :
    (incrementOf e decrement prefixed).Mirrors χ ends (Expr.renumber χ.ρ)
      (incrementOf (e.renumber χ.ρ) decrement prefixed) := by
  unfold incrementOf
  simp only [Expr.ty_renumber, Expr.position_renumber]
  exact .ite (fun _ => (placeOf_mirrors e).andThen fun target => .pure (by simp [Expr.renumber])) fun _ => .fail _ _

theorem negationOf_mirrors (e : Expr) (p : Position) :
    (negationOf e p).Mirrors χ ends (Expr.renumber χ.ρ) (negationOf (e.renumber χ.ρ) p) := by
  unfold negationOf
  rw [Expr.ty_renumber, Expr.literal?_renumber]
  refine .ite (fun _ => ?_) fun _ => .fail _ _
  split
  · exact .pure rfl
  · exact .pure (by simp [Expr.renumber, ExprInfo.over])

theorem memberFor_mirrors (owner : Owner) (name : String) (arguments : Option (List Expr)) (p : Position) :
    (memberFor owner name arguments p).Mirrors χ ends id
      (memberFor owner name (arguments.map (List.map (Expr.renumber χ.ρ))) p) := by
  have htypes : (arguments.map (List.map (Expr.renumber χ.ρ))).map (·.map Expr.ty) = arguments.map (·.map Expr.ty) := by
    cases arguments <;> simp
  unfold memberFor
  rw [htypes]
  refine .ask (fun _ _ henv => by rw [henv.registry]) fun env => ?_
  split
  · exact .fail _ _
  · next member _ =>
    cases arguments with
    | none => cases member.check <;> exact .pure rfl
    | some arguments =>
      have hliterals : (arguments.map (Expr.renumber χ.ρ)).map Expr.literal? = arguments.map Expr.literal? := by simp
      cases member.check with
      | none => exact .pure rfl
      | some check =>
        simp only [Option.map_some, hliterals]
        split
        · exact .fail _ _
        · exact .pure rfl

theorem nameRule_mirrors (name : String) (p : Position) :
    (nameRule name p).Mirrors χ ends (Expr.renumber χ.ρ) (nameRule name p) := by
  refine .of_still (nameRule_still _ _) fun env env' henv tokens tokens' e hok => ?_
  have hsymbol := henv.symbols name
  simp only [nameRule, Bind.bind, ask] at hok ⊢
  generalize env.scopes.lookup name = found, env'.scopes.lookup name = found' at hok hsymbol
  cases hsymbol with
  | none => cases hok
  | some hsymbol =>
    cases hsymbol with
    | «variable» ty =>
      cases hok
      rfl
    | constant v ty =>
      cases hok
      rfl
    | function hperm => cases hok

theorem checkArguments_mirrors (parameters : List Parameter) (arguments : List Expr) :
    (checkArguments parameters arguments).Mirrors χ ends id
      (checkArguments parameters (arguments.map (Expr.renumber χ.ρ))) := by
  induction parameters generalizing arguments with
  | nil => exact .pure rfl
  | cons p ps ih =>
    cases arguments with
    | nil => exact .pure rfl
    | cons a rest => exact (expectAssignable_mirrors p.ty a .argument).andThen fun _ => ih rest

end Checks

section Calls

variable {ρ : Nat → Nat} {env env' : Env} {arguments : List Ty} {overloads : List Nat}

theorem eq_of_all_fits_exact (classes : Hierarchy) {parameters : List Ty}
    (hlength : arguments.length = parameters.length)
    (h : ((parameters.zip arguments).all fun pair => classes.fits .exact pair.1 pair.2) = true) :
    parameters = arguments := by
  induction parameters generalizing arguments with
  | nil => exact (List.length_eq_zero_iff.mp hlength).symm
  | cons parameter parameters ih =>
    cases arguments with
    | nil => cases hlength
    | cons argument arguments =>
      simp only [List.zip_cons_cons, List.all_cons, Bool.and_eq_true] at h
      rw [of_decide_eq_true h.1, ih (by simpa using hlength) h.2]

theorem parameterTypes_eq_of_takes {s : Signature} {classes : Hierarchy}
    (h : s.takes classes arguments .exact = true) : s.parameterTypes = arguments := by
  simp only [Signature.takes, Bool.and_eq_true, decide_eq_true_eq] at h
  exact eq_of_all_fits_exact classes (by simpa [Signature.parameterTypes] using h.1) h.2

def Env.candidates (env : Env) (overloads : List Nat) : List (Nat × Signature) :=
  overloads.filterMap fun index => env.signatures[index]?.map fun s => (index, s)

theorem Env.Renumbers.candidates_perm (henv : env.Renumbers ρ env') {overloads' : List Nat}
    (hperm : overloads'.Perm (overloads.map ρ)) :
    (env'.candidates overloads').Perm ((env.candidates overloads).map fun c => (ρ c.1, c.2)) := by
  have hcandidates := hperm.filterMap fun index => env'.signatures[index]?.map fun s => (index, s)
  simpa [Env.candidates, List.filterMap_map, List.map_filterMap, Function.comp_def, henv.signatures] using hcandidates

theorem Env.Renumbers.eq_of_takes (henv : env.Renumbers ρ env') {name : String}
    (hlookup : env.scopes.lookup name = some (.function overloads)) {a b : Nat × Signature}
    (ha : a ∈ env.candidates overloads) (hb : b ∈ env.candidates overloads) {classes : Hierarchy}
    (hatakes : a.2.takes classes arguments .exact = true) (hbtakes : b.2.takes classes arguments .exact = true) :
    a = b := by
  have hsignatures : (env.candidates overloads).map Prod.snd = overloads.filterMap (env.signatures[·]?) := by
    simp [Env.candidates, List.map_filterMap, Function.comp_def]
  have hapart := henv.apart name overloads hlookup
  rw [← hsignatures, List.pairwise_map] at hapart
  have hsymm : Std.Symm fun a b : Nat × Signature => a.2.parameterTypes ≠ b.2.parameterTypes := ⟨fun _ _ h => h.symm⟩
  by_contra hne
  refine hapart.forall ha hb hne ?_
  rw [parameterTypes_eq_of_takes hatakes, parameterTypes_eq_of_takes hbtakes]

theorem functionFor_renumbered (henv : env.Renumbers ρ env') {name : String} {overloads' : List Nat}
    (hlookup : env.scopes.lookup name = some (.function overloads)) (hperm : overloads'.Perm (overloads.map ρ))
    {arguments : List Expr} {p : Position} {tokens : List Token} (tokens' : List Token) {chosen : Nat × Signature}
    (hok : functionFor name overloads arguments p env tokens = .ok (chosen, tokens)) :
    functionFor name overloads' (arguments.map (Expr.renumber ρ)) p env' tokens' =
      .ok ((ρ chosen.1, chosen.2), tokens') := by
  have hcandidates := henv.candidates_perm hperm
  have htypes : (arguments.map (Expr.renumber ρ)).map Expr.ty = arguments.map Expr.ty := by simp
  let takes : Fit → Nat × Signature → Bool := fun fit c => c.2.takes env.registry.classes (arguments.map Expr.ty) fit
  have hselect : selectOverload takes (env'.candidates overloads') (arguments.map Expr.ty) =
      (selectOverload takes (env.candidates overloads) (arguments.map Expr.ty)).map fun c => (ρ c.1, c.2) :=
    selectOverload_perm _ hcandidates (fun _ _ => rfl) (fun a ha b hb => henv.eq_of_takes hlookup ha hb) _
  unfold functionFor at hok ⊢
  rw [ask_bind] at hok ⊢
  unfold Env.candidates at hcandidates hselect
  simp only [henv.registry, htypes] at hok ⊢
  generalize (overloads.filterMap fun index => env.signatures[index]?.map fun s => (index, s)) = candidates,
    (overloads'.filterMap fun index => env'.signatures[index]?.map fun s => (index, s)) = candidates'
    at hok hcandidates hselect ⊢
  rcases candidates with _ | ⟨⟨index, s⟩, _ | ⟨second, rest⟩⟩
  · obtain rfl := List.perm_nil.mp hcandidates
    cases hok
  · obtain rfl := List.perm_singleton.mp hcandidates
    dsimp only at hok ⊢
    by_cases hlength : arguments.length = s.parameters.length
    · rw [if_pos hlength] at hok
      rw [if_pos (by simpa using hlength)]
      obtain ⟨u, middle, hchecked, hdone⟩ := Rule.ok_of_bind hok
      obtain rfl := checkArguments_still _ _ _ _ hchecked
      have hmirrors : (checkArguments s.parameters arguments).Mirrors ⟨ρ, false⟩ (fun _ => True) id
          (checkArguments s.parameters (arguments.map (Expr.renumber ρ))) := checkArguments_mirrors _ _
      have hchecked : checkArguments s.parameters arguments env ([] ++ middle) = .ok (u, [] ++ middle) := hchecked
      obtain ⟨left, hchecked', ⟨⟩⟩ := hmirrors.exists_left henv tokens' .nil trivial hchecked
      cases hdone
      exact bind_ok hchecked'
    · rw [if_neg hlength] at hok
      cases hok
  · have hlength : 2 ≤ candidates'.length := by simp [hcandidates.length_eq]
    obtain ⟨first', second', rest', rfl⟩ := exists_cons_cons_of_length hlength
    dsimp only at hok ⊢
    change selectOverload _ (first' :: second' :: rest') _ = _ at hselect
    rw [hselect]
    cases hchosen : selectOverload takes ((index, s) :: second :: rest) (arguments.map Expr.ty) with
    | error e =>
      rw [hchosen] at hok
      cases hok
    | ok c =>
      rw [hchosen] at hok
      cases hok
      rfl

theorem callRule_mirrors {rules rules' : ExprRules} (hspans : rules.Spanning)
    (h : rules.arguments.Mirrors χ Ahead (List.map (Expr.renumber χ.ρ)) rules'.arguments) (name : String)
    (p : Position) :
    (callRule rules name p).MirrorsExpr χ (callRule rules' name p) := by
  refine ⟨fun env tokens rest e hok => (callRule_spans hspans name p [] e rest hok).isSuffix, ?_⟩
  intro env env' henv front front' left behind behind' e hfront hleft hok
  have hsymbol := henv.symbols name
  unfold callRule at hok ⊢
  rw [ask_bind] at hok ⊢
  generalize hfound : env.scopes.lookup name = found, env'.scopes.lookup name = found' at hok hsymbol
  cases hsymbol with
  | none => cases hok
  | some hsymbol =>
    cases hsymbol with
    | «variable» ty => cases hok
    | constant v ty => cases hok
    | function hperm =>
      dsimp only at hok ⊢
      obtain ⟨arguments, middle, harguments, hrest⟩ := Rule.ok_of_bind hok
      obtain ⟨chosen, last, hchosen, hdone⟩ := Rule.ok_of_bind hrest
      obtain rfl := functionFor_still _ _ _ _ _ _ hchosen
      cases hdone
      obtain ⟨left', harguments', hleft'⟩ := h.exists_left henv behind' hfront hleft harguments
      rw [bind_ok harguments', bind_ok (functionFor_renumbered henv hfound hperm _ hchosen)]
      exact ⟨_, left', rfl, by simp [Expr.renumber, Expr.renumberAll_eq], hleft'⟩

end Calls

section Casts

variable {γ δ ε : Type} {view : δ → ε} {h : γ → δ} {type type' : Rule Ty} {env : Env} {tokens : List Token}

def declares (tokens : List Token) : Bool :=
  startsDeclaration (firstKind tokens) (firstKind tokens.tail)

def opensCast (tokens : List Token) : Bool :=
  (firstKind tokens).isSeparator .openParen && declares tokens.tail

theorem castType?_of_not_opens (hopens : opensCast tokens = false) :
    castType? type env tokens = .ok (none, tokens) := by
  unfold castType?
  rw [← declares, ← opensCast, hopens]
  rfl

variable {rest : List Token}

theorem castType?_of_ok (hopens : opensCast tokens = true) {ty : Ty} {p : Position}
    (hty : type env tokens.tail = .ok (ty, ⟨.separator .closeParen, p⟩ :: rest)) :
    castType? type env tokens = .ok (some ty, rest) := by
  unfold castType?
  rw [← declares, ← opensCast, hopens, hty]
  rfl

theorem castType?_reads_some {ty : Ty} (hok : castType? type env tokens = .ok (some ty, rest)) :
    opensCast tokens = true ∧ ∃ p, type env tokens.tail = .ok (ty, ⟨.separator .closeParen, p⟩ :: rest) := by
  unfold castType? at hok
  split at hok
  · next hopens =>
    split at hok
    · next ty middle hty =>
      split at hok
      · next hclose =>
        cases hok
        obtain ⟨p, hmiddle⟩ := eq_cons_of_firstKind (eq_of_isSeparator hclose) (by simp)
        rw [hmiddle] at hty
        exact ⟨hopens, p, hty⟩
      · cases hok
    · cases hok
  · cases hok

theorem castType?_isSuffix (hspans : type.Spans false [] []) {found : Option Ty}
    (hok : castType? type env tokens = .ok (found, rest)) : rest <:+ tokens := by
  have hreads := castType?_reads hspans [] found rest hok
  cases found with
  | none => exact hreads ▸ List.suffix_rfl
  | some ty => exact hreads.isSuffix

theorem startsDeclaration_behind (first : TokenKind) :
    startsDeclaration first (.keyword .elseIfWord) = startsDeclaration first (.keyword .elseWord) := by
  cases first <;> rfl

section Joined

variable {joins : Bool} {front front' : List Token}

/-- Two tokens show whether a declaration begins, unless the first is an `else`. -/
theorem Joined.declares_eq (h : Joined joins front front') (hlength : 2 ≤ front.length) (behind behind' : List Token) :
    declares (front' ++ behind') = declares (front ++ behind) := by
  cases h with
  | nil => cases hlength
  | join hjoins p q h => rfl
  | keep token h =>
    refine h.look ?_ (startsDeclaration token.kind) (startsDeclaration_behind _) behind behind'
    exact List.length_pos_iff.mp (Nat.le_of_succ_le_succ hlength)

theorem Joined.opensCast_eq (h : Joined joins front front') (hlength : 3 ≤ front.length) (behind behind' : List Token) :
    opensCast (front' ++ behind') = opensCast (front ++ behind) := by
  cases h with
  | nil => cases hlength
  | join hjoins p q h => rfl
  | keep token h =>
    exact congrArg (token.kind.isSeparator .openParen && ·)
      (h.declares_eq (Nat.le_of_succ_le_succ hlength) behind behind')

end Joined

/-- Whether a cast is read shows in the tokens that are taken. If none is read at a parenthesis, what follows must see
that by itself, since other tokens could turn the parenthesis into a cast. -/
theorem castType?_mirrors (hspans : type.Spans false [] []) (htype : type.Mirrors χ Ahead id type')
    {next : Option Ty → Rule γ} {next' : Option Ty → Rule δ}
    (hsome : ∀ ty, (next (some ty)).MirrorsAt χ none Ahead view h (next' (some ty)))
    (hnone : (next none).MirrorsAt χ none Ahead view h (next' none))
    (hparen : ∀ env tokens, firstKind tokens = .separator .openParen → (next none).Reads env tokens fun _ rest =>
      opensCast tokens = false ∧ rest.length + 2 ≤ tokens.length) :
    (castType? type >>= next).MirrorsAt χ none Ahead view h (castType? type' >>= next') := by
  have hnext : ∀ found, (next found).MirrorsAt χ none Ahead view h (next' found) := by
    intro found
    cases found with
    | none => exact hnone
    | some ty => exact hsome ty
  refine ⟨fun env tokens rest c hok => ?_, fun env env' henv front front' left behind behind' c hfront hleft hok => ?_⟩
  · obtain ⟨found, middle, hfound, hrest⟩ := Rule.ok_of_bind hok
    exact ((hnext found).shrinks hrest).trans (castType?_isSuffix hspans hfound)
  · obtain ⟨found, middle, hfound, hrest⟩ := Rule.ok_of_bind hok
    have hleft_pos := List.length_pos_iff.mpr hleft.1
    cases found with
    | none =>
      obtain rfl := castType?_reads hspans [] none middle hfound
      have hopens : opensCast (front' ++ behind') = false := by
        by_cases hkind : firstKind (front ++ behind) = .separator .openParen
        · obtain ⟨hopens, hlength⟩ := hparen env _ hkind c _ hrest
          simp only [List.length_append] at hlength
          exact (hfront.opensCast_eq (by omega) behind behind').trans hopens
        · have hfirst := hfront.look (hnone.ne_nil_of_ahead hleft hrest) (·.isSeparator .openParen) rfl behind behind'
          rw [opensCast, hfirst, Bool.eq_false_iff.mpr fun hfirst => hkind (eq_of_isSeparator hfirst), Bool.false_and]
      rw [bind_ok (castType?_of_not_opens hopens)]
      exact hnone.follows henv behind' hfront hleft hrest
    | some ty =>
      obtain ⟨hopens, p, hty⟩ := castType?_reads_some hfound
      obtain ⟨more, rfl, hmore, -⟩ := exists_front ((hsome ty).shrinks hrest) (castType?_isSuffix hspans hfound)
      have htaken := (hspans [] ty _ hty).length_lt
      have hmore_pos := hmore.length_le
      simp only [List.length_cons, List.length_append, List.length_tail] at htaken
      have hopens' := (hfront.opensCast_eq (by omega) behind behind').trans hopens
      cases hfront with
      | nil => simp only [List.length_nil] at htaken; omega
      | join hjoins q r hfront => cases hopens
      | keep token hfront =>
        have hty : type env (_ ++ behind) = .ok (ty, (⟨.separator .closeParen, p⟩ :: more) ++ behind) := hty
        obtain ⟨left', hty', hleft'⟩ := htype.exists_left henv behind' hfront (.of_kind (by simp) _) hty
        cases hleft' with
        | keep _ hmore' =>
          rw [bind_ok (castType?_of_ok hopens' hty')]
          exact (hsome _).follows henv behind' hmore' hleft hrest

end Casts

section Refusals

/-- A rule that reads nothing at certain places. -/
def Rule.Refuses {α : Type} (starts : List Token → Bool) (rule : Rule α) : Prop :=
  ∀ ⦃env : Env⦄ ⦃tokens : List Token⦄, starts tokens = true → rule.Reads env tokens fun _ _ => False

namespace Rule.Refuses

variable {α β : Type} {starts : List Token → Bool} {rule : Rule α}

theorem bind (h : rule.Refuses starts) (next : α → Rule β) : (rule >>= next).Refuses starts :=
  fun _ _ hstarts => (h hstarts).bind fun _ _ hfalse => hfalse.elim

theorem named (h : rule.Refuses starts) (name : RuleName) : (rule.named name).Refuses starts :=
  fun _ _ hstarts => h hstarts

theorem tooDeep : (Rule.tooDeep : Rule α).Refuses starts :=
  fun _ _ _ => .fail _ _

end Rule.Refuses

theorem firstKind_of_declares {tokens : List Token} (h : declares tokens = true) :
    ∃ word of, firstKind tokens = .type word of ∧ (firstKind tokens.tail).isOperator .dot = false := by
  unfold declares startsDeclaration at h
  split at h
  · next word of hfirst => exact ⟨word, of, hfirst, by simpa using h⟩
  · cases h

theorem unaryRule_refuses {type : Rule Ty} {rules : ExprRules} (h : rules.suffixed.Refuses declares) :
    (unaryRule type rules).Refuses declares := by
  intro env tokens hstarts
  obtain ⟨word, of, hfirst, -⟩ := firstKind_of_declares hstarts
  have hopens : opensCast tokens = false := by
    rw [opensCast, hfirst]
    rfl
  refine .here (.bind (.of_eq (castType?_of_not_opens hopens) (P := fun found rest => found = none ∧ rest = tokens)
    ⟨rfl, rfl⟩) ?_)
  rintro _ _ ⟨rfl, rfl⟩
  refine .peek ?_
  rw [hfirst]
  exact h hstarts

theorem primaryRule_refuses (rules : ExprRules) : (primaryRule rules).Refuses declares := by
  intro env tokens hstarts
  obtain ⟨word, of, hfirst, hdot⟩ := firstKind_of_declares hstarts
  refine .here (.peek ?_)
  rw [hfirst]
  cases of with
  | complete ty =>
    refine .skip (.bind (P := fun _ _ => False) (.peek ?_) fun _ _ hfalse => hfalse.elim)
    rw [hdot]
    exact .expected _
  | generic constructor => exact .fail _ _

theorem primaryRule_refuses_cast {rules : ExprRules} (h : rules.expression.Refuses declares) :
    (primaryRule rules).Refuses opensCast := by
  intro env tokens hopens
  simp only [opensCast, Bool.and_eq_true] at hopens
  refine .here (.peek ?_)
  rw [eq_of_isSeparator hopens.1]
  exact .skip (h.bind _ hopens.2)

/-- No expression begins where a declaration begins, and no operand begins with such an expression in parentheses. -/
structure ExprRules.Refusing (rules : ExprRules) : Prop where
  expression : rules.expression.Refuses declares
  assignment : rules.assignment.Refuses declares
  ternary : rules.ternary.Refuses declares
  logicalOr : rules.logicalOr.Refuses declares
  logicalAnd : rules.logicalAnd.Refuses declares
  equality : rules.equality.Refuses declares
  comparison : rules.comparison.Refuses declares
  term : rules.term.Refuses declares
  factor : rules.factor.Refuses declares
  power : rules.power.Refuses declares
  unary : rules.unary.Refuses declares
  suffixed : rules.suffixed.Refuses declares
  primary : rules.primary.Refuses declares
  suffixedCast : rules.suffixed.Refuses opensCast
  primaryCast : rules.primary.Refuses opensCast

theorem exprRules_refusing (depth : Nat) : (exprRules depth).Refusing := by
  induction depth with
  | zero => constructor <;> exact .tooDeep
  | succ depth ih => exact {
      expression := .named (ih.assignment.bind _) _
      assignment := .named (ih.ternary.bind _) _
      ternary := .named (ih.logicalOr.bind _) _
      logicalOr := .named (ih.logicalAnd.bind _) _
      logicalAnd := .named (ih.equality.bind _) _
      equality := .named (ih.comparison.bind _) _
      comparison := .named (ih.term.bind _) _
      term := .named (ih.factor.bind _) _
      factor := .named (ih.power.bind _) _
      power := .named (ih.unary.bind _) _
      unary := .named (unaryRule_refuses ih.suffixed) _
      suffixed := .named (ih.primary.bind _) _
      primary := .named (primaryRule_refuses _) _
      suffixedCast := .named (ih.primaryCast.bind _) _
      primaryCast := .named (primaryRule_refuses_cast ih.expression) _ }

end Refusals

/-- The second rules for expressions read what the first ones read, in other surroundings. -/
structure ExprRules.Mirrored (χ : Change) (rules rules' : ExprRules) : Prop where
  expression : rules.expression.MirrorsExpr χ rules'.expression
  assignment : rules.assignment.MirrorsExpr χ rules'.assignment
  ternary : rules.ternary.MirrorsExpr χ rules'.ternary
  logicalOr : rules.logicalOr.MirrorsExpr χ rules'.logicalOr
  logicalAnd : rules.logicalAnd.MirrorsExpr χ rules'.logicalAnd
  equality : rules.equality.MirrorsExpr χ rules'.equality
  comparison : rules.comparison.MirrorsExpr χ rules'.comparison
  term : rules.term.MirrorsExpr χ rules'.term
  factor : rules.factor.MirrorsExpr χ rules'.factor
  power : rules.power.MirrorsExpr χ rules'.power
  unary : rules.unary.MirrorsExpr χ rules'.unary
  suffixed : rules.suffixed.MirrorsExpr χ rules'.suffixed
  primary : rules.primary.MirrorsExpr χ rules'.primary
  arguments : rules.arguments.Mirrors χ Ahead (List.map (Expr.renumber χ.ρ)) rules'.arguments
  call : ∀ name p, (rules.call name p).MirrorsExpr χ (rules'.call name p)
  construction : ∀ p, (rules.construction p).MirrorsExpr χ (rules'.construction p)

section Rules

variable {rules rules' : ExprRules}

section Chains

variable {α : Type} {operand operand' : Rule Expr} {operator? : TokenKind → Option α}
  {combine : Expr → α → Expr → Rule Expr}

theorem chain_steady (hoperand : operand.Spans false [] []) (hoperator : PlainOperators operator?)
    (hcombine : ∀ left op right, (combine left op right).Still) (left : Expr) :
    Steady fun steps => chain operand operator? combine steps left :=
  (chainRound_shrinks hoperand.progresses operator? hcombine).steady (chain operand operator? combine)
    (fun _ _ _ => rfl) (fun steps left _ _ e rest hok =>
      (chain_maySpan hoperand hoperator hcombine steps left [] e rest hok).length_le) left

variable (hoperand : operand.MirrorsExpr χ operand') (helse : operator? (.keyword .elseWord) = none)
  (helse' : operator? (.keyword .elseIfWord) = none) (hcombine : ∀ left op right, (combine left op right).MirrorsExpr χ
    (combine (left.renumber χ.ρ) op (right.renumber χ.ρ)))

include hoperand helse helse' hcombine

theorem chain_mirrors (steps : Steps) (left : Expr) : (chain operand operator? combine steps left).MirrorsExpr χ
      (chain operand' operator? combine steps (left.renumber χ.ρ)) := by
  induction steps generalizing left with
  | nil => exact .pure rfl
  | cons _ steps ih =>
    refine .peek (fun kind => ?_) ?_
    · split
      · exact .pure rfl
      · exact .skip (hoperand.bind fun right => (hcombine left _ right).bind fun e => (bounded_mirrors e).bind ih)
    · rw [helse, helse']
      exact .pure rfl

theorem leftToRight_mirrors (hspans : operand'.Spans false [] []) (hoperator : PlainOperators operator?)
    (hstill : ∀ left op right, (combine left op right).Still) :
    (leftToRight operand operator? combine).MirrorsExpr χ (leftToRight operand' operator? combine) :=
  hoperand.bind fun left => .withSteps (fun steps => chain_mirrors hoperand helse helse' hcombine steps left)
    (chain_steady hspans hoperator hstill _)

end Chains

theorem Advances.length_of_openParen {tokens rest : List Token} (h : Advances false [] tokens [] rest)
    (hkind : firstKind tokens = .separator .openParen) : rest.length + 2 ≤ tokens.length := by
  obtain ⟨run, hne, rfl, hrun⟩ := h
  rcases run with _ | ⟨first, _ | ⟨second, run⟩⟩
  · exact absurd rfl hne
  · obtain ⟨kind, p⟩ := first
    cases hkind
    cases hrun with
    | opening hclosing hrun =>
      cases hrun
    | plain hplain hrun => cases hplain
  · simp

theorem startsLeastInt_behind (first : TokenKind) :
    startsLeastInt first (.keyword .elseIfWord) = startsLeastInt first (.keyword .elseWord) := by
  unfold startsLeastInt
  split <;> rfl

theorem suffixes_steady (h : rules.Spanning) (e : Expr) : Steady fun steps => suffixes rules steps e :=
  (suffixRound_shrinks h).steady (suffixes rules) (fun _ _ _ => rfl)
    (fun steps e _ _ e' rest hok => (suffixes_maySpan h steps e [] e' rest hok).length_le) e

theorem parenthesized_mirrors {α β : Type} {g : α → β} {item : Rule α} {item' : Rule β}
    (hspans : item'.Spans false [] []) (hitem : item.Mirrors χ Ahead g item') (closing : String) :
    (withSteps (commaList item (·.isSeparator .closeParen) closing)).Mirrors χ Ahead (List.map g)
      (withSteps (commaList item' (·.isSeparator .closeParen) closing)) :=
  .withSteps (commaList_mirrors hitem rfl closing) (commaList_steady hspans.progresses _ closing)

theorem emptyArguments_mirrors : emptyArguments.Mirrors χ Ahead id emptyArguments :=
  .peekIte rfl rfl (fun _ => .skip (separator_mirrors .closeParen)) (.pure rfl)

variable (h : rules.Mirrored χ rules')

include h

theorem assignmentRule_mirrors : (assignmentRule rules).MirrorsExpr χ (assignmentRule rules') := by
  refine h.ternary.bind fun left => .peek (fun kind => ?_) (.pure rfl)
  split
  · exact .pure rfl
  · refine .after (placeOf_still _) (placeOf_still _) (placeOf_mirrors left) fun target =>
      .skip (h.assignment.bind fun value => ?_)
    simp only [Expr.ty_renumber, Expr.position_renumber]
    exact (assignmentOperand_mirrors _ _ _ value).bind fun operand =>
      .pure (by simp [Expr.renumber, ExprInfo.over, Function.comp_def])

theorem ternaryRule_mirrors : (ternaryRule rules).MirrorsExpr χ (ternaryRule rules') :=
  h.logicalOr.bind fun condition => .peekIte rfl rfl (fun _ => .after (expectAssignable_still _ _ _)
    (expectAssignable_still _ _ _) (expectAssignable_mirrors _ condition _) fun _ => .skip (h.expression.bind
      fun thenCase => (separator_mirrors .colon).bind fun _ => h.ternary.bind fun elseCase =>
        (caseType_mirrors thenCase elseCase).bind fun ty => .pure (by simp [Expr.renumber, ExprInfo.over]))) (.pure rfl)

theorem powerRule_mirrors : (powerRule rules).MirrorsExpr χ (powerRule rules') :=
  h.unary.bind fun base => .peekIte rfl rfl (fun _ => .skip (h.power.bind fun exponent =>
    combineInfix_mirrors base .power exponent)) (.pure rfl)

theorem unaryRule_mirrors {type type' : Rule Ty} (hspans : type.Spans false [] [])
    (htype : type.Mirrors χ Ahead id type') (hspanning : rules.Spanning)
    (hrefuses : rules.suffixed.Refuses opensCast) : (unaryRule type rules).MirrorsExpr χ (unaryRule type' rules') := by
  refine .here fun p => castType?_mirrors hspans htype (fun target => ?_) ?_ fun env tokens hkind => ?_
  · refine h.unary.bind fun operand => ?_
    simp only [Expr.ty_renumber]
    exact .askIte (fun _ _ henv => by rw [henv.registry]) (.pure (by simp [Expr.renumber, ExprInfo.over])) (.fail _ _)
  · refine .peek (fun kind => ?_) h.suffixed
    split
    · exact .skip (h.unary.bind fun operand => incrementOf_mirrors operand false true)
    · exact .skip (h.unary.bind fun operand => incrementOf_mirrors operand true true)
    · refine .skip (.peekTwo (fun _ => rfl) (fun _ => rfl) startsLeastInt_behind (fun _ => .skip (.pure rfl))
        (h.unary.bind fun operand => negationOf_mirrors operand p) (fun env tokens => ?_) fun env tokens => ?_)
      · refine .skip (.pure fun hne => ?_)
        cases tokens with
        | nil => exact absurd rfl hne
        | cons token rest => simp
      · refine (hspanning.unary []).bind fun operand middle hoperand e rest hok => ?_
        obtain rfl := negationOf_still _ _ e rest hok
        exact fun _ => hoperand.length_lt
    · refine .skip (h.unary.bind fun operand => ?_)
      simp only [Expr.ty_renumber]
      exact .ite (fun _ => .pure (by simp [Expr.renumber, ExprInfo.over])) fun _ => .fail _ _
    · exact h.suffixed.at_kind
  · refine .peek ?_
    rw [hkind]
    refine fun e rest hok => ⟨?_, (hspanning.suffixed [] e rest hok).length_of_openParen hkind⟩
    exact Bool.eq_false_iff.mpr fun hopens => hrefuses hopens e rest hok

theorem memberAccess_mirrors (owner : Owner) (name : String) (p : Position) :
    (memberAccess rules owner name p).Mirrors χ Ahead (fun found => (found.1, found.2.map (Expr.renumber χ.ρ)))
      (memberAccess rules' owner name p) :=
  .peekIte rfl rfl (fun _ => .skip (h.arguments.bind fun arguments =>
    (memberFor_mirrors owner name (some arguments) p).bind fun _ => .pure rfl))
    ((memberFor_mirrors owner name none p).bind fun _ => .pure rfl)

theorem staticAccess_mirrors (owner : Owner) (p : Position) :
    (staticAccess rules owner p).MirrorsExpr χ (staticAccess rules' owner p) :=
  (operator_mirrors .dot).bind fun _ => .here fun namePosition => identifier_mirrors.bind fun name =>
    (memberAccess_mirrors h owner name namePosition).bind fun found =>
      .pure (by simp [Expr.renumber, Expr.renumberAll_eq])

theorem instanceAccess_mirrors (receiver : Expr) (kind : TokenKind) :
    (instanceAccess rules receiver).MirrorsAt χ (some kind) Ahead id (Expr.renumber χ.ρ)
      (instanceAccess rules' (receiver.renumber χ.ρ)) := by
  unfold instanceAccess
  simp only [Expr.ty_renumber, Expr.position_renumber]
  exact .skip (.here fun p => identifier_mirrors.bind fun name =>
    (memberAccess_mirrors h (.value receiver.ty) name p).bind fun found =>
      .pure (by simp [Expr.renumber, Expr.renumberAll_eq, ExprInfo.over, Function.comp_def]))

theorem indexAccess_mirrors (collection : Expr) (kind : TokenKind) :
    (indexAccess rules collection).MirrorsAt χ (some kind) Ahead id (Expr.renumber χ.ρ)
      (indexAccess rules' (collection.renumber χ.ρ)) := by
  unfold indexAccess
  simp only [Expr.ty_renumber, Expr.position_renumber]
  split
  · exact .here fun _ => .fail _ _
  · exact .skip (h.expression.bind fun index => (expectAssignable_mirrors _ index .index).bind fun _ =>
      (separator_mirrors .closeBracket).bind fun _ => .pure (by simp [Expr.renumber, ExprInfo.over]))

theorem suffixes_mirrors (steps : Steps) (e : Expr) :
    (suffixes rules steps e).MirrorsExpr χ (suffixes rules' steps (e.renumber χ.ρ)) := by
  induction steps generalizing e with
  | nil => exact .pure rfl
  | cons _ steps ih =>
    have hincrement (e : Expr) (decrement : Bool) (kind : TokenKind) : (do
        let e ← incrementOf e decrement false
        skip
        suffixes rules steps e).MirrorsAt χ (some kind) Ahead id (Expr.renumber χ.ρ) (do
        let e ← incrementOf (e.renumber χ.ρ) decrement false
        skip
        suffixes rules' steps e) :=
      .after (incrementOf_still _ _ _) (incrementOf_still _ _ _) (incrementOf_mirrors e decrement false) fun e =>
        .skip (ih e)
    refine (bounded_mirrors e).bind fun e => .peek (fun kind => ?_) (.pure rfl)
    split
    · exact (instanceAccess_mirrors h e _).bind ih
    · exact (indexAccess_mirrors h e _).bind ih
    · exact hincrement e false _
    · exact hincrement e true _
    · exact .pure rfl

theorem typedExpression_mirrors (ty : Ty) (use : Use) :
    (typedExpression rules ty use).MirrorsExpr χ (typedExpression rules' ty use) :=
  h.expression.bind fun e => (expectAssignable_mirrors ty e use).bind fun _ => .pure rfl

theorem newArray_mirrors (ty : Ty) (p : Position) (kind : TokenKind) :
    (newArray rules ty p).MirrorsAt χ (some kind) Ahead id (Expr.renumber χ.ρ) (newArray rules' ty p) :=
  .ite (fun _ => .fail _ _) fun _ => .skip ((typedExpression_mirrors h .int .arrayLength).bind fun length =>
    (separator_mirrors .closeBracket).bind fun _ => (arraySuffixes_mirrors ty).bind fun element =>
      .pure (by simp [Expr.renumber, ExprInfo.over]))

theorem entryRule_mirrors (key value : Ty) :
    (entryRule rules key value).Mirrors χ Ahead (fun entry => (entry.1.renumber χ.ρ, entry.2.renumber χ.ρ))
      (entryRule rules' key value) :=
  (separator_mirrors .openBrace).bind fun _ => (typedExpression_mirrors h key .dictionaryKey).bind fun _ =>
    (separator_mirrors .comma).bind fun _ => (typedExpression_mirrors h value .dictionaryValue).bind fun _ =>
      (separator_mirrors .closeBrace).bind fun _ => .pure rfl

theorem primaryRule_mirrors : (primaryRule rules).MirrorsExpr χ (primaryRule rules') := by
  refine .here fun p => .peek (fun kind => ?_) .unexpected
  split
  · exact .skip (.pure rfl)
  · exact .skip (.peekIte rfl rfl (fun _ => .skip (h.call _ p)) (nameRule_mirrors _ p))
  · exact .skip (staticAccess_mirrors h _ p)
  · exact .fail _ _
  · exact .skip (h.construction p)
  · exact .ite (fun _ => .skip (staticAccess_mirrors h _ p)) fun _ => .unexpected
  · exact .skip (h.expression.bind fun e => (separator_mirrors .closeParen).bind fun _ => .pure rfl)
  · exact .unexpected

variable (hspanning : rules'.Spanning)

include hspanning

theorem suffixedRule_mirrors : (suffixedRule rules).MirrorsExpr χ (suffixedRule rules') :=
  h.primary.bind fun e => .withSteps (fun steps => suffixes_mirrors h steps e) (suffixes_steady hspanning _)

theorem argumentsRule_mirrors :
    (argumentsRule rules).Mirrors χ Ahead (List.map (Expr.renumber χ.ρ)) (argumentsRule rules') :=
  .peekIte rfl rfl (fun _ => .skip (.pure rfl)) (parenthesized_mirrors hspanning.expression h.expression _)

theorem newDictionary_mirrors (key value : Ty)
    (p : Position) : (newDictionary rules key value p).MirrorsExpr χ (newDictionary rules' key value p) := by
  have hentries : (withSteps (bracedList (entryRule rules key value))).Mirrors χ Ahead
      (List.map fun entry => (entry.1.renumber χ.ρ, entry.2.renumber χ.ρ))
      (withSteps (bracedList (entryRule rules' key value))) :=
    .withSteps (bracedList_mirrors (entryRule_mirrors h key value))
      (bracedList_steady (entryRule_spans hspanning key value))
  refine emptyArguments_mirrors.bind fun _ => .peekIte rfl rfl (fun _ => .skip (hentries.bind fun entries =>
    .pure ?_)) (.pure rfl)
  simp [Expr.renumber, Expr.renumberEntries_eq, ExprInfo.over, List.map_flatMap, List.flatMap_map]

theorem newSequence_mirrors (kind : SequenceKind) (element : Ty) (p : Position) :
    (newSequence rules kind element p).MirrorsExpr χ (newSequence rules' kind element p) := by
  have hitems : (do
      let items ← itemsRule rules element
      return Expr.newSequence (.over (.sequence kind element) p items) kind element items).MirrorsExpr χ (do
      let items ← itemsRule rules' element
      return Expr.newSequence (.over (.sequence kind element) p items) kind element items) := by
    refine MirrorsAt.bind (.withSteps (bracedList_mirrors (typedExpression_mirrors h element .collectionItem))
      (bracedList_steady (typedExpression_spans hspanning element .collectionItem))) fun items => .pure ?_
    simp [Expr.renumber, Expr.renumberAll_eq]
  cases kind with
  | array =>
    exact .peekIte rfl rfl (fun _ => .skip hitems) (.of_refuses fun _ _ =>
      .bind (P := fun _ _ => False) (.expected _) fun _ _ hfalse => hfalse.elim)
  | list =>
    exact emptyArguments_mirrors.bind fun _ => .peekIte rfl rfl (fun _ => .skip hitems) (.pure rfl)
  | queue => exact emptyArguments_mirrors.bind fun _ => .pure rfl
  | stack => exact emptyArguments_mirrors.bind fun _ => .pure rfl

theorem constructionRule_mirrors {type type' : Rule Ty} (htype : type.Mirrors χ Ahead id type') (p : Position) :
    (constructionRule type rules p).MirrorsExpr χ (constructionRule type' rules' p) := by
  refine htype.bind fun ty => .peekIte rfl rfl (fun kind => newArray_mirrors h ty p kind) ?_
  simp only [id]
  split
  · exact newSequence_mirrors h hspanning _ _ p
  · exact newDictionary_mirrors h hspanning _ _ p
  · exact (separator_mirrors .openParen).bind fun _ => h.arguments.bind fun arguments =>
      (memberFor_mirrors _ "new" (some arguments) p).bind fun member =>
        .pure (by simp [Expr.renumber, Expr.renumberAll_eq])

end Rules

/-- Whatever the rules for expressions read, they read in other surroundings as well, and where more rules may be
entered. -/
theorem exprRules_mirrored {depth depth' : Nat} (hdepth : depth ≤ depth') :
    (exprRules depth).Mirrored χ (exprRules depth') := by
  induction depth generalizing depth' with
  | zero =>
    constructor <;> first | exact .tooDeep | exact fun _ => .tooDeep | exact fun _ _ => .tooDeep
  | succ depth ih =>
    obtain ⟨depth', rfl⟩ := Nat.exists_eq_add_one_of_ne_zero (Nat.ne_zero_of_lt hdepth)
    have hdepth := Nat.le_of_succ_le_succ hdepth
    have ih := ih hdepth
    have hspanning := exprRules_spanning depth
    have hspanning' := exprRules_spanning depth'
    have htype : (typeRule depth).Mirrors χ Ahead id (typeRule depth') := typeRule_mirrors hdepth
    exact {
      expression := .named (ih.assignment.bind bounded_mirrors) _
      assignment := .named (assignmentRule_mirrors ih) _
      ternary := .named (ternaryRule_mirrors ih) _
      logicalOr := .named (leftToRight_mirrors ih.logicalAnd rfl rfl combineLogical_mirrors hspanning'.logicalAnd
        orOp?_plain combineLogical_still) _
      logicalAnd := .named (leftToRight_mirrors ih.equality rfl rfl combineLogical_mirrors hspanning'.equality
        andOp?_plain combineLogical_still) _
      equality := .named (leftToRight_mirrors ih.comparison rfl rfl combineInfix_mirrors hspanning'.comparison
        equalityOp?_plain combineInfix_still) _
      comparison := .named (leftToRight_mirrors ih.term rfl rfl combineInfix_mirrors hspanning'.term comparisonOp?_plain
        combineInfix_still) _
      term := .named (leftToRight_mirrors ih.factor rfl rfl combineInfix_mirrors hspanning'.factor termOp?_plain
        combineInfix_still) _
      factor := .named (leftToRight_mirrors ih.power rfl rfl combineInfix_mirrors hspanning'.power factorOp?_plain
        combineInfix_still) _
      power := .named (powerRule_mirrors ih) _
      unary := .named (unaryRule_mirrors ih (typeRule_spans depth) htype hspanning
        (exprRules_refusing depth).suffixedCast) _
      suffixed := .named (suffixedRule_mirrors ih hspanning') _
      primary := .named (primaryRule_mirrors ih) _
      arguments := .named (argumentsRule_mirrors ih hspanning') _
      call := fun name p => .named (callRule_mirrors hspanning ih.arguments name p) _
      construction := fun p => .named (constructionRule_mirrors ih hspanning' htype p) _ }

end Scriptlet.Grammar
