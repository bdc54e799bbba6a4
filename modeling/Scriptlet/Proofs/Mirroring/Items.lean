import Scriptlet.Proofs.ItemBoundaries
import Scriptlet.Proofs.Mirroring.Statements

/-!
# Items in other surroundings

The head of a function, the body of a function and a declaration at the top of a program are read in the same way in
front of other tokens. So an item that is read at one place of a program is found and read at every other place.
-/

namespace Scriptlet.Grammar

open Rule

variable {χ : Change}

section Heads

theorem parameterRule_mirrors {type : Rule Ty} (h : type.Mirrors χ Ahead id type) :
    (parameterRule type).Mirrors χ Ahead id (parameterRule type) :=
  .here fun _ => h.bind fun _ => identifier_mirrors.bind fun _ => .ite (fun _ => .fail _ _) fun _ => .pure rfl

theorem parametersRule_mirrors {type : Rule Ty} (hspans : type.Spans false [] []) (h : type.Mirrors χ Ahead id type) :
    (parametersRule type).Mirrors χ Ahead id (parametersRule type) :=
  .peekIte rfl rfl (fun _ => .skip (.pure rfl))
    (.congr (parenthesized_mirrors (parameterRule_spans hspans) (parameterRule_mirrors h) _) List.map_id)

theorem headRule_mirrors (kind : TokenKind) (depth : Nat) :
    (headRule depth).MirrorsAt χ (some kind) Ahead id id (headRule depth) :=
  .skip ((MirrorsAt.enter (fun depth => parametersRule_mirrors (typeRule_spans depth)
    (typeRule_mirrors (Nat.le_refl depth))) _ depth).bind fun _ => .peekIte rfl rfl (fun _ => .pure rfl) (.expected _))

theorem typedName_mirrors {ends : List Token → Prop} (depth : Nat) :
    (typedName depth).Mirrors χ ends id (typedName depth) :=
  .beforeIdentifier (typeRule_mirrors (Nat.le_refl depth)) fun _ _ => .pure rfl

end Heads

section Bodies

variable {rules rules' : StatementRules} {ends : List Token → Prop}

theorem withParameters_mirrors {α β ε : Type} {view : β → ε} {g : α → β} {rule : Rule α} {rule' : Rule β}
    (h : rule.MirrorsAt χ none ends view g rule') (parameters : List Parameter) :
    (withParameters rule parameters).MirrorsAt χ none ends view g (withParameters rule' parameters) := by
  induction parameters with
  | nil => exact h
  | cons parameter parameters ih =>
    have hvalue : (Symbol.variable parameter.ty).IsValue := trivial
    exact .hereAny fun p p' => (expectFresh_mirrors parameter.name p p').andThen fun _ =>
      .inScopes (fun _ _ henv => henv.insert hvalue parameter.name) ih

theorem functionBody_mirrors (h : rules.Mirrored χ rules') (signature : Signature) :
    (functionBody rules signature).MirrorsBlock χ ends (functionBody rules' signature) :=
  .inScopes (fun _ _ henv => henv.beginFunction _) ((separator_mirrors .openBrace).andThen fun _ =>
    withParameters_mirrors (h.block.mono fun _ _ => trivial) signature.parameters)

theorem topVariable_mirrors (h : rules.Mirrored χ rules') (storage : Storage) (p : Position) :
    (topVariable rules storage p).Mirrors χ ends (fun d => (d.1.map (Declaration.renumber χ.ρ), d.2))
      (topVariable rules' storage p) :=
  h.variableDeclaration.andThen fun _ => .pure rfl

theorem declarationRule_mirrors (hspanning : rules.Spanning) (h : rules.Mirrored χ rules') :
    (declarationRule rules).Mirrors χ ends (fun d => (d.1.map (Declaration.renumber χ.ρ), d.2))
      (declarationRule rules') := by
  have htakes : ∀ env tokens, (declarationRule rules).Reads env tokens fun _ rest => rest.length < tokens.length :=
    fun env tokens d rest hok => ((declarationRule_concludes hspanning).spans [] d rest hok).length_lt
  refine .herePeek (fun p kind => ?_) (topVariable_mirrors h .member) htakes
  split
  · exact .skip (topVariable_mirrors h .shared p)
  · exact .skip (topVariable_mirrors h .required p)
  · exact .skip (h.constantDeclaration.andThen fun _ => .pure rfl)
  · exact (topVariable_mirrors h .member p).at_kind

theorem declarationRule_isValue (h : ∀ env, rules.constantDeclaration.Gives env fun d => d.2.IsValue) (env : Env) :
    (declarationRule rules).Gives env fun d => ∀ e ∈ d.2, e.2.IsValue := by
  have htop : ∀ storage p, (topVariable rules storage p).Gives env fun d => ∀ e ∈ d.2, e.2.IsValue :=
    fun _ _ => .after fun _ => .pure (by simp [Symbol.IsValue])
  refine .after fun p => .after fun kind => ?_
  split
  · exact .after fun _ => htop _ _
  · exact .after fun _ => htop _ _
  · exact .after fun _ => (h env).bind fun d hd => .pure (by simpa using hd)
  · exact htop _ _

theorem wholeBody_mirrors (χ : Change) (signature : Signature) :
    (enter .function (fun depth => functionBody (statementRules depth) signature) maxDepth).MirrorsBlock χ
      (fun _ => True) (enter .function (fun depth => functionBody (statementRules depth) signature) maxDepth) :=
  .enter (fun depth => functionBody_mirrors (statementRules_mirrored (Nat.le_refl depth)).1 signature) _ _

theorem wholeDeclaration_mirrors (χ : Change) :
    (enter .program (enter .declaration fun depth => declarationRule (statementRules depth)) maxDepth).Mirrors χ
      (fun _ => True) (fun d => (d.1.map (Declaration.renumber χ.ρ), d.2))
      (enter .program (enter .declaration fun depth => declarationRule (statementRules depth)) maxDepth) :=
  .enter (.enter (fun depth => declarationRule_mirrors (statementRules_spanning depth)
    (statementRules_mirrored (Nat.le_refl depth)).1) _) _ _

theorem wholeDeclaration_isValue (env : Env) :
    (enter .program (enter .declaration fun depth => declarationRule (statementRules depth)) maxDepth).Gives env
      fun d => ∀ e ∈ d.2, e.2.IsValue := by
  refine .enter (fun depth => .enter (fun depth => declarationRule_isValue ?_ _) _) _
  exact (statementRules_mirrored (χ := ⟨id, false⟩) (Nat.le_refl depth)).1.constant_isValue

end Bodies

/-- The body of a function is read, and ends before the tokens behind it. -/
def BodyRead (env : Env) (signature : Signature) (body : List Token) (statements : List Statement) : Prop :=
  ∃ rest, enter .function (fun depth => functionBody (statementRules depth) signature) maxDepth env (body ++ rest) =
    .ok (statements, rest)

/-- A declaration at the top of a program is read, and ends before the tokens behind it. -/
def DeclarationRead (env : Env) (tokens : List Token) (found : Option Declaration × Declared) : Prop :=
  ∃ rest, enter .program (enter .declaration fun depth => declarationRule (statementRules depth)) maxDepth env
    (tokens ++ rest) = .ok (found, rest)

section Reading

variable {env env' : Env}

theorem BodyRead.compileFunction {ρ : Nat → Nat} {signature : Signature} {body : List Token}
    {statements : List Statement} (h : BodyRead env signature body statements) (henv : env.Renumbers ρ env')
    (rest : List Token) (p : Position) :
    compileFunction env' signature (body ++ rest) p = .ok ⟨signature, Statement.renumberAll ρ statements, p⟩ := by
  obtain ⟨behind, hok⟩ := h
  have hok : _ = Except.ok (statements, [] ++ behind) := hok
  have hread := (wholeBody_mirrors _ signature).unjoined Statement.map_shown_injective henv rest trivial hok
  rw [Grammar.compileFunction, hread]
  rfl

theorem DeclarationRead.compileDeclaration {ρ : Nat → Nat} {tokens : List Token} {found : Option Declaration × Declared}
    (h : DeclarationRead env tokens found) (henv : env.Renumbers ρ env') (rest : List Token) :
    compileDeclaration env' (tokens ++ rest) = .ok (found.1.map (Declaration.renumber ρ), found.2) := by
  obtain ⟨behind, hok⟩ := h
  have hok : _ = Except.ok (found, [] ++ behind) := hok
  have hread := (wholeDeclaration_mirrors _).unjoined Function.injective_id henv rest trivial hok
  rw [Grammar.compileDeclaration, hread]
  rfl

theorem BodyRead.braced {signature : Signature} {body : List Token} {statements : List Statement}
    (h : BodyRead env signature body statements) : ∃ p q run, Nests true [] run [] ∧
      body = ⟨.separator .openBrace, p⟩ :: (run ++ [⟨.separator .closeBrace, q⟩]) := by
  obtain ⟨rest, hok⟩ := h
  have hreads : (enter .function (fun depth => functionBody (statementRules depth) signature) maxDepth).Reads env
      (body ++ rest) fun _ rest' => ∃ p behind, body ++ rest = ⟨.separator .openBrace, p⟩ :: behind ∧
        ∃ last, Through true [] behind [] last ∧ firstKind last = .separator .closeBrace ∧ rest' = last.tail := by
    refine .enter (fun depth => .within ((separator_reads _).bind fun _ behind hopen body' last hlast => ?_)) _
    obtain ⟨hkind, rfl⟩ := hopen
    obtain ⟨p, htokens⟩ := eq_cons_of_firstKind hkind (by simp)
    exact ⟨p, _, htokens, withParameters_concludes (statementRules_spanning depth).block _ [] body' last hlast⟩
  obtain ⟨p, behind, htokens, last, ⟨run, rfl, hrun⟩, hclose, hlast⟩ := hreads _ _ hok
  obtain ⟨q, hlast'⟩ := eq_cons_of_firstKind hclose (by simp)
  have hwhole : body ++ rest = ⟨.separator .openBrace, p⟩ :: (run ++ [⟨.separator .closeBrace, q⟩]) ++ rest := by
    rw [htokens, hlast', ← hlast]
    simp
  exact ⟨p, q, run, hrun, List.append_cancel_right hwhole⟩

theorem DeclarationRead.concluded {tokens : List Token} {found : Option Declaration × Declared}
    (h : DeclarationRead env tokens found) :
    ∃ p run, Nests false [] run [] ∧ tokens = run ++ [⟨.separator .semicolon, p⟩] := by
  obtain ⟨rest, hok⟩ := h
  have hconcludes := Reads.enter (Q := fun _ rest' => ∃ behind, Through false [] (tokens ++ rest) [] behind ∧
    firstKind behind = .separator .semicolon ∧ rest' = behind.tail) (Reads.enter fun depth =>
      declarationRule_concludes (statementRules_spanning depth) []) maxDepth _ _ hok
  obtain ⟨behind, ⟨run, htokens, hrun⟩, hkind, hrest⟩ := hconcludes
  obtain ⟨p, hbehind⟩ := eq_cons_of_firstKind hkind (by simp)
  have hwhole : tokens ++ rest = run ++ [⟨.separator .semicolon, p⟩] ++ rest := by
    rw [htokens, hbehind, ← hrest]
    simp
  exact ⟨p, run, hrun, List.append_cancel_right hwhole⟩

theorem skipGroup_braced {p q : Position} {run : List Token} (hrun : Nests true [] run []) (rest : List Token) :
    skipGroup 0 (⟨.separator .openBrace, p⟩ :: (run ++ [⟨.separator .closeBrace, q⟩]) ++ rest) = rest := by
  have hskip : skipGroup 1 (run ++ ([⟨.separator .closeBrace, q⟩] ++ rest)) =
      skipGroup 1 ([⟨.separator .closeBrace, q⟩] ++ rest) := hrun.skipGroup_append 0
  rw [List.cons_append, List.append_assoc]
  change skipGroup 1 _ = _
  rw [hskip]
  rfl

theorem skipPastSemicolon_concluded {p : Position} {run : List Token} (hrun : Nests false [] run [])
    (rest : List Token) : skipPastSemicolon 0 (run ++ [⟨.separator .semicolon, p⟩] ++ rest) = rest := by
  have hskip : skipPastSemicolon 0 (run ++ ([⟨.separator .semicolon, p⟩] ++ rest)) =
      skipPastSemicolon 0 ([⟨.separator .semicolon, p⟩] ++ rest) := hrun.skipPastSemicolon_append
  rw [List.append_assoc, hskip]
  rfl

end Reading

section Finding

variable {depth : Nat} {env : Env} {tokens : List Token}

theorem firstKind_append {front : List Token} (h : front ≠ []) (behind behind' : List Token) :
    firstKind (front ++ behind') = firstKind (front ++ behind) := by
  obtain ⟨token, front, rfl⟩ := List.exists_cons_of_ne_nil h
  rfl

theorem firstPosition_append {front : List Token} (h : front ≠ []) (behind behind' : List Token) :
    firstPosition (front ++ behind') = firstPosition (front ++ behind) := by
  obtain ⟨token, front, rfl⟩ := List.exists_cons_of_ne_nil h
  rfl

theorem Nests.ne_semicolon {pending after : List Separator} {run : List Token} (h : Nests false pending run after) :
    ∀ token ∈ run, token.kind ≠ .separator .semicolon := by
  induction h with
  | nil => simp
  | opening hsign _ ih =>
    refine List.forall_mem_cons.mpr ⟨?_, ih⟩
    rintro ⟨⟩
    cases hsign
  | closing hsign _ ih =>
    refine List.forall_mem_cons.mpr ⟨?_, ih⟩
    rintro ⟨⟩
    cases hsign
  | plain hkind _ ih =>
    refine List.forall_mem_cons.mpr ⟨?_, ih⟩
    rintro ⟨⟩
    cases hkind

theorem Piece.Found.function {ρ : Nat → Nat} (henv : env.Renumbers ρ env) {signature : Signature} {p : Position}
    {head body rest : List Token} (h : (Piece.function signature p head body).Found depth env rest) {inner : Env}
    {statements : List Statement} (hread : BodyRead inner signature body statements) (rest' : List Token) :
    (Piece.function signature p head body).Found depth env rest' := by
  obtain ⟨p', q, run, hrun, hbody⟩ := hread.braced
  have hne : head ++ body ≠ [] := by simp [hbody]
  have hahead : Ahead body := by
    rw [hbody]
    exact .of_kind (by simp) _
  unfold Piece.Found at h ⊢
  dsimp only [Piece.text, Piece.item] at h ⊢
  rcases itemOf_reads _ _ _ h with ⟨hkind, hok⟩ | ⟨-, hitem, -⟩
  · obtain ⟨behind, hname, hparen, hhead, rfl, -⟩ := typedItem_function.mp hok
    have htyped : (typedName depth).Mirrors ⟨ρ, false⟩ (fun _ => True) id (typedName depth) := typedName_mirrors depth
    have hparameters : (enter .function headRule depth).MirrorsAt ⟨ρ, false⟩ (some (.separator .openParen)) Ahead id id
        (enter .function headRule depth) := .enter (headRule_mirrors _) _ _
    obtain ⟨more, rfl, hmore, -⟩ := exists_front (hparameters.shrinks hhead) (htyped.shrinks hname)
    have hsome := (hahead.of_isSuffix hmore).1
    have hopen : firstKind (more ++ []) = .separator .openParen := by
      rw [firstKind_append hsome rest, eq_of_isSeparator hparen]
    rw [List.append_nil] at hopen
    obtain ⟨body', hhead', hbody'⟩ :=
      hparameters.exists_left henv rest' ((Joined.refl more).at_separator hopen) hahead hhead
    rw [hbody'.eq_of_not_joins] at hhead'
    rw [firstKind_append hne rest, hkind]
    refine typedItem_function.mpr ⟨more ++ rest', htyped.unjoined Function.injective_id henv rest' trivial hname, ?_,
      hhead', firstPosition_append hne _ _, ?_⟩
    · rwa [firstKind_append hsome rest]
    · rw [hbody]
      exact (skipGroup_braced hrun rest').symm
  · cases hitem

/-- The type and the name at the beginning of a declaration stand in front of its semicolon. -/
theorem typedName_before_semicolon {p : Position} {run rest behind : List Token} {found : Ty × String}
    (h : typedName depth env (run ++ [⟨.separator .semicolon, p⟩] ++ rest) = .ok (found, behind)) :
    ∃ more, more ≠ [] ∧ behind = more ++ rest := by
  obtain ⟨taken, -, htokens, htaken⟩ := typedName_spans depth [] found behind h
  rw [List.append_assoc] at htokens
  rcases List.append_eq_append_iff.mp htokens with ⟨beyond, rfl, hrest⟩ | ⟨more, rfl, rfl⟩
  · cases beyond with
    | nil =>
      refine ⟨[⟨.separator .semicolon, p⟩], by simp, ?_⟩
      simpa using hrest.symm
    | cons token beyond =>
      cases hrest
      exact absurd rfl (htaken.ne_semicolon ⟨.separator .semicolon, p⟩ (by simp))
  · exact ⟨more ++ [⟨.separator .semicolon, p⟩], by simp, by simp⟩

theorem Piece.Found.declaration {ρ : Nat → Nat} (henv : env.Renumbers ρ env) {rest : List Token}
    (h : (Piece.declaration tokens).Found depth env rest) {inner : Env} {found : Option Declaration × Declared}
    (hread : DeclarationRead inner tokens found) (rest' : List Token) :
    (Piece.declaration tokens).Found depth env rest' := by
  obtain ⟨p, run, hrun, rfl⟩ := hread.concluded
  have hne : run ++ [⟨.separator .semicolon, p⟩] ≠ [] := by simp
  have hskip := skipPastSemicolon_concluded (p := p) hrun rest'
  unfold Piece.Found at h ⊢
  dsimp only [Piece.text, Piece.item] at h ⊢
  rw [firstKind_append hne rest]
  rcases itemOf_reads _ _ _ h with ⟨hkind, hok⟩ | ⟨hkind, -, -⟩
  · obtain ⟨name, behind, hname, hparen, -, -⟩ := typedItem_declaration.mp hok
    obtain ⟨more, hmore, rfl⟩ := typedName_before_semicolon hname
    have htyped : (typedName depth).Mirrors ⟨ρ, false⟩ (fun _ => True) id (typedName depth) := typedName_mirrors depth
    rw [hkind]
    have hname' := htyped.unjoined Function.injective_id henv rest' trivial hname
    refine typedItem_declaration.mpr ⟨name, more ++ rest', hname', ?_, rfl, hskip.symm⟩
    rwa [firstKind_append hmore rest]
  · rw [hkind, takeDeclaration, hskip]

end Finding

end Scriptlet.Grammar
