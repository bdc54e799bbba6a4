import Mathlib.Data.List.Forall2
import Scriptlet.Proofs.FunctionOrder

/-!
# Else if

The tokenizer joins every `else` with the `if` behind it, so that the grammar reads a chain of conditions in a loop and
not as statements nested in one another. The main result is that nothing else depends on it: a program that can be
read without joined words is read with them as well, and is the same up to the places of the `if` in its chains.
-/

namespace Scriptlet

namespace Grammar

open Rule

namespace Joined

variable {tokens tokens' behind behind' : List Token}

theorem append (h : Joined true tokens tokens') (hbehind : Joined true behind behind') :
    Joined true (tokens ++ behind) (tokens' ++ behind') := by
  induction h with
  | nil => exact hbehind
  | keep token _ ih => exact .keep token ih
  | join hjoins p q _ ih => exact .join hjoins p q ih

theorem of_joinElseIf (tokens : List Token) : Joined true tokens (Lexer.joinElseIf tokens) := by
  fun_induction Lexer.joinElseIf tokens with
  | case1 => exact .nil
  | case2 token => exact .refl _
  | case3 token next rest hjoin ih =>
    obtain ⟨kind, p⟩ := token
    obtain ⟨kind', q⟩ := next
    simp only [Bool.and_eq_true] at hjoin
    obtain rfl : kind = _ := eq_of_isKeyword hjoin.1
    obtain rfl : kind' = _ := eq_of_isKeyword hjoin.2
    exact .join rfl p q ih
  | case4 token next rest _ ih => exact .keep token ih

/-- Interpolated strings are expanded one by one, and the words that are joined are none. -/
theorem expand (h : Joined true tokens tokens') : Joined true (Expansion.expand tokens) (Expansion.expand tokens') := by
  induction h with
  | nil => exact .nil
  | keep token _ ih => exact (refl _).append ih
  | join hjoins p q _ ih => exact .join hjoins p q ih

theorem ite {c : Prop} [Decidable c] (hyes : Joined true tokens tokens') (hno : Joined true behind behind') :
    Joined true (if c then tokens else behind) (if c then tokens' else behind') := by
  split
  · exact hyes
  · exact hno

theorem skipPastSemicolon (h : Joined true tokens tokens') (depth : Nat) :
    Joined true (Grammar.skipPastSemicolon depth tokens) (Grammar.skipPastSemicolon depth tokens') := by
  induction h generalizing depth with
  | nil => exact .nil
  | join _ p q _ ih => exact ih depth
  | keep token h ih =>
    simp only [Grammar.skipPastSemicolon]
    split
    · exact .keep token h
    · exact .ite h (.ite (ih _) (.ite (ih _) (ih _)))
    · exact ih depth

theorem skipGroup (h : Joined true tokens tokens') (depth : Nat) :
    Joined true (Grammar.skipGroup depth tokens) (Grammar.skipGroup depth tokens') := by
  induction h generalizing depth with
  | nil => exact .nil
  | join _ p q _ ih => exact ih depth
  | keep token h ih =>
    simp only [Grammar.skipGroup]
    split
    · exact .keep token h
    · exact .ite (ih _) (.ite (.ite h (ih _)) (ih _))
    · exact ih depth

end Joined

/-- The same item of a program whose tokens have words joined. -/
inductive Item.Joins : Item → Item → Prop
  | function (signature : Signature) {body body' : List Token} (p : Position) (h : Joined true body body') :
      Joins (.function signature body p) (.function signature body' p)
  | declaration {tokens tokens' : List Token} (h : Joined true tokens tokens') :
      Joins (.declaration tokens) (.declaration tokens')

section Finding

variable {depth : Nat} {env : Env} {tokens tokens' rest : List Token}

theorem headRule_ahead : (headRule depth).Reads env tokens fun _ rest => Ahead rest := by
  refine .skip (.bind (fun _ _ _ => trivial : Reads _ _ _ fun _ _ => True) fun parameters middle _ => .peek ?_)
  split
  · next hopen =>
    obtain ⟨p, hmiddle⟩ := eq_cons_of_firstKind (eq_of_isSeparator hopen) (by simp)
    exact .pure (hmiddle ▸ .of_kind (by simp) _)
  · exact .expected _

variable {item : Item} {steps : Steps}

theorem typedItem_joined (henv : env.Renumbers id env) (htokens : Joined true tokens tokens')
    (hok : typedItem depth env tokens = .ok (item, rest)) :
    ∃ item' rest', typedItem depth env tokens' = .ok (item', rest') ∧ item.Joins item' ∧ Joined true rest rest' := by
  have htyped : (typedName depth).Mirrors ⟨id, true⟩ (fun _ => True) id (typedName depth) := typedName_mirrors depth
  cases item with
  | function signature body p =>
    obtain ⟨behind, hname, hparen, hhead, rfl, rfl⟩ := typedItem_function.mp hok
    obtain ⟨found, behind', hname', hsame, hbehind⟩ := htyped.whole henv htokens trivial hname
    obtain rfl : found = (signature.returns, signature.name) := hsame
    have hparameters : (enter .function headRule depth).MirrorsAt ⟨id, true⟩ (some (.separator .openParen)) Ahead id id
        (enter .function headRule depth) := .enter (headRule_mirrors _) _ _
    have hopen := hbehind.at_separator (eq_of_isSeparator hparen)
    have hahead := Reads.enter (fun _ => headRule_ahead) depth _ _ hhead
    obtain ⟨parameters, body', hhead', hsame, hbody⟩ := hparameters.whole henv hopen hahead hhead
    obtain rfl : parameters = signature.parameters := hsame
    obtain ⟨q, _, _, -, rfl, -⟩ := hopen
    refine ⟨_, _, typedItem_function.mpr ⟨_, hname', rfl, hhead', rfl, rfl⟩, ?_, hbody.skipGroup 0⟩
    have hplace : firstPosition tokens' = firstPosition tokens := by cases htokens <;> rfl
    rw [hplace]
    exact .function signature _ hbody
  | declaration whole =>
    obtain ⟨found, behind, hname, hparen, rfl, rfl⟩ := typedItem_declaration.mp hok
    obtain ⟨found', behind', hname', -, hbehind⟩ := htyped.whole henv htokens trivial hname
    have hparen' : (firstKind behind').isSeparator .openParen = false := by
      cases hbehind <;> exact hparen
    exact ⟨_, _, typedItem_declaration.mpr ⟨found', behind', hname', hparen', rfl, rfl⟩, .declaration htokens,
      htokens.skipPastSemicolon 0⟩

theorem itemOf_joined (henv : env.Renumbers id env) (htokens : Joined true tokens tokens') (kind : TokenKind)
    (hok : itemOf depth kind env tokens = .ok (item, rest)) :
    ∃ item' rest', itemOf depth kind env tokens' = .ok (item', rest') ∧ item.Joins item' ∧ Joined true rest rest' := by
  rcases itemOf_reads kind item rest hok with ⟨hkind, hok⟩ | ⟨hkind, rfl, rfl⟩
  · rw [hkind]
    exact typedItem_joined henv htokens hok
  · rw [hkind]
    exact ⟨_, _, rfl, .declaration htokens, htokens.skipPastSemicolon 0⟩

theorem IsPiece.length_lt (h : IsPiece tokens item rest) : rest.length < tokens.length := by
  obtain ⟨piece, hne, rfl, -⟩ := h
  have := List.length_pos_iff.mpr hne
  rw [List.length_append]
  omega

theorem itemsFrom_of_end {step : Token} (hend : (firstKind tokens).isEnd = true) :
    itemsFrom depth (step :: steps) env tokens = .ok ([], tokens) := by
  rw [itemsFrom_cons, bind_ok (rfl : peek env tokens = .ok (firstKind tokens, tokens)), if_pos hend]
  rfl

theorem itemsFrom_of_not_end {step : Token} (hend : ¬ (firstKind tokens).isEnd = true) :
    itemsFrom depth (step :: steps) env tokens = (do
      return (← itemOf depth (firstKind tokens)) :: (← itemsFrom depth steps)) env tokens := by
  rw [itemsFrom_cons, bind_ok (rfl : peek env tokens = .ok (firstKind tokens, tokens)), if_neg hend]

/-- The same items are found, as long as there are more steps than tokens. -/
theorem itemsFrom_joined (henv : env.Renumbers id env) {steps' : Steps} (htokens : Joined true tokens tokens')
    {found : List Item} (hsteps : tokens.length < steps.length) (hsteps' : tokens'.length < steps'.length)
    (hok : itemsFrom depth steps env tokens = .ok (found, rest)) : ∃ found' rest',
      itemsFrom depth steps' env tokens' = .ok (found', rest') ∧ List.Forall₂ Item.Joins found found' := by
  induction steps generalizing steps' tokens tokens' found with
  | nil => cases hsteps
  | cons step steps ih =>
    cases steps' with
    | nil => cases hsteps'
    | cons step' steps' =>
      cases htokens with
      | nil =>
        rw [itemsFrom_of_end rfl] at hok
        cases hok
        exact ⟨[], [], itemsFrom_of_end rfl, .nil⟩
      | join _ p q _ => cases hok
      | @keep token tail tail' htail =>
        by_cases hend : (firstKind (token :: tail)).isEnd = true
        · rw [itemsFrom_of_end hend] at hok
          cases hok
          exact ⟨[], token :: tail', itemsFrom_of_end hend, .nil⟩
        · rw [itemsFrom_of_not_end hend] at hok
          obtain ⟨item, behind, hitem, hok⟩ := Rule.ok_of_bind hok
          obtain ⟨others, last, hothers, ⟨⟩⟩ := Rule.ok_of_bind hok
          obtain ⟨item', behind', hitem', hjoins, hbehind⟩ := itemOf_joined henv (.keep token htail) _ hitem
          have hitem' : itemOf depth (firstKind (token :: tail')) env (token :: tail') = .ok (item', behind') := hitem'
          have htaken := IsPiece.length_lt (itemOf_isPiece depth item behind hitem)
          have htaken' := IsPiece.length_lt (itemOf_isPiece depth item' behind' hitem')
          simp only [List.length_cons] at hsteps hsteps' htaken htaken'
          have hleft : behind'.length < steps'.length := by omega
          obtain ⟨others', last', hothers', hall⟩ := ih hbehind (by omega) hleft hothers
          refine ⟨item' :: others', last', ?_, .cons hjoins hall⟩
          have hend' : ¬ (firstKind (token :: tail')).isEnd = true := hend
          rw [itemsFrom_of_not_end hend']
          exact (bind_ok hitem').trans (bind_ok hothers')

theorem items_joined (henv : env.Renumbers id env) (htokens : Joined true tokens tokens') {found : List Item}
    (hok : items env tokens = .ok found) :
    ∃ found', items env tokens' = .ok found' ∧ List.Forall₂ Item.Joins found found' := by
  obtain ⟨⟨found, rest⟩, hfound, ⟨⟩⟩ := exists_ok_of_bind hok
  have hsteps : tokens'.length < (⟨.endOfInput, .start⟩ :: tokens' : Steps).length := Nat.lt_succ_self _
  obtain ⟨found', rest', hfound', hall⟩ :=
    itemsFrom_joined (henv.enter .program) htokens (Nat.lt_succ_self _) hsteps hfound
  refine ⟨found', ?_, hall⟩
  have hitems : enter .program (fun depth => withSteps (itemsFrom depth)) maxDepth env tokens' = .ok (found', rest') :=
    hfound'
  rw [items, hitems]
  rfl

end Finding

section Passes

variable {found found' : List Item}

theorem declareFunctions_joined (h : List.Forall₂ Item.Joins found found') (env : Env) :
    declareFunctions env found' = declareFunctions env found := by
  induction h generalizing env with
  | nil => rfl
  | cons hitem _ ih =>
    cases hitem with
    | function signature p _ =>
      rw [declareFunctions, declareFunctions]
      simp only [ih]
    | declaration _ => exact ih env

variable {env : Env}

theorem compileDeclaration_joined (henv : env.Renumbers id env) {tokens tokens' : List Token}
    (htokens : Joined true tokens tokens') {found : Option Declaration × Declared}
    (hok : compileDeclaration env tokens = .ok found) : compileDeclaration env tokens' = .ok found := by
  obtain ⟨⟨found, rest⟩, hfound, ⟨⟩⟩ := exists_ok_of_bind hok
  have hself := (wholeDeclaration_mirrors ⟨id, false⟩).eq_self Function.injective_id henv trivial hfound
  obtain ⟨found', rest', hfound', hsame, -⟩ := (wholeDeclaration_mirrors ⟨id, true⟩).whole henv htokens trivial hfound
  obtain rfl : found' = found := hsame.trans hself
  rw [compileDeclaration, hfound']
  rfl

theorem compileDeclarations_joined (henv : env.Renumbers id env)
    (h : List.Forall₂ Item.Joins found found') {last : Env} {declarations : List Declaration}
    (hok : compileDeclarations env found = .ok (declarations, last)) :
    compileDeclarations env found' = .ok (declarations, last) ∧ last.Renumbers id last := by
  induction h generalizing env declarations with
  | nil =>
    cases hok
    exact ⟨rfl, henv⟩
  | cons hitem _ ih =>
    cases hitem with
    | function signature p _ => exact ih henv hok
    | declaration htokens =>
      obtain ⟨⟨declaration, declared⟩, hdeclaration, hok⟩ := exists_ok_of_bind hok
      obtain ⟨⟨others, last⟩, hothers, ⟨⟩⟩ := exists_ok_of_bind hok
      obtain ⟨⟨_, rest⟩, hread, ⟨⟩⟩ := exists_ok_of_bind hdeclaration
      have hvalue := wholeDeclaration_isValue env _ _ _ hread
      obtain ⟨hothers', hlast⟩ := ih (henv.addDeclared hvalue) hothers
      rw [compileDeclarations, compileDeclaration_joined henv htokens hdeclaration]
      simp only [Bind.bind, Except.bind, hothers']
      exact ⟨rfl, hlast⟩

theorem compileFunction_joined (henv : env.Renumbers id env) {body body' : List Token} (hbody : Joined true body body')
    {signature : Signature} {p : Position} {f : Function} (hok : compileFunction env signature body p = .ok f) :
    ∃ f', compileFunction env signature body' p = .ok f' ∧ f'.forgetElseIf = f.forgetElseIf := by
  obtain ⟨⟨statements, rest⟩, hstatements, ⟨⟩⟩ := exists_ok_of_bind hok
  have hself := (wholeBody_mirrors ⟨id, false⟩ signature).eq_self Statement.map_shown_injective henv trivial hstatements
  obtain ⟨statements', rest', hstatements', hview, -⟩ :=
    (wholeBody_mirrors ⟨id, true⟩ signature).whole henv hbody trivial hstatements
  refine ⟨⟨signature, statements', p⟩, ?_, ?_⟩
  · rw [compileFunction, hstatements']
    rfl
  · rw [Function.forgetElseIf, Function.forgetElseIf, Statement.forgetElseIfAll_eq, Statement.forgetElseIfAll_eq]
    exact congrArg (Function.mk signature · p) (hview.trans (congrArg _ hself))

theorem compileFunctions_joined (henv : env.Renumbers id env)
    (h : List.Forall₂ Item.Joins found found') {functions : List Function}
    (hok : compileFunctions env found = .ok functions) : ∃ functions', compileFunctions env found' = .ok functions' ∧
      functions'.map Function.forgetElseIf = functions.map Function.forgetElseIf := by
  induction h generalizing functions with
  | nil => exact ⟨functions, hok, rfl⟩
  | cons hitem _ ih =>
    cases hitem with
    | declaration _ => exact ih hok
    | function signature p hbody =>
      obtain ⟨f, hf, hok⟩ := exists_ok_of_bind hok
      obtain ⟨others, hothers, ⟨⟩⟩ := exists_ok_of_bind hok
      obtain ⟨f', hf', hforget⟩ := compileFunction_joined henv hbody hf
      obtain ⟨others', hothers', hforgets⟩ := ih hothers
      refine ⟨f' :: others', ?_, ?_⟩
      · rw [compileFunctions, hf', hothers']
        rfl
      · rw [List.map_cons, List.map_cons, hforget, hforgets]

theorem program_joined {registry : Registry} {tokens tokens' : List Token} (htokens : Joined true tokens tokens')
    {p : Program} (hok : program registry tokens = .ok p) :
    ∃ p', program registry tokens' = .ok p' ∧ p'.forgetElseIf = p.forgetElseIf := by
  obtain ⟨found, declared, env, hfound, hdeclared, hdeclarations, hfunctions⟩ := passes_of_program hok
  have hstart := (Env.Known.initial registry).renumbers (Env.Known.initial registry) (ρ := Equiv.refl Nat) fun _ => rfl
  obtain ⟨found', hfound', hall⟩ := items_joined hstart htokens.expand hfound
  obtain ⟨hknown, -⟩ := (Env.Known.initial registry).of_declareFunctions hdeclared
  have hrenumbers := hknown.renumbers hknown (ρ := Equiv.refl Nat) fun _ => rfl
  obtain ⟨hdeclarations', henv⟩ := compileDeclarations_joined hrenumbers hall hdeclarations
  obtain ⟨functions', hfunctions', hforget⟩ := compileFunctions_joined henv hall hfunctions
  refine ⟨⟨p.declarations, functions'⟩, program_of_passes hfound' ?_ hdeclarations' hfunctions', ?_⟩
  · rw [declareFunctions_joined hall, hdeclared]
  · rw [Program.forgetElseIf, Program.forgetElseIf, hforget]

end Passes

end Grammar

/-- A source text that is compiled without joined words is compiled with them, to the same program up to the places of
the `if` in its chains. The loop along a chain of the one program does what the nested statements of the other do. -/
theorem else_if_as_nested {registry : Registry} {source : String} {tokens : List Token} {p : Program}
    (htokens : Lexer.rawTokens registry.resolveAlias source = .ok tokens)
    (hp : Grammar.program registry tokens = .ok p) :
    (∃ joined p', (Lexer.rawTokens registry.resolveAlias source).map Lexer.joinElseIf = .ok joined ∧
      Grammar.program registry joined = .ok p' ∧ p'.forgetElseIf = p.forgetElseIf) ∧
    ∀ (s : Setting) (invoke : Invoke) (rounds : Nat) (q : Position) (condition : Expr) (thenBranch : Statement)
      (elseBranch : Option Statement) (nested : Statement),
      (Statement.conditional q condition thenBranch elseBranch).forgetElseIf = nested.forgetElseIf →
        Statement.walk s invoke rounds condition thenBranch elseBranch = nested.execute s invoke rounds := by
  constructor
  · obtain ⟨p', hp', hforget⟩ := Grammar.program_joined (.of_joinElseIf tokens) hp
    exact ⟨Lexer.joinElseIf tokens, p', by rw [htokens]; rfl, hp', hforget⟩
  · intro s invoke rounds q condition thenBranch elseBranch nested hforget
    calc Statement.walk s invoke rounds condition thenBranch elseBranch
      _ = (Statement.conditional q condition thenBranch elseBranch).execute s invoke rounds :=
        Statement.walk_eq_execute s invoke rounds q condition thenBranch elseBranch
      _ = (Statement.conditional q condition thenBranch elseBranch).forgetElseIf.execute s invoke rounds :=
        (Statement.execute_forgetElseIf s invoke rounds _).symm
      _ = nested.forgetElseIf.execute s invoke rounds := by rw [hforget]
      _ = nested.execute s invoke rounds := Statement.execute_forgetElseIf s invoke rounds nested

/-- A chain of three conditions, and an `if` of its own in the last branch. -/
def gradedBranches : String :=
  "int f(int n)\x7bif(n<0)return 0;else if(n<9)return 1;else if(n<99)return 2;else\x7bif(n<999)return 3;return 4;\x7d\x7d"

theorem else_if_as_nested_graded : ∃ tokens p joined p',
    Lexer.rawTokens Registry.standard.resolveAlias gradedBranches = .ok tokens ∧
      Grammar.program .standard tokens = .ok p ∧
      (Lexer.rawTokens Registry.standard.resolveAlias gradedBranches).map Lexer.joinElseIf = .ok joined ∧
      tokens.length = joined.length + 2 ∧ Grammar.program .standard joined = .ok p' ∧
      p'.forgetElseIf = p.forgetElseIf ∧ ∀ s invoke rounds condition,
        Statement.walk s invoke rounds condition (.breakStatement .start)
            (some (.conditional ⟨1, 9⟩ condition (.continueStatement .start) none)) =
          (Statement.conditional .start condition (.breakStatement .start)
            (some (.conditional ⟨1, 14⟩ condition (.continueStatement .start) none))).execute s invoke rounds := by
  have hrun : ((Lexer.rawTokens Registry.standard.resolveAlias gradedBranches).toOption.any fun tokens =>
      (Grammar.program .standard tokens).toOption.any fun _ =>
        tokens.length = (Lexer.joinElseIf tokens).length + 2) = true := by
    decide +kernel
  obtain ⟨tokens, htokens, hrun⟩ := exists_ok_of_any hrun
  obtain ⟨p, hp, hlength⟩ := exists_ok_of_any hrun
  obtain ⟨⟨joined, p', hjoined, hp', hforget⟩, hwalk⟩ := else_if_as_nested htokens hp
  have heq := hjoined
  rw [htokens] at heq
  obtain rfl : Lexer.joinElseIf tokens = joined := Except.ok.inj heq
  exact ⟨tokens, p, _, p', htokens, hp, hjoined, of_decide_eq_true hlength, hp', hforget,
    fun s invoke rounds condition =>
      hwalk s invoke rounds .start condition _ _ _ (by simp [Statement.forgetElseIf, Statement.forgetPlace])⟩

end Scriptlet
