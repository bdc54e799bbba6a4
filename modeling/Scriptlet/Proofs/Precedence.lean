import Scriptlet.Proofs.Mirroring
import Scriptlet.Proofs.OperatorChains

/-!
# Precedence

The rules for expressions know nothing of cuts. Each of them reads the operands of its level by the rule of the next and
puts them together in a loop, and only powers come back to their own rule. The main result is that they arrive at the tree
into which the chain splits, and that a chain of ints cannot go wrong except by its size.
-/

namespace Scriptlet.Grammar

open Rule

/-- Surroundings in which the inputs of an expression are declared, and nothing else. -/
structure Env.Declares (classes : Hierarchy) (inputs : List Parameter) (env : Env) : Prop where
  classes : env.registry.classes = classes
  lookup_eq : ∀ input ∈ inputs, env.scopes.lookup input.name = some (.variable input.ty)
  exists_input : ∀ name symbol, env.scopes.lookup name = some symbol →
    ∃ ty, symbol = .variable ty ∧ ⟨name, ty⟩ ∈ inputs
  distinct : (inputs.map (·.name)).Nodup

variable {env : Env} {α : Type}

theorem Env.Declares.insert {classes : Hierarchy} {inputs : List Parameter}
    (henv : env.Declares classes inputs) {p : Parameter} (hnew : env.scopes.lookup p.name = none) :
    (env.withScopes (·.insert p.name (.variable p.ty))).Declares classes (inputs ++ [p]) := by
  have hne : ∀ input ∈ inputs, input.name ≠ p.name := by
    intro input hinput hname
    have hold := henv.lookup_eq input hinput
    rw [hname, hnew] at hold
    cases hold
  refine ⟨henv.classes, fun input hinput => ?_, fun name symbol hlookup => ?_, ?_⟩
  · rw [Env.withScopes, Scopes.lookup_insert]
    obtain hinput | rfl := by simpa using hinput
    · rw [if_neg (hne input hinput)]
      exact henv.lookup_eq input hinput
    · rw [if_pos rfl]
  · rw [Env.withScopes, Scopes.lookup_insert] at hlookup
    split at hlookup
    · next hname =>
      cases hlookup
      exact ⟨p.ty, rfl, by simp [hname]⟩
    · obtain ⟨ty, hsymbol, hinput⟩ := henv.exists_input name symbol hlookup
      exact ⟨ty, hsymbol, by simp [hinput]⟩
  · rw [List.map_append, List.nodup_append]
    exact ⟨henv.distinct, by simp, by simpa using hne⟩

/-- What a rule makes of a chain. It takes the operators from its level on and leaves the others, or it fails; a chain
of ints lets it fail only by its size, and has then filled the room that the rule gives it. -/
inductive Chain.Read (classes : Hierarchy) (inputs : List Parameter) (level room : Nat) (c : Chain) (behind : List Token) :
    Except CompileError (Expr × List Token) → Prop
  | done {t : OpTree} {e : Expr} (hsplit : (c.upTo level).SplitsInto t) (hcompiles : t.CompilesTo classes inputs e) :
      Read classes inputs level room c behind (.ok (e, (c.beyond level).flatMap Link.tokens ++ behind))
  | failed {err : CompileError} (h : c.IsInt inputs → (∃ limit, err.cause = .nestingTooDeep limit) ∧
      min room maxHeight ≤ c.links.length) : Read classes inputs level room c behind (.error err)

/-- A rule that reads chains from a level on, with so much room. -/
def Rule.ReadsChains (classes : Hierarchy) (inputs : List Parameter) (level room : Nat) (rule : Rule Expr) : Prop :=
  ∀ ⦃env : Env⦄, env.Declares classes inputs → ∀ (c : Chain) ⦃behind : List Token⦄, firstKind behind = .endOfInput →
    c.Read classes inputs level room behind (rule env (c.tokens ++ behind))

namespace Chain.Read

variable {classes : Hierarchy} {inputs : List Parameter} {level level' room room' : Nat} {c c' : Chain}
  {behind : List Token} {env : Env}

/-- A chain whose front is read, when what is behind it belongs to a lower level. -/
theorem stop {front : Chain} {links : List Link} {t : OpTree} {e : Expr}
    (hfront : ∀ link ∈ front.links, level ≤ link.op.level)
    (hlinks : ∀ link, links.head? = some link → link.op.level < level) (hsplit : front.SplitsInto t)
    (hcompiles : t.CompilesTo classes inputs e) :
    (front.extend links).Read classes inputs level room behind (.ok (e, links.flatMap Link.tokens ++ behind)) := by
  obtain ⟨hupTo, hbeyond⟩ := upTo_extend hfront hlinks
  have hdone : (front.extend links).Read classes inputs level room behind _ := .done (by rwa [hupTo]) hcompiles
  rwa [hbeyond] at hdone

theorem bind {rule : Rule Expr} {next : Expr → Rule Expr} {tokens : List Token}
    (h : c'.Read classes inputs level' room' behind (rule env tokens)) (hint : c.IsInt inputs → c'.IsInt inputs)
    (hroom : min room' maxHeight ≤ c'.links.length → min room maxHeight ≤ c.links.length)
    (hnext : ∀ t e, (c'.upTo level').SplitsInto t → t.CompilesTo classes inputs e →
      c.Read classes inputs level room behind (next e env ((c'.beyond level').flatMap Link.tokens ++ behind))) :
    c.Read classes inputs level room behind ((rule >>= next) env tokens) := by
  generalize hresult : rule env tokens = result at h
  simp only [Bind.bind, hresult]
  cases h with
  | done hsplit hcompiles => exact hnext _ _ hsplit hcompiles
  | failed h => exact .failed fun hc => ⟨(h (hint hc)).1, hroom (h (hint hc)).2⟩

theorem bounded {t : OpTree} {e : Expr} {next : Expr → Rule Expr} {tokens : List Token}
    (hcompiles : t.CompilesTo classes inputs e) (hlength : t.chain.links.length ≤ c.links.length)
    (hnext : c.Read classes inputs level room behind (next e env tokens)) :
    c.Read classes inputs level room behind ((Rule.bounded e >>= next) env tokens) := by
  by_cases hheight : maxHeight < e.height
  · have herror : (Rule.bounded e >>= next) env tokens = .error (env.error (.nestingTooDeep maxHeight) e.position) := by
      simp only [Rule.bounded, if_pos hheight]
      rfl
    rw [herror]
    refine .failed fun _ => ⟨⟨maxHeight, rfl⟩, ?_⟩
    have := hcompiles.height_le
    omega
  · rw [Rule.bounded, if_neg hheight]
    exact hnext

end Chain.Read

theorem Rule.peek_bind {next : TokenKind → Rule α} {tokens : List Token} :
    (peek >>= next) env tokens = next (firstKind tokens) env tokens :=
  rfl

theorem Rule.bind_pure_eq (rule : Rule α) : (rule >>= pure) = rule := by
  funext env tokens
  simp only [Bind.bind, Pure.pure]
  cases rule env tokens <;> rfl

theorem Rule.bind_error {β : Type} {rule : Rule α} {next : α → Rule β} {tokens : List Token}
    {err : CompileError} (h : rule env tokens = .error err) : (rule >>= next) env tokens = .error err := by
  simp only [Bind.bind, h]

/-- What puts two operands together: the node over them, unless their types do not fit, which those of ints do. -/
def Combines (classes : Hierarchy) (inputs : List Parameter) {α : Type} (toOp : α → ChainOp)
    (combine : Expr → α → Expr → Rule Expr) : Prop :=
  ∀ ⦃env : Env⦄, env.Declares classes inputs → ∀ ⦃t t' : OpTree⦄ ⦃e e' : Expr⦄, t.CompilesTo classes inputs e →
    t'.CompilesTo classes inputs e' → ∀ (op : α) (p : Position) (tokens : List Token),
      (∃ whole, combine e op e' env tokens = .ok (whole, tokens) ∧
        (OpTree.node t (toOp op) p t').CompilesTo classes inputs whole) ∨
      ∃ err, combine e op e' env tokens = .error err ∧ ¬(OpTree.node t (toOp op) p t').chain.IsInt inputs

section Combining

variable {classes : Hierarchy} {inputs : List Parameter}

theorem combineLogical_combines : Combines classes inputs .logical combineLogical := by
  intro env _ t t' e e' h h' op p tokens
  by_cases hbool : e.ty = .bool ∧ e'.ty = .bool
  · exact .inl ⟨_, by rw [combineLogical, if_pos hbool]; rfl, .logical h h' hbool⟩
  · refine .inr ⟨_, by rw [combineLogical, if_neg hbool]; rfl, fun hint => ?_⟩
    cases (Chain.IsInt.join_iff.mp hint).2.1

theorem combineInfix_combines : Combines classes inputs .infixed combineInfix := by
  intro env henv t t' e e' h h' op p tokens
  cases hoperation : Operation.infixed classes op e.ty e'.ty with
  | some operation =>
    refine .inl ⟨_, ?_, .infixed h h' hoperation⟩
    simp only [combineInfix, ask, Bind.bind, henv.classes, hoperation]
    rfl
  | none =>
    refine .inr ⟨env.error (.invalidOperands op.text e.ty e'.ty) e.position, ?_, fun hint => ?_⟩
    · simp only [combineInfix, ask, Bind.bind, henv.classes, hoperation]
      rfl
    · obtain ⟨hl, hop, hr⟩ := Chain.IsInt.join_iff.mp hint
      rw [h.ty_eq_int henv.distinct hl, h'.ty_eq_int henv.distinct hr, infixed_int hop] at hoperation
      cases hoperation

variable {level above room room' : Nat} {behind tokens : List Token} {env : Env} {α : Type} {toOp : α → ChainOp}
  {combine : Expr → α → Expr → Rule Expr}

/-- What is behind an operator is a chain of its own. Its front becomes the right operand, and what is left of it stands
behind both operands. -/
theorem Chain.Read.join (hcombine : Combines classes inputs toOp combine) (henv : env.Declares classes inputs)
    {front : Chain} {link : Link} {links : List Link} {t : OpTree} {left : Expr} {operand : Rule Expr}
    {next : Expr → Rule Expr} {op : α} (hop : toOp op = link.op) (hsplit : front.SplitsInto t)
    (hcompiles : t.CompilesTo classes inputs left)
    (hoperand : Read classes inputs above room' ⟨link.operand, links⟩ behind (operand env tokens))
    (hroom : min room' maxHeight ≤ links.length → min room maxHeight ≤ (front.extend (link :: links)).links.length)
    (hcut : link.op.Cuts front.links (upTo above ⟨link.operand, links⟩).links)
    (hnext : ∀ t' e, (front.join link.op link.position (upTo above ⟨link.operand, links⟩)).SplitsInto t' →
      t'.CompilesTo classes inputs e → (front.extend (link :: links)).Read classes inputs level room behind
        (next e env ((beyond above ⟨link.operand, links⟩).flatMap Link.tokens ++ behind))) :
    (front.extend (link :: links)).Read classes inputs level room behind
      ((operand >>= fun right => combine left op right >>= next) env tokens) := by
  have hwhole := join_upTo_extend_beyond above front link links
  have hjoin : front.extend (link :: links) = front.join link.op link.position ⟨link.operand, links⟩ := rfl
  refine hoperand.bind (fun hint => ?_) hroom fun t' right hsplit' hcompiles' => ?_
  · rw [hjoin] at hint
    exact (IsInt.join_iff.mp hint).2.2
  · obtain ⟨e, he, hnode⟩ | ⟨err, herr, hnot⟩ := hcombine henv hcompiles hcompiles' op link.position
      ((beyond above ⟨link.operand, links⟩).flatMap Link.tokens ++ behind)
    · rw [bind_ok he]
      rw [hop] at hnode
      exact hnext _ e (.node hsplit hsplit' hcut) hnode
    · rw [bind_error herr]
      rw [hop, OpTree.chain, hsplit.chain_eq, hsplit'.chain_eq] at hnot
      refine .failed fun hint => (hnot ?_).elim
      rw [← hwhole] at hint
      exact hint.of_extend

end Combining

/-- The operators of a level that is read from left to right. -/
structure IsLevel (level : Nat) {α : Type} (toOp : α → ChainOp) (operator? : TokenKind → Option α) : Prop where
  atEnd : operator? .endOfInput = none
  sound : ∀ op x, operator? (.operator op.sign) = some x → toOp x = op ∧ op.level = level
  complete : ∀ op : ChainOp, operator? (.operator op.sign) = none → op.level ≠ level
  belowPower : level < 6

theorem operator_levels : IsLevel 0 .logical orOp? ∧ IsLevel 1 .logical andOp? ∧ IsLevel 2 .infixed equalityOp? ∧
    IsLevel 3 .infixed comparisonOp? ∧ IsLevel 4 .infixed termOp? ∧ IsLevel 5 .infixed factorOp? := by
  refine ⟨?_, ?_, ?_, ?_, ?_, ?_⟩
  all_goals
    refine ⟨rfl, fun op x h => ?_, fun op h => ?_, by decide⟩
    all_goals rcases op with op | op <;> cases op <;> cases h <;> decide

/-- A chain is cut at an operator of a level if nothing weaker is at its left and everything at its right is stronger. -/
theorem IsLevel.cuts {level : Nat} {toOp : α → ChainOp} {operator? : TokenKind → Option α}
    (h : IsLevel level toOp operator?) {left right : List Link} {op : ChainOp} (hop : op.level = level)
    (hleft : ∀ link ∈ left, level ≤ link.op.level) (hright : ∀ link ∈ right, level + 1 ≤ link.op.level) :
    op.Cuts left right := by
  have hpower : op ≠ .infixed .power := by
    rintro rfl
    exact Nat.ne_of_gt h.belowPower hop
  refine ⟨fun link hlink => ?_, fun link hlink => ?_⟩
  · rw [hop]
    obtain hlink | hlink := List.mem_append.mp hlink
    · exact hleft link hlink
    · exact Nat.le_of_succ_le (hright link hlink)
  · rw [if_neg hpower] at hlink
    rw [hop]
    exact Nat.ne_of_gt (hright link hlink)

section LeftToRight

variable {classes : Hierarchy} {inputs : List Parameter} {level room : Nat} {α : Type} {toOp : α → ChainOp}
  {operand : Rule Expr} {operator? : TokenKind → Option α} {combine : Expr → α → Expr → Rule Expr} {env : Env}
  {left : Expr}

theorem chain_stop {tokens : List Token} (h : operator? (firstKind tokens) = none) (steps : Steps) :
    chain operand operator? combine steps left env tokens = .ok (left, tokens) := by
  cases steps with
  | nil => rfl
  | cons _ steps =>
    simp only [chain, Bind.bind, peek, h]
    rfl

theorem chain_step {tokens : List Token} {op : α} (h : operator? (firstKind tokens) = some op) (step : Token)
    (steps : Steps) : chain operand operator? combine (step :: steps) left env tokens =
      (operand >>= fun right => combine left op right >>= fun e => bounded e >>= chain operand operator? combine steps)
        env tokens.tail := by
  simp only [chain, Bind.bind, peek, h]
  rfl

/-- The loop of a level: behind a part of the chain that is read already, it takes the operators of its level and the
stronger ones behind them. -/
theorem chain_reads (hlevel : IsLevel level toOp operator?) (hcombine : Combines classes inputs toOp combine)
    (hoperand : operand.ReadsChains classes inputs (level + 1) room) (henv : env.Declares classes inputs)
    {behind : List Token} (hend : firstKind behind = .endOfInput) (steps : Steps) {front : Chain} {links : List Link}
    {t : OpTree} (hsteps : links.length < steps.length) (hfront : ∀ link ∈ front.links, level ≤ link.op.level)
    (hlinks : ∀ link, links.head? = some link → link.op.level < level + 1) (hsplit : front.SplitsInto t)
    (hcompiles : t.CompilesTo classes inputs left) : (front.extend links).Read classes inputs level room behind
      (chain operand operator? combine steps left env (links.flatMap Link.tokens ++ behind)) := by
  induction steps generalizing front links t left with
  | nil => cases hsteps
  | cons step steps ih =>
    cases links with
    | nil =>
      rw [chain_stop (by simpa [hend] using hlevel.atEnd)]
      exact .stop hfront (by simp) hsplit hcompiles
    | cons link links =>
      cases hop : operator? (.operator link.op.sign) with
      | none =>
        have hbelow := Nat.lt_of_le_of_ne (Nat.le_of_lt_succ (hlinks link rfl)) (hlevel.complete link.op hop)
        rw [chain_stop (by exact hop)]
        refine .stop hfront (fun other hother => ?_) hsplit hcompiles
        cases hother
        exact hbelow
      | some x =>
        obtain ⟨hx, hlink⟩ := hlevel.sound link.op x hop
        rw [chain_step (by exact hop)]
        have hcut : link.op.Cuts front.links (Chain.upTo (level + 1) ⟨link.operand, links⟩).links :=
          hlevel.cuts hlink hfront fun _ => Chain.level_of_mem_upTo
        refine .join hcombine henv hx hsplit hcompiles (hoperand henv ⟨link.operand, links⟩ hend) (fun hroom => ?_) hcut
          fun t' e hsplit' hcompiles' => ?_
        · simp only [Chain.extend, List.length_append, List.length_cons]
          omega
        · rw [← Chain.join_upTo_extend_beyond (level + 1)]
          refine .bounded hcompiles' ?_ (ih ?_ ?_ (fun _ => Chain.level_of_head_beyond) hsplit' hcompiles')
          · simp [hsplit'.chain_eq, Chain.extend]
          · exact Nat.lt_of_le_of_lt (Chain.length_beyond_le (level + 1) _) (Nat.lt_of_succ_lt_succ hsteps)
          · intro other hother
            rw [← hlink]
            exact hcut.le_of_mem_join other hother

/-- A level that is read from left to right, over the rule for the next level. -/
theorem leftToRight_readsChains (hlevel : IsLevel level toOp operator?) (hcombine : Combines classes inputs toOp combine)
    (hoperand : operand.ReadsChains classes inputs (level + 1) room) :
    (leftToRight operand operator? combine).ReadsChains classes inputs level room := by
  intro env henv c behind hend
  refine (hoperand henv c hend).bind id id fun t left hsplit hcompiles => ?_
  have hsteps : (c.beyond (level + 1)).length <
      (⟨.endOfInput, .start⟩ :: ((c.beyond (level + 1)).flatMap Link.tokens ++ behind)).length := by
    simp only [List.length_cons, List.length_append, Link.length_tokens]
    omega
  have hreads := chain_reads hlevel hcombine hoperand henv hend _ hsteps
    (fun _ hlink => Nat.le_of_succ_le (Chain.level_of_mem_upTo hlink))
    (fun _ hlink => Chain.level_of_head_beyond hlink) hsplit hcompiles
  rwa [Chain.upTo_extend_beyond] at hreads

end LeftToRight

section Rules

variable {classes : Hierarchy} {inputs : List Parameter} {level room : Nat} {env : Env} {behind : List Token}
  {rules : ExprRules} {rule : Rule Expr}

theorem firstKind_links (hend : firstKind behind = .endOfInput) (links : List Link) :
    firstKind (links.flatMap Link.tokens ++ behind) = .endOfInput ∨
      ∃ op : ChainOp, firstKind (links.flatMap Link.tokens ++ behind) = .operator op.sign := by
  cases links with
  | nil => exact .inl hend
  | cons link links => exact .inr ⟨link.op, rfl⟩

theorem Chain.Read.operand {c : Chain} {e : Expr} (h : (OpTree.leaf c.first).CompilesTo classes inputs e) :
    c.Read classes inputs 7 room behind (.ok (e, c.links.flatMap Link.tokens ++ behind)) := by
  have hdone : c.Read classes inputs 7 room behind _ := .done (by rw [c.upTo_seven]; exact .leaf _) h
  rwa [c.beyond_seven] at hdone

theorem primaryRule_readsChains (rules : ExprRules) : (primaryRule rules).ReadsChains classes inputs 7 room := by
  intro env henv c behind hend
  obtain ⟨first, links⟩ := c
  cases first with
  | constant literal p => exact .operand (.constant literal p)
  | name spelling p =>
    have hcall : (firstKind (links.flatMap Link.tokens ++ behind)).isSeparator .openParen = false := by
      obtain hkind | ⟨_, hkind⟩ := firstKind_links hend links <;> rw [hkind] <;> rfl
    have hrule : primaryRule rules env ((⟨.name spelling p, links⟩ : Chain).tokens ++ behind) =
        nameRule spelling p env (links.flatMap Link.tokens ++ behind) := by
      show (if (firstKind (links.flatMap Link.tokens ++ behind)).isSeparator .openParen = true then _ else _ : Rule Expr)
        env _ = _
      rw [hcall]
      rfl
    rw [hrule]
    cases hlookup : env.scopes.lookup spelling with
    | none =>
      simp only [nameRule, ask, Bind.bind, hlookup]
      refine .failed fun hint => ?_
      have hinput := henv.lookup_eq _ hint.first
      rw [hlookup] at hinput
      cases hinput
    | some symbol =>
      obtain ⟨ty, rfl, hinput⟩ := henv.exists_input spelling symbol hlookup
      simp only [nameRule, ask, Bind.bind, hlookup]
      exact .operand (.name p hinput)

theorem suffixedRule_readsChains (h : rules.primary.ReadsChains classes inputs 7 room) :
    (suffixedRule rules).ReadsChains classes inputs 7 room := by
  intro env henv c behind hend
  refine (h henv c hend).bind id id fun t e hsplit hcompiles => ?_
  rw [c.upTo_seven] at hsplit
  rw [c.beyond_seven, withSteps, suffixes]
  refine .bounded hcompiles (by simp [hsplit.chain_eq]) ?_
  rw [hsplit.unique (.leaf c.first)] at hcompiles
  -- No suffix begins with what stands behind an operand.
  rw [peek_bind]
  obtain hkind | ⟨op, hkind⟩ := firstKind_links hend c.links
  · rw [hkind]
    exact .operand hcompiles
  · rw [hkind]
    rcases op with op | op <;> cases op <;> exact .operand hcompiles

theorem unaryRule_readsChains (type : Rule Ty) (h : rules.suffixed.ReadsChains classes inputs 7 room) :
    (unaryRule type rules).ReadsChains classes inputs 7 room := by
  intro env henv c behind hend
  have hrule : unaryRule type rules env (c.tokens ++ behind) = rules.suffixed env (c.tokens ++ behind) := by
    obtain ⟨first, links⟩ := c
    cases first <;> rfl
  rw [hrule]
  exact h henv c hend

theorem Chain.Read.base {first : Primary} {links : List Link} {t : OpTree} {e : Expr}
    (hsplit : SplitsInto ⟨first, []⟩ t) (hcompiles : t.CompilesTo classes inputs e)
    (hnext : ∀ link, links.head? = some link → link.op ≠ .infixed .power) :
    Read classes inputs 6 room ⟨first, links⟩ behind (.ok (e, links.flatMap Link.tokens ++ behind)) := by
  have hweak : ∀ link, links.head? = some link → link.op.level < 6 := by
    intro link hlink
    have := link.op.level_lt
    have := mt ChainOp.eq_power_of_level (hnext link hlink)
    omega
  exact stop (by simp) hweak hsplit hcompiles

/-- A chain is cut at a power if it is the first operator and all others are powers too. -/
theorem ChainOp.Cuts.power {links : List Link} (h : ∀ link ∈ links, 6 ≤ link.op.level) :
    ChainOp.Cuts [] (.infixed .power) links :=
  ⟨h, by simp⟩

theorem powerRule_readsChains (hunary : rules.unary.ReadsChains classes inputs 7 room)
    (hpower : rules.power.ReadsChains classes inputs 6 (room - 1)) :
    (powerRule rules).ReadsChains classes inputs 6 room := by
  intro env henv c behind hend
  refine (hunary henv c hend).bind id id fun t base hsplit hcompiles => ?_
  rw [c.upTo_seven] at hsplit
  rw [c.beyond_seven, peek_bind]
  obtain ⟨first, links⟩ := c
  cases links with
  | nil =>
    rw [List.flatMap_nil, List.nil_append, hend]
    exact .base hsplit hcompiles (by simp)
  | cons link links =>
    have hkind : firstKind ((link :: links).flatMap Link.tokens ++ behind) = .operator link.op.sign := rfl
    rw [hkind]
    by_cases hop : link.op = .infixed .power
    · rw [if_pos (by rw [hop]; rfl)]
      have hcut : link.op.Cuts (⟨first, []⟩ : Chain).links (Chain.upTo 6 ⟨link.operand, links⟩).links := by
        rw [hop]
        exact .power fun _ => Chain.level_of_mem_upTo
      have hpure : (rules.power >>= fun exponent => combineInfix base .power exponent >>= pure) =
          (rules.power >>= fun exponent => combineInfix base .power exponent) := by
        simp only [bind_pure_eq]
      show (Chain.extend ⟨first, []⟩ (link :: links)).Read _ _ _ _ _
        ((rules.power >>= fun exponent => combineInfix base .power exponent) env _)
      rw [← hpure]
      refine .join combineInfix_combines henv hop.symm hsplit hcompiles
        (hpower henv ⟨link.operand, links⟩ hend) (fun hroom => ?_) hcut fun t' e hsplit' hcompiles' => ?_
      · -- The exponent has one operator less, and one entry less to spend.
        simp only [Chain.extend, List.length_append, List.length_cons]
        omega
      · rw [← Chain.join_upTo_extend_beyond 6]
        refine .stop (fun other hother => ?_) (fun _ => Chain.level_of_head_beyond) hsplit' hcompiles'
        have := hcut.le_of_mem_join other hother
        rwa [hop] at this
    · rw [if_neg (by rw [ChainOp.isOperator_caret hop]; decide)]
      refine .base hsplit hcompiles fun other hother => ?_
      cases hother
      exact hop

theorem Rule.ReadsChains.andThen (h : rule.ReadsChains classes inputs 0 room) {next : Expr → Rule Expr}
    (hnext : ∀ (e : Expr) (env : Env) (behind : List Token), firstKind behind = .endOfInput →
      next e env behind = .ok (e, behind)) : (rule >>= next).ReadsChains classes inputs 0 room := by
  intro env henv c behind hend
  have hlevel : ∀ link ∈ c.links, 0 ≤ link.op.level := fun _ _ => Nat.zero_le _
  refine (h henv c hend).bind id id fun t e hsplit hcompiles => ?_
  have hdone : c.Read classes inputs 0 room behind _ := .done hsplit hcompiles
  rw [Chain.beyond_eq_nil hlevel] at hdone ⊢
  exact (hnext e env behind hend).symm ▸ hdone

theorem ternaryRule_readsChains (h : rules.logicalOr.ReadsChains classes inputs 0 room) :
    (ternaryRule rules).ReadsChains classes inputs 0 room := by
  refine h.andThen fun e env behind hend => ?_
  rw [peek_bind, hend]
  rfl

theorem assignmentRule_readsChains (h : rules.ternary.ReadsChains classes inputs 0 room) :
    (assignmentRule rules).ReadsChains classes inputs 0 room := by
  refine h.andThen fun e env behind hend => ?_
  rw [peek_bind, hend]
  rfl

theorem wholeExpression_readsChains (h : rules.expression.ReadsChains classes inputs 0 room) :
    (wholeExpression rules).ReadsChains classes inputs 0 room := by
  refine h.andThen fun e env behind hend => ?_
  rw [peek_bind, hend]
  show (peek >>= _) env behind = _
  rw [peek_bind, hend]
  rfl

theorem bounded_readsChains (h : rule.ReadsChains classes inputs 0 room) :
    (rule >>= fun e => bounded e).ReadsChains classes inputs 0 room := by
  intro env henv c behind hend
  refine (h henv c hend).bind id id fun t e hsplit hcompiles => ?_
  rw [← bind_pure_eq (bounded e)]
  refine .bounded hcompiles ?_ (.done hsplit hcompiles)
  rw [hsplit.chain_eq]
  exact c.length_upTo_le 0

/-- Rules for expressions that read chains, each from its own level on. A chain of ints has to use up the entries that
are left before it fails, and only powers use them up. -/
structure ExprRules.ReadChains (classes : Hierarchy) (inputs : List Parameter) (depth : Nat) (rules : ExprRules) : Prop where
  expression : rules.expression.ReadsChains classes inputs 0 (depth - 12)
  assignment : rules.assignment.ReadsChains classes inputs 0 (depth - 11)
  ternary : rules.ternary.ReadsChains classes inputs 0 (depth - 10)
  logicalOr : rules.logicalOr.ReadsChains classes inputs 0 (depth - 9)
  logicalAnd : rules.logicalAnd.ReadsChains classes inputs 1 (depth - 8)
  equality : rules.equality.ReadsChains classes inputs 2 (depth - 7)
  comparison : rules.comparison.ReadsChains classes inputs 3 (depth - 6)
  term : rules.term.ReadsChains classes inputs 4 (depth - 5)
  factor : rules.factor.ReadsChains classes inputs 5 (depth - 4)
  power : rules.power.ReadsChains classes inputs 6 (depth - 3)
  unary : rules.unary.ReadsChains classes inputs 7 (depth - 2)
  suffixed : rules.suffixed.ReadsChains classes inputs 7 (depth - 1)
  primary : rules.primary.ReadsChains classes inputs 7 depth

theorem Rule.ReadsChains.tooDeep : (tooDeep : Rule Expr).ReadsChains classes inputs level 0 :=
  fun _ _ _ _ _ => .failed fun _ => ⟨⟨maxDepth, rfl⟩, by simp⟩

theorem Rule.ReadsChains.named (h : rule.ReadsChains classes inputs level room) (name : RuleName) :
    (rule.named name).ReadsChains classes inputs level room :=
  fun env henv => @h (env.enter name) ⟨henv.classes, henv.lookup_eq, henv.exists_input, henv.distinct⟩

theorem ExprRules.ReadChains.stuck : ExprRules.stuck.ReadChains classes inputs 0 := by
  constructor <;> exact .tooDeep

theorem ExprRules.ReadChains.around (type : Rule Ty) {depth : Nat}
    (h : rules.ReadChains classes inputs depth) : (rules.around type).ReadChains classes inputs (depth + 1) := by
  obtain ⟨hor, hand, hequality, hcomparison, hterm, hfactor⟩ := operator_levels
  exact {
    expression := (bounded_readsChains h.assignment).named _
    assignment := (assignmentRule_readsChains h.ternary).named _
    ternary := (ternaryRule_readsChains h.logicalOr).named _
    logicalOr := (leftToRight_readsChains hor combineLogical_combines h.logicalAnd).named _
    logicalAnd := (leftToRight_readsChains hand combineLogical_combines h.equality).named _
    equality := (leftToRight_readsChains hequality combineInfix_combines h.comparison).named _
    comparison := (leftToRight_readsChains hcomparison combineInfix_combines h.term).named _
    term := (leftToRight_readsChains hterm combineInfix_combines h.factor).named _
    factor := (leftToRight_readsChains hfactor combineInfix_combines h.power).named _
    power := (powerRule_readsChains h.unary h.power).named _
    unary := (unaryRule_readsChains type h.suffixed).named _
    suffixed := (suffixedRule_readsChains h.primary).named _
    primary := (primaryRule_readsChains rules).named _ }

theorem exprRules_readChains (depth : Nat) : (exprRules depth).ReadChains classes inputs depth := by
  induction depth with
  | zero => exact .stuck
  | succ depth ih => exact ih.around (typeRule depth)

/-- Declaring the inputs fails if two have one name, and has no other effect than to declare them if not. -/
theorem withVariables_cases (rule : Rule Expr) (more : List Parameter) {inputs : List Parameter} {env : Env}
    (henv : env.Declares classes inputs) (tokens : List Token) :
    (∃ err, withVariables rule more env tokens = .error err ∧ (∃ name, err.cause = .duplicateDeclaration name) ∧
      ¬((inputs ++ more).map (·.name)).Nodup) ∨
    ∃ env', env'.Declares classes (inputs ++ more) ∧ withVariables rule more env tokens = rule env' tokens := by
  induction more generalizing inputs env with
  | nil => exact .inr ⟨env, by simpa using henv, rfl⟩
  | cons p more ih =>
    cases hlookup : env.scopes.lookup p.name with
    | some symbol =>
      obtain ⟨ty, -, hinput⟩ := henv.exists_input p.name symbol hlookup
      refine .inl ⟨env.error (.duplicateDeclaration p.name) .start, ?_, ⟨p.name, rfl⟩, fun hnodup => ?_⟩
      · have hfresh : expectFresh p.name .start env tokens =
            .error (env.error (.duplicateDeclaration p.name) .start) := by
          rw [expectFresh, ask_bind, hlookup]
          rfl
        exact bind_error hfresh
      · rw [List.map_append, List.nodup_append] at hnodup
        exact hnodup.2.2 p.name (List.mem_map.mpr ⟨_, hinput, rfl⟩) p.name (by simp) rfl
    | none =>
      have hfresh : expectFresh p.name .start env tokens = .ok ((), tokens) := by
        rw [expectFresh, ask_bind, hlookup]
        rfl
      have hrule : withVariables rule (p :: more) env tokens =
          withVariables rule more (env.withScopes (·.insert p.name (.variable p.ty))) tokens := by
        rw [withVariables, bind_ok hfresh]
        rfl
      rw [hrule, List.append_cons inputs p more]
      exact ih (henv.insert hlookup)

end Rules

theorem expand_links (links : List Link) (behind : List Token) :
    Expansion.expand (links.flatMap Link.tokens ++ behind) = links.flatMap Link.tokens ++ Expansion.expand behind := by
  induction links with
  | nil => rfl
  | cons link links ih =>
    obtain ⟨op, p, operand⟩ := link
    cases operand <;>
      simpa [Link.tokens, Primary.token, Expansion.expand, Expansion.expandToken, Expansion.expandKind] using ih

theorem Chain.expand_tokens (c : Chain) (behind : List Token) :
    Expansion.expand (c.tokens ++ behind) = c.tokens ++ Expansion.expand behind := by
  obtain ⟨first, links⟩ := c
  have hlinks := expand_links links behind
  cases first <;>
    simpa [Chain.tokens, Primary.token, Expansion.expand, Expansion.expandToken, Expansion.expandKind] using hlinks

theorem firstKind_expand {behind : List Token} (hend : firstKind behind = .endOfInput) :
    firstKind (Expansion.expand behind) = .endOfInput := by
  cases behind with
  | nil => rfl
  | cons token behind =>
    obtain ⟨kind, p⟩ := token
    cases hend
    rfl

theorem expression_reads (registry : Registry) (inputs : List Parameter) (c : Chain) (behind : List Token)
    (hend : firstKind behind = .endOfInput) :
    (∃ err, expression registry (c.tokens ++ behind) inputs = .error err ∧
      (∃ name, err.cause = .duplicateDeclaration name) ∧ ¬(inputs.map (·.name)).Nodup) ∨
    (inputs.map (·.name)).Nodup ∧ ∃ result, expression registry (c.tokens ++ behind) inputs = result.map Prod.fst ∧
      c.Read registry.classes inputs 0 243 (Expansion.expand behind) result := by
  have hinitial : ((Env.initial registry).enter .expressionScript).Declares registry.classes [] :=
    ⟨rfl, by simp, by rintro _ _ ⟨⟩, .nil⟩
  have hrule : expression registry (c.tokens ++ behind) inputs =
      (withVariables (wholeExpression (exprRules 255)) inputs ((Env.initial registry).enter .expressionScript)
        (c.tokens ++ Expansion.expand behind)).map Prod.fst := by
    have henter : enter .expressionScript (fun depth => withVariables (wholeExpression (exprRules depth)) inputs) maxDepth
        (.initial registry) (c.tokens ++ Expansion.expand behind) =
      withVariables (wholeExpression (exprRules 255)) inputs ((Env.initial registry).enter .expressionScript)
        (c.tokens ++ Expansion.expand behind) := rfl
    rw [expression, c.expand_tokens, henter]
    cases withVariables (wholeExpression (exprRules 255)) inputs ((Env.initial registry).enter .expressionScript)
      (c.tokens ++ Expansion.expand behind) <;> rfl
  rw [hrule]
  obtain ⟨err, herr, hcause, hnodup⟩ | ⟨env, henv, heq⟩ := withVariables_cases (wholeExpression (exprRules 255))
    inputs hinitial (c.tokens ++ Expansion.expand behind)
  · exact .inl ⟨err, by rw [herr]; rfl, hcause, hnodup⟩
  · refine .inr ⟨henv.distinct, _, rfl, ?_⟩
    rw [heq]
    exact wholeExpression_readsChains (exprRules_readChains 255).expression henv c (firstKind_expand hend)

end Scriptlet.Grammar

namespace Scriptlet

open Grammar Grammar.Rule

/-- An expression without parentheses is the tree that splits its chain of operators at the weakest, at the last of its
level or, for powers, at the first. For a chain of ints that is all there is to say: it is refused only if it is too long.
Inputs of which two have one name are refused whatever the chain. -/
theorem operator_chains_split (registry : Registry) (inputs : List Parameter) (c : Chain) (behind : List Token)
    (hend : firstKind behind = .endOfInput) :
    (∀ e, expression registry (c.tokens ++ behind) inputs = .ok e →
      ∃ t, t.CompilesTo registry.classes inputs e ∧ t.chain = c ∧ c.SplitsInto t ∧ ∀ t', c.SplitsInto t' → t' = t) ∧
    ((inputs.map (·.name)).Nodup → c.IsInt inputs → ∀ err, expression registry (c.tokens ++ behind) inputs = .error err →
      (∃ limit, err.cause = .nestingTooDeep limit) ∧ 242 < c.links.length) ∧
    (¬(inputs.map (·.name)).Nodup → ∃ err, expression registry (c.tokens ++ behind) inputs = .error err ∧
      ∃ name, err.cause = .duplicateDeclaration name) := by
  obtain ⟨err, herr, hcause, hrepeated⟩ | ⟨hdistinct, result, heq, hread⟩ := expression_reads registry inputs c behind hend
  · refine ⟨fun e h => ?_, fun hdistinct => absurd hdistinct hrepeated, fun _ => ⟨err, herr, hcause⟩⟩
    rw [herr] at h
    cases h
  · rw [heq]
    cases hread with
    | done hsplit hcompiles =>
      rw [Chain.upTo_eq_self fun _ _ => Nat.zero_le _] at hsplit
      refine ⟨?_, ?_, absurd hdistinct⟩
      · rintro e ⟨⟩
        exact ⟨_, hcompiles, hsplit.chain_eq, hsplit, fun _ h' => h'.unique hsplit⟩
      · rintro _ _ _ ⟨⟩
    | failed hfail =>
      refine ⟨?_, ?_, absurd hdistinct⟩
      · rintro _ ⟨⟩
      · rintro _ hint _ ⟨⟩
        exact hfail hint

/-- The chain of `p || n - 2 - x ^ x ^ 2 * 3 < 9 && p`. -/
def Grammar.Chain.mixed : Chain :=
  let two : Primary := .constant (.int 2) .start
  ⟨.name "p" .start, [⟨.logical .or, .start, .name "n" .start⟩, ⟨.infixed .minus, .start, two⟩,
    ⟨.infixed .minus, .start, .name "x" .start⟩, ⟨.infixed .power, .start, .name "x" .start⟩,
    ⟨.infixed .power, .start, two⟩, ⟨.infixed .times, .start, .constant (.int 3) .start⟩,
    ⟨.infixed .less, .start, .constant (.int 9) .start⟩, ⟨.logical .and, .start, .name "p" .start⟩]⟩

/-- The tree of `p || ((n - 2) - (x ^ (x ^ 2)) * 3 < 9) && p`. -/
def Grammar.OpTree.mixed : OpTree :=
  let two : OpTree := .leaf (.constant (.int 2) .start)
  let x : OpTree := .leaf (.name "x" .start)
  let power : OpTree := .node x (.infixed .power) .start (.node x (.infixed .power) .start two)
  let difference : OpTree := .node (.node (.leaf (.name "n" .start)) (.infixed .minus) .start two) (.infixed .minus) .start
    (.node power (.infixed .times) .start (.leaf (.constant (.int 3) .start)))
  let comparison : OpTree := .node difference (.infixed .less) .start (.leaf (.constant (.int 9) .start))
  .node (.leaf (.name "p" .start)) (.logical .or) .start
    (.node comparison (.logical .and) .start (.leaf (.name "p" .start)))

theorem Grammar.Chain.mixed_splits : Chain.mixed.SplitsInto .mixed := by
  show OpTree.mixed.chain.SplitsInto .mixed
  refine .node (.leaf _) (.node (.node (.node ?minuend ?subtrahend ?_) (.leaf _) ?_) (.leaf _) ?_) ?_
  case minuend => exact .node (.leaf _) (.leaf _) ⟨by decide, by decide⟩
  case subtrahend =>
    refine .node (.node (.leaf _) (.node (.leaf _) (.leaf _) ?_) ?_) (.leaf _) ?_
    all_goals exact ⟨by decide, by decide⟩
  all_goals exact ⟨by decide, by decide⟩

/-- The chain of `2 ^ 2 ^ … ^ 2`. -/
def Grammar.Chain.tower (height : Nat) : Chain :=
  ⟨.constant (.int 2) .start, .replicate height ⟨.infixed .power, .start, .constant (.int 2) .start⟩⟩

/-- Levels are mixed in the first chain, and the types of its inputs too. The second is one power too high. -/
theorem operator_chains_split_mixed : firstKind [⟨.endOfInput, .start⟩] = .endOfInput ∧
    (∃ e, expression .standard (Chain.mixed.tokens ++ [⟨.endOfInput, .start⟩])
        [⟨"p", .bool⟩, ⟨"n", .int⟩, ⟨"x", .double⟩] = .ok e ∧
      OpTree.mixed.CompilesTo Registry.standard.classes [⟨"p", .bool⟩, ⟨"n", .int⟩, ⟨"x", .double⟩] e) ∧
    (Chain.tower 243).IsInt [] ∧ ∃ err, expression .standard ((Chain.tower 243).tokens ++ [⟨.endOfInput, .start⟩]) [] =
      .error err ∧ ∃ limit, err.cause = .nestingTooDeep limit := by
  have hint : (Chain.tower 243).IsInt [] := by
    refine ⟨rfl, fun link hlink => ?_⟩
    obtain rfl := List.eq_of_mem_replicate hlink
    exact ⟨rfl, rfl⟩
  have hmixed := operator_chains_split .standard [⟨"p", .bool⟩, ⟨"n", .int⟩, ⟨"x", .double⟩] .mixed
    [⟨.endOfInput, .start⟩] rfl
  have htower := operator_chains_split .standard [] (.tower 243) [⟨.endOfInput, .start⟩] rfl
  have haccepted : (expression .standard (Chain.mixed.tokens ++ [⟨.endOfInput, .start⟩])
      [⟨"p", .bool⟩, ⟨"n", .int⟩, ⟨"x", .double⟩]).isOk = true := by
    decide +kernel
  have hrefused : (expression .standard ((Chain.tower 243).tokens ++ [⟨.endOfInput, .start⟩]) []).isOk = false := by
    decide +kernel
  refine ⟨rfl, ?_, hint, ?_⟩
  · cases he : expression .standard (Chain.mixed.tokens ++ [⟨.endOfInput, .start⟩])
        [⟨"p", .bool⟩, ⟨"n", .int⟩, ⟨"x", .double⟩] with
    | error err =>
      rw [he] at haccepted
      cases haccepted
    | ok e =>
      obtain ⟨t, hcompiles, -, -, hunique⟩ := hmixed.1 e he
      rw [← hunique _ Chain.mixed_splits] at hcompiles
      exact ⟨e, rfl, hcompiles⟩
  · cases herr : expression .standard ((Chain.tower 243).tokens ++ [⟨.endOfInput, .start⟩]) [] with
    | ok e =>
      rw [herr] at hrefused
      cases hrefused
    | error err => exact ⟨err, rfl, (htower.2.1 .nil hint err herr).1⟩

/-- The chain of `1 + 2`. -/
def Grammar.Chain.sum : Chain :=
  ⟨.constant (.int 1) .start, [⟨.infixed .plus, .start, .constant (.int 2) .start⟩]⟩

/-- A short chain of ints that is refused, though not for its size: two inputs have one name. -/
theorem sum_refused : Chain.sum.IsInt [⟨"x", .int⟩, ⟨"x", .int⟩] ∧
    ∃ err, expression .standard (Chain.sum.tokens ++ [⟨.endOfInput, .start⟩]) [⟨"x", .int⟩, ⟨"x", .int⟩] = .error err ∧
      ∀ limit, err.cause ≠ .nestingTooDeep limit := by
  constructor
  · refine ⟨rfl, fun link hlink => ?_⟩
    obtain rfl := List.mem_singleton.mp hlink
    exact ⟨rfl, rfl⟩
  · obtain ⟨err, herr, ⟨name, hcause⟩, -⟩ | ⟨hdistinct, -⟩ := expression_reads .standard [⟨"x", .int⟩, ⟨"x", .int⟩] .sum
      [⟨.endOfInput, .start⟩] rfl
    · refine ⟨err, herr, fun limit h => ?_⟩
      rw [hcause] at h
      cases h
    · exact absurd hdistinct (by decide)

end Scriptlet
