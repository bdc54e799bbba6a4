import Scriptlet.Proofs.Pieces
import Scriptlet.Script

/-!
# Items end where the grammar says

The items of a program are found by counting brackets and looking for semicolons; only later does the grammar read
them, and whatever it leaves is thrown away. Main statement: for a program that compiles, both end every item at the
same token. So the items are the whole source, each token belongs to one of them, and none is read twice.
-/

namespace Scriptlet.Grammar

open Rule

section Leftovers

variable {α : Type} {env : Env} {tokens : List Token}

theorem Rule.Concludes.skipPastSemicolon_eq {rule : Rule α} (h : rule.Concludes false .semicolon) :
    rule.Reads env tokens fun _ rest => skipPastSemicolon 0 tokens = rest := by
  intro a rest hok
  obtain ⟨behind, ⟨run, rfl, hrun⟩, hsemicolon, rfl⟩ := h [] a rest hok
  obtain ⟨p, hbehind⟩ := eq_cons_of_firstKind hsemicolon (by simp)
  have hskip : skipPastSemicolon 0 (run ++ behind) = skipPastSemicolon 0 behind := hrun.skipPastSemicolon_append
  rw [hskip, hbehind]
  rfl

theorem Rule.Concludes.skipGroup_eq {rule : Rule α} (h : rule.Concludes true .closeBrace)
    (hbrace : firstKind tokens = .separator .openBrace) :
    rule.Reads env tokens.tail fun _ rest => skipGroup 0 tokens = rest := by
  intro a rest hok
  obtain ⟨behind, ⟨run, htail, hrun⟩, hclose, rfl⟩ := h [] a rest hok
  obtain ⟨p, htokens⟩ := eq_cons_of_firstKind hbrace (by simp)
  obtain ⟨q, hbehind⟩ := eq_cons_of_firstKind hclose (by simp)
  have hskip : skipGroup 1 (run ++ behind) = skipGroup 1 behind := hrun.skipGroup_append 0
  rw [htokens]
  change skipGroup 1 tokens.tail = _
  rw [htail, hskip, hbehind]
  rfl

theorem keyword_concludes {β : Type} {rule : Rule α} {f : α → β} (h : rule.Concludes false .semicolon) {word : Keyword}
    (hword : firstKind tokens = .keyword word) (pending : List Separator) :
    (do skip; return f (← rule) : Rule β).Reads env tokens fun _ rest => ∃ behind,
      Through false pending tokens pending behind ∧ firstKind behind = .separator .semicolon ∧ rest = behind.tail := by
  refine .skip ((h pending).bind fun _ _ hrest => .pure ?_)
  obtain ⟨behind, hrun, hsemicolon⟩ := hrest
  exact ⟨behind, (advances_plain hword rfl).through.trans hrun, hsemicolon⟩

theorem declarationRule_concludes {rules : StatementRules} (h : rules.Spanning) :
    (declarationRule rules).Concludes false .semicolon := by
  refine fun _ _ pending => .here (.peek ?_)
  split
  · next hword => exact keyword_concludes h.variableDeclaration hword pending
  · next hword => exact keyword_concludes h.variableDeclaration hword pending
  · next hword => exact keyword_concludes h.constantDeclaration hword pending
  · exact (h.variableDeclaration pending).bind fun _ _ hrest => .pure hrest

theorem withParameters_concludes {rule : Rule α} (h : rule.Concludes true .closeBrace) :
    ∀ parameters, (withParameters rule parameters).Concludes true .closeBrace
  | [] => h
  | _ :: rest => fun _ _ pending => .here ((expectFresh_still _ _).andThen fun _ =>
      .within (withParameters_concludes h rest pending))

theorem functionBody_leaves {rules : StatementRules} (h : rules.Spanning) (signature : Signature) :
    (functionBody rules signature).Reads env tokens fun _ rest => skipGroup 0 tokens = rest := by
  refine .within ((separator_reads _).bind fun _ _ hbrace => ?_)
  obtain ⟨hbrace, rfl⟩ := hbrace
  exact (withParameters_concludes h.block signature.parameters).skipGroup_eq hbrace

end Leftovers

namespace Item

/-- The tokens behind an item, as they are found by counting brackets. -/
def skipped : Item → List Token
  | .function _ body _ => skipGroup 0 body
  | .declaration tokens => skipPastSemicolon 0 tokens

/-- The tokens that the grammar leaves when it reads an item. -/
def leftover (env : Env) : Item → Except CompileError (List Token)
  | .function signature body _ => do
    let (_, rest) ← enter .function (fun depth => functionBody (statementRules depth) signature) maxDepth env body
    return rest
  | .declaration tokens => do
    let (_, rest) ← enter .program (enter .declaration fun depth => declarationRule (statementRules depth)) maxDepth
      env tokens
    return rest

/-- The items whose declarations an item sees: all for a function, those before it for a declaration. -/
def seen (before all : List Item) : Item → List Item
  | .function _ _ _ => all
  | .declaration _ => before

variable {env : Env}

theorem skipped_of_itemOf (depth : Nat) (kind : TokenKind) {tokens : List Token} :
    (itemOf depth kind).Reads env tokens fun item rest => item.skipped = rest := by
  intro item rest hok
  rcases itemOf_reads _ _ _ hok with ⟨-, hok⟩ | ⟨-, rfl, rfl⟩
  · cases item with
    | function signature body p =>
      obtain ⟨_, -, -, -, -, rfl⟩ := typedItem_function.mp hok
      rfl
    | declaration tokens =>
      obtain ⟨_, _, -, -, rfl, rfl⟩ := typedItem_declaration.mp hok
      rfl
  · rfl

theorem skipped_eq_of_leftover {item : Item} {rest : List Token} (h : item.leftover env = .ok rest) :
    item.skipped = rest := by
  cases item with
  | function signature body position =>
    obtain ⟨⟨statements, rest⟩, hread, ⟨⟩⟩ := exists_ok_of_bind h
    exact Reads.enter (fun depth => functionBody_leaves (statementRules_spanning depth) signature) maxDepth _ _ hread
  | declaration tokens =>
    obtain ⟨⟨result, rest⟩, hread, ⟨⟩⟩ := exists_ok_of_bind h
    exact Reads.enter (Reads.enter fun depth =>
      (declarationRule_concludes (statementRules_spanning depth)).skipPastSemicolon_eq) maxDepth _ _ hread

theorem leftover_of_compileFunction {signature : Signature} {body : List Token} {position : Position}
    {f : Function} (h : compileFunction env signature body position = .ok f) :
    ∃ rest, (function signature body position).leftover env = .ok rest := by
  obtain ⟨⟨statements, rest⟩, hread, -⟩ := exists_ok_of_bind h
  exact ⟨rest, by rw [leftover, hread]; rfl⟩

theorem leftover_of_compileDeclaration {tokens : List Token} {result : Option Declaration × Declared}
    (h : compileDeclaration env tokens = .ok result) : ∃ rest, (declaration tokens).leftover env = .ok rest := by
  obtain ⟨⟨result, rest⟩, hread, -⟩ := exists_ok_of_bind h
  exact ⟨rest, by rw [leftover, hread]; rfl⟩

end Item

section Passes

theorem passes_of_program {registry : Registry} {tokens : List Token} {p : Program}
    (h : program registry tokens = .ok p) : ∃ found declared env,
      items (.initial registry) (Expansion.expand tokens) = .ok found ∧
      declareFunctions (.initial registry) found = .ok declared ∧
      compileDeclarations declared found = .ok (p.declarations, env) ∧
      compileFunctions env found = .ok p.functions := by
  obtain ⟨found, hfound, h⟩ := exists_ok_of_bind h
  obtain ⟨declared, hdeclared, h⟩ := exists_ok_of_bind h
  obtain ⟨⟨declarations, env⟩, hdeclarations, h⟩ := exists_ok_of_bind h
  obtain ⟨functions, hfunctions, ⟨⟩⟩ := exists_ok_of_bind h
  exact ⟨found, declared, env, hfound, hdeclared, hdeclarations, hfunctions⟩

variable {before after : List Item}

theorem compileDeclarations_append : ∀ {env last : Env} {declarations : List Declaration},
    compileDeclarations env (before ++ after) = .ok (declarations, last) → ∃ first middle second,
      compileDeclarations env before = .ok (first, middle) ∧ compileDeclarations middle after = .ok (second, last) ∧
        declarations = first ++ second := by
  induction before with
  | nil => exact fun {env last declarations} h => ⟨[], env, declarations, rfl, h, rfl⟩
  | cons item before ih =>
    intro env last declarations h
    cases item with
    | function signature body position => exact ih h
    | declaration tokens =>
      obtain ⟨⟨declaration, declared⟩, hone, h⟩ := exists_ok_of_bind h
      obtain ⟨⟨others, env'⟩, hothers, ⟨⟩⟩ := exists_ok_of_bind h
      obtain ⟨first, middle, second, hfirst, hsecond, rfl⟩ := ih hothers
      refine ⟨declaration.toList ++ first, middle, second, ?_, hsecond, by simp⟩
      rw [compileDeclarations, hone]
      simp only [Bind.bind, Except.bind, hfirst]
      rfl

theorem compileFunctions_append : ∀ {env : Env} {functions : List Function},
    compileFunctions env (before ++ after) = .ok functions → ∃ first second,
      compileFunctions env before = .ok first ∧ compileFunctions env after = .ok second ∧
        functions = first ++ second := by
  induction before with
  | nil => exact fun {env functions} h => ⟨[], functions, rfl, h, rfl⟩
  | cons item before ih =>
    intro env functions h
    cases item with
    | function signature body position =>
      obtain ⟨function, hone, h⟩ := exists_ok_of_bind h
      obtain ⟨others, hothers, ⟨⟩⟩ := exists_ok_of_bind h
      obtain ⟨first, second, hfirst, hsecond, rfl⟩ := ih hothers
      refine ⟨function :: first, second, ?_, hsecond, rfl⟩
      rw [compileFunctions, hone]
      simp only [Bind.bind, Except.bind, hfirst]
      rfl
    | declaration tokens => exact ih h

/-- The grammar reads every item of a program that compiles, in the surroundings that it sees. -/
theorem leftover_of_passes {env declared : Env} {item : Item}
    {declarations : List Declaration} {functions : List Function}
    (hdeclarations : compileDeclarations declared (before ++ item :: after) = .ok (declarations, env))
    (hfunctions : compileFunctions env (before ++ item :: after) = .ok functions) : ∃ visible surroundings rest,
      compileDeclarations declared (item.seen before (before ++ item :: after)) = .ok (visible, surroundings) ∧
        item.leftover surroundings = .ok rest := by
  cases item with
  | function signature body position =>
    obtain ⟨first, second, -, hsecond, -⟩ := compileFunctions_append hfunctions
    obtain ⟨f, hf, -⟩ := exists_ok_of_bind hsecond
    obtain ⟨rest, hrest⟩ := Item.leftover_of_compileFunction hf
    exact ⟨declarations, env, rest, hdeclarations, hrest⟩
  | declaration tokens =>
    obtain ⟨first, middle, second, hfirst, hsecond, -⟩ := compileDeclarations_append hdeclarations
    obtain ⟨result, hresult, -⟩ := exists_ok_of_bind hsecond
    obtain ⟨rest, hrest⟩ := Item.leftover_of_compileDeclaration hresult
    exact ⟨first, middle, rest, hfirst, hrest⟩

end Passes

/-- How a program is cut into pieces: one behind the other they are its tokens up to the end of the source, and each is
found at its place. -/
structure Splits (registry : Registry) (tokens : List Token) (pieces : List Piece) (tail : List Token) : Prop where
  joined : Expansion.expand tokens = Piece.joined pieces tail
  ends : firstKind tail = .endOfInput
  found : Piece.Each (Piece.Found (maxDepth - 1) ((Env.initial registry).enter .program)) pieces tail

theorem splits_of_items {registry : Registry} {tokens : List Token} {found : List Item}
    (h : items (.initial registry) (Expansion.expand tokens) = .ok found) :
    ∃ pieces tail, Splits registry tokens pieces tail ∧ found = Piece.items pieces tail := by
  obtain ⟨⟨found, tail⟩, hfound, ⟨⟩⟩ := exists_ok_of_bind h
  obtain ⟨pieces, hjoined, hitems, hends, heach⟩ := pieces_of_itemsFrom (by simp) hfound
  exact ⟨pieces, tail, ⟨hjoined, hends, heach⟩, hitems⟩

theorem Piece.Each.of_split {P : Piece → List Token → Prop} {piece : Piece} {after : List Piece} {tail : List Token} :
    ∀ {before : List Piece}, Piece.Each P (before ++ piece :: after) tail → P piece (Piece.joined after tail)
  | [], h => h.1
  | _ :: _, h => of_split h.2

theorem eq_nil_or_end {tail : List Token} (h : firstKind tail = .endOfInput) :
    tail = [] ∨ ∃ p behind, tail = ⟨.endOfInput, p⟩ :: behind := by
  cases tail with
  | nil => exact .inl rfl
  | cons token behind =>
    obtain ⟨kind, p⟩ := token
    cases h
    exact .inr ⟨p, behind, rfl⟩

/-- A program that compiles is a row of items, with nothing between them and only the end of the source behind them.
Each item ends at the same token for the search that finds it and for the grammar that reads it. -/
theorem items_tile_program {registry : Registry} {tokens : List Token} {p : Program}
    (h : program registry tokens = .ok p) :
    ∃ pieces tail declared, Expansion.expand tokens = Piece.joined pieces tail ∧
      (tail = [] ∨ ∃ q behind, tail = ⟨.endOfInput, q⟩ :: behind) ∧
      items (.initial registry) (Expansion.expand tokens) = .ok (Piece.items pieces tail) ∧
      declareFunctions (.initial registry) (Piece.items pieces tail) = .ok declared ∧
      ∀ before piece after, pieces = before ++ piece :: after →
        (piece.item (Piece.joined after tail)).skipped = Piece.joined after tail ∧
          ∃ visible surroundings, compileDeclarations declared ((piece.item (Piece.joined after tail)).seen
              (Piece.items before (Piece.joined (piece :: after) tail)) (Piece.items pieces tail)) =
                .ok (visible, surroundings) ∧
            (piece.item (Piece.joined after tail)).leftover surroundings = .ok (Piece.joined after tail) := by
  obtain ⟨found, declared, env, hfound, hdeclared, hdeclarations, hfunctions⟩ := passes_of_program h
  obtain ⟨pieces, tail, hsplit, rfl⟩ := splits_of_items hfound
  refine ⟨pieces, tail, declared, hsplit.joined, eq_nil_or_end hsplit.ends, hfound, hdeclared, ?_⟩
  rintro before piece after rfl
  have hskipped := Item.skipped_of_itemOf _ _ _ _ hsplit.found.of_split
  rw [Piece.items_append] at hdeclarations hfunctions ⊢
  obtain ⟨visible, surroundings, rest, hseen, hrest⟩ := leftover_of_passes hdeclarations hfunctions
  have hend := Item.skipped_eq_of_leftover hrest
  rw [hskipped] at hend
  exact ⟨hskipped, visible, surroundings, hseen, hend ▸ hrest⟩

/-- A program with items of every kind; one of the functions has loops and groups in its body. -/
def mixedItems : String :=
  "const int k=2;int f(int n)\x7bfor(;n>k;)\x7bn=g[0];\x7dreturn n;\x7dint[] g=new int[]\x7b1,k\x7d;global int a=f(k);" ++
    "void h()\x7b\x7d"

theorem items_tile_program_mixed : ∃ tokens p, Lexer.tokenize Registry.standard.resolveAlias mixedItems = .ok tokens ∧
    program .standard tokens = .ok p ∧ ∃ pieces tail, Expansion.expand tokens = Piece.joined pieces tail ∧
      (tail = [] ∨ ∃ q behind, tail = ⟨.endOfInput, q⟩ :: behind) ∧
      ∀ before piece after, pieces = before ++ piece :: after → ∃ surroundings,
        (piece.item (Piece.joined after tail)).leftover surroundings = .ok (Piece.joined after tail) := by
  have hrun : ((Lexer.tokenize Registry.standard.resolveAlias mixedItems).toOption.any
      fun tokens => (program .standard tokens).toOption.any fun _ => true) = true := by
    decide +kernel
  obtain ⟨tokens, htokens, hrun⟩ := exists_ok_of_any hrun
  obtain ⟨p, hp, -⟩ := exists_ok_of_any hrun
  obtain ⟨pieces, tail, declared, hjoined, hends, -, -, hpieces⟩ := items_tile_program hp
  refine ⟨tokens, p, htokens, hp, pieces, tail, hjoined, hends, fun before piece after hsplit => ?_⟩
  obtain ⟨-, visible, surroundings, -, hleftover⟩ := hpieces before piece after hsplit
  exact ⟨surroundings, hleftover⟩

end Scriptlet.Grammar
