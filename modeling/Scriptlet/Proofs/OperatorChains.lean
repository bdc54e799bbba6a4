import Mathlib.Data.List.Nodup
import Mathlib.Data.List.TakeWhile
import Scriptlet.Proofs.WholeNumbers

/-!
# Chains of operators

Operands with operators between them, and no parentheses. Such a chain stands for one tree: it is cut at an operator of
the lowest level in it, at the last one of these, and both sides are cut in the same way; powers are cut at the first.
The tree has the operands and operators of the chain from left to right, and compiles to one expression.
-/

namespace Scriptlet.Grammar

/-- An operator that stands between two operands. -/
inductive ChainOp
  | logical (op : LogicalOp)
  | infixed (op : InfixOp)
deriving DecidableEq, Repr

namespace ChainOp

def sign : ChainOp → Operator
  | .logical .or => .or
  | .logical .and => .and
  | .infixed .equal => .equal
  | .infixed .notEqual => .notEqual
  | .infixed .less => .less
  | .infixed .lessEqual => .lessEqual
  | .infixed .greater => .greater
  | .infixed .greaterEqual => .greaterEqual
  | .infixed .plus => .plus
  | .infixed .minus => .minus
  | .infixed .times => .star
  | .infixed .divide => .slash
  | .infixed .remainder => .percent
  | .infixed .power => .caret

def level : ChainOp → Nat
  | .logical .or => 0
  | .logical .and => 1
  | .infixed .equal | .infixed .notEqual => 2
  | .infixed .less | .infixed .lessEqual | .infixed .greater | .infixed .greaterEqual => 3
  | .infixed .plus | .infixed .minus => 4
  | .infixed .times | .infixed .divide | .infixed .remainder => 5
  | .infixed .power => 6

def isArithmetic : ChainOp → Bool
  | .logical _ => false
  | .infixed op => op.isArithmetic

theorem level_lt (op : ChainOp) : op.level < 7 := by
  rcases op with op | op <;> cases op <;> decide

theorem eq_power_of_level {op : ChainOp} (h : op.level = 6) : op = .infixed .power := by
  rcases op with op | op <;> cases op <;> first | rfl | cases h

theorem isOperator_caret {op : ChainOp} (h : op ≠ .infixed .power) :
    (TokenKind.operator op.sign).isOperator .caret = false := by
  rcases op with op | op <;> cases op <;> first | rfl | exact absurd rfl h

end ChainOp

/-- A name or a constant, and where it stands. -/
inductive Primary
  | name (spelling : String) (position : Position)
  | constant (literal : Literal) (position : Position)

def Primary.token : Primary → Token
  | .name spelling position => ⟨.identifier spelling, position⟩
  | .constant literal position => ⟨.literal literal, position⟩

/-- An operator, where it stands, and the operand behind it. -/
structure Link where
  op : ChainOp
  position : Position
  operand : Primary

def Link.tokens (link : Link) : List Token :=
  [⟨.operator link.op.sign, link.position⟩, link.operand.token]

theorem Link.length_tokens (links : List Link) : (links.flatMap tokens).length = 2 * links.length := by
  induction links with
  | nil => rfl
  | cons link links ih =>
    simp only [List.flatMap_cons, List.length_append, ih, tokens, List.length_cons, List.length_nil]
    omega

structure Chain where
  first : Primary
  links : List Link

namespace Chain

def tokens (c : Chain) : List Token :=
  c.first.token :: c.links.flatMap Link.tokens

def extend (c : Chain) (links : List Link) : Chain :=
  ⟨c.first, c.links ++ links⟩

def join (left : Chain) (op : ChainOp) (position : Position) (right : Chain) : Chain :=
  ⟨left.first, left.links ++ ⟨op, position, right.first⟩ :: right.links⟩

end Chain

/-- A tree of operators over operands. -/
inductive OpTree
  | leaf (operand : Primary)
  | node (left : OpTree) (op : ChainOp) (position : Position) (right : OpTree)

def OpTree.chain : OpTree → Chain
  | .leaf operand => ⟨operand, []⟩
  | .node left op position right => left.chain.join op position right.chain

/-- Where a chain is cut: at an operator of the lowest level in it. Among those of one level it is the last, or, for
powers, the first. -/
structure ChainOp.Cuts (left : List Link) (op : ChainOp) (right : List Link) : Prop where
  lowest : ∀ link ∈ left ++ right, op.level ≤ link.op.level
  outermost : ∀ link ∈ if op = .infixed .power then left else right, link.op.level ≠ op.level

namespace ChainOp.Cuts

variable {left left' right right' : List Link} {a b : Link}

/-- Of two operators, only one can be where the chain is cut. -/
theorem not_both {middle : List Link} (ha : a.op.Cuts left (middle ++ b :: right))
    (hb : b.op.Cuts (left ++ a :: middle) right) : False := by
  have heq : a.op.level = b.op.level := Nat.le_antisymm (ha.lowest b (by simp)) (hb.lowest a (by simp))
  by_cases hpower : a.op = .infixed .power
  · have hpower' : b.op = .infixed .power := eq_power_of_level (by rw [← heq, hpower]; rfl)
    have hfirst := hb.outermost
    rw [if_pos hpower'] at hfirst
    exact hfirst a (by simp) heq
  · have hlast := ha.outermost
    rw [if_neg hpower] at hlast
    exact hlast b (by simp) heq.symm

theorem unique (ha : a.op.Cuts left right) (hb : b.op.Cuts left' right') (h : left ++ a :: right = left' ++ b :: right') :
    left = left' ∧ a = b ∧ right = right' := by
  obtain ⟨middle, rfl, hrest⟩ | ⟨middle, rfl, hrest⟩ := List.append_eq_append_iff.mp h
  · cases middle with
    | nil => simpa using hrest
    | cons link middle =>
      obtain ⟨rfl, rfl⟩ := List.cons.inj hrest
      exact (not_both ha hb).elim
  · cases middle with
    | nil => simpa [eq_comm] using hrest
    | cons link middle =>
      obtain ⟨rfl, rfl⟩ := List.cons.inj hrest
      exact (not_both hb ha).elim

theorem le_of_mem_join {left right : Chain} {op : ChainOp} {p : Position} (h : op.Cuts left.links right.links) :
    ∀ link ∈ (left.join op p right).links, op.level ≤ link.op.level := by
  intro link hlink
  obtain hlink | rfl | hlink := by simpa [Chain.join] using hlink
  · exact h.lowest link (List.mem_append_left _ hlink)
  · exact Nat.le_refl _
  · exact h.lowest link (List.mem_append_right _ hlink)

end ChainOp.Cuts

/-- The tree that comes from a chain by cutting it, and both sides again. -/
inductive Chain.SplitsInto : Chain → OpTree → Prop
  | leaf (operand : Primary) : SplitsInto ⟨operand, []⟩ (.leaf operand)
  | node {left right : Chain} {op : ChainOp} {position : Position} {l r : OpTree} (hleft : left.SplitsInto l)
      (hright : right.SplitsInto r) (hcut : op.Cuts left.links right.links) :
      SplitsInto (left.join op position right) (.node l op position r)

namespace Chain.SplitsInto

theorem chain_eq {c : Chain} {t : OpTree} (h : c.SplitsInto t) : t.chain = c := by
  induction h with
  | leaf operand => rfl
  | node _ _ _ ihleft ihright => rw [OpTree.chain, ihleft, ihright]

theorem unique {c : Chain} {t t' : OpTree} (h : c.SplitsInto t) (h' : c.SplitsInto t') : t = t' := by
  induction h generalizing t' with
  | leaf operand =>
    generalize hc : (⟨operand, []⟩ : Chain) = c at h'
    cases h' with
    | leaf _ => cases hc; rfl
    | node => simp [Chain.join] at hc
  | @node left right op position l r hleft hright hcut ihleft ihright =>
    generalize hc : left.join op position right = c at h'
    cases h' with
    | leaf _ => simp [Chain.join] at hc
    | @node left' right' op' position' l' r' hleft' hright' hcut' =>
      obtain ⟨hfirst, hlinks⟩ := Chain.mk.inj hc
      obtain ⟨hl, hlink, hr⟩ := ChainOp.Cuts.unique (a := ⟨op, position, right.first⟩)
        (b := ⟨op', position', right'.first⟩) hcut hcut' hlinks
      obtain ⟨rfl, rfl, hbehind⟩ := Link.mk.inj hlink
      obtain rfl : left = left' := by cases left; cases left'; simp_all
      obtain rfl : right = right' := by cases right; cases right'; simp_all
      rw [ihleft hleft', ihright hright']

end Chain.SplitsInto

/-- The expression that a tree of operators compiles to, with the given inputs. -/
inductive OpTree.CompilesTo (classes : Hierarchy) (inputs : List Parameter) : OpTree → Expr → Prop
  | constant (literal : Literal) (p : Position) :
      CompilesTo classes inputs (.leaf (.constant literal p)) (.literal (.over literal.ty p []) literal.value)
  | name {spelling : String} {ty : Ty} (p : Position) (h : ⟨spelling, ty⟩ ∈ inputs) :
      CompilesTo classes inputs (.leaf (.name spelling p)) (.variable (.over ty p []) ⟨spelling, ty, p⟩)
  | logical {l r : OpTree} {e e' : Expr} {op : LogicalOp} {p : Position} (hleft : CompilesTo classes inputs l e)
      (hright : CompilesTo classes inputs r e') (hbool : e.ty = .bool ∧ e'.ty = .bool) :
      CompilesTo classes inputs (.node l (.logical op) p r) (.logical (.over .bool e.position [e, e']) e op e')
  | infixed {l r : OpTree} {e e' : Expr} {op : InfixOp} {p : Position} {operation : Operation}
      (hleft : CompilesTo classes inputs l e) (hright : CompilesTo classes inputs r e')
      (hoperation : Operation.infixed classes op e.ty e'.ty = some operation) :
      CompilesTo classes inputs (.node l (.infixed op) p r)
        (.binary (.over operation.result e.position [e, e']) e op e' operation.operand)

def Primary.IsInt (inputs : List Parameter) : Primary → Prop
  | .name spelling _ => ⟨spelling, .int⟩ ∈ inputs
  | .constant literal _ => literal.ty = .int

structure Chain.IsInt (inputs : List Parameter) (c : Chain) : Prop where
  first : c.first.IsInt inputs
  links : ∀ link ∈ c.links, link.op.isArithmetic = true ∧ link.operand.IsInt inputs

namespace Chain.IsInt

variable {inputs : List Parameter} {c left right : Chain} {op : ChainOp} {p : Position}

theorem of_extend {links : List Link} (h : (c.extend links).IsInt inputs) : c.IsInt inputs :=
  ⟨h.first, fun link hlink => h.links link (List.mem_append_left links hlink)⟩

theorem join_iff : (left.join op p right).IsInt inputs ↔
    left.IsInt inputs ∧ op.isArithmetic = true ∧ right.IsInt inputs := by
  constructor
  · intro h
    have hop := h.links ⟨op, p, right.first⟩ (by simp [join])
    exact ⟨⟨h.first, fun link hlink => h.links link (by simp [join, hlink])⟩, hop.1, hop.2,
      fun link hlink => h.links link (by simp [join, hlink])⟩
  · rintro ⟨hleft, hop, hright⟩
    refine ⟨hleft.first, fun link hlink => ?_⟩
    obtain hlink | rfl | hlink := by simpa [join] using hlink
    · exact hleft.links link hlink
    · exact ⟨hop, hright.first⟩
    · exact hright.links link hlink

end Chain.IsInt

theorem infixed_int {classes : Hierarchy} {op : InfixOp} (hop : op.isArithmetic = true) :
    Operation.infixed classes op .int .int = some ⟨.int, .int⟩ := by
  cases op <;> first | rfl | cases hop

namespace OpTree.CompilesTo

variable {classes : Hierarchy} {inputs : List Parameter} {t : OpTree} {e : Expr}

theorem ty_eq_int (h : t.CompilesTo classes inputs e) (hdistinct : (inputs.map (·.name)).Nodup)
    (hint : t.chain.IsInt inputs) : e.ty = .int := by
  induction h with
  | constant literal p => exact hint.first
  | name p h => exact (Parameter.mk.inj (List.inj_on_of_nodup_map hdistinct h hint.first rfl)).2
  | logical _ _ _ _ _ => cases (Chain.IsInt.join_iff.mp hint).2.1
  | @infixed l r e e' op p operation _ _ hoperation ihleft ihright =>
    obtain ⟨hl, hop, hr⟩ := Chain.IsInt.join_iff.mp hint
    rw [ihleft hl, ihright hr, infixed_int hop] at hoperation
    cases hoperation
    rfl

theorem height_le (h : t.CompilesTo classes inputs e) : e.height ≤ t.chain.links.length + 1 := by
  induction h with
  | constant | name => exact Nat.le_refl 1
  | logical _ _ _ ihleft ihright | infixed _ _ _ ihleft ihright =>
    simp only [Expr.height, Expr.info, ExprInfo.over, List.map, List.foldl, chain, Chain.join, List.length_append,
      List.length_cons] at *
    omega

end OpTree.CompilesTo

namespace Chain

/-- The part of a chain before the first operator below a level. -/
def upTo (level : Nat) (c : Chain) : Chain :=
  ⟨c.first, c.links.takeWhile (level ≤ ·.op.level)⟩

/-- What is behind that part. -/
def beyond (level : Nat) (c : Chain) : List Link :=
  c.links.dropWhile (level ≤ ·.op.level)

theorem upTo_extend_beyond (level : Nat) (c : Chain) : (c.upTo level).extend (c.beyond level) = c := by
  simp [extend, upTo, beyond]

theorem join_upTo_extend_beyond (level : Nat) (front : Chain) (link : Link) (links : List Link) :
    (front.join link.op link.position (upTo level ⟨link.operand, links⟩)).extend (beyond level ⟨link.operand, links⟩) =
      front.extend (link :: links) := by
  simp [extend, join, upTo, beyond]

variable {level : Nat} {c : Chain}

theorem upTo_eq_self (h : ∀ link ∈ c.links, level ≤ link.op.level) : c.upTo level = c := by
  rw [upTo, List.takeWhile_eq_self_iff.mpr (by simpa using h)]

theorem beyond_eq_nil (h : ∀ link ∈ c.links, level ≤ link.op.level) : c.beyond level = [] :=
  List.dropWhile_eq_nil_iff.mpr (by simpa using h)

theorem upTo_seven (c : Chain) : c.upTo 7 = ⟨c.first, []⟩ := by
  rw [upTo, Chain.mk.injEq]
  refine ⟨rfl, ?_⟩
  cases hlinks : c.links with
  | nil => rfl
  | cons link links => simp [Nat.not_le.mpr link.op.level_lt]

theorem beyond_seven (c : Chain) : c.beyond 7 = c.links := by
  simpa [upTo_seven, extend] using congrArg links (c.upTo_extend_beyond 7)

theorem length_upTo_le (level : Nat) (c : Chain) : (c.upTo level).links.length ≤ c.links.length :=
  (List.takeWhile_sublist _).length_le

theorem length_beyond_le (level : Nat) (c : Chain) : (c.beyond level).length ≤ c.links.length :=
  (List.dropWhile_sublist _).length_le

theorem level_of_mem_upTo {link : Link} (h : link ∈ (c.upTo level).links) : level ≤ link.op.level := by
  simpa using List.mem_takeWhile_imp h

theorem level_of_head_beyond {link : Link} (h : (c.beyond level).head? = some link) : link.op.level < level := by
  have hhead := List.head?_dropWhile_not (level ≤ ·.op.level) c.links
  rw [← beyond, h] at hhead
  simpa using hhead

/-- A chain that goes on behind a part of a level with an operator below it. -/
theorem upTo_extend {front : Chain} {links : List Link} (hfront : ∀ link ∈ front.links, level ≤ link.op.level)
    (hlinks : ∀ link, links.head? = some link → link.op.level < level) :
    (front.extend links).upTo level = front ∧ (front.extend links).beyond level = links := by
  have hfront' : ∀ link ∈ front.links, decide (level ≤ link.op.level) = true := by simpa using hfront
  simp only [extend, upTo, beyond, List.takeWhile_append_of_pos hfront', List.dropWhile_append_of_pos hfront']
  cases links with
  | nil => simp
  | cons link links => simp [Nat.not_le.mpr (hlinks link rfl)]

end Chain

end Scriptlet.Grammar
