import Scriptlet.Formula
import Scriptlet.Proofs.LexemeReading
import Scriptlet.Proofs.Precedence
import Scriptlet.Proofs.WholeNumbers

/-!
# Whole numbers in a source text

The decimal text of a number that fits in 64 bits compiles to that number: an int if it fits in 32 bits and a long if
not. The least int is the one number whose magnitude is no int; the least long cannot be written, and no more can any
number beyond the longs.
-/

namespace Scriptlet

/-- The value and the type that a script gives to a whole number: an int if it fits in 32 bits, and a long if not. -/
inductive Value.Whole (v : Int64) : Value → Ty → Prop
  | int {i : Int32} (h : i.toInt = v.toInt) : Whole v (.int i) .int
  | long (h : v.toInt < -2147483648 ∨ 2147483647 < v.toInt) : Whole v (.long v) .long

namespace Numeral

open Number

theorem readDigits_eq {digits : List Char} (hne : digits ≠ []) (hdigits : ∀ d ∈ digits, isDigit d = true) :
    readDigits digits = some (Nat.ofDigitChars 10 digits 0) :=
  readDigits_eq_some_iff.mpr ⟨hne, fun d hd => isDigit_iff.mp (hdigits d hd), rfl⟩

theorem plainInteger_cases {digits : List Char} {n : Nat} (h : readDigits digits = some n) :
    (∃ i : Int32, i.toInt = n ∧ plainInteger digits = some (.int i)) ∨
      (n = 2147483648 ∧ plainInteger digits = some .intMinMagnitude) ∨
      (∃ l : Int64, l.toInt = n ∧ 2147483648 < n ∧ plainInteger digits = some (.long l)) ∨
      9223372036854775807 < n ∧ plainInteger digits = none := by
  simp only [plainInteger, h, bind, Option.bind]
  by_cases hleast : n = 2147483648
  · exact .inr (.inl ⟨hleast, if_pos hleast⟩)
  · rw [if_neg hleast]
    cases hint : fit32 n with
    | some i => exact .inl ⟨i, (fit32_eq_some_iff _ _).mp hint, rfl⟩
    | none =>
      have hlarge := (fit32_eq_none_iff _).mp hint
      cases hlong : fit64 n with
      | some l => exact .inr (.inr (.inl ⟨l, (fit64_eq_some_iff _ _).mp hlong, by omega, rfl⟩))
      | none =>
        have hhuge := (fit64_eq_none_iff _).mp hlong
        exact .inr (.inr (.inr ⟨by omega, rfl⟩))

end Numeral

namespace Grammar

open Rule

/-- Whatever the surroundings, a rule reads an expression from the front of some tokens and leaves others. -/
def Rule.Yields (rule : Rule Expr) (tokens : List Token) (e : Expr) (rest : List Token) : Prop :=
  ∀ env, rule env tokens = .ok (e, rest)

namespace Rule.Yields

variable {rule : Rule Expr} {tokens rest : List Token} {e : Expr}

theorem named (h : rule.Yields tokens e rest) (name : RuleName) : (rule.named name).Yields tokens e rest :=
  fun env => h (env.enter name)

theorem andThen (h : rule.Yields tokens e rest) {next : Expr → Rule Expr} {e' : Expr} {rest' : List Token}
    (hnext : (next e).Yields rest e' rest') : (rule >>= next).Yields tokens e' rest' :=
  fun env => (bind_ok (h env)).trans (hnext env)

theorem leftToRight (h : rule.Yields tokens e rest) {α : Type} {operator? : TokenKind → Option α}
    {combine : Expr → α → Expr → Rule Expr} (hstop : operator? (firstKind rest) = none) :
    (Grammar.leftToRight rule operator? combine).Yields tokens e rest :=
  h.andThen fun _ => chain_stop hstop _

end Rule.Yields

/-- What the rule for signs reads, and has only the end of the source behind it, is the whole expression. -/
theorem expression_of_unary {depth : Nat} {tokens rest : List Token} {e : Expr}
    (h : (exprRules depth).unary.Yields tokens e rest) (hend : firstKind rest = .endOfInput)
    (hheight : e.height ≤ maxHeight) : (exprRules (depth + 10)).expression.Yields tokens e rest := by
  have hpower : (exprRules (depth + 1)).power.Yields tokens e rest :=
    (h.andThen fun env => by rw [peek_bind, hend]; rfl).named _
  have hfactor : (exprRules (depth + 2)).factor.Yields tokens e rest := (hpower.leftToRight (by rw [hend]; rfl)).named _
  have hterm : (exprRules (depth + 3)).term.Yields tokens e rest := (hfactor.leftToRight (by rw [hend]; rfl)).named _
  have hcomparison : (exprRules (depth + 4)).comparison.Yields tokens e rest :=
    (hterm.leftToRight (by rw [hend]; rfl)).named _
  have hequality : (exprRules (depth + 5)).equality.Yields tokens e rest :=
    (hcomparison.leftToRight (by rw [hend]; rfl)).named _
  have hand : (exprRules (depth + 6)).logicalAnd.Yields tokens e rest :=
    (hequality.leftToRight (by rw [hend]; rfl)).named _
  have hor : (exprRules (depth + 7)).logicalOr.Yields tokens e rest := (hand.leftToRight (by rw [hend]; rfl)).named _
  have hternary : (exprRules (depth + 8)).ternary.Yields tokens e rest :=
    (hor.andThen fun env => by rw [peek_bind, hend]; rfl).named _
  have hassignment : (exprRules (depth + 9)).assignment.Yields tokens e rest :=
    (hternary.andThen fun env => by rw [peek_bind, hend]; rfl).named _
  exact (hassignment.andThen fun env => by rw [bounded, if_neg (Nat.not_lt.mpr hheight)]; rfl).named _

theorem unary_literal (depth : Nat) (l : Literal) (p q : Position) :
    (exprRules (depth + 3)).unary.Yields [⟨.literal l, p⟩, ⟨.endOfInput, q⟩] (.literal (.over l.ty p []) l.value)
      [⟨.endOfInput, q⟩] :=
  fun _ => rfl

theorem unary_negative (depth : Nat) {l : Literal} (hleast : l ≠ .intMinMagnitude) {v : Value}
    (hv : l.value.negated? = some v) (hnumeric : l.ty.isNumeric = true) (p p' q : Position) :
    (exprRules (depth + 4)).unary.Yields [⟨.operator .minus, p⟩, ⟨.literal l, p'⟩, ⟨.endOfInput, q⟩]
      (.literal (.over l.ty p []) v) [⟨.endOfInput, q⟩] := by
  have hstarts : startsLeastInt (.literal l) .endOfInput = false := by
    cases l <;> first | rfl | exact absurd rfl hleast
  have hnegation : (negationOf (.literal (.over l.ty p' []) l.value) p).Yields [⟨.endOfInput, q⟩]
      (.literal (.over l.ty p []) v) [⟨.endOfInput, q⟩] := by
    intro env
    have hty : (Expr.literal (.over l.ty p' []) l.value).ty = l.ty := rfl
    simp only [negationOf, hty, hnumeric, Expr.literal?, Option.bind_some, hv]
    rfl
  intro env
  have hrule : (exprRules (depth + 4)).unary env [⟨.operator .minus, p⟩, ⟨.literal l, p'⟩, ⟨.endOfInput, q⟩] =
      (if startsLeastInt (.literal l) .endOfInput then (do skip; return .literal (.over .int p []) (.int (-2147483648)))
        else (exprRules (depth + 3)).unary >>= fun operand => negationOf operand p : Rule Expr) (env.enter .unary)
        [⟨.literal l, p'⟩, ⟨.endOfInput, q⟩] := rfl
  rw [hrule, hstarts, if_neg Bool.false_ne_true]
  exact (unary_literal depth l p' q).andThen hnegation _

theorem unary_least (depth : Nat) (p p' q : Position) :
    (exprRules (depth + 1)).unary.Yields
      [⟨.operator .minus, p⟩, ⟨.literal .intMinMagnitude, p'⟩, ⟨.endOfInput, q⟩]
      (.literal (.over .int p []) (.int (-2147483648))) [⟨.endOfInput, q⟩] :=
  fun _ => rfl

theorem expression_eq {registry : Registry} {inputs : List Parameter} (hinputs : (inputs.map (·.name)).Nodup)
    {tokens rest : List Token} {e : Expr} (hexpand : Expansion.expand tokens = tokens)
    (h : (exprRules 245).unary.Yields tokens e rest) (hend : firstKind rest = .endOfInput)
    (hheight : e.height ≤ maxHeight) : expression registry tokens inputs = .ok e := by
  have hinitial : ((Env.initial registry).enter .expressionScript).Declares registry.classes [] :=
    ⟨rfl, by simp, by rintro _ _ ⟨⟩, .nil⟩
  have hwhole : (wholeExpression (exprRules 255)).Yields tokens e rest :=
    (expression_of_unary h hend hheight).andThen fun env => by
      rw [peek_bind, hend]
      show (peek >>= _) env rest = _
      rw [peek_bind, hend]
      rfl
  have hrule : enter .expressionScript (fun depth => withVariables (wholeExpression (exprRules depth)) inputs) maxDepth
      (.initial registry) tokens = .ok (e, rest) := by
    obtain ⟨_, _, _, hnodup⟩ | ⟨env, -, heq⟩ := withVariables_cases (wholeExpression (exprRules 255)) inputs hinitial
      tokens
    · exact absurd hinputs (by simpa using hnodup)
    · exact heq.trans (hwhole env)
  rw [expression, hexpand, hrule]
  rfl

end Grammar

namespace Lexer

open Numeral

variable {types : TypeNames}

section Digits

variable (types) {digits : List Char} (hne : digits ≠ []) (hdigits : ∀ d ∈ digits, isDigit d = true)

include hne hdigits

theorem tiles_digits {l : Literal} (hvalue : plainInteger digits = some l) (p : Position) :
    Tiles (fun _ => Reads types) p digits [⟨.literal l, p⟩] := by
  have hread : Reads types digits [] (.literal l) := reads_digits hne hdigits (by simp) (by simp) hvalue
  have hover : Trivia.Over (digits ++ []) := (starts_with_digit hne hdigits []).1
  have htiles : Tiles (fun _ => Reads types) p ([] ++ (digits ++ [])) [⟨.literal l, p⟩] :=
    .token .nil hover hread (.done (.between .nil))
  rwa [List.append_nil] at htiles

omit hne in
theorem minus_digits : Trivia.Over ('-' :: digits) ∧ Reads types ['-'] digits (.operator .minus) := by
  refine ⟨Trivia.over_cons (by decide) (by decide), reads_sign (operator_mem_signs .minus) fun c hc => ?_⟩
  have hdigit := hdigits c (List.mem_of_mem_head? hc)
  exact sign_ends (List.cons_ne_nil _ _) (by simp [isWordChar, hdigit])

theorem tokenize_digits {l : Literal} (hvalue : plainInteger digits = some l) :
    ∃ q, tokenize types (String.ofList digits) = .ok [⟨.literal l, .start⟩, ⟨.endOfInput, q⟩] :=
  ⟨_, tokenize_of_tiles (by rw [String.toList_ofList]; exact tiles_digits types hne hdigits hvalue .start) rfl rfl rfl⟩

theorem tokenize_negative {l : Literal} (hvalue : plainInteger digits = some l) :
    ∃ p q, tokenize types ("-" ++ String.ofList digits) =
      .ok [⟨.operator .minus, .start⟩, ⟨.literal l, p⟩, ⟨.endOfInput, q⟩] := by
  obtain ⟨hover, hminus⟩ := minus_digits types hdigits
  have htiles : Tiles (fun _ => Reads types) .start ('-' :: digits) _ :=
    .token .nil hover hminus (tiles_digits types hne hdigits hvalue _)
  have hsource : ("-" ++ String.ofList digits).toList = '-' :: digits := by simp
  exact ⟨_, _, tokenize_of_tiles (by rw [hsource]; exact htiles) rfl rfl rfl⟩

theorem scan_malformed (hvalue : plainInteger digits = none) {steps : Nat} (hsteps : digits.length ≤ steps)
    (p : Position) : ∃ q, scan types steps p digits = .error ⟨.malformedNumber (String.ofList digits), q⟩ := by
  have hpositive := List.length_pos_iff.mpr hne
  obtain ⟨hover, hplain⟩ := starts_with_digit hne hdigits []
  have hread : readLexeme types (digits ++ []) = _ := readLexeme_digits hne hdigits (by simp) (by simp)
  rw [List.append_nil] at hover hplain hread
  cases steps with
  | zero => omega
  | succ steps =>
    rw [scan, Trivia.split_over hover]
    simp only [if_true, hplain, hread, hvalue]
    exact ⟨_, rfl⟩

theorem tokenize_malformed (hvalue : plainInteger digits = none) {sign : String} (hsign : sign ∈ ["", "-"]) :
    ∃ q, tokenize types (sign ++ String.ofList digits) = .error ⟨.malformedNumber (String.ofList digits), q⟩ := by
  obtain ⟨q, hscan⟩ : ∃ q, rawTokens types (sign ++ String.ofList digits) =
      .error ⟨.malformedNumber (String.ofList digits), q⟩ := by
    rw [rawTokens, String.toList_append, String.toList_ofList]
    obtain rfl | rfl : sign = "" ∨ sign = "-" := by simpa using hsign
    · exact scan_malformed types hne hdigits hvalue le_rfl .start
    · obtain ⟨hover, hminus⟩ := minus_digits types hdigits
      obtain ⟨q, hrest⟩ := scan_malformed types hne hdigits hvalue le_rfl (Position.start.advance ['-'])
      have hscan := scan_lexeme .nil hover hminus digits.length .start
      exact ⟨q, hscan.trans (by rw [List.nil_append, hrest]; rfl)⟩
  exact ⟨q, by rw [tokenize, hscan]; rfl⟩

end Digits

end Lexer

namespace Number

theorem natText_digits (n : Nat) : (natText n).toList ≠ [] ∧ (∀ d ∈ (natText n).toList, Numeral.isDigit d = true) ∧
    readDigits (natText n).toList = some n := by
  have h := spellsDigits_natText n
  exact ⟨h.nonempty, fun d hd => Numeral.isDigit_iff.mpr (h.isDigit d hd), readDigits_eq_some_iff.mpr h⟩

end Number

namespace Formula

open Grammar Lexer Number

variable {registry : Registry} {inputs : List Parameter} (hinputs : (inputs.map (·.name)).Nodup)

include hinputs

theorem compile_constant {source : String} {tokens rest : List Token}
    (htokens : tokenize registry.resolveAlias source = .ok tokens) (hexpand : Expansion.expand tokens = tokens)
    {ty : Ty} {p : Position} {v : Value}
    (h : (exprRules 245).unary.Yields tokens (.literal (.over ty p []) v) rest)
    (hend : Rule.firstKind rest = .endOfInput) :
    compile registry source inputs = .ok ⟨registry, .literal (.over ty p []) v⟩ := by
  have hheight : (Expr.literal (.over ty p []) v).height ≤ maxHeight := show 1 ≤ 256 by decide
  rw [compile, htokens]
  simp only [expression_eq hinputs hexpand h hend hheight]
  rfl

theorem compile_natText {v : Int64} {n : Nat} (hn : v.toInt = n) :
    ∃ w ty p, Value.Whole v w ty ∧
      compile registry (natText n) inputs = .ok ⟨registry, .literal (.over ty p []) w⟩ := by
  obtain ⟨hne, hdigits, hread⟩ := natText_digits n
  have hcompile : ∀ l, Numeral.plainInteger (natText n).toList = some l →
      compile registry (natText n) inputs = .ok ⟨registry, .literal (.over l.ty .start []) l.value⟩ := by
    intro l hl
    obtain ⟨q, htokens⟩ := tokenize_digits registry.resolveAlias hne hdigits hl
    rw [String.ofList_toList] at htokens
    exact compile_constant hinputs htokens rfl (unary_literal 242 l _ _) rfl
  rcases Numeral.plainInteger_cases hread with ⟨i, hi, hl⟩ | ⟨rfl, hl⟩ | ⟨l, hl', hlarge, hl⟩ | ⟨hhuge, -⟩
  · exact ⟨_, _, _, .int (hi.trans hn.symm), hcompile _ hl⟩
  · obtain rfl : v = 2147483648 := Int64.toInt_inj.mp (hn.trans (by decide))
    exact ⟨_, _, _, .long (by decide), hcompile _ hl⟩
  · obtain rfl : l = v := Int64.toInt_inj.mp (hl'.trans hn.symm)
    exact ⟨_, _, _, .long (by omega), hcompile _ hl⟩
  · have := v.toInt_lt
    omega

theorem compile_negative {v : Int64} {n : Nat} (hn : v.toInt = -n) (hneg : v.toInt < 0) (hleast : v ≠ Int64.minValue) :
    ∃ w ty p, Value.Whole v w ty ∧
      compile registry ("-" ++ natText n) inputs = .ok ⟨registry, .literal (.over ty p []) w⟩ := by
  obtain ⟨hne, hdigits, hread⟩ := natText_digits n
  have htokens : ∀ l, Numeral.plainInteger (natText n).toList = some l → ∃ p q,
      tokenize registry.resolveAlias ("-" ++ natText n) =
        .ok [⟨.operator .minus, .start⟩, ⟨.literal l, p⟩, ⟨.endOfInput, q⟩] := by
    intro l hl
    obtain ⟨p, q, htokens⟩ := tokenize_negative registry.resolveAlias hne hdigits hl
    exact ⟨p, q, by rwa [String.ofList_toList] at htokens⟩
  have hcompile : ∀ l w, Numeral.plainInteger (natText n).toList = some l → l ≠ .intMinMagnitude →
      l.value.negated? = some w → l.ty.isNumeric = true →
      compile registry ("-" ++ natText n) inputs = .ok ⟨registry, .literal (.over l.ty .start []) w⟩ := by
    intro l w hl hmagnitude hw hnumeric
    obtain ⟨p, q, htokens⟩ := htokens l hl
    exact compile_constant hinputs htokens rfl (unary_negative 241 hmagnitude hw hnumeric _ p q) rfl
  rcases Numeral.plainInteger_cases hread with ⟨i, hi, hl⟩ | ⟨rfl, hl⟩ | ⟨l, hl', hlarge, hl⟩ | ⟨hhuge, -⟩
  · cases hfit : fit32 (-i.toInt) with
    | none =>
      have := (fit32_eq_none_iff _).mp hfit
      have := i.toInt_lt
      omega
    | some j =>
      have hj : j.toInt = v.toInt := by rw [(fit32_eq_some_iff _ _).mp hfit, hi, hn]
      exact ⟨_, _, _, .int hj, hcompile _ (.int j) hl (by rintro ⟨⟩) (by simp [Value.negated?, Literal.value, hfit]) rfl⟩
  · obtain ⟨p, q, htokens⟩ := htokens _ hl
    refine ⟨.int (-2147483648), .int, .start, .int (by rw [hn]; decide), ?_⟩
    exact compile_constant hinputs htokens rfl (unary_least 244 _ p q) rfl
  · cases hfit : fit64 (-l.toInt) with
    | none =>
      have := (fit64_eq_none_iff _).mp hfit
      have := l.toInt_lt
      omega
    | some j =>
      obtain rfl : j = v := Int64.toInt_inj.mp (by rw [(fit64_eq_some_iff _ _).mp hfit, hl', hn])
      exact ⟨_, _, _, .long (by omega),
        hcompile _ (.long j) hl (by rintro ⟨⟩) (by simp [Value.negated?, Literal.value, hfit]) rfl⟩
  · have hbound := v.le_toInt
    have : v.toInt ≠ Int64.minValue.toInt := fun heq => hleast (Int64.toInt_inj.mp heq)
    have hmin : Int64.minValue.toInt = -9223372036854775808 := by decide
    omega

end Formula

/-- Whole numbers are read back from their decimal text: every number of 64 bits but the least compiles to a formula that
has it as its value, an int where 32 bits are enough, and is of that type. Digits that write a greater number are
malformed, with a minus in front or without. -/
theorem integers_read_back (registry : Registry) {inputs : List Parameter} (hinputs : (inputs.map (·.name)).Nodup) :
    (∀ v : Int64, v ≠ Int64.minValue → ∃ f w, Formula.compile registry (Number.intText v.toInt) inputs = .ok f ∧
      Value.Whole v w f.ty ∧ ∀ rounds m, ∃ m', f.evaluate rounds m = .ok w m') ∧
    ∀ digits : List Char, (∀ d ∈ digits, d.isDigit = true) → 9223372036854775807 < Nat.ofDigitChars 10 digits 0 →
      ∀ sign ∈ ["", "-"], ∃ err, Formula.compile registry (sign ++ String.ofList digits) inputs = .error err ∧
        err.cause = .lexical (.malformedNumber (String.ofList digits)) := by
  constructor
  · intro v hleast
    obtain ⟨w, ty, p, hwhole, hcompile⟩ : ∃ w ty p, Value.Whole v w ty ∧
        Formula.compile registry (Number.intText v.toInt) inputs = .ok ⟨registry, .literal (.over ty p []) w⟩ := by
      rw [Number.intText]
      split
      · next hneg => exact Formula.compile_negative hinputs (by omega) hneg hleast
      · next hpos => exact Formula.compile_natText hinputs (by omega)
    exact ⟨_, w, hcompile, hwhole, fun rounds m => ⟨_, rfl⟩⟩
  · intro digits hdigits hlarge sign hsign
    have hne : digits ≠ [] := by
      rintro rfl
      exact absurd hlarge (by decide)
    have hdigits : ∀ d ∈ digits, Numeral.isDigit d = true := fun d hd => Numeral.isDigit_iff.mpr (hdigits d hd)
    have hvalue : Numeral.plainInteger digits = none := by
      rcases Numeral.plainInteger_cases (Numeral.readDigits_eq hne hdigits) with
        ⟨i, hi, -⟩ | ⟨hn, -⟩ | ⟨l, hl, -, -⟩ | ⟨-, hnone⟩
      · have := i.toInt_lt
        omega
      · omega
      · have := l.toInt_lt
        omega
      · exact hnone
    obtain ⟨q, htokens⟩ := Lexer.tokenize_malformed registry.resolveAlias hne hdigits hvalue hsign
    exact ⟨_, by rw [Formula.compile, htokens], rfl⟩

/-- The least int can be written, the least long cannot. -/
theorem integers_read_back_least :
    ([⟨"x", .int⟩].map Parameter.name).Nodup ∧
      (∃ f w, Formula.compile .standard "-2147483648" [⟨"x", .int⟩] = .ok f ∧ Value.Whole (-2147483648) w f.ty ∧
        ∀ rounds m, ∃ m', f.evaluate rounds m = .ok w m') ∧
      ∃ err, Formula.compile .standard "-9223372036854775808" [⟨"x", .int⟩] = .error err ∧
        err.cause = .lexical (.malformedNumber "9223372036854775808") := by
  have hinputs : ([⟨"x", .int⟩].map Parameter.name).Nodup := by decide
  obtain ⟨hread, hmalformed⟩ := integers_read_back .standard hinputs
  have htext : Number.intText (-2147483648 : Int64).toInt = "-2147483648" := by decide +kernel
  have hleast := hread (-2147483648) (by decide)
  rw [htext] at hleast
  have hdigits : "9223372036854775808".toList.all (·.isDigit) = true := by decide
  exact ⟨hinputs, hleast, hmalformed "9223372036854775808".toList (List.all_eq_true.mp hdigits) (by decide) "-" (by decide)⟩

end Scriptlet
