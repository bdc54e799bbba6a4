import Scriptlet.Proofs.FunctionOrder
import Scriptlet.Proofs.LexemeReading
import Scriptlet.Proofs.Precedence
import Scriptlet.Proofs.TypeOrder
import Scriptlet.Script

/-!
# The text of a type

The text of a type is read back as that type, also where it stands in a declaration. So types of different text are
different types, and what is registered under the text of one is not found under that of another.
-/

namespace Scriptlet

namespace Lexer

open Numeral

variable {types : TypeNames}

/-- The words that stand for something in every script. -/
def reserved : List String :=
  Keyword.words.map Keyword.text ++ ["true", "false", "null", "void"]

def isWord (text : String) : Bool :=
  match text.toList with
  | [] => false
  | c :: word => (isLetter c || c = '_') && word.all isWordChar

def isName (text : String) : Bool :=
  isWord text && text ∉ reserved

theorem wordKind_of_name {word : String} (h : isName word = true) :
    wordKind types word = ((types word).map (.type word)).getD (.identifier word) := by
  simp only [isName, reserved, Bool.and_eq_true, decide_eq_true_eq, List.mem_append, not_or, List.mem_cons] at h
  obtain ⟨-, hkeyword, htrue, hfalse, hnull, hvoid, -⟩ := h
  have hnone : Keyword.ofWord? word = none := by
    rw [Keyword.ofWord?, List.find?_eq_none]
    intro k hk heq
    exact hkeyword (List.mem_map.mpr ⟨k, hk, of_decide_eq_true heq⟩)
  unfold wordKind
  split
  · next k hk =>
    rw [hnone] at hk
    cases hk
  · split
    · exact absurd rfl htrue
    · exact absurd rfl hfalse
    · exact absurd rfl hnull
    · exact absurd rfl hvoid
    · cases types word <;> rfl

theorem Tiles.blank {Spelled : Position → List Char → List Char → TokenKind → Prop} {p : Position} {rest : List Char}
    {tokens : List Token} {c : Char} (hc : Text.isBlank c = true) (h : Tiles Spelled (p.advance [c]) rest tokens) :
    Tiles Spelled p (c :: rest) tokens := by
  generalize hp : p.advance [c] = q at h
  cases h with
  | done h => exact .done (h.blank hc)
  | @token _ trivia lexeme rest kind tokens htrivia hover hlexeme hrest =>
    have hadvance : ∀ cs, q.advance cs = p.advance (c :: cs) := by
      intro cs
      rw [← hp, ← Position.advance_append]
      rfl
    rw [hadvance] at hlexeme hrest ⊢
    exact .token (.blank hc htrivia) hover hlexeme hrest

/-- Wherever a text begins, it is read as tokens that have a property. -/
def Lexes (types : TypeNames) (text : List Char) (P : List Token → Prop) : Prop :=
  ∀ p, ∃ tokens, P tokens ∧ Tiles (fun _ => Reads types) p text tokens

namespace Lexes

variable {rest : List Char} {P Q : List Token → Prop}

theorem nil : Lexes types [] (· = []) :=
  fun _ => ⟨[], rfl, .done (.between .nil)⟩

theorem imp (h : Lexes types rest P) (himp : ∀ tokens, P tokens → Q tokens) : Lexes types rest Q := by
  intro p
  obtain ⟨tokens, htokens, htiles⟩ := h p
  exact ⟨tokens, himp tokens htokens, htiles⟩

theorem blank {c : Char} (hc : Text.isBlank c = true) (h : Lexes types rest P) : Lexes types (c :: rest) P := by
  intro p
  obtain ⟨tokens, htokens, htiles⟩ := h (p.advance [c])
  exact ⟨tokens, htokens, htiles.blank hc⟩

theorem word {word : String} (hword : isWord word = true) (hends : ∀ c ∈ rest.head?, isWordChar c = false)
    (h : Lexes types rest P) :
    Lexes types (word.toList ++ rest) fun tokens => ∃ p tail, tokens = ⟨wordKind types word, p⟩ :: tail ∧ P tail := by
  obtain ⟨c, letters, heq⟩ : ∃ c letters, word.toList = c :: letters := by
    cases hlist : word.toList with
    | nil => simp [isWord, hlist] at hword
    | cons c letters => exact ⟨c, letters, rfl⟩
  simp only [isWord, heq, Bool.and_eq_true, List.all_eq_true, Bool.or_eq_true, decide_eq_true_eq] at hword
  have hread : Reads types (c :: letters) rest _ := reads_word hword.1 hword.2 hends
  rw [← heq, String.ofList_toList] at hread
  intro p
  obtain ⟨tail, htail, htiles⟩ := h (p.advance word.toList)
  exact ⟨_, ⟨p, tail, rfl, htail⟩, .token .nil (by rw [heq]; exact over_of_starts hword.1 _) hread htiles⟩

theorem sign {c : Char} {kind : TokenKind} (hsign : ([c], kind) ∈ signs) (hover : Trivia.Over (c :: rest))
    (hends : ∀ d ∈ rest.head?, ∀ s ∈ signs, ¬ [c, d] <+: s.1) (h : Lexes types rest P) :
    Lexes types (c :: rest) fun tokens => ∃ p tail, tokens = ⟨kind, p⟩ :: tail ∧ P tail := by
  intro p
  obtain ⟨tail, htail, htiles⟩ := h (p.advance [c])
  exact ⟨_, ⟨p, tail, rfl, htail⟩, .token .nil hover (reads_sign hsign hends) htiles⟩

end Lexes

end Lexer

namespace Ty

def nesting : Ty → Nat
  | .sequence .array element => element.nesting
  | .sequence _ element => element.nesting + 1
  | .dictionary key value => max key.nesting value.nesting + 1
  | _ => 0

/-- The types that a script can name: the type of `null` does not occur in them, and their classes are registered under
names that are words of no other meaning. -/
def Writable (r : Registry) : Ty → Prop
  | .null => False
  | .sequence _ element => element.Writable r
  | .dictionary key value => key.Writable r ∧ value.Writable r
  | .host name => Lexer.isName name = true ∧ r.classes.knows name = true
  | _ => True

/-- The tokens that a type is written with. -/
inductive SpelledBy : Ty → List Token → Prop
  | name {word : String} {ty : Ty} {p : Position} : SpelledBy ty [⟨.type word (.complete ty), p⟩]
  | array {ty : Ty} {tokens : List Token} {p q : Position} (h : SpelledBy ty tokens) :
      SpelledBy (.sequence .array ty) (tokens ++ [⟨.separator .openBracket, p⟩, ⟨.separator .closeBracket, q⟩])
  | single {constructor : Generic} {word : String} {argument ty : Ty} {tokens : List Token} {p q q' : Position}
      (hty : constructor.apply [argument] = some ty) (h : SpelledBy argument tokens) :
      SpelledBy ty
        (⟨.type word (.generic constructor), p⟩ :: ⟨.operator .less, q⟩ :: (tokens ++ [⟨.operator .greater, q'⟩]))
  | pair {constructor : Generic} {word : String} {first second ty : Ty} {tokens tokens' : List Token}
      {p q q' q'' : Position} (hty : constructor.apply [first, second] = some ty) (hfirst : SpelledBy first tokens)
      (hsecond : SpelledBy second tokens') :
      SpelledBy ty (⟨.type word (.generic constructor), p⟩ :: ⟨.operator .less, q⟩ ::
        (tokens ++ ⟨.separator .comma, q'⟩ :: (tokens' ++ [⟨.operator .greater, q''⟩])))

theorem nesting_of_single {constructor : Generic} {argument ty : Ty} (h : constructor.apply [argument] = some ty) :
    ty.nesting = argument.nesting + 1 := by
  cases constructor <;> cases h <;> rfl

theorem nesting_of_pair {constructor : Generic} {first second ty : Ty}
    (h : constructor.apply [first, second] = some ty) : ty.nesting = max first.nesting second.nesting + 1 := by
  cases constructor <;> cases h
  rfl

end Ty

namespace Registry

theorem registerAlias_resolves {r r' : Registry} {name : String} {target : TypeName}
    (h : r.registerAlias name target = .ok r') : r'.resolveAlias name = some target ∧
      ∀ other found, r.resolveAlias other = some found → r'.resolveAlias other = some found := by
  obtain ⟨hfree, rfl⟩ := registerAlias_eq h
  simp only [resolveAlias, List.lookup_append]
  refine ⟨?_, fun other found hfound => by rw [hfound]; rfl⟩
  have hnone : List.lookup name r.aliases = none := by simpa [resolveAlias] using hfree
  simp [hnone]

/-- In a registry that a host makes, the names that every script knows keep their meaning, and a class is known by its
name. -/
theorem Built.resolves {r : Registry} (h : r.Built) :
    (∀ entry ∈ builtInAliases, r.resolveAlias entry.1 = some entry.2) ∧
      ∀ name, r.classes.knows name = true → r.resolveAlias name = some (.complete (.host name)) := by
  induction h with
  | standard => exact ⟨by decide, fun name hname => by cases hname⟩
  | withAlias _ hr ih =>
    have hkept := (registerAlias_resolves hr).2
    obtain ⟨-, rfl⟩ := registerAlias_eq hr
    exact ⟨fun entry hentry => hkept _ _ (ih.1 entry hentry), fun name hname => hkept _ _ (ih.2 name hname)⟩
  | @withClass r r' c _ hr ih =>
    obtain ⟨-, older, holder, rfl⟩ := registerClass_eq hr
    obtain ⟨hnew, hkept⟩ := registerAlias_resolves holder
    refine ⟨fun entry hentry => hkept _ _ (ih.1 entry hentry), fun name hname => ?_⟩
    simp only [Hierarchy.knows, List.any_cons, Bool.or_eq_true, decide_eq_true_eq] at hname
    rcases hname with rfl | hname
    · exact hnew
    · exact hkept _ _ (ih.2 name hname)
  | withStatic _ _ _ ih => exact ih
  | withInstance _ _ _ ih => exact ih

end Registry

namespace Grammar

open Rule

section CommaList

variable {α : Type} {item : Rule α} {closes : TokenKind → Bool} {closing : String} {env : Env} {tokens rest : List Token}
  {a : α}

theorem commaList_last {last : TokenKind} {p : Position} (h : item env tokens = .ok (a, ⟨last, p⟩ :: rest))
    (hcomma : last.isSeparator .comma = false) (hcloses : closes last = true) {steps : Steps} (hsteps : steps ≠ []) :
    commaList item closes closing steps env tokens = .ok ([a], rest) := by
  obtain ⟨step, steps, rfl⟩ := List.exists_cons_of_ne_nil hsteps
  have hkind : firstKind (⟨last, p⟩ :: rest) = last := rfl
  rw [commaList, bind_ok h, peek_bind, hkind, if_neg (by simp [hcomma]), if_pos hcloses]
  rfl

theorem commaList_more {p : Position} (h : item env tokens = .ok (a, ⟨.separator .comma, p⟩ :: rest)) {steps : Steps}
    {as : List α} {after : List Token} (hrest : commaList item closes closing steps env rest = .ok (as, after))
    (step : Token) : commaList item closes closing (step :: steps) env tokens = .ok (a :: as, after) := by
  have hcomma : (firstKind (⟨.separator .comma, p⟩ :: rest)).isSeparator .comma = true := rfl
  rw [commaList, bind_ok h, peek_bind, if_pos hcomma]
  exact bind_ok hrest

end CommaList

theorem typeRule_generic {constructor : Generic} {arguments : List Ty} {ty : Ty}
    (hty : constructor.apply arguments = some ty) {depth : Nat} {env : Env} {tokens rest : List Token}
    (harguments : withSteps (commaList (typeRule depth) (·.isOperator .greater) "\",\" or \">\"") (env.enter .type) tokens =
      .ok (arguments, rest)) (word : String) (p q : Position) :
    typeRule (depth + 1) env (⟨.type word (.generic constructor), p⟩ :: ⟨.operator .less, q⟩ :: tokens) =
      .ok (arraysOver ty rest) := by
  have hnamed : namedType (typeRule depth) (env.enter .type)
      (⟨.type word (.generic constructor), p⟩ :: ⟨.operator .less, q⟩ :: tokens) = .ok (ty, rest) := by
    show (withSteps _ >>= _ : Rule Ty) (env.enter .type) tokens = _
    rw [bind_ok harguments]
    simp only [hty]
    rfl
  exact bind_ok hnamed

/-- A type is read from the tokens that it is written with, and the brackets behind them make arrays of it. -/
theorem typeRule_spelled {t : Ty} {tokens : List Token} (h : t.SpelledBy tokens) {depth : Nat} (hdepth : t.nesting < depth)
    (env : Env) (rest : List Token) : typeRule depth env (tokens ++ rest) = .ok (arraysOver t rest) := by
  induction h generalizing depth env rest with
  | name =>
    obtain ⟨depth, rfl⟩ := Nat.exists_eq_add_one_of_ne_zero (Nat.ne_zero_of_lt hdepth)
    rfl
  | array h ih =>
    rw [List.append_assoc, ih hdepth]
    rfl
  | @single constructor word argument ty tokens p q q' hty h ih =>
    obtain ⟨depth, rfl⟩ := Nat.exists_eq_add_one_of_ne_zero (Nat.ne_zero_of_lt hdepth)
    have hargument := Ty.nesting_of_single hty
    refine typeRule_generic hty ?_ word p q
    have hitem : typeRule depth (env.enter .type) (tokens ++ [⟨.operator .greater, q'⟩] ++ rest) =
        .ok (argument, ⟨.operator .greater, q'⟩ :: rest) := by
      rw [List.append_assoc, ih (by omega), List.cons_append, arraysOver_cons_of_ne (by simp)]
      rfl
    exact commaList_last hitem rfl rfl (List.cons_ne_nil _ _)
  | @pair constructor word first second ty tokens tokens' p q q' q'' hty hfirst hsecond ihfirst ihsecond =>
    obtain ⟨depth, rfl⟩ := Nat.exists_eq_add_one_of_ne_zero (Nat.ne_zero_of_lt hdepth)
    have harguments := Ty.nesting_of_pair hty
    refine typeRule_generic hty ?_ word p q
    have hlast : typeRule depth (env.enter .type) (tokens' ++ [⟨.operator .greater, q''⟩] ++ rest) =
        .ok (second, ⟨.operator .greater, q''⟩ :: rest) := by
      rw [List.append_assoc, ihsecond (by omega), List.cons_append, arraysOver_cons_of_ne (by simp)]
      rfl
    have hitem : typeRule depth (env.enter .type)
        (tokens ++ ⟨.separator .comma, q'⟩ :: (tokens' ++ [⟨.operator .greater, q''⟩]) ++ rest) =
        .ok (first, ⟨.separator .comma, q'⟩ :: (tokens' ++ [⟨.operator .greater, q''⟩] ++ rest)) := by
      rw [List.append_assoc, ihfirst (by omega), List.cons_append, arraysOver_cons_of_ne (by simp)]
    refine commaList_more hitem ?_ _
    exact commaList_last hlast rfl rfl (by simp)

end Grammar

namespace Ty

open Lexer Numeral

/-- Whether a character may stand behind a type. -/
def follows (c : Char) : Bool :=
  c = ' ' || c = '>' || c = ',' || c = '['

theorem of_follows {c : Char} (h : follows c = true) :
    isWordChar c = false ∧ ∀ s ∈ signs, ¬ ['>', c] <+: s.1 ∧ ¬ [']', c] <+: s.1 := by
  simp only [follows, Bool.or_eq_true, decide_eq_true_eq] at h
  rcases h with ((rfl | rfl) | rfl) | rfl <;> decide

variable {t : Ty} {P : List Token → Prop} {rest : List Char}

theorem text_starts {r : Registry} (ht : t.Writable r) (rest : List Char) :
    ∀ c ∈ (t.text.toList ++ rest).head?, isWordChar c = true := by
  have hword : ∀ word : String, isWord word = true → ∀ rest, ∀ c ∈ (word.toList ++ rest).head?, isWordChar c = true := by
    intro word hword rest c hc
    unfold isWord at hword
    split at hword
    · cases hword
    · next d letters heq =>
      rw [heq] at hc
      cases hc
      simp only [Bool.and_eq_true, Bool.or_eq_true] at hword
      rcases hword.1 with hd | hd <;> simp [isWordChar, hd]
  induction t generalizing rest with
  | null => cases ht
  | host name =>
    simp only [Writable, isName, Bool.and_eq_true] at ht
    exact hword name ht.1.1 rest
  | sequence kind element ih =>
    cases kind with
    | array =>
      rw [text, String.toList_append, List.append_assoc]
      exact ih ht _
    | list =>
      rw [text, String.toList_append, String.toList_append, List.append_assoc, List.append_assoc]
      exact hword "List" (by decide) ('<' :: _)
    | queue =>
      rw [text, String.toList_append, String.toList_append, List.append_assoc, List.append_assoc]
      exact hword "Queue" (by decide) ('<' :: _)
    | stack =>
      rw [text, String.toList_append, String.toList_append, List.append_assoc, List.append_assoc]
      exact hword "Stack" (by decide) ('<' :: _)
  | dictionary key value _ _ =>
    simp only [text, String.toList_append, List.append_assoc]
    exact hword "Dictionary" (by decide) ('<' :: _)
  | _ => exact hword _ (by decide) rest

variable {r : Registry}

theorem lexes_name (hkind : wordKind r.resolveAlias t.text = .type t.text (.complete t)) (hword : isWord t.text = true)
    (hrest : ∀ c ∈ rest.head?, follows c = true) (h : Lexes r.resolveAlias rest P) :
    Lexes r.resolveAlias (t.text.toList ++ rest) fun tokens =>
      ∃ front tail, tokens = front ++ tail ∧ t.SpelledBy front ∧ P tail := by
  refine (h.word hword fun c hc => (of_follows (hrest c hc)).1).imp ?_
  rintro _ ⟨p, tail, rfl, htail⟩
  rw [hkind]
  exact ⟨[_], tail, rfl, .name, htail⟩

theorem lexes_known (hname : isName t.text = true) (hresolve : r.resolveAlias t.text = some (.complete t))
    (hrest : ∀ c ∈ rest.head?, follows c = true)
    (h : Lexes r.resolveAlias rest P) : Lexes r.resolveAlias (t.text.toList ++ rest) fun tokens =>
      ∃ front tail, tokens = front ++ tail ∧ t.SpelledBy front ∧ P tail := by
  refine lexes_name ?_ ?_ hrest h
  · rw [wordKind_of_name hname, hresolve]
    rfl
  · rw [isName, Bool.and_eq_true] at hname
    exact hname.1

theorem lexes_greater (hrest : ∀ c ∈ rest.head?, follows c = true)
    (h : Lexes r.resolveAlias rest P) : Lexes r.resolveAlias ('>' :: rest) fun tokens =>
      ∃ p tail, tokens = ⟨.operator .greater, p⟩ :: tail ∧ P tail :=
  h.sign (operator_mem_signs .greater) (Trivia.over_cons (by decide) (by decide)) fun c hc s hs =>
    ((of_follows (hrest c hc)).2 s hs).1

theorem lexes_brackets (hrest : ∀ c ∈ rest.head?, follows c = true)
    (h : Lexes r.resolveAlias rest P) : Lexes r.resolveAlias ('[' :: ']' :: rest) fun tokens =>
      ∃ p q tail, tokens = ⟨.separator .openBracket, p⟩ :: ⟨.separator .closeBracket, q⟩ :: tail ∧ P tail := by
  have hclose := h.sign (separator_mem_signs .closeBracket) (Trivia.over_cons (by decide) (by decide))
    fun c hc s hs => ((of_follows (hrest c hc)).2 s hs).2
  have hends : ∀ s ∈ signs, ¬ ['[', ']'] <+: s.1 := by decide
  refine (hclose.sign (separator_mem_signs .openBracket) (Trivia.over_cons (by decide) (by decide))
    fun c hc => by cases hc; exact hends).imp ?_
  rintro _ ⟨p, _, rfl, q, tail, rfl, htail⟩
  exact ⟨p, q, tail, rfl, htail⟩

variable (hr : r.Built)

include hr

theorem lexes_generic {word : String} {constructor : Generic} (hname : isName word = true)
    (hentry : (word, .generic constructor) ∈ Registry.builtInAliases) {inner : List Char}
    (hinner : ∀ c ∈ inner.head?, isWordChar c = true) (h : Lexes r.resolveAlias inner P) :
    Lexes r.resolveAlias (word.toList ++ '<' :: inner) fun tokens =>
      ∃ p q tail, tokens = ⟨.type word (.generic constructor), p⟩ :: ⟨.operator .less, q⟩ :: tail ∧ P tail := by
  have hless := h.sign (c := '<') (operator_mem_signs .less) (Trivia.over_cons (by decide) (by decide))
    fun c hc => sign_ends (List.cons_ne_nil '<' []) (hinner c hc)
  have hword : isWord word = true := by
    rw [isName, Bool.and_eq_true] at hname
    exact hname.1
  have hkind : wordKind r.resolveAlias word = .type word (.generic constructor) := by
    rw [wordKind_of_name hname, hr.resolves.1 _ hentry]
    rfl
  refine (hless.word hword fun c hc => by cases hc; decide).imp ?_
  rintro _ ⟨p, _, rfl, q, tail, rfl, htail⟩
  exact ⟨p, q, tail, by rw [hkind], htail⟩

theorem lexes_single {word : String} {constructor : Generic} (hname : isName word = true)
    (hentry : (word, .generic constructor) ∈ Registry.builtInAliases) {argument : Ty} (hargument : argument.Writable r)
    (hty : constructor.apply [argument] = some t)
    (h : Lexes r.resolveAlias (argument.text.toList ++ '>' :: rest) fun tokens => ∃ front tail, tokens = front ++ tail ∧
      argument.SpelledBy front ∧ ∃ p after, tail = ⟨.operator .greater, p⟩ :: after ∧ P after) :
    Lexes r.resolveAlias (word.toList ++ '<' :: (argument.text.toList ++ '>' :: rest)) fun tokens =>
      ∃ front tail, tokens = front ++ tail ∧ t.SpelledBy front ∧ P tail := by
  refine (lexes_generic hr hname hentry (text_starts hargument _) h).imp ?_
  rintro _ ⟨p, q, _, rfl, front, _, rfl, hfront, q', after, rfl, hafter⟩
  exact ⟨⟨.type word (.generic constructor), p⟩ :: ⟨.operator .less, q⟩ :: (front ++ [⟨.operator .greater, q'⟩]), after,
    by simp, .single hty hfront, hafter⟩

theorem lexes_text (ht : t.Writable r) (hrest : ∀ c ∈ rest.head?, follows c = true) (h : Lexes r.resolveAlias rest P) :
    Lexes r.resolveAlias (t.text.toList ++ rest) fun tokens =>
      ∃ front tail, tokens = front ++ tail ∧ t.SpelledBy front ∧ P tail := by
  induction t generalizing P rest with
  | null => cases ht
  | void =>
    have hkeyword : Keyword.ofWord? "void" = none := by decide
    exact lexes_name (by simp only [text, wordKind, hkeyword]) (by decide) hrest h
  | host name => exact lexes_known (t := .host name) ht.1 (hr.resolves.2 name ht.2) hrest h
  | sequence kind element ih =>
    have helement : element.Writable r := ht
    have hsingle : ∀ (word : String) (constructor : Generic), isName word = true →
        (word, .generic constructor) ∈ Registry.builtInAliases →
        constructor.apply [element] = some (.sequence kind element) →
        (text (.sequence kind element)).toList ++ rest =
          word.toList ++ '<' :: (element.text.toList ++ '>' :: rest) →
        Lexes r.resolveAlias ((text (.sequence kind element)).toList ++ rest) fun tokens =>
          ∃ front tail, tokens = front ++ tail ∧ (Ty.sequence kind element).SpelledBy front ∧ P tail := by
      intro word constructor hname hentry hty htext
      rw [htext]
      exact lexes_single hr hname hentry helement hty (ih helement (by rintro c ⟨⟩; rfl) (lexes_greater hrest h))
    cases kind with
    | array =>
      have htext : (text (.sequence .array element)).toList ++ rest = element.text.toList ++ '[' :: ']' :: rest := by
        simp [text]
      rw [htext]
      refine (ih helement (by rintro c ⟨⟩; rfl) (lexes_brackets hrest h)).imp ?_
      rintro _ ⟨front, _, rfl, hfront, p, q, tail, rfl, htail⟩
      exact ⟨front ++ [⟨.separator .openBracket, p⟩, ⟨.separator .closeBracket, q⟩], tail, by simp, .array hfront, htail⟩
    | list => exact hsingle "List" .list (by decide) (by decide) rfl (by simp [text])
    | queue => exact hsingle "Queue" .queue (by decide) (by decide) rfl (by simp [text])
    | stack => exact hsingle "Stack" .stack (by decide) (by decide) rfl (by simp [text])
  | dictionary key value ihkey ihvalue =>
    have htext : (text (.dictionary key value)).toList ++ rest = "Dictionary".toList ++
        '<' :: (key.text.toList ++ ',' :: ' ' :: (value.text.toList ++ '>' :: rest)) := by simp [text]
    rw [htext]
    have hvalue := (ihvalue ht.2 (by rintro c ⟨⟩; rfl) (lexes_greater hrest h)).blank (c := ' ') (by decide)
    have hends : ∀ s ∈ signs, ¬ [',', ' '] <+: s.1 := by decide
    have hcomma := hvalue.sign (separator_mem_signs .comma) (Trivia.over_cons (by decide) (by decide))
      fun c hc => by cases hc; exact hends
    have hkey := ihkey ht.1 (by rintro c ⟨⟩; rfl) hcomma
    have hentry : ("Dictionary", .generic .dictionary) ∈ Registry.builtInAliases := by decide
    refine (lexes_generic hr (by decide) hentry (text_starts ht.1 _) hkey).imp ?_
    rintro _ ⟨p, q, _, rfl, front, _, rfl, hfront, q', _, rfl, back, _, rfl, hback, q'', after, rfl, hafter⟩
    exact ⟨⟨.type "Dictionary" (.generic .dictionary), p⟩ :: ⟨.operator .less, q⟩ ::
        (front ++ ⟨.separator .comma, q'⟩ :: (back ++ [⟨.operator .greater, q''⟩])), after, by simp,
      .pair rfl hfront hback, hafter⟩
  | _ => exact lexes_known (by decide) (hr.resolves.1 (_, .complete _) (by decide)) hrest h

end Ty

namespace Lexer

theorem joinElseIf_eq_self {tokens : List Token} (h : ∀ token ∈ tokens, token.kind.isKeyword .elseWord = false) :
    joinElseIf tokens = tokens := by
  fun_induction joinElseIf tokens with
  | case1 => rfl
  | case2 => rfl
  | case3 token next rest hjoin =>
    rw [h token List.mem_cons_self] at hjoin
    cases hjoin
  | case4 token next rest _ ih => rw [ih fun other hother => h other (List.mem_cons_of_mem _ hother)]

end Lexer

namespace Ty.SpelledBy

open Grammar

variable {t : Ty} {tokens : List Token}

theorem nests (h : t.SpelledBy tokens) (pending : List Separator) : Nests false pending tokens pending := by
  induction h generalizing pending with
  | name => exact .plain rfl .nil
  | array _ ih => exact (ih pending).append (.opening rfl (.closing rfl .nil))
  | single _ _ ih => exact .plain rfl (.plain rfl ((ih pending).append (.plain rfl .nil)))
  | pair _ _ _ ihfirst ihsecond =>
    exact .plain rfl (.plain rfl ((ihfirst pending).append (.plain rfl ((ihsecond pending).append (.plain rfl .nil)))))

theorem check (h : t.SpelledBy tokens) : Brackets.check tokens = .ok () := by
  induction h with
  | name => rfl
  | array _ ih => exact Brackets.check_append ih [] _
  | single _ _ ih => exact Brackets.check_append ih [] _
  | pair _ _ _ ihfirst ihsecond => exact (Brackets.check_append ihfirst [] _).trans (Brackets.check_append ihsecond [] _)

theorem firstKind_append (h : t.SpelledBy tokens) (rest : List Token) :
    ∃ word target, Rule.firstKind (tokens ++ rest) = .type word target := by
  induction h generalizing rest with
  | name => exact ⟨_, _, rfl⟩
  | array _ ih =>
    rw [List.append_assoc]
    exact ih _
  | single => exact ⟨_, _, rfl⟩
  | pair => exact ⟨_, _, rfl⟩

theorem plain (h : t.SpelledBy tokens) {token : Token} (htoken : token ∈ tokens) :
    token.kind.isKeyword .elseWord = false ∧ Expansion.expandToken token = [token] := by
  induction h with
  | name =>
    obtain rfl := List.mem_singleton.mp htoken
    exact ⟨rfl, rfl⟩
  | array _ ih =>
    rcases List.mem_append.mp htoken with htoken | htoken
    · exact ih htoken
    · simp only [List.mem_cons, List.not_mem_nil, or_false] at htoken
      rcases htoken with rfl | rfl <;> exact ⟨rfl, rfl⟩
  | single _ _ ih =>
    simp only [List.mem_cons, List.mem_append, List.not_mem_nil, or_false] at htoken
    rcases htoken with rfl | rfl | htoken | rfl
    · exact ⟨rfl, rfl⟩
    · exact ⟨rfl, rfl⟩
    · exact ih htoken
    · exact ⟨rfl, rfl⟩
  | pair _ _ _ ihfirst ihsecond =>
    simp only [List.mem_cons, List.mem_append, List.not_mem_nil, or_false] at htoken
    rcases htoken with rfl | rfl | htoken | rfl | htoken | rfl
    · exact ⟨rfl, rfl⟩
    · exact ⟨rfl, rfl⟩
    · exact ihfirst htoken
    · exact ⟨rfl, rfl⟩
    · exact ihsecond htoken
    · exact ⟨rfl, rfl⟩

end Ty.SpelledBy

namespace Grammar

open Rule

/-- What stands behind the type in a declaration, up to the end of the source. -/
abbrev declarator (x : String) (p q e : Position) : List Token :=
  [⟨.identifier x, p⟩, ⟨.separator .semicolon, q⟩, ⟨.endOfInput, e⟩]

section Declaration

variable {t : Ty} {tokens : List Token} (h : t.SpelledBy tokens) (hnesting : t.nesting ≤ 200) (x : String)
  (p q e : Position)

include h hnesting

theorem typeRule_declared {depth : Nat} (hdepth : 200 < depth) (env : Env) :
    typeRule depth env (tokens ++ declarator x p q e) = .ok (t, declarator x p q e) := by
  rw [typeRule_spelled h (by omega), arraysOver_cons_of_ne (by simp)]

theorem items_declared (env : Env) :
    items env (tokens ++ declarator x p q e) = .ok [.declaration (tokens ++ declarator x p q e)] := by
  obtain ⟨word, target, hkind⟩ := h.firstKind_append (declarator x p q e)
  have hskip : skipPastSemicolon 0 (tokens ++ declarator x p q e) =
      [⟨.endOfInput, e⟩] := (h.nests []).skipPastSemicolon_append
  have htype := typeRule_declared h hnesting x p q e (by decide : 200 < 255)
  generalize tokens ++ declarator x p q e = whole at *
  have hhead : ∀ env, (do return (← typeRule 255, ← identifier) : Rule (Ty × String)) env whole =
      .ok ((t, x), [⟨.separator .semicolon, q⟩, ⟨.endOfInput, e⟩]) := fun env => bind_ok (htype env)
  have hitem : ∀ env, itemOf 255 (firstKind whole) env whole = .ok (.declaration whole, [⟨.endOfInput, e⟩]) := by
    intro env
    rw [hkind]
    show typedItem 255 env whole = _
    rw [typedItem, hhead env]
    show Except.ok (Item.declaration whole, skipPastSemicolon 0 whole) = _
    rw [hskip]
  have hend : ∀ steps env, itemsFrom 255 steps env [⟨.endOfInput, e⟩] = .ok ([], [⟨.endOfInput, e⟩]) := by
    intro steps env
    cases steps <;> rfl
  have hfound : enter .program (fun depth => withSteps (itemsFrom depth)) maxDepth env whole =
      .ok ([.declaration whole], [⟨.endOfInput, e⟩]) := by
    show itemsFrom 255 (⟨.endOfInput, .start⟩ :: whole) (env.enter .program) whole = _
    rw [itemsFrom_cons, peek_bind, if_neg (by simp [hkind, TokenKind.isEnd]), bind_ok (hitem _), bind_ok (hend _ _)]
    rfl
  rw [items, hfound]
  rfl

theorem compileDeclaration_declared (hvoid : t ≠ .void) {env : Env} (hfresh : env.scopes.lookup x = none) :
    ∃ position, compileDeclaration env (tokens ++ declarator x p q e) =
      .ok (some ⟨.member, x, t, none, position⟩, some (x, .variable t)) := by
  obtain ⟨word, target, hkind⟩ := h.firstKind_append (declarator x p q e)
  have htype := typeRule_declared h hnesting x p q e (by decide : 200 < 253)
  generalize tokens ++ declarator x p q e = whole at *
  have hfree : ∀ position trail, expectFresh x position { env with trail } [⟨.endOfInput, e⟩] =
      .ok ((), [⟨.endOfInput, e⟩]) := by
    intro position trail
    simp only [expectFresh, Bind.bind, ask, hfresh]
    rfl
  have hvariable : ∀ rules trail, variableRule (typeRule 253) rules { env with trail } whole =
      .ok ((x, t, none), [⟨.endOfInput, e⟩]) := by
    intro rules trail
    show (typeRule 253 >>= _) { env with trail } whole = _
    rw [bind_ok (htype _)]
    show (if t = .void then _ else _ : Rule _) { env with trail } _ = _
    rw [if_neg hvoid]
    exact bind_ok (hfree _ trail)
  have hrule : enter .program (enter .declaration fun depth => declarationRule (statementRules depth)) maxDepth env whole =
      .ok ((some ⟨.member, x, t, none, firstPosition whole⟩, some (x, .variable t)), [⟨.endOfInput, e⟩]) := by
    have hmember : declarationRule (statementRules 254) { env with trail := .declaration :: .program :: env.trail } whole =
        topVariable (statementRules 254) .member (firstPosition whole)
          { env with trail := .declaration :: .program :: env.trail } whole := by
      simp only [declarationRule, Bind.bind, here, peek, hkind]
    have hdeclared : (statementRules 254).variableDeclaration
        { env with trail := .declaration :: .program :: env.trail } whole = .ok ((x, t, none), [⟨.endOfInput, e⟩]) :=
      hvariable _ _
    refine hmember.trans ?_
    rw [topVariable, bind_ok hdeclared]
    rfl
  exact ⟨firstPosition whole, by rw [compileDeclaration, hrule]; rfl⟩

theorem program_declared (hvoid : t ≠ .void) (registry : Registry) :
    ∃ position, program registry (tokens ++ declarator x p q e) =
      .ok ⟨[⟨.member, x, t, none, position⟩], []⟩ := by
  have hexpand : Expansion.expand (tokens ++ declarator x p q e) = tokens ++ declarator x p q e := by
    refine Expansion.expand_eq_self fun token htoken => ?_
    rcases List.mem_append.mp htoken with htoken | htoken
    · exact (h.plain htoken).2
    · simp only [List.mem_cons, List.not_mem_nil, or_false] at htoken
      rcases htoken with rfl | rfl | rfl <;> rfl
  have hfresh : (Env.initial registry).scopes.lookup x = none := rfl
  obtain ⟨position, hcompile⟩ := compileDeclaration_declared h hnesting x p q e hvoid hfresh
  refine ⟨position, ?_⟩
  rw [program, hexpand, items_declared h hnesting x p q e]
  simp only [bind, Except.bind, declareFunctions, compileDeclarations, hcompile]
  rfl

end Declaration

end Grammar

open Lexer in
theorem Script.tokenize_declaration {r : Registry} (hr : r.Built) {t : Ty} (ht : t.Writable r) {x : String}
    (hx : isName x = true) (hfree : r.resolveAlias x = none) :
    ∃ front p q e, t.SpelledBy front ∧ tokenize r.resolveAlias (t.text ++ " " ++ x ++ ";") =
      .ok (front ++ Grammar.declarator x p q e) := by
  have hword : isWord x = true := by
    rw [isName, Bool.and_eq_true] at hx
    exact hx.1
  have hkind : wordKind r.resolveAlias x = .identifier x := by
    rw [wordKind_of_name hx, hfree]
    rfl
  have hnil : Lexes r.resolveAlias [] (· = []) := .nil
  have hsemicolon := hnil.sign (c := ';') (separator_mem_signs .semicolon) (Trivia.over_cons (by decide) (by decide))
    (by simp)
  have hname := (hsemicolon.word hword (by rintro c ⟨⟩; decide)).blank (c := ' ') (by decide)
  obtain ⟨_, ⟨front, _, rfl, hfront, p, _, rfl, q, _, rfl, rfl⟩, htiles⟩ :=
    Ty.lexes_text hr ht (by rintro c ⟨⟩; rfl) hname .start
  have hsource : (t.text ++ " " ++ x ++ ";").toList = t.text.toList ++ ' ' :: (x.toList ++ [';']) := by simp
  rw [hkind, ← hsource] at htiles
  refine ⟨front, p, q, Position.start.advance (t.text ++ " " ++ x ++ ";").toList, hfront,
    tokenize_of_tiles htiles (by simp) ?_ ?_⟩
  · refine joinElseIf_eq_self fun token htoken => ?_
    rcases List.mem_append.mp htoken with htoken | htoken
    · exact (hfront.plain htoken).1
    · simp only [List.mem_cons, List.not_mem_nil, or_false] at htoken
      rcases htoken with rfl | rfl | rfl <;> rfl
  · exact Brackets.check_append hfront.check [] _

theorem Ty.eq_of_text {r : Registry} (hr : r.Built) {t t' : Ty} (ht : t.Writable r) (ht' : t'.Writable r)
    (htext : t.text = t'.text) : t = t' := by
  obtain ⟨_, ⟨front, _, rfl, hfront, rfl⟩, htiles⟩ := lexes_text hr ht (by simp) Lexer.Lexes.nil .start
  obtain ⟨_, ⟨front', _, rfl, hfront', rfl⟩, htiles'⟩ := lexes_text hr ht' (by simp) Lexer.Lexes.nil .start
  have htokens := Lexer.scan_of_tiles htiles le_rfl
  rw [htext, Lexer.scan_of_tiles htiles' le_rfl] at htokens
  obtain rfl : front = front' := by simpa using htokens.symm
  have hdepth : t.nesting < max t.nesting t'.nesting + 1 := by omega
  have hread := Grammar.typeRule_spelled hfront hdepth (.initial r) []
  rw [Grammar.typeRule_spelled hfront' (by omega)] at hread
  cases hread
  rfl

/-- The text of a type is read back as that type: a declaration that is written with it declares a member of that type
and nothing else. So two types have different texts, and no member that is registered for the one is found in the table
of the other. -/
theorem type_texts_read_back {r : Registry} (hr : r.Built) :
    (∀ t : Ty, t.Writable r → t ≠ .void → t.nesting ≤ 200 → ∀ x, Lexer.isName x = true → r.resolveAlias x = none →
      ∃ position, Script.compile r (t.text ++ " " ++ x ++ ";") = .ok ⟨r, [⟨.member, x, t, none, position⟩], []⟩) ∧
    ∀ t t' : Ty, t.Writable r → t'.Writable r → t ≠ t' → t.text ≠ t'.text ∧
      ∀ m name, (r.registerInstance t m).instances.named t'.text name = r.instances.named t'.text name := by
  constructor
  · intro t ht hvoid hnesting x hx hfree
    obtain ⟨front, p, q, e, hfront, htokens⟩ := Script.tokenize_declaration hr ht hx hfree
    obtain ⟨position, hprogram⟩ := Grammar.program_declared hfront hnesting x p q e hvoid r
    refine ⟨position, ?_⟩
    rw [Script.compile, htokens]
    simp only [hprogram]
    rfl
  · intro t t' ht ht' hne
    have htext : t.text ≠ t'.text := fun htext => hne (Ty.eq_of_text hr ht ht' htext)
    refine ⟨htext, fun m name => ?_⟩
    simp [Registry.registerInstance, MemberTable.named, htext]

/-- A declaration with a class, arrays and nested generic types. -/
theorem type_texts_read_back_nested :
    let r := Registry.standard.registerAll [.newClass ⟨"Point", none, []⟩]
    let t : Ty := .dictionary .string (.sequence .array (.sequence .list (.host "Point")))
    r.Built ∧ t.Writable r ∧ t ≠ .void ∧ t.nesting ≤ 200 ∧ Lexer.isName "points" = true ∧
      r.resolveAlias "points" = none ∧ (∃ position,
        Script.compile r "Dictionary<string, List<Point>[]> points;" =
          .ok ⟨r, [⟨.member, "points", t, none, position⟩], []⟩) ∧
      t.text ≠ (Ty.host "Point").text := by
  intro r t
  have hbuilt : r.Built := .registerAll .standard _
  have hclass : (Ty.host "Point").Writable r := ⟨by decide +kernel, by decide +kernel⟩
  have ht : t.Writable r := ⟨trivial, hclass⟩
  have hfree : r.resolveAlias "points" = none := by decide +kernel
  have htext : t.text ++ " " ++ "points" ++ ";" = "Dictionary<string, List<Point>[]> points;" := by decide +kernel
  obtain ⟨hread, hapart⟩ := type_texts_read_back hbuilt
  have hcompile := hread t ht (by decide) (by decide) "points" (by decide +kernel) hfree
  rw [htext] at hcompile
  exact ⟨hbuilt, ht, by decide, by decide, by decide +kernel, hfree, hcompile, (hapart t _ ht hclass (by decide)).1⟩

end Scriptlet
