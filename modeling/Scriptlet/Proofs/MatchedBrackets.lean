import Scriptlet.Token.Brackets

/-!
# Which brackets are to blame

The check of the brackets accepts what is nested and matched by kind, and nothing else. Along the way it knows the
brackets that are open; so what was read so far can be completed by closing them, up to the first bracket that closes
none of them.
-/

namespace Scriptlet.Brackets

/-- Brackets that are open, the innermost first, each with the one that closes it and with its place. -/
abbrev Opened : Type :=
  List (Separator × Separator × Position)

/-- The three pairs of brackets. -/
inductive Pair : Separator → Separator → Prop
  | parens : Pair .openParen .closeParen
  | braces : Pair .openBrace .closeBrace
  | squares : Pair .openBracket .closeBracket

def bracket? : TokenKind → Option Separator
  | .separator sign =>
    if sign ∈ [.openParen, .closeParen, .openBrace, .closeBrace, .openBracket, .closeBracket] then some sign else none
  | _ => none

def brackets (tokens : List Token) : List Separator :=
  tokens.filterMap (bracket? ·.kind)

/-- Brackets that are nested and matched by kind. -/
inductive Matched : List Separator → Prop
  | nil : Matched []
  | pair {sign closing : Separator} {inner rest : List Separator} (h : Pair sign closing)
      (hinner : Matched inner) (hrest : Matched rest) : Matched (sign :: (inner ++ closing :: rest))

/-- Tokens that are the beginning of tokens with matched brackets. -/
def Extensible (tokens : List Token) : Prop :=
  ∃ more, Matched (brackets (tokens ++ more))

/-- The innermost bracket that is open behind tokens: all that follows it is matched. -/
def Innermost (tokens : List Token) (sign : Separator) (p : Position) : Prop :=
  (∃ closing, Pair sign closing) ∧
    ∃ front inner, tokens = front ++ ⟨.separator sign, p⟩ :: inner ∧ Matched (brackets inner)

theorem Matched.append {front behind : List Separator} (h : Matched front) (h' : Matched behind) :
    Matched (front ++ behind) := by
  induction h with
  | nil => exact h'
  | pair hsign hinner _ _ ih =>
    rw [List.cons_append, List.append_assoc]
    exact .pair hsign hinner ih

theorem brackets_append (front behind : List Token) : brackets (front ++ behind) = brackets front ++ brackets behind :=
  List.filterMap_append

section Steps

variable {token : Token} {sign closing : Separator} {pending : Opened}

theorem Pair.isClosing (h : Pair sign closing) : closing.isClosing = true := by
  cases h <;> rfl

theorem bracket?_opening (h : Pair sign closing) : bracket? (.separator sign) = some sign := by
  cases h <;> rfl

theorem bracket?_closing (h : Pair sign closing) : bracket? (.separator closing) = some closing := by
  cases h <;> rfl

theorem bracket?_cases (kind : TokenKind) :
    bracket? kind = none ∨ (∃ sign closing, kind = .separator sign ∧ Pair sign closing) ∨
      ∃ sign, kind = .separator sign ∧ sign.isClosing = true := by
  cases kind with
  | separator sign =>
    cases sign
    case openParen => exact .inr (.inl ⟨_, _, rfl, .parens⟩)
    case openBrace => exact .inr (.inl ⟨_, _, rfl, .braces⟩)
    case openBracket => exact .inr (.inl ⟨_, _, rfl, .squares⟩)
    case semicolon | colon | comma => exact .inl rfl
    all_goals exact .inr (.inr ⟨_, rfl, rfl⟩)
  | _ => exact .inl rfl

theorem eq_of_bracket? {kind : TokenKind} (h : bracket? kind = some sign) : kind = .separator sign := by
  unfold bracket? at h
  split at h
  · split at h
    · rw [Option.some.inj h]
    · cases h
  · cases h

theorem checkFrom_plain (h : bracket? token.kind = none) (rest : List Token) :
    checkFrom pending (token :: rest) = checkFrom pending rest := by
  obtain ⟨kind, p⟩ := token
  cases kind with
  | separator sign =>
    cases sign
    case semicolon | colon | comma => cases pending <;> rfl
    all_goals cases h
  | _ => cases pending <;> rfl

theorem checkFrom_opening (h : Pair sign closing) (p : Position) (rest : List Token) :
    checkFrom pending (⟨.separator sign, p⟩ :: rest) = checkFrom ((sign, closing, p) :: pending) rest := by
  cases h <;> cases pending <;> rfl

theorem checkFrom_closing (h : sign.isClosing = true) (opened : Separator) (p q : Position) (rest : List Token) :
    checkFrom ((opened, closing, q) :: pending) (⟨.separator sign, p⟩ :: rest) =
      if closing = sign then checkFrom pending rest else .error ⟨.mismatchedSeparator closing sign, p⟩ := by
  cases sign <;> cases h <;> rfl

theorem checkFrom_unmatched (h : sign.isClosing = true) (p : Position) (rest : List Token) :
    checkFrom [] (⟨.separator sign, p⟩ :: rest) = .error ⟨.unmatchedSeparator sign, p⟩ := by
  cases sign <;> cases h <;> rfl

theorem checkFrom_plains {run : List Token} (h : ∀ token ∈ run, bracket? token.kind = none) (rest : List Token) :
    checkFrom pending (run ++ rest) = checkFrom pending rest := by
  induction run with
  | nil => rfl
  | cons token run ih =>
    rw [List.cons_append, checkFrom_plain (h token List.mem_cons_self),
      ih fun other hother => h other (List.mem_cons_of_mem _ hother)]

end Steps

variable {run tokens : List Token}

theorem checkFrom_matched (h : Matched (brackets run)) (pending : Opened) (rest : List Token) :
    checkFrom pending (run ++ rest) = checkFrom pending rest := by
  generalize hrun : brackets run = signs at h
  induction h generalizing run pending rest with
  | nil => exact checkFrom_plains (List.filterMap_eq_nil_iff.mp hrun) rest
  | pair hsign _ _ ih ih' =>
    -- before each bracket of the pair there may be tokens that are no brackets
    obtain ⟨plain, ⟨_, p⟩, behind, rfl, hplain, hopen, hbehind⟩ := List.filterMap_eq_cons_iff.mp hrun
    obtain ⟨inner, behind', rfl, hinner, hclose⟩ := List.filterMap_eq_append_iff.mp hbehind
    obtain ⟨plain', ⟨_, q⟩, last, rfl, hplain', hclosing, hlast⟩ := List.filterMap_eq_cons_iff.mp hclose
    obtain rfl := eq_of_bracket? hopen
    obtain rfl := eq_of_bracket? hclosing
    simp only [List.append_assoc, List.cons_append]
    rw [checkFrom_plains hplain, checkFrom_opening hsign, ih _ _ hinner, checkFrom_plains hplain',
      checkFrom_closing hsign.isClosing, if_pos rfl, ih' _ _ hlast]

/-- The brackets that are open behind tokens, the innermost first. -/
inductive Leaves : Opened → List Token → Prop
  | matched {run : List Token} (h : Matched (brackets run)) : Leaves [] run
  | opened {pending : Opened} {front inner : List Token} {sign closing : Separator}
      {p : Position} (hfront : Leaves pending front) (h : Pair sign closing)
      (hinner : Matched (brackets inner)) :
      Leaves ((sign, closing, p) :: pending) (front ++ ⟨.separator sign, p⟩ :: inner)

namespace Leaves

variable {pending : Opened} {run behind : List Token} {sign closing : Separator}
  {p : Position}

theorem innermost (h : Leaves ((sign, closing, p) :: pending) run) :
    Innermost run sign p ∧ Pair sign closing := by
  cases h with
  | opened _ hsign hinner => exact ⟨⟨⟨_, hsign⟩, _, _, rfl, hinner⟩, hsign⟩

theorem andThen (h : Leaves pending run) (hbehind : Matched (brackets behind)) : Leaves pending (run ++ behind) := by
  cases h with
  | matched h => exact .matched (by rw [brackets_append]; exact h.append hbehind)
  | @opened _ _ inner _ _ _ hfront hsign hinner =>
    have hwhole : Matched (brackets (inner ++ behind)) := by
      rw [brackets_append]
      exact hinner.append hbehind
    rw [List.append_assoc]
    exact .opened hfront hsign hwhole

theorem close (h : Leaves ((sign, closing, p) :: pending) run) (q : Position) :
    Leaves pending (run ++ [⟨.separator closing, q⟩]) := by
  cases h with
  | @opened _ front inner _ _ _ hfront hsign hinner =>
    rw [List.append_assoc]
    refine hfront.andThen ?_
    have hpair := Matched.pair hsign hinner .nil
    simpa [brackets, bracket?_opening hsign, bracket?_closing hsign] using hpair

/-- What was read can be completed: the open brackets are closed, from the inside out. -/
theorem extensible (h : Leaves pending run) : Extensible run := by
  induction pending generalizing run with
  | nil =>
    cases h with
    | matched h => exact ⟨[], by rwa [List.append_nil]⟩
  | cons first pending ih =>
    obtain ⟨sign, closing, p⟩ := first
    obtain ⟨more, hmore⟩ := ih (h.close .start)
    exact ⟨_ :: more, by rwa [List.append_assoc] at hmore⟩

/-- The check goes on behind a run with the brackets that the run leaves open. -/
theorem checkFrom_eq (h : Leaves pending run) (rest : List Token) :
    checkFrom [] (run ++ rest) = checkFrom pending rest := by
  induction h generalizing rest with
  | matched h => exact checkFrom_matched h [] rest
  | opened _ hsign hinner ih =>
    rw [List.append_assoc, ih, List.cons_append, checkFrom_opening hsign, checkFrom_matched hinner]

theorem not_extensible (h : Leaves pending run) {e : LexError}
    (herror : ∀ rest, checkFrom pending (behind ++ rest) = .error e) : ¬ Extensible (run ++ behind) := by
  rintro ⟨more, hmatched⟩
  have hok := checkFrom_matched hmatched [] []
  rw [List.append_nil, List.append_assoc, h.checkFrom_eq, herror] at hok
  cases hok

end Leaves

/-- What the check says of tokens, and why. -/
inductive Verdict (tokens : List Token) : Except LexError Unit → Prop
  | matched (h : Matched (brackets tokens)) : Verdict tokens (.ok ())
  | unmatched {front rest : List Token} {sign : Separator} {p : Position}
      (htokens : tokens = front ++ ⟨.separator sign, p⟩ :: rest) (hfront : Matched (brackets front))
      (hsign : sign.isClosing = true) : Verdict tokens (.error ⟨.unmatchedSeparator sign, p⟩)
  | mismatched {pending : Opened} {front rest : List Token}
      {opened closing sign : Separator} {p q : Position} (htokens : tokens = front ++ ⟨.separator sign, p⟩ :: rest)
      (hfront : Leaves ((opened, closing, q) :: pending) front) (hsign : sign.isClosing = true)
      (hne : closing ≠ sign) : Verdict tokens (.error ⟨.mismatchedSeparator closing sign, p⟩)
  | unclosed {pending : Opened} {sign closing : Separator} {p : Position}
      (h : Leaves ((sign, closing, p) :: pending) tokens) : Verdict tokens (.error ⟨.unclosedSeparator sign, p⟩)

/-- The invariant of the walk: the brackets that it keeps are those that are open behind what it has read. -/
theorem checkFrom_verdict {pending : Opened}
    (h : Leaves pending run) (rest : List Token) : Verdict (run ++ rest) (checkFrom pending rest) := by
  induction rest generalizing pending run with
  | nil =>
    rw [List.append_nil]
    cases pending with
    | nil =>
      cases h with
      | matched h => exact .matched h
    | cons first pending => exact .unclosed h
  | cons token rest ih =>
    have hnext : ∀ {pending}, Leaves pending (run ++ [token]) →
        Verdict (run ++ token :: rest) (checkFrom pending rest) := fun hleaves => by
      simpa using ih hleaves
    obtain ⟨kind, p⟩ := token
    rcases bracket?_cases kind with hplain | ⟨sign, closing, rfl, hsign⟩ | ⟨sign, rfl, hsign⟩
    · have hnone : brackets [⟨kind, p⟩] = [] := List.filterMap_cons_none hplain
      rw [checkFrom_plain hplain]
      exact hnext (h.andThen (by rw [hnone]; exact .nil))
    · rw [checkFrom_opening hsign]
      exact hnext (.opened h hsign .nil)
    · cases pending with
      | nil =>
        rw [checkFrom_unmatched hsign]
        cases h with
        | matched h => exact .unmatched rfl h hsign
      | cons first pending =>
        rw [checkFrom_closing hsign]
        split
        · next heq =>
          subst heq
          exact hnext (h.close p)
        · next hne => exact .mismatched rfl h hsign hne

theorem Extensible.of_prefix (h : Extensible tokens) (hrun : run <+: tokens) : Extensible run := by
  obtain ⟨behind, rfl⟩ := hrun
  obtain ⟨more, hmore⟩ := h
  exact ⟨behind ++ more, by rwa [List.append_assoc] at hmore⟩

theorem check_verdict (tokens : List Token) : Verdict tokens (check tokens) :=
  @checkFrom_verdict [] [] (.matched .nil) tokens

theorem matched_of_check (h : check tokens = .ok ()) : Matched (brackets tokens) := by
  have hverdict := check_verdict tokens
  rw [h] at hverdict
  cases hverdict with
  | matched h => exact h

theorem check_of_matched (h : Matched (brackets tokens)) : check tokens = .ok () := by
  rw [check, ← List.append_nil tokens, checkFrom_matched h]
  rfl

/-- The check accepts the tokens whose brackets are nested and matched by kind. Otherwise, if not every beginning of the
tokens can be completed, the last token of the shortest one that cannot is to blame: it closes a bracket where none is
open, or where the innermost one needs another closing bracket, which the error names. If every beginning can be
completed, the innermost bracket that is left open is to blame. -/
theorem brackets_blamed (tokens : List Token) :
    (check tokens = .ok () ↔ Matched (brackets tokens)) ∧
    (∀ run, run <+: tokens → ¬ Extensible run → ∃ front sign p, front ++ [⟨.separator sign, p⟩] <+: tokens ∧
      ¬ Extensible (front ++ [⟨.separator sign, p⟩]) ∧ (∀ shorter, shorter <+: front → Extensible shorter) ∧
      (Matched (brackets front) ∧ check tokens = .error ⟨.unmatchedSeparator sign, p⟩ ∨
        ∃ opened closing q, Innermost front opened q ∧ Pair opened closing ∧ closing ≠ sign ∧
          check tokens = .error ⟨.mismatchedSeparator closing sign, p⟩)) ∧
    (¬ Matched (brackets tokens) → (∀ run, run <+: tokens → Extensible run) →
      ∃ sign p, Innermost tokens sign p ∧ check tokens = .error ⟨.unclosedSeparator sign, p⟩) := by
  have hverdict := check_verdict tokens
  have hcomplete : Matched (brackets tokens) → check tokens = .ok () := check_of_matched
  generalize check tokens = result at hverdict hcomplete ⊢
  cases hverdict with
  | matched h =>
    have hall : ∀ run, run <+: tokens → Extensible run := fun _ => (Leaves.matched h).extensible.of_prefix
    exact ⟨⟨fun _ => h, hcomplete⟩, fun run hrun hnot => absurd (hall run hrun) hnot, fun hnot => absurd h hnot⟩
  | @unmatched front rest sign p htokens hfront hsign =>
    have hbegins : front ++ [⟨.separator sign, p⟩] <+: tokens := ⟨rest, by rw [htokens]; simp⟩
    have hstray : ¬ Extensible (front ++ [⟨.separator sign, p⟩]) :=
      -- the check fails whatever follows
      (Leaves.matched hfront).not_extensible (checkFrom_unmatched hsign p)
    exact ⟨⟨nofun, hcomplete⟩, fun _ _ _ => ⟨front, sign, p, hbegins, hstray,
      fun _ => (Leaves.matched hfront).extensible.of_prefix, .inl ⟨hfront, rfl⟩⟩,
      fun _ hall => absurd (hall _ hbegins) hstray⟩
  | @mismatched pending front rest opened closing sign p q htokens hfront hsign hne =>
    have hbegins : front ++ [⟨.separator sign, p⟩] <+: tokens := ⟨rest, by rw [htokens]; simp⟩
    have hstray : ¬ Extensible (front ++ [⟨.separator sign, p⟩]) :=
      hfront.not_extensible fun rest => by rw [List.cons_append, checkFrom_closing hsign, if_neg hne]
    exact ⟨⟨nofun, hcomplete⟩, fun _ _ _ => ⟨front, sign, p, hbegins, hstray, fun _ => hfront.extensible.of_prefix,
      .inr ⟨opened, closing, q, hfront.innermost.1, hfront.innermost.2, hne, rfl⟩⟩,
      fun _ hall => absurd (hall _ hbegins) hstray⟩
  | unclosed h =>
    exact ⟨⟨nofun, hcomplete⟩, fun _ hrun hnot => absurd (h.extensible.of_prefix hrun) hnot,
      fun _ _ => ⟨_, _, h.innermost.1, rfl⟩⟩

end Scriptlet.Brackets
