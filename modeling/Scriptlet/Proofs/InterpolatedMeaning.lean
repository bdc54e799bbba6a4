import Scriptlet.Proofs.FormatCalls
import Scriptlet.Proofs.InterpolatedReading
import Scriptlet.Proofs.Tiling

/-!
# What interpolated strings mean

An interpolated string is written as text with holes, is read into a template with numbered placeholders, and is called
with that template. What comes out is the text as written, with the value of every expression in its hole.
-/

namespace Scriptlet

namespace Lexer

theorem Nested.of_concat {lexed inside : List Token} {last : Token} (hlast : last.kind = .endOfInput)
    (h : Nested (lexed ++ [last]) inside) : Nested lexed inside := by
  generalize htokens : lexed ++ [last] = tokens at h
  induction h with
  | @argument tokens inside token template arguments htoken hkind hinside =>
    subst htokens
    rcases List.mem_append.mp htoken with htoken | htoken
    · exact .argument htoken hkind hinside
    · obtain rfl := List.mem_singleton.mp htoken
      cases hlast.symm.trans hkind
  | deeper _ h' ih _ => exact .deeper (ih htokens) h'

/-- An interpolated string among the tokens of a source text, or among those of its arguments at any depth, is written
there as the grammar says. -/
theorem tokenize_interpolates {types : TypeNames} {source : String} {tokens inside : List Token} {token : Token}
    {template : String} {arguments : List (List Token)} (hsource : tokenize types source = .ok tokens)
    (hinside : inside = tokens ∨ Nested tokens inside) (htoken : token ∈ inside)
    (hkind : token.kind = .interpolated template arguments) :
    ∃ before quote written after content, source.toList = before ++ '$' :: quote :: (written ++ quote :: after) ∧
      QuotedText.isQuote quote = true ∧ token.position = Position.start.advance before ∧
      template = String.ofList (content.template 0) ∧
      Interpolation.Interpolates (Tiles (Spells types)) (token.position.advance ['$', quote]) quote written content
        arguments := by
  obtain ⟨lexed, rfl, htiles, -⟩ := tokenize_tiles hsource
  -- the tokens that hold the string tile a part of the source text
  have hpart : ∃ front text behind part, source.toList = front ++ (text ++ behind) ∧ token ∈ part ∧
      Tiles (Spells types) (Position.start.advance front) text part := by
    rcases hinside with rfl | hnested
    · rcases List.mem_append.mp htoken with htoken | htoken
      · exact ⟨[], source.toList, [], lexed, by simp, htoken, htiles⟩
      · obtain rfl := List.mem_singleton.mp htoken
        cases hkind
    · obtain ⟨front, text, behind, htext, hinner⟩ := htiles.nested (hnested.of_concat rfl)
      exact ⟨front, text, behind, inside, htext, htoken, hinner⟩
  obtain ⟨front, text, behind, part, htext, htoken, hpart⟩ := hpart
  obtain ⟨before, lexeme, after, rfl, hposition, hspelled⟩ := hpart.lexeme_at htoken
  rw [hkind] at hspelled
  obtain ⟨quote, written, content, hquote, rfl, htemplate, hinterpolates⟩ := hspelled.interpolated_inv
  refine ⟨front ++ before, quote, written, after ++ behind, content, ?_, hquote, ?_, htemplate, hinterpolates⟩
  · rw [htext]
    simp
  · rw [hposition, Position.advance_append]

end Lexer

open Interpolation

/-- A host that offers no `string.Format` of its own. -/
def Registry.FormatsAsStandard (r : Registry) : Prop :=
  r.candidates (.type .string) "Format" = standard.candidates (.type .string) "Format"

theorem Registry.FormatsAsStandard.member {r : Registry} (h : r.FormatsAsStandard) {member : Member}
    (hmember : member ∈ r.candidates (.type .string) "Format") :
    member.call = Standard.formatText ∧ member.check = some Standard.checkFormat := by
  have hstandard : standard.candidates (.type .string) "Format" = Standard.stringStatics.take 1 := rfl
  rw [h, hstandard] at hmember
  obtain rfl := List.mem_singleton.mp hmember
  exact ⟨rfl, rfl⟩

/-- Calls of a member with a template and one value for each hole of a content either give the content filled in, or
fail because a specifier does not apply to its value or the text of a value has no end. -/
def Member.Fills (member : Member) (template : String) (content : Interpolation.Content) : Prop :=
  ∀ (values : List Value) (w : World), values.length = content.holes.length →
    (∃ text, Template.fill w.heap content values = .ok text ∧
      member.call (.string template :: values) w = .ok (.string text) w) ∨
    ∃ fault, Template.fill w.heap content values = .error fault ∧ Template.Unsayable w.heap values fault ∧
      member.call (.string template :: values) w = .error fault w

/-- The call that an interpolated string stands for, wherever it is read: the alignments are numbers, every hole has one
argument, and the member that is called fills the holes. -/
theorem format_call_fills {quote : Char} {content : Interpolation.Content}
    (hholes : ∀ hole ∈ content.holes, hole.1.WellFormed quote) (hcount : content.holes.length ≤ Template.indexBound)
    {position : Position} {groups : List (List Token)} {depth : Nat} {env : Grammar.Env} {rest rest' : List Token}
    {e : Expr} (hformats : env.registry.FormatsAsStandard)
    (hread : (Grammar.exprRules depth).primary env
      (Expansion.formatCall position (String.ofList (content.template 0)) groups ++ rest) = .ok (e, rest')) :
    content.Aligned ∧ ∃ note member first others, e = .staticMember note member (first :: others) ∧
      first.literal? = some (.string (String.ofList (content.template 0))) ∧
      others.length = content.holes.length ∧ member.Fills (String.ofList (content.template 0)) content := by
  obtain ⟨note, member, first, others, rfl, hfirst, hcandidate, hcheck⟩ :=
    Grammar.exprRules_primary_reads_formatCall depth position _ groups rest e rest' hread
  obtain ⟨hcall, hchecks⟩ := hformats.member hcandidate
  have haccepted := hcheck _ hchecks
  rw [Standard.checkFormat_template_iff hholes hcount, List.length_map] at haccepted
  obtain ⟨haligned, hlength⟩ := haccepted
  refine ⟨haligned, note, member, first, others, rfl, hfirst, hlength, fun values w hvalues => ?_⟩
  rw [hcall]
  exact Standard.formatText_template hholes hcount haligned hvalues w

/-- An escape, doubled braces beside a hole, an alignment, and a string with a specifier in a string. -/
def paddedNumber : String :=
  "$\"\\t\x7b\x7b\x7b$'\x7b2:D3\x7d', -5\x7d\x7d\x7d\""

/-- The tokens of `paddedNumber`, of which the first one stands for a call that is accepted. -/
def readsPaddedNumber : Except LexError (List Token) → Bool
  | .ok [⟨.interpolated "\t\x7b\x7b\x7b0, -5\x7d\x7d\x7d" [[a]], p⟩, _] =>
    ((Grammar.exprRules Grammar.maxDepth).primary (.initial .standard)
      (Expansion.expandToken ⟨.interpolated "\t\x7b\x7b\x7b0, -5\x7d\x7d\x7d" [[a]], p⟩)).isOk
  | _ => false

end Scriptlet
