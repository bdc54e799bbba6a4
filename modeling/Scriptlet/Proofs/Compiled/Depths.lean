import Scriptlet.Proofs.Compiled.Programs

/-!
# The depth of compiled programs

No expression of a compiled program is too high, and no statement nests too deep in it.
-/

namespace Scriptlet

namespace Grammar

open Statement

theorem program_bounded {r : Registry} {tokens : List Token} {p : Program} (h : program r tokens = .ok p) :
    (∀ e ∈ p.exprs, e.Bounded) ∧ ∀ f ∈ p.functions, nestingOfAll f.body ≤ maxDepth := by
  obtain ⟨found, _, h⟩ := exists_ok_of_bind h
  obtain ⟨env, _, h⟩ := exists_ok_of_bind h
  obtain ⟨⟨declarations, env'⟩, hdeclarations, h⟩ := exists_ok_of_bind h
  obtain ⟨functions, hfunctions, ⟨⟩⟩ := exists_ok_of_bind h
  have hmade := (compileFunctions_made hfunctions).2
  refine ⟨?_, fun f hf => (hmade f hf).1.nesting⟩
  simp only [Program.exprs, List.forall_mem_append, List.mem_flatMap]
  constructor
  · rintro e ⟨d, hd, he⟩
    exact (compileDeclarations_made hdeclarations).1 d hd e (Option.mem_toList.mp he)
  · rintro e ⟨f, hf, he⟩
    exact (hmade f hf).1.exprs e he

theorem expression_bounded {r : Registry} {tokens : List Token} {inputs : List Parameter} {e : Expr}
    (h : expression r tokens inputs = .ok e) : e.Bounded :=
  (expression_made h).1

end Grammar

/-- In whatever compiles, every expression knows its height, which is not too great, and statements do not nest too
deep. -/
theorem compiled_trees_bounded (r : Registry) (source : String) :
    (∀ script, Script.compile r source = .ok script →
      (∀ e ∈ script.program.exprs, e.All Expr.Measured) ∧
        ∀ f ∈ script.program.functions, Statement.nestingOfAll f.body ≤ Grammar.maxDepth) ∧
    ∀ inputs formula, Formula.compile r source inputs = .ok formula → formula.expr.All Expr.Measured := by
  constructor
  · intro script h
    unfold Script.compile at h
    split at h
    · cases h
    · obtain ⟨p, hprogram, rfl⟩ := exists_ok_of_map h
      obtain ⟨hexprs, hnesting⟩ := Grammar.program_bounded hprogram
      exact ⟨fun e he => (hexprs e he).measured, hnesting⟩
  · intro inputs formula h
    unfold Formula.compile at h
    split at h
    · cases h
    · obtain ⟨e, hexpr, rfl⟩ := exists_ok_of_map h
      exact (Grammar.expression_bounded hexpr).measured

/-- A script with a chain of conditions in a loop. -/
def Script.chained : String :=
  "int a=1+2*3;void f(List<int> xs,int n)\x7bfor(int i=0;i<n;i++)if(n<1)xs[i+1]+=n;" ++
    "else if(n<2)\x7bn=0;\x7delse if(n<3)\x7bn=a;\x7delse while(n<9)n++;\x7d"

/-- The loop, the chain, a branch of it and the statement in this branch stand in one another. -/
theorem compiled_trees_bounded_chained :
    (∃ script, Script.compile .standard Script.chained = .ok script ∧
      (∃ f ∈ script.program.functions, Statement.nestingOfAll f.body = 4) ∧
      (∀ e ∈ script.program.exprs, e.All Expr.Measured) ∧
        ∀ f ∈ script.program.functions, Statement.nestingOfAll f.body ≤ Grammar.maxDepth) ∧
    ∃ formula, Formula.compile .standard "1+2*x" [⟨"x", .int⟩] = .ok formula ∧ formula.expr.height = 3 ∧
      formula.expr.All Expr.Measured := by
  have hscript : ((Script.compile .standard Script.chained).toOption.any fun script =>
      script.program.functions.any fun f => Statement.nestingOfAll f.body = 4) = true := by
    decide +kernel
  have hformula : ((Formula.compile .standard "1+2*x" [⟨"x", .int⟩]).toOption.any fun formula =>
      formula.expr.height = 3) = true := by
    decide +kernel
  constructor
  · obtain ⟨script, hs, hscript⟩ := exists_ok_of_any hscript
    obtain ⟨f, hf, hnesting⟩ := List.any_eq_true.mp hscript
    exact ⟨script, hs, ⟨f, hf, of_decide_eq_true hnesting⟩,
      (compiled_trees_bounded .standard Script.chained).1 script hs⟩
  · obtain ⟨formula, hf, hheight⟩ := exists_ok_of_any hformula
    exact ⟨formula, hf, of_decide_eq_true hheight,
      (compiled_trees_bounded .standard "1+2*x").2 [⟨"x", .int⟩] formula hf⟩

end Scriptlet
