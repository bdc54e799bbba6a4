import Scriptlet.Proofs.Compiled.Expressions
import Scriptlet.Proofs.Frames
import Scriptlet.Proofs.OrderlyMembers

/-!
# Failing members

A member that comes with the language does all of its work or none: if it fails, every collection holds what it held
before, whoever else can reach it. The members that change a collection look at their arguments first, and what follows
the first change cannot fail; the others are quiet and never change one.
-/

namespace Scriptlet

def Member.AllOrNothing (m : Member) : Prop :=
  ∀ arguments, (m.call arguments).AllOrNothing

theorem Member.Quiet.allOrNothing {m : Member} (h : m.Quiet) : m.AllOrNothing :=
  fun arguments => (Host.Careful.of_quiet (h arguments)).allOrNothing

/-- Whatever a facility, a type or a value offers without help of the host does all or nothing. -/
theorem Registry.standard_allOrNothing {owner : Owner} {name : String} {m : Member}
    (h : m ∈ Registry.standard.candidates owner name) : m.AllOrNothing := by
  have hstatic (howner : ∀ ty, owner ≠ .value ty) : m.AllOrNothing :=
    (standard_quiet.1 _ (mem_statics_of_mem_candidates howner h).1).allOrNothing
  cases owner with
  | facility facility => exact hstatic (by simp)
  | type ty => exact hstatic (by simp)
  | value ty =>
    rcases mem_valueMembers h with hcollection | huniversal | ⟨owner, -, hentry⟩
    · exact fun arguments => (Standard.collectionMembers_careful ty m hcollection arguments).allOrNothing
    · exact (Standard.universalMembers_quiet m huniversal).allOrNothing
    · exact (standard_quiet.2 _ hentry).allOrNothing

/-- A call of a standard member that fails leaves the collections and the variables as they were. -/
theorem failing_members_change_nothing {owner : Owner} {name : String} {member : Member}
    (hmember : member ∈ Registry.standard.candidates owner name) {arguments : List Value} {p : Position}
    {m m' : Machine} {e : Interruption} (h : Run.host p (member.call arguments) m = .error e m') :
    m'.world.heap = m.world.heap ∧ m'.members = m.members ∧ m'.globals = m.globals ∧ m'.frames = m.frames := by
  have hnothing := Registry.standard_allOrNothing hmember arguments m.world
  unfold Run.host at h
  cases hcall : member.call arguments m.world with
  | ok v w =>
    rw [hcall] at h
    cases h
  | error fault w =>
    rw [hcall] at h
    cases h
    exact ⟨hnothing fault w hcall, rfl, rfl, rfl⟩

/-- A machine with a dictionary from texts to numbers, and a variable for it. -/
def Machine.withTally : Machine :=
  { Machine.fresh .standard with
    world := ⟨⟨#[.entries [(.string "a", .int 1), (.string "b", .int 2)]]⟩, ⟨"", none⟩, ⟨fun _ => 0, 0⟩⟩
    members := [("tally", ⟨.dictionary .string .int, .dictionary .string .int 0⟩)] }

/-- What adds an entry to the dictionary of `Machine.withTally`. -/
def Member.addToTally : Member :=
  .method "Add" [.string, .int] .void Standard.addEntry

/-- The key `"b"` is there already. -/
theorem failing_members_change_nothing_addAgain :
    Member.addToTally ∈ Registry.standard.candidates (.value (.dictionary .string .int)) "Add" ∧ ∃ e m',
      Run.host .start (Member.addToTally.call [.dictionary .string .int 0, .string "b", .int 3]) .withTally =
          .error e m' ∧
        m'.world.heap = Machine.withTally.world.heap ∧ m'.members = Machine.withTally.members ∧
        m'.globals = Machine.withTally.globals ∧ m'.frames = Machine.withTally.frames := by
  have hmember : Member.addToTally ∈ Registry.standard.candidates (.value (.dictionary .string .int)) "Add" :=
    List.mem_singleton.mpr rfl
  have hfails : Run.host .start (Member.addToTally.call [.dictionary .string .int 0, .string "b", .int 3]) .withTally =
      .error (.fault ⟨.duplicateKey "b", .start⟩) .withTally := rfl
  exact ⟨hmember, _, _, hfails, failing_members_change_nothing hmember hfails⟩

end Scriptlet
