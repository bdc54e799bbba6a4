import Scriptlet.Proofs.GlobalWrites
import Scriptlet.Proofs.TypedMachine

/-!
# Guarded globals

A definition checks its value against the type of the global. An assignment checks it against the type that the
variable had where the text was compiled, and writes to whatever the name finds. If the two types disagree, the
write may leave a value that the global does not accept, and the record of the run shows that write. Nothing else
in a run does: a global either holds a value of its type or was written to under another one.
-/

namespace Scriptlet

/-- A write that found a global of this name and type, which does not accept the type of the variable. -/
structure Write.Strays (classes : Hierarchy) (name : String) (ty : Ty) (w : Write) : Prop where
  named : w.ref.name = name
  found : w.machine.site? name = some (.global, ty)
  refused : classes.accepts ty w.ref.declared = false

namespace Bindings

variable {classes : Hierarchy} {log more : List Write} {b b' : Bindings} {name : String} {ty : Ty} {v : Value}

/-- Each value is of the type of its binding, or one of the writes has strayed there. -/
def Guarded (classes : Hierarchy) (log : List Write) (b : Bindings) : Prop :=
  ∀ entry ∈ b, classes.accepts entry.2.ty entry.2.value.runtimeType = true ∨
    ∃ w ∈ log, w.Strays classes entry.1 entry.2.ty

theorem mem_put {found : Binding} {entry : String × Binding} (h : entry ∈ b.put name found) :
    entry = (name, found) ∨ entry ∈ b := by
  induction b with
  | nil => exact .inl (List.mem_singleton.mp h)
  | cons first rest ih =>
    rw [put] at h
    split at h
    · exact (List.mem_cons.mp h).imp_right (List.mem_cons_of_mem _)
    · rcases List.mem_cons.mp h with rfl | hrest
      · exact .inr List.mem_cons_self
      · exact (ih hrest).imp_right (List.mem_cons_of_mem _)

theorem mem_assign {entry : String × Binding} (h : b.assign? name v = some b') (hentry : entry ∈ b') :
    entry ∈ b ∨ ∃ found, b.lookup name = some found ∧ entry = (name, { found with value := v }) := by
  induction b generalizing b' with
  | nil => cases h
  | cons first rest ih =>
    obtain ⟨key, found⟩ := first
    rw [assign?] at h
    by_cases hkey : key = name
    · subst hkey
      rw [if_pos rfl, Option.some.injEq] at h
      subst h
      rcases List.mem_cons.mp hentry with rfl | hrest
      · exact .inr ⟨found, by simp, rfl⟩
      · exact .inl (List.mem_cons_of_mem _ hrest)
    · rw [if_neg hkey] at h
      obtain ⟨rest', hrest', rfl⟩ := Option.map_eq_some_iff.mp h
      rw [List.lookup_cons, beq_eq_false_iff_ne.mpr (Ne.symm hkey)]
      rcases List.mem_cons.mp hentry with rfl | hrest
      · exact .inl List.mem_cons_self
      · exact (ih hrest' hrest).imp_left (List.mem_cons_of_mem _)

namespace Guarded

theorem mono (h : b.Guarded classes log) (hlog : log ⊆ more) : b.Guarded classes more := by
  intro entry hentry
  refine (h entry hentry).imp_right ?_
  rintro ⟨w, hw, hstrays⟩
  exact ⟨w, hlog hw, hstrays⟩

theorem put (h : b.Guarded classes log) (hv : classes.accepts ty v.runtimeType = true) :
    (b.put name ⟨ty, v⟩).Guarded classes log := by
  intro entry hentry
  rcases mem_put hentry with rfl | hold
  · exact .inl hv
  · exact h entry hold

end Guarded

end Bindings

/-- A value that a type accepts is still accepted when it is made a number of that type. -/
theorem Hierarchy.accepts_coerce {classes : Hierarchy} {t : Ty} {v : Value}
    (h : classes.accepts t v.runtimeType = true) : classes.accepts t (v.coerce t).runtimeType = true := by
  cases hnumeric : t.isNumeric with
  | true =>
    rw [(Value.Fits.of_accepts h).runtimeType_eq hnumeric]
    exact accepts_refl t
  | false =>
    rw [Value.coerce_of_not_numeric hnumeric]
    exact h

/-- What a definition stores is of the type of the global, which an existing one keeps. -/
theorem Bindings.Guarded.define {classes : Hierarchy} {log : List Write} {b b' : Bindings} {name : String} {ty : Ty}
    {v : Value} (h : b.Guarded classes log) (hdefined : Bindings.define classes b name ty v = .ok b') :
    b'.Guarded classes log := by
  obtain ⟨kept, -, hfits, rfl⟩ := put_of_define hdefined
  exact h.put (Hierarchy.accepts_coerce hfits)

namespace Machine

variable {m m' : Machine} {name : String} {v : Value}

/-- A value that the variable accepts is written: if the global refuses it, the write has strayed. -/
theorem guarded_of_assign {classes : Hierarchy} (hwf : classes.WellFormed) {log : List Write} {ref : VariableRef}
    (hglobals : m.globals.Guarded classes log) (hv : classes.accepts ref.declared v.runtimeType = true)
    (h : m.assign? ref.name v = some m') : m'.globals.Guarded classes (⟨ref, m'⟩ :: log) := by
  rcases globals_assign h with hsame | ⟨hassign, hsite⟩
  · rw [hsame]
    exact hglobals.mono (List.subset_cons_self _ _)
  intro entry hentry
  rcases Bindings.mem_assign hassign hentry with hold | ⟨found, hfound, rfl⟩
  · exact hglobals.mono (List.subset_cons_self _ _) entry hold
  · cases haccepts : classes.accepts found.ty ref.declared with
    | true => exact .inl (Hierarchy.accepts_trans hwf haccepts hv)
    | false => exact .inr ⟨_, List.mem_cons_self, rfl, hsite found hfound, haccepts⟩

end Machine

def Upkeep.guarded {classes : Hierarchy} (hwf : classes.WellFormed) : Upkeep classes where
  holds log b := b.Guarded classes log
  mono hlog h := h.mono hlog
  assign h haccepts hassign := Machine.guarded_of_assign hwf h haccepts hassign
  define h _ hdefined := h.define hdefined

theorem Request.guarded_of_run {request : Request} (hwf : request.registry.classes.WellFormed) (rounds : Nat)
    {m : Machine} {log : List Write} (h : m.globals.Guarded request.registry.classes log) :
    (finalState (request.run rounds m)).globals.Guarded request.registry.classes (request.writes rounds m ++ log) :=
  request.holds_of_run (.guarded hwf) rounds h

end Scriptlet
