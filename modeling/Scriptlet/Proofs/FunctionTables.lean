import Mathlib.Data.List.Nodup
import Mathlib.Logic.Equiv.Defs
import Scriptlet.Proofs.Mirroring

/-!
# The functions that are known

Before anything else of a program is compiled, all of its functions are made known. This succeeds if any two of them
can be told apart, in whatever order they stand; the order only decides about their numbers.
-/

namespace Scriptlet

/-- Two functions that a call can tell apart. -/
def Signature.Apart (s t : Signature) : Prop :=
  s.name = t.name → s.parameterTypes ≠ t.parameterTypes

theorem Signature.Apart.symm {s t : Signature} (h : s.Apart t) : t.Apart s :=
  fun hname => (h hname.symm).symm

theorem zipIdx_perm {α β : Type} {l : List α} {l' : List β} {g : α → β} {ρ : Equiv.Perm Nat}
    (hρ : ∀ i, l'[ρ i]? = (l[i]?).map g) : l'.zipIdx.Perm (l.zipIdx.map fun x => (g x.1, ρ x.2)) := by
  have hnodup : ∀ {γ : Type} (l : List γ), (l.zipIdx.map (·.2)).Nodup := by
    intro γ l
    rw [List.zipIdx_map_snd]
    exact List.nodup_range'
  have hnumbers : ((l.zipIdx.map fun x => (g x.1, ρ x.2)).map (·.2)).Nodup := by
    have hmap := (hnodup l).map ρ.injective
    rwa [List.map_map] at hmap ⊢
  refine (List.perm_ext_iff_of_nodup (hnodup l').of_map hnumbers.of_map).mpr ?_
  rintro ⟨b, index⟩
  obtain ⟨i, rfl⟩ := ρ.surjective index
  simp [List.mem_zipIdx_iff_getElem?, hρ]

theorem pairwise_named {α : Type} {l : List α} {f : α → Signature} (h : (l.map f).Pairwise Signature.Apart)
    (name : String) : (l.zipIdx.filter fun x => (f x.1).name = name).Pairwise
      fun x y => (f x.1).parameterTypes ≠ (f y.1).parameterTypes := by
  have hindexed : l.zipIdx.Pairwise fun x y => (f x.1).Apart (f y.1) := by
    rwa [← l.zipIdx_map_fst 0, List.map_map, List.pairwise_map] at h
  refine (hindexed.filter _).imp_of_mem fun {x y} hx hy hxy => hxy ?_
  rw [of_decide_eq_true (List.mem_filter.mp hx).2, of_decide_eq_true (List.mem_filter.mp hy).2]

def overloadsOf (signatures : List Signature) (name : String) : List Nat :=
  (signatures.zipIdx.filter fun s => s.1.name = name).map (·.2)

section Overloads

variable {signatures signatures' : List Signature} {name : String}

theorem overloadsOf_append_singleton (signatures : List Signature) (s : Signature) (name : String) :
    overloadsOf (signatures ++ [s]) name =
      overloadsOf signatures name ++ if s.name = name then [signatures.length] else [] := by
  simp only [overloadsOf, List.zipIdx_append, List.filter_append, List.map_append]
  by_cases hname : s.name = name <;> simp [hname]

theorem overloadsOf_perm {ρ : Equiv.Perm Nat} (hρ : ∀ i, signatures'[ρ i]? = signatures[i]?) (name : String) :
    (overloadsOf signatures' name).Perm ((overloadsOf signatures name).map ρ) := by
  have hmap : ∀ i, signatures'[ρ i]? = (signatures[i]?).map id := by simpa using hρ
  have hperm := ((zipIdx_perm hmap).filter fun s => s.1.name = name).map (·.2)
  simpa [overloadsOf, List.filter_map, Function.comp_def] using hperm

theorem pairwise_overloadsOf (h : signatures.Pairwise Signature.Apart) (name : String) :
    ((overloadsOf signatures name).filterMap (signatures[·]?)).Pairwise
      fun s t => s.parameterTypes ≠ t.parameterTypes := by
  have hfound : (overloadsOf signatures name).filterMap (signatures[·]?) =
      (signatures.zipIdx.filter fun s => s.1.name = name).map (·.1) := by
    rw [overloadsOf, List.filterMap_map, ← List.filterMap_eq_map]
    refine List.filterMap_congr fun s hs => ?_
    exact List.mem_zipIdx_iff_getElem?.mp (List.mem_filter.mp hs).1
  rw [hfound, List.pairwise_map]
  exact pairwise_named (f := id) (by simpa using h) name

end Overloads

namespace Grammar

/-- Of the known functions, any two can be told apart, and every name stands for all functions of this name. -/
structure Env.Known (r : Registry) (env : Env) : Prop extends env.Early r where
  apart : env.signatures.Pairwise Signature.Apart
  symbols : ∀ name, env.scopes.lookup name =
    if overloadsOf env.signatures name = [] then none else some (.function (overloadsOf env.signatures name))

theorem Env.Known.initial (r : Registry) : (Env.initial r).Known r :=
  { Env.Early.initial r with
    apart := .nil
    symbols := fun _ => rfl }

/-- Known functions are known by other numbers where they stand in another order. -/
theorem Env.Known.renumbers {r : Registry} {env env' : Env} (h : env.Known r) (h' : env'.Known r) {ρ : Equiv.Perm Nat}
    (hρ : ∀ i, env'.signatures[ρ i]? = env.signatures[i]?) : env.Renumbers ρ env' where
  registry := h'.registry.trans h.registry.symm
  signatures := hρ
  symbols name := by
    have hperm := overloadsOf_perm hρ name
    rw [h.symbols, h'.symbols]
    by_cases hnone : overloadsOf env.signatures name = []
    · rw [hnone, List.map_nil, List.perm_nil] at hperm
      rw [if_pos hnone, if_pos hperm]
      exact .none
    · have hsome : overloadsOf env'.signatures name ≠ [] := by
        intro hnil
        rw [hnil] at hperm
        exact hnone (List.map_eq_nil_iff.mp (List.nil_perm.mp hperm))
      rw [if_neg hnone, if_neg hsome]
      exact .some (.function hperm)
  apart name overloads hlookup := by
    rw [h.symbols] at hlookup
    split at hlookup
    · cases hlookup
    · cases hlookup
      exact pairwise_overloadsOf h.apart name
  breakables := h'.breakables.trans h.breakables.symm
  returns := h'.returns.trans h.returns.symm

section Declaring

variable {r : Registry} {env env' : Env} {signature : Signature} {position : Position}

theorem addOverload_cons (name : String) (index : Nat) (entry : String × Symbol) (scope : Scope) :
    ∃ symbol, Scopes.addOverload name index (entry :: scope) = (entry.1, symbol) :: Scopes.addOverload name index scope ∧
      ∀ overloads, entry.2 = .function overloads →
        symbol = .function (if entry.1 = name then overloads ++ [index] else overloads) := by
  obtain ⟨other, symbol⟩ := entry
  cases symbol with
  | function overloads => exact ⟨_, rfl, fun _ heq => by cases heq; rfl⟩
  | _ => exact ⟨_, rfl, fun _ heq => by cases heq⟩

theorem lookup_addOverload_none {scope : Scope} {other : String} (h : scope.lookup other = none) (name : String)
    (index : Nat) : (Scopes.addOverload name index scope).lookup other = none := by
  induction scope with
  | nil => rfl
  | cons entry scope ih =>
    obtain ⟨symbol, heq, -⟩ := addOverload_cons name index entry scope
    obtain ⟨key, old⟩ := entry
    rw [heq, List.lookup_cons]
    rw [List.lookup_cons] at h
    split at h
    · cases h
    · next hkey => simpa [hkey] using ih h

theorem lookup_addOverload_function {scope : Scope} {other : String} {overloads : List Nat}
    (h : scope.lookup other = some (.function overloads)) (name : String) (index : Nat) :
    (Scopes.addOverload name index scope).lookup other =
      some (.function (if other = name then overloads ++ [index] else overloads)) := by
  induction scope with
  | nil => cases h
  | cons entry scope ih =>
    obtain ⟨symbol, heq, hsymbol⟩ := addOverload_cons name index entry scope
    obtain ⟨key, old⟩ := entry
    rw [heq, List.lookup_cons]
    rw [List.lookup_cons] at h
    split at h
    · next hkey =>
      cases h
      rw [hsymbol overloads rfl]
      simp [beq_iff_eq.mp hkey]
    · next hkey => simpa [hkey] using ih h

theorem any_eq_false_iff {signatures : List Signature} :
    (signatures.any fun s => s.name = signature.name && s.sameParameters signature) = false ↔
      ∀ s ∈ signatures, s.Apart signature := by
  simp [Signature.Apart, Signature.sameParameters]

/-- The name of a new function stands for one function more, and the other names for what they stood for. -/
theorem Env.Known.exists_scopes (h : env.Known r) (signature : Signature) :
    ∃ scopes, env.scopes.declareFunction signature.name env.signatures.length = .ok scopes ∧
      ∀ name, scopes.lookup name = if overloadsOf (env.signatures ++ [signature]) name = [] then none
        else some (.function (overloadsOf (env.signatures ++ [signature]) name)) := by
  have hlookup : ∀ name, env.scopes.inner.lookup name = env.scopes.lookup name := by
    simp [Scopes.lookup, Scopes.lookupIn, h.outer]
  have houtermost : env.scopes.outermost = env.scopes.inner := by simp [Scopes.outermost, h.outer]
  simp only [overloadsOf_append_singleton]
  by_cases hnone : overloadsOf env.signatures signature.name = []
  · have hfree : env.scopes.lookup signature.name = none := by rw [h.symbols, if_pos hnone]
    refine ⟨env.scopes.insert signature.name (.function [env.signatures.length]), ?_, fun name => ?_⟩
    · simp [Scopes.declareFunction, Scopes.declare, houtermost, hlookup, hfree]
    · rw [Scopes.lookup_insert, h.symbols]
      by_cases hname : name = signature.name
      · simp [hname, hnone]
      · simp [hname, Ne.symm hname]
  · have hbound : env.scopes.lookup signature.name = some (.function (overloadsOf env.signatures signature.name)) := by
      rw [h.symbols, if_neg hnone]
    refine ⟨{ env.scopes with inner := Scopes.addOverload signature.name env.signatures.length env.scopes.inner }, ?_,
      fun name => ?_⟩
    · simp [Scopes.declareFunction, Scopes.setOutermost, houtermost, hlookup, hbound, h.outer]
    · simp only [Scopes.lookup, Scopes.lookupIn, h.outer, Option.or_none]
      by_cases hempty : overloadsOf env.signatures name = []
      · have hname : signature.name ≠ name := by
          rintro rfl
          exact hnone hempty
        have hfree : env.scopes.inner.lookup name = none := by rw [hlookup, h.symbols, if_pos hempty]
        rw [lookup_addOverload_none hfree, hempty, if_neg hname, List.append_nil, if_pos rfl]
      · have hname : env.scopes.inner.lookup name = some (.function (overloadsOf env.signatures name)) := by
          rw [hlookup, h.symbols, if_neg hempty]
        rw [lookup_addOverload_function hname]
        by_cases heq : name = signature.name
        · simp [heq]
        · simp [heq, Ne.symm heq, hempty]

theorem Env.Known.declareFunction (h : env.Known r) (hapart : ∀ s ∈ env.signatures, s.Apart signature)
    (position : Position) :
    ∃ env', Grammar.declareFunction env signature position = .ok env' ∧ env'.Known r ∧
      env'.signatures = env.signatures ++ [signature] := by
  have hpairwise : (env.signatures ++ [signature]).Pairwise Signature.Apart :=
    List.pairwise_append.mpr ⟨h.apart, List.pairwise_singleton _ _, by simpa using hapart⟩
  obtain ⟨scopes, hdeclare, hscopes⟩ := h.exists_scopes signature
  have hok : Grammar.declareFunction env signature position =
      .ok { env with scopes := scopes, signatures := env.signatures ++ [signature] } := by
    simp [Grammar.declareFunction, any_eq_false_iff.mpr hapart, hdeclare]
  obtain ⟨hearly, hsignatures⟩ := h.toEarly.declareFunction hok
  exact ⟨_, hok, { hearly with apart := hpairwise, symbols := hscopes }, hsignatures⟩

theorem apart_of_declareFunction (hok : declareFunction env signature position = .ok env') :
    ∀ s ∈ env.signatures, s.Apart signature := by
  unfold declareFunction at hok
  split at hok
  · cases hok
  · next hany => exact any_eq_false_iff.mp (Bool.eq_false_iff.mpr hany)

theorem Env.Known.declareFunctions (h : env.Known r) {found : List Item}
    (hapart : (env.signatures ++ Item.signatures found).Pairwise Signature.Apart) :
    ∃ env', Grammar.declareFunctions env found = .ok env' ∧ env'.Known r ∧
      env'.signatures = env.signatures ++ Item.signatures found := by
  induction found generalizing env with
  | nil => exact ⟨env, rfl, h, by simp [Item.signatures]⟩
  | cons item found ih =>
    cases item with
    | declaration tokens => exact ih h hapart
    | function signature body position =>
      have hsplit : env.signatures ++ Item.signatures (.function signature body position :: found) =
          env.signatures ++ [signature] ++ Item.signatures found := by simp [Item.signatures]
      rw [hsplit] at hapart ⊢
      have hfirst := (List.pairwise_append.mp (List.pairwise_append.mp hapart).1).2.2
      obtain ⟨middle, hmiddle, hknown, hsignatures⟩ :=
        h.declareFunction (fun s hs => hfirst s hs signature (by simp)) position
      rw [← hsignatures] at hapart ⊢
      obtain ⟨last, hlast, hall⟩ := ih hknown hapart
      refine ⟨last, ?_, hall⟩
      rw [Grammar.declareFunctions, hmiddle]
      exact hlast

theorem Env.Known.of_declareFunctions (h : env.Known r) {found : List Item}
    (hok : Grammar.declareFunctions env found = .ok env') :
    env'.Known r ∧ env'.signatures = env.signatures ++ Item.signatures found := by
  induction found generalizing env with
  | nil =>
    cases hok
    exact ⟨h, by simp [Item.signatures]⟩
  | cons item found ih =>
    cases item with
    | declaration tokens => exact ih h hok
    | function signature body position =>
      obtain ⟨middle, hmiddle, hrest⟩ := exists_ok_of_bind hok
      obtain ⟨known, hknown, hmore, hsignatures⟩ :=
        h.declareFunction (apart_of_declareFunction hmiddle) position
      rw [hmiddle] at hknown
      cases hknown
      obtain ⟨hlast, hall⟩ := ih hmore hrest
      refine ⟨hlast, ?_⟩
      rw [hall, hsignatures]
      simp [Item.signatures]

end Declaring

end Grammar

end Scriptlet
