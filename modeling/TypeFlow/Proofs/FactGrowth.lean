import TypeFlow.Proofs.Monotonicity
import TypeFlow.Proofs.PublishedFacts
import TypeFlow.Proofs.Subtyping

/-!
# Facts lose nothing

A fact is left as it is when the type that is written is a subtype of it, and is enlarged and
widened otherwise. Either way it then has the values of the type and still has those that it had
before. This is a property of values: that a type once was a subtype of a fact says little about
later subtype tests, since these look at the form of the types.
-/

namespace TypeFlow

open Facts

/-- What a fact is about: a variable or the result of a function. -/
inductive Subject where
  | var (d : DeclId)
  | result (d : DeclId)
  deriving DecidableEq

namespace Facts

/-- The fact about a subject. -/
def fact? (facts : Facts) : Subject → Option Ty
  | .var d => facts.vars.get? d
  | .result d => facts.returns.get? d

/-- Writes a type into the fact about a subject. -/
def grow (table : DeclTable) (depth : Nat) (facts : Facts) : Subject → Ty → Facts × Growth
  | .var d, t => facts.growVar table depth d t
  | .result d, t => facts.growReturn table depth d t

/-- The facts after a sequence of writes. -/
def growAll (table : DeclTable) (depth : Nat) (facts : Facts) (writes : List (Subject × Ty)) :
    Facts :=
  writes.foldl (fun facts write => (facts.grow table depth write.1 write.2).1) facts

variable {table : DeclTable} {depth : Nat} {facts : Facts} {s : Subject} {t u : Ty}
  {old : Option Ty} {v : Value} {strict : Demands}

theorem ext_fact? {others : Facts} (h : ∀ s, facts.fact? s = others.fact? s) : facts = others := by
  have hvars := NumMap.ext_get? fun d => h (.var d)
  have hreturns := NumMap.ext_get? fun d => h (.result d)
  exact congrArg₂ mk hvars hreturns

theorem wellFormed_iff : facts.WellFormed ↔ ∀ s u, facts.fact? s = some u → u.WellFormed := by
  constructor
  · rintro ⟨hvars, hreturns⟩ s u hu
    cases s with
    | var d => exact hvars d u hu
    | result d => exact hreturns d u hu
  · exact fun h => ⟨fun d => h (.var d), fun d => h (.result d)⟩

/-- A write concerns no fact but its own. -/
theorem fact?_grow (facts : Facts) (s other : Subject) (t : Ty) :
    (facts.grow table depth s t).1.fact? other =
      if other = s then some (grown table depth (facts.fact? s) t).1 else facts.fact? other := by
  cases s <;> cases other <;> simp [grow, growVar, growReturn, fact?]

/-- A fact that is reported as unchanged is the fact that was there. -/
theorem eq_of_grown_unchanged (h : (grown table depth old t).2 = .unchanged) :
    old = some (grown table depth old t).1 := by
  cases old with
  | none => cases h
  | some u =>
    rw [grown_some] at h ⊢
    split at h
    · next hsub => rw [if_pos hsub]
    · split at h <;> cases h

theorem eq_of_grow_unchanged (h : (facts.grow table depth s t).2 = .unchanged) :
    (facts.grow table depth s t).1 = facts := by
  have hfact : facts.fact? s = some (grown table depth (facts.fact? s) t).1 := by
    refine eq_of_grown_unchanged ?_
    cases s <;> exact h
  refine ext_fact? fun other => ?_
  rw [fact?_grow]
  split
  · next heq => rw [heq, ← hfact]
  · rfl

/-! ### One write -/

/-- All facts are formed. -/
def Formed (strict : Demands) (facts : Facts) : Prop :=
  ∀ s u, facts.fact? s = some u → u.Formed strict

theorem Formed.empty : Formed strict {} := by
  intro s u hu
  cases s <;> cases hu

theorem grown_formed (hold : ∀ u, old = some u → u.Formed strict) (ht : t.Formed strict) :
    (grown table depth old t).1.Formed strict := by
  cases old with
  | none => exact ((Ty.Formed.ofTags _).union ht).widen depth
  | some u =>
    have hu := hold u rfl
    rw [grown_some]
    split
    · exact hu
    · exact (hu.union ht).widen depth

theorem Formed.grow (hfacts : facts.Formed strict) (s : Subject) (ht : t.Formed strict) :
    (facts.grow table depth s t).1.Formed strict := by
  intro other u hu
  rw [fact?_grow] at hu
  split at hu
  · exact Option.some.inj hu ▸ grown_formed (hfacts s) ht
  · exact hfacts other u hu

theorem grow_wellFormed (hfacts : facts.WellFormed) (ht : t.WellFormed) :
    (facts.grow table depth s t).1.WellFormed :=
  wellFormed_iff.mpr (Formed.grow (wellFormed_iff.mp hfacts) s ht)

/-- The value belongs to the fact about a subject. -/
def Holds (table : DeclTable) (facts : Facts) (s : Subject) (v : Value) : Prop :=
  ∃ u, facts.fact? s = some u ∧ v.Inhabits table u

section

variable (htable : table.WellFormed) (hexpanded : table.Expanded) {writes : List (Subject × Ty)}

include htable hexpanded

/-- The union of two types, widened, has all their values. -/
theorem inhabits_widen_union (hu : u.WellFormed) (ht : t.WellFormed) (depth : Nat)
    (hv : v.Inhabits table u ∨ v.Inhabits table t) :
    v.Inhabits table ((u.union t).widen depth) := by
  have hunion := hu.union ht
  have hwiden := hunion.widen depth
  have hboth : v.Inhabits table (u.union t) := by
    rcases hv with hv | hv
    · exact hv.of_below htable hexpanded hu hunion (Ty.below_union_left hu ht)
    · exact hv.of_below htable hexpanded ht hunion (Ty.below_union_right hu ht)
  exact hboth.of_below htable hexpanded hunion hwiden (Ty.below_widen hunion depth)

/-- A fact has the values of the type that is written. -/
theorem inhabits_grown (hold : ∀ u, old = some u → u.WellFormed) (ht : t.WellFormed)
    (hv : v.Inhabits table t) : v.Inhabits table (grown table depth old t).1 := by
  cases old with
  | none => exact inhabits_widen_union htable hexpanded .never ht depth (.inr hv)
  | some u =>
    rw [grown_some]
    split
    · next hsub => exact Ty.inhabits_of_subtype hexpanded hsub hv
    · exact inhabits_widen_union htable hexpanded (hold u rfl) ht depth (.inr hv)

/-- A fact has the values that it had before. -/
theorem inhabits_grown_of_old (hu : u.WellFormed) (ht : t.WellFormed) (hv : v.Inhabits table u) :
    v.Inhabits table (grown table depth (some u) t).1 := by
  rw [grown_some]
  split
  · exact hv
  · exact inhabits_widen_union htable hexpanded hu ht depth (.inl hv)

theorem holds_grow (hfacts : facts.WellFormed) (ht : t.WellFormed) (hv : v.Inhabits table t) :
    (facts.grow table depth s t).1.Holds table s v := by
  refine ⟨(grown table depth (facts.fact? s) t).1, by rw [fact?_grow, if_pos rfl], ?_⟩
  exact inhabits_grown htable hexpanded (wellFormed_iff.mp hfacts s) ht hv

theorem Holds.grow (h : facts.Holds table s v) (hfacts : facts.WellFormed) (other : Subject)
    (ht : t.WellFormed) : (facts.grow table depth other t).1.Holds table s v := by
  obtain ⟨u, hu, hv⟩ := h
  by_cases hs : s = other
  · subst hs
    refine ⟨(grown table depth (facts.fact? s) t).1, by rw [fact?_grow, if_pos rfl], ?_⟩
    rw [hu]
    exact inhabits_grown_of_old htable hexpanded (wellFormed_iff.mp hfacts s u hu) ht hv
  · exact ⟨u, by rw [fact?_grow, if_neg hs, hu], hv⟩

/-! ### Many writes -/

/-- Values are kept by any number of writes. -/
theorem Holds.growAll (h : facts.Holds table s v) (hfacts : facts.WellFormed)
    (hwrites : ∀ write ∈ writes, write.2.WellFormed) :
    (facts.growAll table depth writes).Holds table s v := by
  induction writes generalizing facts with
  | nil => exact h
  | cons write writes ih =>
    rw [List.forall_mem_cons] at hwrites
    exact ih (h.grow htable hexpanded hfacts write.1 hwrites.1) (grow_wellFormed hfacts hwrites.1)
      hwrites.2

/-- Values of each type that is written are in the fact about its subject at the end. -/
theorem holds_growAll (hfacts : facts.WellFormed) (hwrites : ∀ write ∈ writes, write.2.WellFormed)
    {write : Subject × Ty} (hmem : write ∈ writes) (hv : v.Inhabits table write.2) :
    (facts.growAll table depth writes).Holds table write.1 v := by
  induction writes generalizing facts with
  | nil => cases hmem
  | cons first writes ih =>
    rw [List.forall_mem_cons] at hwrites
    have hnext : (facts.grow table depth first.1 first.2).1.WellFormed :=
      grow_wellFormed hfacts hwrites.1
    rcases List.mem_cons.mp hmem with rfl | hmem
    · have hfirst : (facts.grow table depth write.1 write.2).1.Holds table write.1 v :=
        holds_grow htable hexpanded hfacts hwrites.1 hv
      exact hfirst.growAll htable hexpanded hnext hwrites.2
    · exact ih hnext hwrites.2 hmem

end

end Facts

/-- Facts lose nothing: in every program and at every depth of widening, after any sequence of
writes to variables and results, the fact about a subject has all values of all types that were
written to it; and a write that is reported to change nothing leaves all facts as they are. -/
theorem grow_keeps_values (source : Source) (depth : Nat) {facts : Facts}
    (hfacts : facts.WellFormed) {writes : List (Subject × Ty)}
    (hwrites : ∀ write ∈ writes, write.2.WellFormed) :
    (∀ write ∈ writes, ∀ v : Value, v.Inhabits source.program.table write.2 →
      ∃ u, (facts.growAll source.program.table depth writes).fact? write.1 = some u ∧
        v.Inhabits source.program.table u) ∧
    ∀ (others : Facts) (s : Subject) (t : Ty),
      (others.grow source.program.table depth s t).2 = .unchanged →
        (others.grow source.program.table depth s t).1 = others := by
  refine ⟨fun write hwrite v hv => ?_, fun others s t => eq_of_grow_unchanged⟩
  exact holds_growAll source.program_table_wellFormed source.program_table_expanded hfacts
    hwrites hwrite hv

/-- A variable to which forests, trees and a string are written: the trees change nothing, and the
tree `[7]` is a value of the fact at the end. -/
theorem grow_keeps_values_nestedLists :
    let table := nestedLists.program.table
    let tree := Ty.exact (.synonym (.one 1))
    let forest := Ty.exact (.synonym (.one 2))
    let forests := (mk {} {}).growAll table 1 [(.var 3, forest)]
    let v := Value.array [.scalar (.number 7)]
    (forests.grow table 1 (.var 3) tree).2 = .unchanged ∧
      (forests.grow table 1 (.var 3) tree).1 = forests ∧
      ∃ u, (forests.growAll table 1 [(.var 3, tree), (.var 3, .exact (.string "a"))]).fact?
        (.var 3) = some u ∧ u ≠ forest ∧ v.Inhabits table u := by
  intro table tree forest forests v
  have hforests : forests.WellFormed := ⟨by decide +kernel, by decide +kernel⟩
  have hunchanged : (forests.grow table 1 (.var 3) tree).2 = .unchanged := by decide +kernel
  have hv : v.Inhabits table tree := nestedLists_tree.2 _ (by simpa using nestedLists_tree.1 7)
  have hwrites : ∀ write ∈ [(Subject.var 3, tree), (.var 3, .exact (.string "a"))],
      write.2.WellFormed := by decide +kernel
  obtain ⟨hkept, hsame⟩ := grow_keeps_values nestedLists 1 hforests hwrites
  obtain ⟨u, hu, hvu⟩ := hkept (.var 3, tree) (by simp) v hv
  refine ⟨hunchanged, hsame forests (.var 3) tree hunchanged, u, hu, ?_, hvu⟩
  rintro rfl
  exact absurd hu (by decide +kernel)

end TypeFlow
