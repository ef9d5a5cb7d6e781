import TypeFlow.Proofs.Convergence
import TypeFlow.Proofs.WideningClosure

/-!
# Merges are stable joins

The merge of two states speaks about the identities that both of them mention, and gives each a type
that has the types of both states as subtypes and is nested no deeper than allowed. Widening only
moves types up in the order of unions, so it cannot undo what a union has added: the merge of the
same state a second time has nothing to change.
-/

namespace TypeFlow

open NumMap Option

namespace TypeState

variable {depth : Nat} {into other : TypeState} {k : Key} {m : Ty}

/-- A merge mentions what both states mention. -/
theorem contains_merge (depth : Nat) (into other : TypeState) (k : Key) :
    (into.merge depth other).contains k = (into.contains k && other.contains k) := by
  simp only [contains_eq_isSome, get?_merge]
  cases into.get? k <;> cases other.get? k <;> rfl

/-- The types of a merge are not nested deeper than the merge allows. -/
theorem depth_le_of_merge (hm : (into.merge depth other).get? k = some m) : m.depth ≤ depth := by
  rw [get?_merge] at hm
  obtain ⟨t, -, hm⟩ := bind_eq_some_iff.mp hm
  obtain ⟨u, -, rfl⟩ := map_eq_some_iff.mp hm
  exact Ty.depth_widen_le depth _

/-- Merging the same state a second time changes nothing. -/
theorem mergeChanges_merge (hinto : into.WellFormed) (hother : other.WellFormed) :
    (into.merge depth other).mergeChanges depth other = false := by
  refine mergeChanges_eq_false_iff.mpr fun k m hm => ?_
  obtain ⟨u, hu, hbelow⟩ := (merge_absorbs hinto hother depth).2 k m hm
  have hwell := hinto.merge hother depth k m hm
  exact ⟨u, hu, (Ty.WellFormed.union_comm hwell (hother k u hu)).trans hbelow,
    Ty.widen_eq_self_iff.mpr (depth_le_of_merge hm)⟩

end TypeState

open TypeState in
/-- Merging is a stable join: of well-formed states without payloads for methods, the merge mentions
the common identities, with types that are supertypes of both and not nested too deeply. It reports
a change exactly when there is one, and a second merge of the same state reports none. -/
theorem merge_stable_join (source : Source) (depth : Nat) {into other : TypeState}
    (hinto : ∀ k t, into.get? k = some t → t.WellFormed ∧ t.MethodFree)
    (hother : ∀ k u, other.get? k = some u → u.WellFormed ∧ u.MethodFree) :
    let table := source.program.table
    let merged := into.merge depth other
    (∀ k, merged.contains k = true ↔ into.contains k = true ∧ other.contains k = true) ∧
      (∀ k m, merged.get? k = some m → ∃ t u, into.get? k = some t ∧ other.get? k = some u ∧
        t.subtype table m = true ∧ u.subtype table m = true ∧ m.depth ≤ depth) ∧
      (into.mergeChanges depth other = true ↔ merged ≠ into) ∧
      merged.mergeChanges depth other = false := by
  intro table merged
  have hinto' : into.WellFormed := fun k t ht => (hinto k t ht).1
  have hother' : other.WellFormed := fun k u hu => (hother k u hu).1
  have habove {k : Key} {t m : Ty} (ht : t.WellFormed ∧ t.MethodFree)
      (hm : merged.get? k = some m) (hbelow : t.Below m) : t.subtype table m = true :=
    Ty.subtype_of_below source.program_table_wellFormed source.program_table_methodFree ht.1
      (hinto'.merge hother' depth k m hm) ht.2 hbelow
  refine ⟨fun k => ?_, fun k m hm => ?_, ?_, mergeChanges_merge hinto' hother'⟩
  · rw [contains_merge, Bool.and_eq_true]
  · obtain ⟨habsorbs, habsorbs'⟩ := merge_absorbs hinto' hother' depth
    obtain ⟨t, ht, htm⟩ := habsorbs k m hm
    obtain ⟨u, hu, hum⟩ := habsorbs' k m hm
    exact ⟨t, u, ht, hu, habove (hinto k t ht) hm htm, habove (hother k u hu) hm hum,
      depth_le_of_merge hm⟩
  · rw [← Bool.not_eq_false, Ne, mergeChanges_eq_false_iff_merge_eq]

/-- Lists of nodes, nested three times, are merged with a list of links: the innermost lists lose
their elements, and the identity that only one state mentions is lost. -/
theorem merge_stable_join_tangled :
    let table := tangled.program.table
    let node := Ty.exact (.synonym (.one 3))
    let link := Ty.exact (.synonym (.one 4))
    let into : TypeState := (empty.insert 1 (nestedArrays node 3)).insert 2 node
    let other : TypeState := empty.insert 1 (nestedArrays link 1)
    let joined := Ty.array (link.union (.array (.ofTags (.single .array))))
    (into.merge 2 other).entries = [(1, joined)] ∧ joined.depth = 2 ∧
      (nestedArrays node 3).subtype table joined = true ∧
      (nestedArrays link 1).subtype table joined = true ∧
      into.mergeChanges 2 other = true ∧
      (into.merge 2 other).mergeChanges 2 other = false := by
  intro table node link into other joined
  have hinto : ∀ k t, into.get? k = some t → t.WellFormed ∧ t.MethodFree := by decide +kernel
  have hother : ∀ k u, other.get? k = some u → u.WellFormed ∧ u.MethodFree := by decide +kernel
  obtain ⟨-, htypes, hchanges, hsecond⟩ := merge_stable_join tangled 2 hinto hother
  have hentries : (into.merge 2 other).entries = [(1, joined)] := by decide +kernel
  obtain ⟨t, u, ht, hu, hleft, hright, -⟩ := htypes 1 joined (by decide +kernel)
  obtain rfl : nestedArrays node 3 = t := some.inj ht
  obtain rfl : nestedArrays link 1 = u := some.inj hu
  refine ⟨hentries, by decide +kernel, hleft, hright, hchanges.mpr fun heq => ?_, hsecond⟩
  exact absurd (heq ▸ hentries) (by decide +kernel)

end TypeFlow
