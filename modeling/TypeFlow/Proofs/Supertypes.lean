import TypeFlow.Proofs.Monotonicity
import TypeFlow.Proofs.Simulation

/-!
# Unions are supertypes

Types and the types that they lie below are related by a simulation: the expansions are in the same
order, and so are the components that are compared. Since comparisons end, both sides of a union are
subtypes of it, whatever the typedefs and classes of the program are. Payloads for methods are left
out, since their arguments are compared the other way round but joined like all other components.
-/

namespace TypeFlow

open Ty

namespace Ty

variable {table : DeclTable} {a b : Ty}

/-- Types that lie below each other pass the comparison at every level. -/
theorem below_isSimulation (htable : table.WellFormed) :
    IsSimulation table fun t u => t.WellFormed ∧ u.WellFormed ∧ t.Below u := by
  rintro a b ⟨ha, hb, h⟩
  by_cases hnever : a.isNever
  · exact .inl hnever
  refine .inr ⟨?_, fun tag htag => .inl ?_⟩
  · obtain ⟨tag, htag⟩ := isNever_eq_false_iff.mp (Bool.eq_false_iff.mpr hnever)
    exact isNever_eq_false_iff.mpr ⟨tag, h.mem htag⟩
  · have ha' := ha.expand htable
    refine (h.expand htable ha hb).tagCoveredBy ha' (hb.expand htable) htag ?_
    exact fun p hp t ht u hu htu => ⟨(ha'.payload hp).nested t ht, hu, htu⟩

/-- A type is a subtype of the types that it lies below. -/
theorem subtype_of_below (htable : table.WellFormed)
    (hmethods : ∀ e ∈ table.expansions, e.2.MethodFree) (ha : a.WellFormed) (hb : b.WellFormed)
    (hfree : a.MethodFree) (h : a.Below b) : a.subtype table b :=
  subtype_of_simulation htable hmethods (below_isSimulation htable) ⟨ha, hb, h⟩ ha hb hfree

end Ty

/-- The union is an upper bound in the order of subtyping: in every program, two well-formed types
without payloads for methods are subtypes of their union. -/
theorem subtype_union (source : Source) {a b : Ty} (ha : a.WellFormed) (hb : b.WellFormed)
    (hafree : a.MethodFree) (hbfree : b.MethodFree) :
    a.subtype source.program.table (a.union b) = true ∧
      b.subtype source.program.table (a.union b) = true := by
  have hunion := ha.union hb
  have htable := source.program_table_wellFormed
  have hmethods := source.program_table_methodFree
  exact ⟨subtype_of_below htable hmethods ha hunion hafree (below_union_left ha hb),
    subtype_of_below htable hmethods hb hunion hbfree (below_union_right ha hb)⟩

/-- Two classes that inherit from each other, and two typedefs that refer to each other. -/
def tangled : Source :=
  .ofItems [.cls () "A" (some (.ofDotted "B")) [], .cls () "B" (some (.ofDotted "A")) [],
    .synonym () "Node" ⟨(), [.ofName "A", .ofArgs "Array" [["Link"]]]⟩,
    .synonym () "Link" ⟨(), [.ofName "B", .ofArgs "Dictionary" [["String"], ["Node"]]]⟩]

/-- The union of the nodes with dictionaries of pairs of nodes and links is a subtype of neither. -/
theorem subtype_union_tangled :
    let table := tangled.program.table
    let node := exact (.synonym (.one 3))
    let link := exact (.synonym (.one 4))
    let rows := dictionary (.exact (.string "key")) (.tuple [node, link])
    table.isSubclass 1 2 = true ∧ table.isSubclass 2 1 = true ∧
      node.subtype table (node.union rows) = true ∧ rows.subtype table (node.union rows) = true ∧
      (node.union rows).subtype table node = false ∧
      (node.union rows).subtype table rows = false := by
  intro table node link rows
  have hnode : node.WellFormed ∧ node.MethodFree := by decide +kernel
  have hrows : rows.WellFormed ∧ rows.MethodFree := by decide +kernel
  obtain ⟨hleft, hright⟩ := subtype_union tangled hnode.1 hrows.1 hnode.2 hrows.2
  exact ⟨by decide +kernel, by decide +kernel, hleft, hright, by decide +kernel, by decide +kernel⟩

end TypeFlow
