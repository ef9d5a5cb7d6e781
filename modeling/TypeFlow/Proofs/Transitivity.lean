import Mathlib.Logic.Relation
import TypeFlow.Proofs.Simulation

/-!
# Transitivity of subtyping

The unqualified object and the literals of members of an enumeration account for a tag only if the
larger type does not have the tag itself. So a chain of two subtypes may be broken by what the
largest type says about the tag besides: every number is an object, and every object is an object or
the number three, but a number need not be the number three for that.

Chains hold together as long as the largest type has no such payloads beside the unqualified object
and beside members of enumerations, and the members of enumerations of the smallest type stand for
literals. The two steps of a chain are then one simulation.
-/

namespace TypeFlow

open Relation Tags Ty

namespace Payload

variable {table : DeclTable} {R S : Ty → Ty → Prop} {p q r : Payload Ty}

/-- Literals are covered by themselves only. -/
theorem CoveredBy.eq_of_isValue (h : p.CoveredBy table R q) (hp : p.isValue) : q = p := by
  cases h with
  | value => rfl
  | _ => simp [isValue, tag, contains_valueTypes] at hp

theorem CoveredBy.eq_of_isValue_right (h : p.CoveredBy table R q) (hq : q.isValue) : p = q := by
  cases h with
  | value => rfl
  | _ => simp [isValue, tag, contains_valueTypes] at hq

private theorem forall₂_comp {ts us vs : List Ty} (h : List.Forall₂ R ts us)
    (h' : List.Forall₂ S us vs) : List.Forall₂ (Comp R S) ts vs := by
  induction h generalizing vs with
  | nil => cases h'; exact .nil
  | cons htu _ ih =>
    cases h' with
    | cons huv hrest => exact .cons ⟨_, htu, huv⟩ (ih hrest)

/-- Coverings of payloads compose. A payload in the middle that leaves the literals of members of an
enumeration open has to be met by the literals of the smallest one. -/
theorem CoveredBy.comp (h : p.CoveredBy table R q) (h' : q.CoveredBy table S r)
    (hliterals : ∀ d v, p = .enum d v → R (v.getD (.ofTags .enumValues)) (.ofTags .enumValues)) :
    p.CoveredBy table (Comp R S) r := by
  by_cases hq : q.isValue
  · obtain rfl : r = q := h'.eq_of_isValue hq
    obtain rfl : p = r := h.eq_of_isValue_right hq
    exact .value hq
  cases h <;> cases h'
  any_goals contradiction
  case elements.elements htu _ huv => exact .elements ⟨_, htu, huv⟩
  case slots.elements htu _ huv => exact .slots fun t ht => ⟨_, htu t ht, huv⟩
  case tuple.slots htu _ huv =>
    refine .slots fun t ht => ?_
    obtain ⟨i, hi, rfl⟩ := List.mem_iff_getElem.mp ht
    have hi' := htu.length_eq ▸ hi
    exact ⟨_, htu.get hi hi', huv _ (List.getElem_mem hi')⟩
  case tuple.tuple htu _ huv => exact .tuple (forall₂_comp htu huv)
  case dictionary.dictionary hkey hvalue _ _ hkey' hvalue' =>
    exact .dictionary ⟨_, hkey, hkey'⟩ ⟨_, hvalue, hvalue'⟩
  case method.method => exact .method ..
  case module.module hd _ he => exact .module fun d h => he d (hd d h)
  case function.function hd _ he => exact .function fun d h => he d (hd d h)
  case cls.cls hd _ he => exact .cls fun d h => he d (hd d h)
  case synonym.synonym hd _ he => exact .synonym fun d h => he d (hd d h)
  case object.object hclasses hshape _ _ hclasses' hshape' =>
    refine .object ?_ ?_
    · intro c hc
      obtain ⟨d, hd, hcd⟩ := hclasses c hc
      obtain ⟨e, he, hde⟩ := hclasses' d hd
      exact ⟨e, he, DeclTable.isSubclass_trans hcd hde⟩
    · intro hs hhs
      obtain ⟨gs, hgs, hfields'⟩ := hshape' hs hhs
      obtain ⟨fs, hfs, hfields⟩ := hshape gs hgs
      refine ⟨fs, hfs, fun e he => ?_⟩
      obtain ⟨u, hu, hue⟩ := hfields' e he
      obtain ⟨t, ht, htu⟩ := hfields (e.1, u) (mem_of_lookup hu)
      exact ⟨t, ht, u, htu, hue⟩
  case enum.enum d e v w hdecl hvalue _ _ hdecl' hvalue' =>
    refine .enum ?_ fun u hu => ?_
    · rcases hdecl' with hnone | rfl
      · exact .inl hnone
      · exact hdecl
    · cases w with
      | none => exact ⟨_, hliterals d v rfl, hvalue' u hu⟩
      | some x => exact ⟨x, hvalue x rfl, hvalue' u hu⟩

end Payload

namespace Ty

variable {table : DeclTable} {R : Ty → Ty → Prop} {a b c t : Ty}

/-! ### One level of a chain -/

/-- Only the unqualified object accounts for the unqualified object. -/
theorem StrictlyCoveredBy.isPlainObject (h : a.StrictlyCoveredBy table R b)
    (ha : a.isPlainObject) : b.isPlainObject := by
  obtain ⟨hmem, hnone⟩ := isPlainObject_iff.mp ha
  rcases h .object hmem with ⟨hmem', hcover⟩ | ⟨-, ⟨hplain, -⟩ | ⟨henum, -⟩⟩
  · refine isPlainObject_iff.mpr ⟨hmem', Option.eq_none_iff_forall_not_mem.mpr fun q hq => ?_⟩
    obtain ⟨p, hp, -⟩ := hcover q hq
    simp [hnone] at hp
  · exact hplain
  · cases henum

/-- What accounts for a literal is a kind of literal or the unqualified object. -/
theorem StrictlyCoveredBy.literal (h : a.StrictlyCoveredBy table R b) {tag : Tag}
    (htag : tag ∈ a.tags) (hliteral : tag ∈ enumValues) :
    tag ∈ b.tags ∨ b.isPlainObject := by
  rcases h tag htag with ⟨hmem, -⟩ | ⟨-, ⟨hplain, -⟩ | ⟨rfl, -⟩⟩
  · exact .inl hmem
  · exact .inr hplain
  · exact absurd hliteral (by decide)

/-- Literals are among all literals. -/
theorem IsLiteral.simulated (h : t.IsLiteral) : Simulated table t (ofTags .enumValues) := by
  refine Compared.simulated (.inr ⟨isLiteral_enumValues.isNever_eq_false, fun tag htag => .inl ?_⟩)
  rw [h.expand_eq] at htag
  rw [isLiteral_enumValues.expand_eq]
  exact ⟨h.tags tag htag, fun q hq => by simp [payload?, ofTags] at hq⟩

/-- A step up from a type whose members of enumerations stand for literals. -/
def LiteralBelow (table : DeclTable) (t u : Ty) : Prop :=
  Simulated table t u ∧ t.EveryLevel table LiteralEnum

/-- A step up to a type in which nothing competes with the unqualified object and with members of
enumerations. -/
def BelowLone (table : DeclTable) (t u : Ty) : Prop :=
  Simulated table t u ∧ u.EveryLevel table fun u => u.LoneObject ∧ u.LoneEnum

section

variable (htable : table.Expanded)

include htable

theorem literalBelow_isSimulation : IsSimulation table (LiteralBelow table) :=
  (Simulated.isSimulation table).and_left (.everyLevel htable _)
    (.ofTags (by decide) (literalEnum_ofTags _))

theorem belowLone_isSimulation : IsSimulation table (BelowLone table) :=
  (Simulated.isSimulation table).and_right (.everyLevel htable _)

end

/-- The literals of members of an enumeration are related wherever the members are. -/
theorem TagCoveredBy.enumValue (h : a.TagCoveredBy table R b .enum)
    (hliterals : R a.enumValue (ofTags .enumValues)) : R a.enumValue b.enumValue := by
  obtain ⟨-, hcover⟩ := h
  cases hq : b.payload? .enum with
  | none => rwa [enumValue_of_none hq]
  | some q =>
    obtain ⟨p, hp, hpq⟩ := hcover q hq
    obtain ⟨d, v, rfl, -, hv⟩ := exists_of_payload?_enum hp
    obtain ⟨e, w, rfl, -, hw⟩ := exists_of_payload?_enum hq
    rw [hv] at hliterals ⊢
    rw [hw]
    cases hpq with
    | value h => simp [Payload.isValue, Payload.tag, contains_valueTypes] at h
    | enum _ hvalue =>
      cases w with
      | none => exact hliterals
      | some u => exact hvalue u rfl

/-- If literals are accounted for through another type, a literal or the unqualified object does
that in the end. -/
theorem literal_of_simulated (ht : t.IsLiteral) (hb : b.Expanded) (h : Simulated table t b)
    (hbc : b.StrictlyCoveredBy table R c) :
    (∃ tag ∈ enumValues, tag ∈ c.tags) ∨ c.isPlainObject := by
  obtain ⟨tag, htag, hliteral⟩ := ht.exists_mem
  rcases Simulated.isSimulation table t b h with hnever | ⟨-, hcovered⟩
  · simp [ht.isNever_eq_false] at hnever
  rw [ht.expand_eq, hb.expand_eq] at hcovered
  rcases hcovered.literal htag hliteral with hmem | hplain
  · exact (hbc.literal hmem hliteral).imp_left fun hmem => ⟨tag, hliteral, hmem⟩
  · exact .inr (hbc.isPlainObject hplain)

/-- Two steps up are a simulation. -/
theorem comp_isSimulation (htable : table.Expanded) :
    IsSimulation table (Comp (LiteralBelow table) (BelowLone table)) := by
  rintro a c ⟨b, hab, hbc⟩
  have ha := hab.2
  obtain ⟨hobject, henum⟩ := hbc.2.level
  rcases literalBelow_isSimulation htable a b hab with hnever | ⟨hb_ne, hAB⟩
  · exact .inl hnever
  rcases belowLone_isSimulation htable b c hbc with hnever | ⟨hc_ne, hBC⟩
  · simp [hb_ne] at hnever
  have hliteral := ha.level
  have hliterals : LiteralBelow table (a.expand table).enumValue (ofTags .enumValues) :=
    ⟨hliteral.simulated, (Hereditary.everyLevel htable LiteralEnum).enumValue
      (.ofTags (by decide) (literalEnum_ofTags _)) ha⟩
  refine .inr ⟨hc_ne, fun tag htag => ?_⟩
  rcases hAB tag htag with hAB' | ⟨-, ⟨hplain, hlike⟩ | ⟨rfl, hvalue⟩⟩
  · -- The smallest type is compared with what the one in the middle says about the tag.
    rcases hBC tag hAB'.1 with ⟨hmem, hBC'⟩ | ⟨hnot, hplain | ⟨rfl, hvalue⟩⟩
    · refine .inl ⟨hmem, fun r hr => ?_⟩
      obtain ⟨q, hq, hqr⟩ := hBC' r hr
      obtain ⟨p, hp, hpq⟩ := hAB'.2 q hq
      refine ⟨p, hp, hpq.comp hqr fun d v hpe => ?_⟩
      subst hpe
      obtain rfl : tag = .enum := (payload?_tag hp).symm
      obtain ⟨d', v', heq, -, hv⟩ := exists_of_payload?_enum hp
      cases heq
      exact hv ▸ hliterals
    · exact .inr ⟨hnot, .inl hplain⟩
    · exact .inr ⟨hnot, .inr ⟨rfl, _, hAB'.enumValue hliterals, hvalue⟩⟩
  · -- The unqualified object is passed on, and there are no payloads beside it.
    have hplain' := hBC.isPlainObject hplain
    by_cases hmem : tag ∈ (c.expand table).tags
    · exact .inl ⟨hmem, by simp [hobject hplain' tag hlike]⟩
    · exact .inr ⟨hmem, .inl ⟨hplain', hlike⟩⟩
  · -- The literals are passed on, and there is no enumeration beside them.
    have hB := expand_expanded htable b
    have hreached := literal_of_simulated hliteral hB hvalue.1 hBC
    by_cases hmem : .enum ∈ (c.expand table).tags
    · refine .inl ⟨hmem, fun r hr => ?_⟩
      rcases hreached with ⟨tag, hliteral, hmem'⟩ | hplain
      · exact absurd hmem' (henum (by simp [hr]) tag hliteral)
      · simp [hobject hplain .enum (by decide)] at hr
    · refine .inr ⟨hmem, .inr ⟨rfl, _, hvalue, hbc.1.expand htable ?_, hbc.2.expand htable⟩⟩
      refine Bool.eq_false_iff.mpr fun hnever => ?_
      have hnone := isEmpty_iff.mp hnever
      rcases hreached with ⟨tag, -, hmem'⟩ | hplain
      · exact hnone tag hmem'
      · exact hnone .object (isPlainObject_iff.mp hplain).1

end Ty

/-- Subtyping is transitive: in every program, a chain of two subtypes holds together if members of
enumerations in the smallest type stand for literals, and nothing competes with the unqualified
object and with members of enumerations in the largest type. -/
theorem subtype_trans (source : Source) {a b c : Ty} (ha : a.WellFormed) (hb : b.WellFormed)
    (hc : c.WellFormed) (hafree : a.MethodFree) (hbfree : b.MethodFree)
    (hliteral : a.EveryLevel source.program.table Ty.LiteralEnum)
    (hlone : c.EveryLevel source.program.table fun u => u.LoneObject ∧ u.LoneEnum)
    (hab : a.subtype source.program.table b = true)
    (hbc : b.subtype source.program.table c = true) : a.subtype source.program.table c = true := by
  have htable := source.program_table_wellFormed
  have hmethods := source.program_table_methodFree
  rw [subtype_iff_simulated htable hmethods ha hb hafree] at hab
  rw [subtype_iff_simulated htable hmethods hb hc hbfree] at hbc
  have hsimulation := comp_isSimulation source.program_table_expanded
  exact subtype_of_simulation htable hmethods hsimulation ⟨b, ⟨hab, hliteral⟩, hbc, hlone⟩ ha hc
    hafree

/-- A pair of a tree and a member of an enumeration of numbers is an array of forests, and
those are arrays of objects and nulls. -/
theorem subtype_trans_nestedLists :
    let table := nestedLists.program.table
    let tree := exact (.synonym (.one 1))
    let forest := exact (.synonym (.one 2))
    let pair := tuple [tree, .enumeration none (some (.ofTags (.single .number)))]
    let forests := array forest
    let anything := array (.ofTags (.ofList [.null, .object]))
    pair.subtype table forests = true ∧ forests.subtype table anything = true ∧
      pair.subtype table anything = true ∧ anything.subtype table forests = false := by
  intro table tree forest pair forests anything
  have hab : pair.subtype table forests = true := by decide +kernel
  have hbc : forests.subtype table anything = true := by decide +kernel
  have hpair : pair.WellFormed ∧ pair.MethodFree := by decide +kernel
  have hliteral : pair.EveryLevel table Ty.LiteralEnum := .of_levels 2 (by decide +kernel)
  have hlone : anything.EveryLevel table fun u => u.LoneObject ∧ u.LoneEnum :=
    .of_levels 1 (by decide +kernel)
  exact ⟨hab, hbc, subtype_trans nestedLists hpair.1 (.array .ofDecls) (.array (.ofTags _))
    hpair.2 (.array .ofDecls) hliteral hlone hab hbc, by decide +kernel⟩

/-- Numbers are objects, and objects are objects or the number three, but numbers are neither. -/
theorem not_subtype_trans_object :
    let table := nestedLists.program.table
    let number := ofTags (.single .number)
    let object := ofTags (.single .object)
    let mixed := object.union (.exact (.number 3))
    (number.WellFormed ∧ object.WellFormed ∧ mixed.WellFormed) ∧
      (number.MethodFree ∧ object.MethodFree ∧ mixed.MethodFree) ∧
      number.subtype table object = true ∧ object.subtype table mixed = true ∧
      number.subtype table mixed = false := by decide +kernel

end TypeFlow
