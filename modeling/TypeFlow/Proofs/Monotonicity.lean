import TypeFlow.Proofs.Values

/-!
# Larger types have more values

If merging a payload into another one adds nothing, the other one covers it, component by component.
So a type that lies below another one is covered by it, as it stands and with typedefs expanded, and
its values are values of the larger type.
-/

namespace TypeFlow

open List Option Payload

namespace Ty

variable {table : DeclTable} {R : Ty → Ty → Prop} {a b : Ty} {p q : Payload Ty}

/-! ### Payloads -/

private theorem forall₂_of_zipWith {ts us : List Ty} (hlength : ts.length = us.length)
    (h : zipWith union ts us = us) (hR : ∀ t ∈ ts, ∀ u ∈ us, t.Below u → R t u) :
    Forall₂ R ts us := by
  induction ts generalizing us with
  | nil =>
    obtain rfl : us = [] := length_eq_zero_iff.mp hlength.symm
    exact .nil
  | cons t ts ih =>
    obtain ⟨u, us, rfl⟩ := exists_cons_of_length_eq_add_one hlength.symm
    rw [zipWith_cons_cons, cons.injEq] at h
    refine .cons (hR t mem_cons_self u mem_cons_self h.1) ?_
    refine ih (by simpa using hlength) h.2 ?_
    exact fun t ht u hu => hR t (mem_cons_of_mem _ ht) u (mem_cons_of_mem _ hu)

/-- A payload that a merge absorbs is covered. -/
theorem coveredBy_of_mergePayload (hp : p.Formed True)
    (hq : q.Formed True) (h : mergePayload union p q = some q)
    (hR : ∀ t ∈ p.components, ∀ u ∈ q.components, t.Below u → R t u) :
    p.CoveredBy table R q := by
  have hdecls {d e : DeclSet} (h : d.union e = e) : ∀ x ∈ d, x ∈ e := by
    intro x hx
    rw [← h]
    exact DeclSet.mem_union.mpr (.inl hx)
  obtain ⟨r, hr, hmerges⟩ : ∃ r, r = q ∧ Merges union p q r := ⟨q, rfl, merges_of_mergePayload h⟩
  cases hmerges with
  | value hvalue => exact .value hvalue
  | tuple hlength => exact .tuple (forall₂_of_zipWith hlength (tuple.inj hr) hR)
  | elements hptag hqtag =>
    cases q <;> simp [tag] at hqtag hr
    next u =>
    cases p <;> simp [tag] at hptag
    case elements t => exact .elements (hR t (by simp) u (by simp) hr)
    case tuple ts =>
      have hts : ∀ t ∈ ts, t.WellFormed := hp.nested
      have hbelow : (ts.foldl union never).Below u := hr
      rw [foldl_union_below_iff hts .never (hq.nested u (by simp))] at hbelow
      exact .slots fun t ht => hR t ht u (by simp) (hbelow.2 t ht)
  | dictionary k v k' v' =>
    injection hr with hk hv
    exact .dictionary (hR k (by simp) k' (by simp) hk) (hR v (by simp) v' (by simp) hv)
  | method => exact .method ..
  | module => exact .module (hdecls (module.inj hr))
  | function => exact .function (hdecls (function.inj hr))
  | cls => exact .cls (hdecls (cls.inj hr))
  | synonym => exact .synonym (hdecls (synonym.inj hr))
  | object d s e s' =>
    injection hr with hclasses hshape
    refine .object (fun c hc => ⟨c, hdecls hclasses c hc, DeclTable.isSubclass_refl table c⟩) ?_
    rintro gs rfl
    cases s with
    | none => simp [mergeShape] at hshape
    | some fs =>
      refine ⟨fs, rfl, fun g hg => ?_⟩
      have hfield := ((hq.proper trivial).2.lookup_eq_some_iff).mpr hg
      have hmerged := fieldOf_mergeShape union (some fs) (some gs) g.1
      simp only [hshape, fieldOf, bind_some, hfield] at hmerged
      obtain ⟨t, u, ht, hu, htu⟩ := map₂_eq_some_iff.mp hmerged.symm
      obtain rfl : g.2 = u := some.inj hu
      refine ⟨t, ht, hR t ?_ g.2 ?_ htu⟩
      · exact mem_map_of_mem (mem_of_lookup ht)
      · exact mem_map_of_mem hg
  | enum =>
    injection hr with hdecl hvalue
    refine .enum ?_ ?_
    · unfold agreed at hdecl
      split at hdecl
      · next hde => exact .inr hde
      · exact .inl hdecl.symm
    · rintro u rfl
      obtain ⟨t, u', rfl, hu, htu⟩ := map₂_eq_some_iff.mp hvalue
      obtain rfl : u = u' := some.inj hu
      exact hR t (by simp) u (by simp) htu

/-! ### Types -/

section

variable {tag : Tag} (ha : a.WellFormed) (hb : b.WellFormed) (h : a.Below b) (htag : tag ∈ a.tags)

include ha hb h htag

/-- Where a larger type has a payload, the smaller one has one that adds nothing to it. -/
theorem Below.exists_payload (hq : b.payload? tag = some q) :
    ∃ p, a.payload? tag = some p ∧ mergePayload union p q = some q := by
  have hb' := slot_eq_holds_iff.mpr ⟨h.mem htag, hq⟩
  have hslot : (a.union b).slot tag = .holds q := by rw [h, hb']
  rw [slot_union ha.canonical hb.canonical, hb'] at hslot
  split at hslot
  · cases hflat : (a.slot tag).union union (.holds q) <;> simp [hflat, Slot.flattened] at hslot
  · cases hp : a.slot tag with
    | absent => exact absurd htag (slot_eq_absent_iff.mp hp)
    | bare => simp [hp] at hslot
    | holds p =>
      refine ⟨p, (slot_eq_holds_iff.mp hp).2, ?_⟩
      rw [hp, Slot.union] at hslot
      cases hm : mergePayload union p q <;> simp_all

/-- What a type says of a tag is covered by a type that it lies below. -/
theorem Below.tagCoveredBy
    (hR : ∀ p ∈ a.data, ∀ t ∈ p.components, ∀ u, u.WellFormed → t.Below u → R t u) :
    a.TagCoveredBy table R b tag := by
  refine ⟨h.mem htag, fun q hq => ?_⟩
  obtain ⟨p, hp, hmerge⟩ := h.exists_payload ha hb htag hq
  have hformed := hb.payload (payload?_mem hq)
  refine ⟨p, hp, coveredBy_of_mergePayload (ha.payload (payload?_mem hp)) hformed hmerge ?_⟩
  exact fun t ht u hu => hR p (payload?_mem hp) t ht u (hformed.nested u hu)

end

end Ty

open Ty in
/-- The values of a type are values of every type that it lies below. -/
theorem Value.Inhabits.of_below {table : DeclTable} (htable : table.WellFormed)
    (hexpanded : table.Expanded) {a b : Ty} (ha : a.WellFormed) (hb : b.WellFormed) (h : a.Below b)
    {v : Value} (hv : v.Inhabits table a) :
    v.Inhabits table b := by
  induction v using Value.part_wellFounded.induction generalizing a b with
  | _ v ih =>
  have ha' := ha.expand htable
  have hb' := hb.expand htable
  have hcovered : (a.expand table).CoveredBy table
      (fun t u => t.WellFormed ∧ u.WellFormed ∧ t.Below u) (b.expand table) := by
    intro tag htag
    refine .inl ((h.expand htable ha hb).tagCoveredBy ha' hb' htag ?_)
    exact fun p hp t ht u hu htu => ⟨(ha'.payload hp).nested t ht, hu, htu⟩
  refine hv.of_coveredBy hcovered (expand_expanded hexpanded b) ?_ ?_
  · rintro t u ⟨ht, hu, htu⟩ w hw
    exact ih w hw ht hu htu
  · exact fun w hw => ih w hw ha hb h

end TypeFlow
