import TypeFlow.Proofs.Operators

/-!
# Least upper bounds

The empty type is neutral for the union and the type of every value absorbs all others. In the order
of the union, the union of well-formed types is their least upper bound, and so is the union of a
list, which depends only on the types that the list holds.
-/

namespace TypeFlow

namespace Ty

variable {a b c t : Ty} {ts us : List Ty}

/-! ### The least and the greatest type -/

theorem WellFormed.never : never.WellFormed := .ofTags _

theorem WellFormed.any : any.WellFormed := .ofTags _

theorem never_below (ha : a.WellFormed) : never.Below a := by
  rw [Below, WellFormed.never.union_comm ha, union_never]

private theorem mem_any (tag : Tag) : tag ∈ any.tags := by cases tag <;> decide

private theorem union_eq_any (ha : a.isNever = false) (hb : b.isNever = false)
    (htags : ∀ tag, tag ∈ a.tags ∪ b.tags) (hpayload : ∀ tag, unionPayload union a b tag = none) :
    a.union b = any := by
  have hany : a.tags ∪ b.tags = any.tags := Tags.ext_mem fun tag => by simp [htags tag, mem_any]
  rw [union_eq_unionStep, unionStep_of_inhabited ha hb, hany,
    List.filterMap_eq_nil_iff.mpr fun tag _ => hpayload tag]
  rfl

/-- No type adds anything to the type of every value. -/
@[simp] theorem union_any (a : Ty) : a.union any = any := by
  cases ha : a.isNever with
  | true =>
    have hany : any.isNever = false := rfl
    simp only [union_eq_unionStep, unionStep, ha, hany, if_true, Bool.false_eq_true, if_false]
  | false =>
    refine union_eq_any ha rfl (by simp [mem_any]) fun tag => ?_
    have hany : any.payload? tag = none := rfl
    cases hp : a.payload? tag <;> simp [unionPayload, hp, hany, Tags.mem_iff.mp (mem_any tag)]

@[simp] theorem any_union (a : Ty) : any.union a = any := by
  cases ha : a.isNever with
  | true => exact union_of_isNever ha
  | false =>
    refine union_eq_any rfl ha (by simp [mem_any]) fun tag => ?_
    have hany : any.payload? tag = none := rfl
    cases hp : a.payload? tag <;> simp [unionPayload, hp, hany, Tags.mem_iff.mp (mem_any tag)]

/-- Unions of unions may be taken in another order. -/
theorem WellFormed.union_union_union_comm (ha : a.WellFormed) (hb : b.WellFormed)
    (hc : c.WellFormed) (ht : t.WellFormed) :
    (a.union b).union (c.union t) = (a.union c).union (b.union t) := by
  have hct := hc.union ht
  have hbt := hb.union ht
  calc (a.union b).union (c.union t) = a.union (b.union (c.union t)) := ha.union_assoc hb hct
    _ = a.union ((b.union c).union t) := by rw [hb.union_assoc hc ht]
    _ = a.union ((c.union b).union t) := by rw [hb.union_comm hc]
    _ = a.union (c.union (b.union t)) := by rw [hc.union_assoc hb ht]
    _ = (a.union c).union (b.union t) := (ha.union_assoc hc hbt).symm

/-! ### The order -/

theorem Below.antisymm (ha : a.WellFormed) (hb : b.WellFormed) (h : a.Below b) (h' : b.Below a) :
    a = b := by
  calc a = b.union a := h'.symm
    _ = a.union b := hb.union_comm ha
    _ = b := h

/-- The union of two types lies below whatever both lie below. -/
theorem union_below_iff (ha : a.WellFormed) (hb : b.WellFormed) (hc : c.WellFormed) :
    (a.union b).Below c ↔ a.Below c ∧ b.Below c := by
  constructor
  · intro h
    have hab := ha.union hb
    exact ⟨(below_union_left ha hb).trans ha hab hc h, (below_union_right ha hb).trans hb hab hc h⟩
  · rintro ⟨hac, hbc⟩
    rw [Below, ha.union_assoc hb hc, hbc, hac]

section

variable (hts : ∀ t ∈ ts, t.WellFormed)
include hts

/-- A fold of unions lies below whatever its start and all the types lie below. -/
theorem foldl_union_below_iff (ha : a.WellFormed) (hc : c.WellFormed) :
    (ts.foldl union a).Below c ↔ a.Below c ∧ ∀ t ∈ ts, t.Below c := by
  induction ts generalizing a with
  | nil => simp
  | cons t ts ih =>
    rw [List.forall_mem_cons] at hts
    rw [List.foldl_cons, ih hts.2 (ha.union hts.1), union_below_iff ha hts.1 hc,
      List.forall_mem_cons, and_assoc]

/-- The union of a list lies below whatever all its types lie below. -/
theorem unionAll_below_iff (hc : c.WellFormed) : (unionAll ts).Below c ↔ ∀ t ∈ ts, t.Below c := by
  rw [unionAll, foldl_union_below_iff hts .never hc]
  exact and_iff_right (never_below hc)

theorem below_unionAll (ht : t ∈ ts) : t.Below (unionAll ts) :=
  (unionAll_below_iff hts (.unionAll hts)).mp (.refl (.unionAll hts)) t ht

/-- The union of a list depends only on the types that the list holds. -/
theorem unionAll_congr (h : ∀ t, t ∈ ts ↔ t ∈ us) : unionAll ts = unionAll us := by
  have hus : ∀ t ∈ us, t.WellFormed := fun t ht => hts t ((h t).mpr ht)
  refine Below.antisymm (.unionAll hts) (.unionAll hus) ?_ ?_
  · exact (unionAll_below_iff hts (.unionAll hus)).mpr fun t ht => below_unionAll hus ((h t).mp ht)
  · exact (unionAll_below_iff hus (.unionAll hts)).mpr fun t ht => below_unionAll hts ((h t).mpr ht)

/-- A fold of unions is the union of its start with all the types. -/
theorem foldl_union_eq (ha : a.WellFormed) : ts.foldl union a = a.union (unionAll ts) := by
  have hall : (unionAll ts).WellFormed := .unionAll hts
  have hfold : (ts.foldl union a).WellFormed := .foldl_union hts ha
  have hself := (foldl_union_below_iff hts ha hfold).mp (.refl hfold)
  refine Below.antisymm hfold (ha.union hall) ?_ ?_
  · refine (foldl_union_below_iff hts ha (ha.union hall)).mpr ⟨below_union_left ha hall, ?_⟩
    exact (unionAll_below_iff hts (ha.union hall)).mp (below_union_right ha hall)
  · exact (union_below_iff ha hall hfold).mpr ⟨hself.1, (unionAll_below_iff hts hfold).mpr hself.2⟩

theorem unionAll_append (hus : ∀ u ∈ us, u.WellFormed) :
    unionAll (ts ++ us) = (unionAll ts).union (unionAll us) := by
  rw [unionAll, List.foldl_append]
  exact foldl_union_eq hus (.unionAll hts)

end

/-- The union makes well-formed types a join semilattice with a least and a greatest type, up to
equality of structure, and joining into a type tells whether the type has changed. -/
theorem union_semilattice (ha : a.WellFormed) (hb : b.WellFormed) (hc : c.WellFormed) :
    a.union b = b.union a ∧ (a.union b).union c = a.union (b.union c) ∧ a.union a = a ∧
      a.union never = a ∧ a.union any = any ∧
      (a.unionInto b).1 = a.union b ∧ ((a.unionInto b).2 = true ↔ (a.unionInto b).1 ≠ a) := by
  refine ⟨ha.union_comm hb, ha.union_assoc hb hc, ha.union_self, union_never a, union_any a, ?_⟩
  rw [unionInto_eq]
  exact ⟨rfl, decide_eq_true_iff⟩

/-- Arrays of different lengths are joined by their elements, here literals of several kinds. -/
theorem union_semilattice_arrays :
    let pair := tuple [exact (.number 1), exact (.string "a")]
    let list := array (exact (.long 7))
    pair.union (tuple [null]) = array (ofTags (Tags.ofList [.null, .number, .string])) ∧
      pair.union (tuple [null]) = (tuple [null]).union pair ∧
      (pair.union (tuple [null])).union list = pair.union ((tuple [null]).union list) ∧
      pair.union pair = pair ∧ pair.union never = pair ∧ pair.union any = any ∧
      (pair.unionInto (tuple [null])).1 ≠ pair ∧ (pair.unionInto (tuple [null])).2 = true := by
  intro pair list
  have hwellFormed : pair.WellFormed ∧ (tuple [null]).WellFormed ∧ list.WellFormed := by
    decide +kernel
  obtain ⟨hcomm, hassoc, hself, hnever, hany, hinto, hgrown⟩ :=
    union_semilattice hwellFormed.1 hwellFormed.2.1 hwellFormed.2.2
  have hjoined : pair.union (tuple [null]) =
      array (ofTags (Tags.ofList [.null, .number, .string])) := by decide +kernel
  have hne : (pair.unionInto (tuple [null])).1 ≠ pair := by
    rw [hinto, hjoined]
    decide
  exact ⟨hjoined, hcomm, hassoc, hself, hnever, hany, hne, hgrown.mpr hne⟩

end Ty

end TypeFlow
