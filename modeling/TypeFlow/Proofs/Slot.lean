import Mathlib.Data.List.Sort
import TypeFlow.Ty.Union

/-!
# The parts of a type, tag by tag

A type is read through its slots: for each tag it lacks the tag, holds it without payload or holds
it with one. The operations of the algebra build the payloads of their results in tag order, so what
they give is described by one equation for each slot.
-/

namespace TypeFlow

open List Tags

namespace Tag

/-- Positions are exactly those of the mask. -/
theorem exists_bit_eq {i : Nat} (h : i < 19) : ∃ t : Tag, t.bit = i := by
  have hall : ∀ i : Fin 19, ∃ t ∈ Tag.all, t.bit = i.val := by decide
  obtain ⟨t, -, ht⟩ := hall ⟨i, h⟩
  exact ⟨t, ht⟩

/-- The tags are listed in the order of their positions. -/
theorem all_pairwise : Tag.all.Pairwise fun s t => s.bit < t.bit := by decide

end Tag

namespace Tags

variable {s t : Tags}

/-- Sets with the same members are equal. -/
theorem ext_mem (h : ∀ tag, tag ∈ s ↔ tag ∈ t) : s = t := by
  obtain ⟨a⟩ := s
  congr 1
  apply BitVec.eq_of_getLsbD_eq
  intro i hi
  obtain ⟨tag, rfl⟩ := Tag.exists_bit_eq hi
  rw [Bool.eq_iff_iff]
  exact h tag

theorem union_comm (s t : Tags) : s ∪ t = t ∪ s := ext_mem fun _ => by simp [or_comm]

theorem union_assoc (r s t : Tags) : r ∪ s ∪ t = r ∪ (s ∪ t) := ext_mem fun _ => by simp [or_assoc]

@[simp] theorem union_self (s : Tags) : s ∪ s = s := ext_mem fun _ => by simp

/-- A set is empty when it has no member. -/
theorem isEmpty_iff : s.isEmpty ↔ ∀ tag, tag ∉ s := by
  constructor
  · intro h tag
    have hs : s = empty := by exact congrArg mk (by simpa [isEmpty] using h)
    rw [hs]
    exact not_mem_empty
  · intro h
    have hs : s = empty := ext_mem fun tag => by simp [h tag]
    rw [hs]
    rfl

theorem intersects_iff : s.intersects t ↔ ∃ tag ∈ s, tag ∈ t := by
  rw [intersects, Bool.not_eq_true', Bool.eq_false_iff, Ne, isEmpty_iff]
  simp

/-- The members are listed in the order of their positions. -/
theorem toList_pairwise (s : Tags) : s.toList.Pairwise fun a b => a.bit < b.bit :=
  Tag.all_pairwise.filter _

/-- A larger set has no fewer members. -/
theorem size_le_of_subset (h : ∀ tag, tag ∈ s → tag ∈ t) : s.size ≤ t.size := by
  apply Sublist.length_le
  exact monotone_filter_right Tag.all fun tag htag => h tag htag

/-- The kinds of literals. -/
theorem contains_valueTypes (t : Tag) : valueTypes.contains t =
    match t with
    | .number | .long | .float | .double | .char | .string | .symbol => true
    | _ => false := by
  cases t <;> decide

/-- Two or more kinds of literals belong to the set. -/
def ManyValues (s : Tags) : Prop := 2 ≤ (s ∩ valueTypes).size

instance (s : Tags) : Decidable s.ManyValues := inferInstanceAs (Decidable (_ ≤ _))

/-- A larger set has no fewer kinds of literals. -/
theorem ManyValues.mono (hs : s.ManyValues) (h : ∀ tag, tag ∈ s → tag ∈ t) : t.ManyValues := by
  refine le_trans hs (size_le_of_subset ?_)
  intro tag htag
  rw [mem_inter] at htag ⊢
  exact ⟨h tag htag.1, htag.2⟩

end Tags

namespace Payload

/-- Kinds with a single value have no payload. -/
theorem tag_mem_data {α : Type} (p : Payload α) : p.tag ∈ data := by
  cases p <;> (simp only [tag]; decide)

end Payload

namespace Ty

variable {t a b : Ty} {tag : Tag} {p : Payload Ty} {data : List (Payload Ty)}
  {choose : Tag → Option (Payload Ty)}

/-- Payloads in the order of their tags, one for each at most. -/
def Ordered (data : List (Payload Ty)) : Prop := data.Pairwise fun p q => p.tag.bit < q.tag.bit

/-- The payload of a tag has this tag. -/
theorem payload?_tag (h : t.payload? tag = some p) : p.tag = tag := by simpa using find?_some h

/-- The payload of a tag is one of the payloads. -/
theorem payload?_mem (h : t.payload? tag = some p) : p ∈ t.data := mem_of_find?_eq_some h

private theorem find?_tag_eq_some_iff (h : Ordered data) :
    data.find? (fun q => q.tag == tag) = some p ↔ p ∈ data ∧ p.tag = tag := by
  constructor
  · intro hp
    exact ⟨mem_of_find?_eq_some hp, by simpa using find?_some hp⟩
  · rintro ⟨hmem, rfl⟩
    induction data with
    | nil => simp at hmem
    | cons q rest ih =>
      have hq := pairwise_cons.mp h
      rcases mem_cons.mp hmem with rfl | hmem
      · simp
      · have hne : (q.tag == p.tag) = false := by
          have hlt := hq.1 p hmem
          rw [beq_eq_false_iff_ne]
          intro heq
          rw [heq] at hlt
          exact lt_irrefl _ hlt
        rw [find?_cons, hne]
        exact ih hq.2 hmem

/-- In an ordered type the payload of a tag is the one that has the tag. -/
theorem payload?_eq_some_iff (h : Ordered t.data) :
    t.payload? tag = some p ↔ p ∈ t.data ∧ p.tag = tag := find?_tag_eq_some_iff h

/-- Ordered payloads are determined by the payload of each tag. -/
theorem Ordered.ext (ha : Ordered a.data) (hb : Ordered b.data)
    (h : ∀ tag, a.payload? tag = b.payload? tag) : a.data = b.data := by
  have hmem {t : Ty} (ht : Ordered t.data) (p : Payload Ty) :
      p ∈ t.data ↔ t.payload? p.tag = some p := by simp [payload?_eq_some_iff ht]
  exact Pairwise.eq_of_mem_iff ha hb fun p => by rw [hmem ha, hmem hb, h]

/-! ### Payloads listed tag by tag -/

/-- A choice of payloads gives each tag a payload of this tag or none. -/
def Tagged (choose : Tag → Option (Payload Ty)) : Prop := ∀ tag p, choose tag = some p → p.tag = tag

/-- Payloads chosen along an ordered list of tags are ordered. -/
theorem Tagged.ordered (h : Tagged choose) {tags : List Tag}
    (htags : tags.Pairwise fun a b => a.bit < b.bit) : Ordered (tags.filterMap choose) := by
  refine pairwise_filterMap.mpr (htags.imp ?_)
  intro s t hst p hp q hq
  rw [h s p hp, h t q hq]
  exact hst

/-! ### Types from their parts -/

@[simp] theorem ofParts_tags (tags : Tags) (data : List (Payload Ty)) :
    (ofParts tags data).tags = tags := rfl

variable {tags : Tags}

/-- The payloads that a type from parts keeps. -/
theorem mem_ofParts_data : p ∈ (ofParts tags data).data ↔
      p ∈ data ∧ p.tag ∈ tags ∧ (tags.ManyValues → p.isValue = false) := by
  unfold ofParts ManyValues
  by_cases hmany : 2 ≤ (tags ∩ .valueTypes).size
  · simp only [hmany, if_true, mem_filter, mem_iff, Bool.not_eq_true', true_implies, and_assoc]
  · simp [hmany, mem_iff]

theorem ofParts_data_sublist (tags : Tags) (data : List (Payload Ty)) :
    (ofParts tags data).data.Sublist data := by
  unfold ofParts
  split
  · exact filter_sublist.trans filter_sublist
  · exact filter_sublist

/-- A type from ordered parts is ordered. -/
theorem ofParts_ordered (h : Ordered data) :
    Ordered (ofParts tags data).data := h.sublist (ofParts_data_sublist tags data)

/-- The payload of a tag in a type from parts is the one that the parts have, unless literals are
dropped. -/
theorem payload?_ofParts_eq_some_iff (h : Ordered (ofParts tags data).data) :
    (ofParts tags data).payload? tag = some p ↔
      (p ∈ data ∧ p.tag = tag) ∧ tag ∈ tags ∧ ¬(tags.ManyValues ∧ tag ∈ valueTypes) := by
  rw [payload?_eq_some_iff h, mem_ofParts_data]
  constructor
  · rintro ⟨⟨hp, htag, hvalue⟩, rfl⟩
    refine ⟨⟨hp, rfl⟩, htag, ?_⟩
    rintro ⟨hmany, hmem⟩
    exact absurd (mem_iff.mp hmem) (by simpa [Payload.isValue] using hvalue hmany)
  · rintro ⟨⟨hp, rfl⟩, htag, hkept⟩
    refine ⟨⟨hp, htag, fun hmany => ?_⟩, rfl⟩
    simpa [Payload.isValue, mem_iff, hmany] using hkept

/-- The payload of a tag in a type whose payloads are chosen tag by tag. -/
theorem payload?_ofParts (h : Tagged choose) (tags : Tags) (tag : Tag) :
    (ofParts tags ((tags ∩ .data).toList.filterMap choose)).payload? tag =
      if tag ∈ tags ∧ ¬(tags.ManyValues ∧ tag ∈ valueTypes) then choose tag else none := by
  have hordered := h.ordered (tags ∩ .data).toList_pairwise
  apply Option.ext
  intro p
  rw [payload?_ofParts_eq_some_iff (ofParts_ordered hordered), mem_filterMap]
  simp only [mem_toList, mem_inter]
  split
  · next htag =>
    constructor
    · rintro ⟨⟨⟨s, -, hp⟩, rfl⟩, -⟩
      rwa [h s p hp]
    · intro hp
      obtain rfl := h tag p hp
      exact ⟨⟨⟨p.tag, ⟨htag.1, p.tag_mem_data⟩, hp⟩, rfl⟩, htag⟩
  · next htag => simp only [htag, and_false, reduceCtorEq]

/-! ### Slots -/

/-- What a type says about one tag. -/
inductive Slot where
  | absent
  /-- All values of the tag. -/
  | bare
  | holds (p : Payload Ty)

namespace Slot

/-- What is left when literals are not kept. -/
def flattened : Slot → Slot
  | holds _ => bare
  | s => s

/-- What two types together say about one tag, where the components of payloads are joined by
`join`. -/
def union (join : Ty → Ty → Ty) : Slot → Slot → Slot
  | absent, s | s, absent => s
  | holds p, holds q =>
    match mergePayload join p q with
    | some r => holds r
    | none => bare
  | _, _ => bare

variable (join : Ty → Ty → Ty)

@[simp] theorem absent_union (s : Slot) : union join absent s = s := by
  cases s <;> rfl

@[simp] theorem union_absent (s : Slot) : union join s absent = s := by
  cases s <;> rfl

/-- Without literals a union only depends on which sides have the tag. -/
theorem flattened_union_flattened_left (s t : Slot) :
    (union join s.flattened t).flattened = (union join s t).flattened := by
  cases s <;> cases t <;> simp [flattened, union]
  cases mergePayload join _ _ <;> rfl

theorem flattened_union_flattened_right (s t : Slot) :
    (union join s t.flattened).flattened = (union join s t).flattened := by
  cases s <;> cases t <;> simp [flattened, union]
  cases mergePayload join _ _ <;> rfl

end Slot

/-- What a type says about a tag. -/
def slot (t : Ty) (tag : Tag) : Slot :=
  if tag ∈ t.tags then (t.payload? tag).elim .bare .holds else .absent

theorem slot_eq_absent_iff : t.slot tag = .absent ↔ tag ∉ t.tags := by
  unfold slot
  split
  · next h => cases t.payload? tag <;> simp [h]
  · next h => simp [h]

/-- A slot holds a payload when the type has the tag with this payload. -/
theorem slot_eq_holds_iff : t.slot tag = .holds p ↔ tag ∈ t.tags ∧ t.payload? tag = some p := by
  unfold slot
  split
  · next h => cases t.payload? tag <;> simp [h]
  · next h => simp [h]

/-- The slots of a type with payloads for tags that it has determine its payloads. -/
theorem payload?_eq_of_slot_eq (ha : ∀ p ∈ a.data, p.tag ∈ a.tags)
    (hb : ∀ p ∈ b.data, p.tag ∈ b.tags) (h : a.slot tag = b.slot tag) :
    a.payload? tag = b.payload? tag := by
  have hholds (t : Ty) (ht : ∀ p ∈ t.data, p.tag ∈ t.tags) (p : Payload Ty) :
      t.payload? tag = some p ↔ t.slot tag = .holds p := by
    rw [slot_eq_holds_iff]
    exact ⟨fun hp => ⟨payload?_tag hp ▸ ht p (payload?_mem hp), hp⟩, And.right⟩
  exact Option.ext fun p => by rw [hholds a ha, hholds b hb, h]

end Ty

end TypeFlow
