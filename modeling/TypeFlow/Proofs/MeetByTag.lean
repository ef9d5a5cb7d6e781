import TypeFlow.Proofs.Levels

/-!
# What an intersection says, tag by tag

An intersection starts with the common tags of two types and adds three things to them: the kinds
that an unqualified object of one side stands for, as the other side has them, and the members of an
enumeration of either side whose literals belong to the other one. The slots of the first part are
computed from those of the two types, and all that is added is a union, so what was there before
lies below the result.
-/

namespace TypeFlow

open List Tags
open Option hiding or_assoc

namespace Ty

variable {table : DeclTable} {meet : Ty → Ty → Option Ty} {a b e m t other result shared : Ty}
  {p : Payload Ty} {n : Nat} {tag : Tag} {tags : Tags}

/-! ### The common tags -/

theorem slot_eq_bare_iff : t.slot tag = .bare ↔ tag ∈ t.tags ∧ t.payload? tag = none := by
  unfold slot
  split
  · next h => cases t.payload? tag <;> simp [h]
  · next h => simp [h]

theorem slot_exact (p : Payload Ty) : (exact p).slot p.tag = .holds p := by
  simp [slot_eq_holds_iff, payload?, exact]

theorem slot_exact_of_ne (h : tag ≠ p.tag) : (exact p).slot tag = .absent := by
  simpa [slot_eq_absent_iff, exact] using h

theorem enumeration_some (d : Option DeclId) (v : Ty) :
    enumeration d (some v) = exact (.enum d (some v)) := by
  cases d <;> rfl

theorem isPlainObject_iff_slot : t.isPlainObject ↔ t.slot .object = .bare := by
  rw [isPlainObject_iff, slot_eq_bare_iff]

theorem isPlainObject_of_without (h : (t.without tags).isPlainObject) : t.isPlainObject := by
  rw [isPlainObject_iff_slot, slot_without] at h
  split at h
  · cases h
  · exact isPlainObject_iff_slot.mpr h

theorem mem_restrictedTo : tag ∈ (t.restrictedTo tags).tags ↔ tag ∈ t.tags ∧ tag ∈ tags := by
  have hany : tag ∈ Tags.any := by cases tag <;> decide
  simp [restrictedTo, hany]

theorem slot_restrictedTo (t : Ty) (h : tag ∈ tags) :
    (t.restrictedTo tags).slot tag = t.slot tag := by
  rw [restrictedTo, slot_without]
  simp [h]

theorem slot_restrictedTo_of_notMem (t : Ty) (h : tag ∉ tags) :
    (t.restrictedTo tags).slot tag = .absent := by
  rw [restrictedTo, slot_without, if_pos]
  exact mem_sdiff.mpr ⟨by cases tag <;> decide, h⟩

/-- The slots of a type from parts are those that the parts describe, except that literals are
dropped when there are several kinds of them. -/
theorem slot_ofParts {data : List (Payload Ty)} (hordered : Ordered (ofParts tags data).data)
    {s : Slot} (hmem : tag ∈ tags ↔ s ≠ .absent)
    (hpayload : ∀ p, p ∈ data ∧ p.tag = tag ↔ s = .holds p) :
    (ofParts tags data).slot tag =
      if tags.ManyValues ∧ tag ∈ valueTypes then s.flattened else s := by
  have hkept (p : Payload Ty) : (ofParts tags data).payload? tag = some p ↔
      s = .holds p ∧ tag ∈ tags ∧ ¬(tags.ManyValues ∧ tag ∈ valueTypes) := by
    rw [payload?_ofParts_eq_some_iff hordered, hpayload]
  cases s with
  | absent =>
    have hnot : tag ∉ tags := by simp [hmem]
    simp [slot_eq_absent_iff.mpr, hnot, Slot.flattened]
  | bare =>
    have hnone : (ofParts tags data).payload? tag = none :=
      eq_none_iff_forall_not_mem.mpr fun p hp => by simp_all
    simp [slot, hmem, hnone, Slot.flattened]
  | holds r =>
    by_cases hdrop : tags.ManyValues ∧ tag ∈ valueTypes
    · have hnone : (ofParts tags data).payload? tag = none :=
        eq_none_iff_forall_not_mem.mpr fun p hp => ((hkept p).mp hp).2.2 hdrop
      simp [slot, hmem, hnone, hdrop, Slot.flattened]
    · have hr := (hkept r).mpr ⟨rfl, by simp [hmem], hdrop⟩
      simp [slot, hmem, hr, hdrop]

/-- Kinds with a single value are in common if both types have them. -/
private theorem slot_meet?_of_notMem (h : ¬((tag ∈ a.tags ∧ tag ∈ b.tags) ∧ tag ∈ Tags.data)) :
    (a.slot tag).meet? table meet (b.slot tag) =
      some (if tag ∈ a.tags ∧ tag ∈ b.tags then .bare else .absent) := by
  by_cases ha : tag ∈ a.tags
  · by_cases hb : tag ∈ b.tags
    · have hnone (t : Ty) : t.payload? tag = none :=
        eq_none_iff_forall_not_mem.mpr fun p hp => h ⟨⟨ha, hb⟩, payload?_tag hp ▸ p.tag_mem_data⟩
      simp [slot, ha, hb, hnone, Slot.meet?]
    · simp [slot_eq_absent_iff.mpr hb, hb]
  · simp [slot_eq_absent_iff.mpr ha, ha]

section

variable (h : meetTags? table meet a b = some t) (ht : t.Canonical)

include h ht

/-- The common tags of two types are met slot by slot, and literals are dropped when there are
several kinds of them. -/
theorem slot_meetTags? (tag : Tag) : ∃ s, (a.slot tag).meet? table meet (b.slot tag) = some s ∧
      t.slot tag = if t.tags.ManyValues ∧ tag ∈ Tags.valueTypes then s.flattened else s := by
  obtain ⟨tags, rfl, hsome, htags⟩ := exists_of_meetTags? h
  simp only [Tags.mem_inter] at hsome htags
  obtain ⟨s, hs⟩ : ∃ s, (a.slot tag).meet? table meet (b.slot tag) = some s := by
    by_cases hmem : (tag ∈ a.tags ∧ tag ∈ b.tags) ∧ tag ∈ Tags.data
    · exact isSome_iff_exists.mp (hsome tag hmem)
    · exact ⟨_, slot_meet?_of_notMem hmem⟩
  refine ⟨s, hs, slot_ofParts ht.ordered ?_ fun p => ?_⟩
  · rw [htags, hs]
    by_cases hmem : (tag ∈ a.tags ∧ tag ∈ b.tags) ∧ tag ∈ Tags.data
    · simp [hmem]
    · have hslot : (a.slot tag).meet? table meet (b.slot tag) = _ := slot_meet?_of_notMem hmem
      grind
  · simp only [mem_filterMap, Slot.bind_payload?_eq_some_iff, Tags.mem_toList, Tags.mem_inter]
    constructor
    · rintro ⟨⟨x, -, hx⟩, rfl⟩
      rw [(Slot.meet?_tag hx).1, hx] at hs
      exact (some.inj hs).symm
    · rintro rfl
      obtain ⟨rfl, hmem⟩ := Slot.meet?_tag hs
      exact ⟨⟨p.tag, ⟨hmem, p.tag_mem_data⟩, hs⟩, rfl⟩

theorem mem_of_mem_meetTags? (htag : tag ∈ t.tags) : tag ∈ a.tags ∧ tag ∈ b.tags := by
  obtain ⟨s, hs, hslot⟩ := slot_meetTags? h ht tag
  have hne : t.slot tag ≠ .absent := mt slot_eq_absent_iff.mp (not_not.mpr htag)
  constructor
  · by_contra hnot
    rw [slot_eq_absent_iff.mpr hnot] at hs
    simp [hslot, ← some.inj hs, Slot.flattened] at hne
  · by_contra hnot
    rw [slot_eq_absent_iff.mpr hnot, Slot.meet?_absent] at hs
    simp [hslot, ← some.inj hs, Slot.flattened] at hne

/-- If the slots in common are those of a type that has all common tags, no literals are dropped. -/
theorem slot_meetTags?_eq {c : Ty} (hc : c.Canonical) (htags : ∀ tag ∈ t.tags, tag ∈ c.tags)
    (hslot : (a.slot tag).meet? table meet (b.slot tag) = some (c.slot tag)) :
    t.slot tag = c.slot tag := by
  obtain ⟨s, hs, heq⟩ := slot_meetTags? h ht tag
  obtain rfl : c.slot tag = s := some.inj (hslot.symm.trans hs)
  rw [heq]
  split
  · next hmany => exact hc.slot_flattened (hmany.1.mono htags) hmany.2
  · rfl

end

/-! ### What is added to the common tags -/

/-- The kinds of `other` that an unqualified object of `t` stands for are added to a type. -/
def withKinds (t other result : Ty) : Ty :=
  if t.isPlainObject then result.union (other.restrictedTo .objectLike) else result

theorem withKinds_of_not_plain (h : t.isPlainObject = false) (other result : Ty) :
    t.withKinds other result = result := by
  rw [withKinds, h]
  rfl

theorem mem_withKinds_iff : tag ∈ (t.withKinds other result).tags ↔
    tag ∈ result.tags ∨ (t.isPlainObject ∧ tag ∈ other.tags ∧ tag ∈ objectLike) := by
  unfold withKinds
  split
  · next hplain => simp only [union_tags, mem_union, mem_restrictedTo, hplain, true_and]
  · next hplain => simp [hplain]

/-- The kinds of `other` that `e` does not hold directly. -/
def kindsBeside (e other : Ty) : Ty := other.without (e.tags ∪ .single .enum)

/-- Members of an enumeration are added if their literals belong to the other type, which has no
such members itself. -/
theorem meetEnum?_cases (h : meetEnum? meet e other result = some m) :
    (m = result ∧ (.enum ∉ e.tags ∨ .enum ∈ other.tags ∨ (e.kindsBeside other).isNever ∨
        ∃ value, meet e.enumValue (e.kindsBeside other) = some value ∧ value.isNever)) ∨
      (.enum ∈ e.tags ∧ .enum ∉ other.tags ∧ (e.kindsBeside other).isNever = false ∧ ∃ value,
        meet e.enumValue (e.kindsBeside other) = some value ∧ value.isNever = false ∧
        m = result.union (enumeration e.enumDecl? (some value))) := by
  simp only [meetEnum?] at h
  split at h
  · next hskip =>
    refine .inl ⟨(some.inj h).symm, ?_⟩
    simp only [Bool.or_eq_true, Bool.not_eq_true', ← Bool.not_eq_true] at hskip
    rcases hskip with (henum | henum) | hrest
    · exact .inl henum
    · exact .inr (.inl henum)
    · exact .inr (.inr (.inl hrest))
  · next hadd =>
    simp only [Bool.or_eq_true, Bool.not_eq_true', not_or, Bool.not_eq_false] at hadd
    simp only [bind_eq_bind, bind_eq_some_iff] at h
    obtain ⟨value, hvalue, h⟩ := h
    unfold nonempty? at h
    cases hnever : value.isNever with
    | true =>
      rw [hnever] at h
      exact .inl ⟨(some.inj h).symm, .inr (.inr (.inr ⟨value, hvalue, hnever⟩))⟩
    | false =>
      rw [hnever] at h
      exact .inr ⟨hadd.1.1, hadd.1.2, Bool.eq_false_iff.mpr hadd.2, value, hvalue, hnever,
        (some.inj h).symm⟩

/-! ### What lies below an intersection -/

/-- What a type says about a tag is not changed by saying it twice. -/
theorem slot_union_self (ht : t.WellFormed) (tag : Tag) :
    (t.slot tag).union .union (t.slot tag) = t.slot tag := by
  have hself : (t.union t).slot tag = t.slot tag := by rw [ht.union_self]
  rw [slot_union ht.canonical ht.canonical] at hself
  split at hself
  · next hmany =>
    have hflat := ht.canonical.slot_flattened (by simpa using hmany.1) hmany.2
    cases hslot : t.slot tag with
    | absent | bare => rfl
    | holds p => simp [hslot, Slot.flattened] at hflat
  · exact hself

/-- A type lies below another one that says the same about all tags of the first. -/
theorem below_of_slots (ha : a.WellFormed) (hb : b.WellFormed)
    (h : ∀ tag ∈ a.tags, a.slot tag = b.slot tag) : a.Below b := by
  refine below_of_slot_union ha hb fun tag => ?_
  by_cases htag : tag ∈ a.tags
  · rw [h tag htag, slot_union_self hb]
  · rw [slot_eq_absent_iff.mpr htag, Slot.absent_union]

/-- A type without some of its tags lies below it. -/
theorem without_below (ht : t.WellFormed) (tags : Tags) : (t.without tags).Below t := by
  refine below_of_slots (ht.without tags) ht fun tag htag => ?_
  rw [without_tags, mem_sdiff] at htag
  rw [slot_without, if_neg htag.2]

theorem restrictedTo_below (ht : t.WellFormed) (tags : Tags) : (t.restrictedTo tags).Below t :=
  without_below ht _

section

variable (ha : a.WellFormed) (hb : b.WellFormed) (hresult : result.WellFormed)

include hb hresult

theorem withKinds_wellFormed : (a.withKinds b result).WellFormed := by
  unfold withKinds
  split
  · exact hresult.union (hb.restrictedTo _)
  · exact hresult

theorem below_withKinds : result.Below (a.withKinds b result) := by
  unfold withKinds
  split
  · exact below_union_left hresult (hb.restrictedTo _)
  · exact .refl hresult

theorem kinds_below_withKinds (hplain : a.isPlainObject) :
    (b.restrictedTo .objectLike).Below (a.withKinds b result) := by
  rw [withKinds, if_pos hplain]
  exact below_union_right hresult (hb.restrictedTo _)

end

/-- The steps of an intersection of expanded types: the common tags, the kinds that unqualified
objects stand for, and the members of enumerations of either side. -/
structure MeetSteps (table : DeclTable) (n : Nat) (a b m shared first : Ty) : Prop where
  tags : meetTags? table (meet? table n) a b = some shared
  left : meetEnum? (meetExpanded? table n) a b (b.withKinds a (a.withKinds b shared)) = some first
  right : meetEnum? (meetExpanded? table n) b a first = some m
  shared_wellFormed : shared.WellFormed
  kinds_wellFormed : (b.withKinds a (a.withKinds b shared)).WellFormed
  first_wellFormed : first.WellFormed
  wellFormed : m.WellFormed

/-- An intersection of well-formed types is made in these steps. -/
theorem exists_meetSteps (htable : table.WellFormed) (ha : a.WellFormed) (hb : b.WellFormed)
    (h : meetExpanded? table (n + 1) a b = some m) :
    ∃ shared first, MeetSteps table n a b m shared first := by
  have hm : m.WellFormed := .meetExpanded? htable (n + 1) a b m ha hb h
  simp only [meetExpanded?, bind_eq_bind, bind_eq_some_iff] at h
  obtain ⟨shared, htags, first, hleft, hright⟩ := h
  have hshared := meetTags?_formed (fun _ _ _ hx hy hm => .meet? htable hx hy hm) ha hb htags
  have hkinds := withKinds_wellFormed (a := b) ha (withKinds_wellFormed (a := a) hb hshared)
  have hfirst := meetEnum?_formed (.meetExpanded? htable n) ha hb hkinds hleft
  exact ⟨shared, first, htags, hleft, hright, hshared, hkinds, hfirst, hm⟩

/-- What there was before members of an enumeration are added lies below the result. -/
theorem below_of_meetEnum? (hresult : result.WellFormed)
    (hmeet : ∀ value, meet e.enumValue (e.kindsBeside other) = some value → value.WellFormed)
    (h : meetEnum? meet e other result = some m) : result.Below m := by
  rcases meetEnum?_cases h with ⟨rfl, -⟩ | ⟨-, -, -, value, hvalue, -, rfl⟩
  · exact .refl hresult
  · refine below_union_left hresult (.enumeration ?_)
    exact fun u hu => some.inj hu ▸ hmeet value hvalue

namespace MeetSteps

variable {first : Ty} (h : MeetSteps table n a b m shared first) (htable : table.WellFormed)
  (ha : a.WellFormed) (hb : b.WellFormed)

include h htable ha hb

theorem kinds_below_first : (b.withKinds a (a.withKinds b shared)).Below first := by
  refine below_of_meetEnum? h.kinds_wellFormed (fun value hvalue => ?_) h.left
  exact .meetExpanded? htable n _ _ value ha.enumValue (hb.without _) hvalue

theorem first_below : first.Below m := by
  refine below_of_meetEnum? h.first_wellFormed (fun value hvalue => ?_) h.right
  exact .meetExpanded? htable n _ _ value hb.enumValue (ha.without _) hvalue

theorem kinds_below : (b.withKinds a (a.withKinds b shared)).Below m :=
  (h.kinds_below_first htable ha hb).trans h.kinds_wellFormed h.first_wellFormed h.wellFormed
    (h.first_below htable ha hb)

theorem shared_below : shared.Below m := by
  have hinner := withKinds_wellFormed (a := a) hb h.shared_wellFormed
  have hkinds := (below_withKinds hb h.shared_wellFormed).trans h.shared_wellFormed hinner
    h.kinds_wellFormed (below_withKinds ha hinner)
  exact hkinds.trans h.shared_wellFormed h.kinds_wellFormed h.wellFormed
    (h.kinds_below htable ha hb)

/-- Where the left side has the unqualified object, the kinds of the right side are kept. -/
theorem right_below (hplain : a.isPlainObject) : (b.restrictedTo .objectLike).Below m := by
  have hkinds : (b.restrictedTo .objectLike).WellFormed := hb.restrictedTo _
  have hinner := withKinds_wellFormed (a := a) hb h.shared_wellFormed
  have hbelow := (kinds_below_withKinds hb h.shared_wellFormed hplain).trans hkinds hinner
    h.kinds_wellFormed (below_withKinds ha hinner)
  exact hbelow.trans hkinds h.kinds_wellFormed h.wellFormed (h.kinds_below htable ha hb)

/-- Where the right side has the unqualified object, the kinds of the left side are kept. -/
theorem left_below (hplain : b.isPlainObject) : (a.restrictedTo .objectLike).Below m := by
  have hinner := withKinds_wellFormed (a := a) hb h.shared_wellFormed
  exact (kinds_below_withKinds ha hinner hplain).trans (ha.restrictedTo _) h.kinds_wellFormed
    h.wellFormed (h.kinds_below htable ha hb)

end MeetSteps

end Ty

end TypeFlow
