import TypeFlow.Proofs.Equivalence

/-!
# Intersections with supertypes

The intersection of a type with a supertype is equivalent to the type: each is a subtype of the
other one. Tag by tag, what the two types have in common says the same as the smaller type, as long
as nothing is found empty on the way. What is added to that, the kinds that the unqualified object
stands for and members of enumerations, belongs to the smaller type by the same rules by which
subtypes are compared, provided that nothing else competes with them at any level.
-/

namespace TypeFlow

open Tags Ty

namespace Ty

variable {table : DeclTable} {meet : Ty → Ty → Option Ty} {a b t m value kinds : Ty} {n : Nat}
  {tag : Tag} {R : Ty → Ty → Prop}

/-! ### One level -/

/-- Kinds that the unqualified object does not stand for are not changed where such kinds are
added. -/
theorem slot_withKinds (hb : b.WellFormed) (hm : m.WellFormed) (htag : tag ∉ objectLike) :
    (a.withKinds b m).slot tag = m.slot tag := by
  unfold withKinds
  split
  · have hkinds : (b.restrictedTo .objectLike).WellFormed := hb.restrictedTo _
    have hsub : ∀ tag ∈ valueTypes, tag ∈ objectLike := by decide
    have hvalue : tag ∉ valueTypes := mt (hsub tag) htag
    rw [slot_union hm.canonical hkinds.canonical, if_neg fun h => hvalue h.2,
      slot_restrictedTo_of_notMem b htag, Slot.union_absent]
  · rfl

variable {d : Option DeclId}

/-- Members of an enumeration that are added do not change anything else. -/
theorem slot_union_enumeration (ha : a.WellFormed) (hvalue : value.WellFormed) (tag : Tag) :
    (a.union (enumeration d (some value))).slot tag =
      if tag = .enum then (a.slot .enum).union .union (.holds (.enum d (some value)))
      else a.slot tag := by
  have hmembers : (enumeration d (some value)).WellFormed :=
    .enumeration fun u hu => Option.some.inj hu ▸ hvalue
  rw [slot_union ha.canonical hmembers.canonical, enumeration_some]
  by_cases htag : tag = .enum
  · subst htag
    rw [if_neg fun h => absurd h.2 (by decide)]
    exact congrArg _ (slot_exact _)
  · have habsent : (exact (.enum d (some value))).slot tag = .absent := slot_exact_of_ne htag
    rw [habsent, Slot.union_absent]
    split
    · next hmany =>
      -- Members of enumerations are no kind of literal themselves.
      have htags : (a.tags ∪ .single .enum) ∩ .valueTypes = a.tags ∩ .valueTypes := by
        have henum : .enum ∉ valueTypes := by decide
        refine ext_mem fun tag => ?_
        simp only [mem_inter, mem_union, mem_single]
        grind
      refine ha.canonical.slot_flattened ?_ hmany.2
      rw [ManyValues, ← htags]
      exact hmany.1
    · rfl

/-- The type `m` says the same as `a` about all tags of `a`. The tags that it has besides belong to
`a` by the unqualified object or, for members of enumerations, by their literals. -/
structure Absorbed (table : DeclTable) (a m : Ty) : Prop where
  slots : ∀ tag ∈ a.tags, Slot.Equivalent table (m.slot tag) (a.slot tag)
  added : ∀ tag ∈ m.tags, tag ∉ a.tags →
    (a.isPlainObject ∧ tag ∈ objectLike) ∨ (tag = .enum ∧ Simulated table m.enumValue a)

section

variable {shared : Ty} (htags : meetTags? table meet a b = some shared)
  (hshared : shared.WellFormed)

include htags hshared

/-- What is in common besides members of enumerations are kinds of the smaller type, or the
unqualified object of it stands for them. -/
theorem mem_of_mem_kinds (htag : tag ∈ (b.withKinds a (a.withKinds b shared)).tags) :
    tag ∈ a.tags ∨ (a.isPlainObject ∧ tag ∈ objectLike) := by
  rw [mem_withKinds_iff, mem_withKinds_iff] at htag
  rcases htag with (htag | ⟨hplain, -, hlike⟩) | ⟨-, htag, -⟩
  · exact .inl (mem_of_mem_meetTags? htags hshared.canonical htag).1
  · exact .inr ⟨hplain, hlike⟩
  · exact .inl htag

variable (ha : a.WellFormed) (hb : b.WellFormed) (hlone : a.LoneObject) (hlone' : b.LoneObject)

include ha hb hlone hlone'

/-- Where the larger type is the unqualified object, the kinds that it stands for are those of the
smaller type. -/
theorem slot_kinds_of_plain (hplain : b.isPlainObject) (hlike : tag ∈ objectLike)
    (htag : tag ∈ a.tags) : (b.withKinds a (a.withKinds b shared)).slot tag = a.slot tag := by
  have hleft : (a.withKinds b shared).WellFormed := withKinds_wellFormed hb hshared
  have hkinds : (a.restrictedTo objectLike).WellFormed := ha.restrictedTo _
  rw [withKinds, if_pos hplain, slot_union hleft.canonical hkinds.canonical,
    slot_restrictedTo a hlike]
  cases hplain' : a.isPlainObject with
  | true =>
    have hbare := slot_eq_bare_iff.mpr ⟨htag, hlone hplain' tag hlike⟩
    have hunion (s : Slot) : s.union union .bare = .bare := by cases s <;> rfl
    rw [hbare, hunion]
    split <;> rfl
  | false =>
    have hmem {tag : Tag} (htag : tag ∈ shared.tags) : tag ∈ a.tags ∧ tag ∈ b.tags :=
      mem_of_mem_meetTags? htags hshared.canonical htag
    have hunion : (shared.slot tag).union union (a.slot tag) = a.slot tag := by
      by_cases htag' : tag ∈ b.tags
      · have hslot : (a.slot tag).meet? table meet (b.slot tag) = some (a.slot tag) := by
          rw [slot_eq_bare_iff.mpr ⟨htag', hlone' hplain tag hlike⟩]
          cases a.slot tag <;> rfl
        rw [slot_meetTags?_eq htags hshared.canonical ha.canonical (fun _ h => (hmem h).1) hslot,
          slot_union_self ha]
      · rw [slot_eq_absent_iff.mpr fun h => htag' (hmem h).2, Slot.absent_union]
    rw [withKinds_of_not_plain hplain', hunion]
    split
    · next hmany =>
      refine ha.canonical.slot_flattened (hmany.1.mono fun tag htag => ?_) hmany.2
      exact (mem_union.mp htag).elim (fun h => (hmem h).1) fun h => (mem_restrictedTo.mp h).1
    · rfl

variable (htable : table.WellFormed) (hfilled : a.Filled table)
  (hmeet : ComponentsAbsorb table meet a b)
  (hcovered : a.StrictlyCoveredBy table (Simulated table) b)

include htable hfilled hmeet hcovered

/-- What is in common besides members of enumerations says the same as the smaller type about all
kinds that the larger one has or stands for. -/
theorem slot_kinds_equivalent (htag : tag ∈ a.tags) (htag' : tag ∈ b.tags ∨ b.isPlainObject) :
    Slot.Equivalent table ((b.withKinds a (a.withKinds b shared)).slot tag) (a.slot tag) := by
  have hcommon (hmem : tag ∈ b.tags) : Slot.Equivalent table (shared.slot tag) (a.slot tag) := by
    refine slot_equivalent_of_meetTags? htable ha hfilled hmeet hshared (fun _ => ?_) htags
    exact (hcovered tag htag).resolve_right fun h => h.1 hmem
  have hleft : (a.withKinds b shared).WellFormed := withKinds_wellFormed hb hshared
  by_cases hlike : tag ∈ objectLike
  · cases hplain : b.isPlainObject with
    | true =>
      rw [slot_kinds_of_plain htags hshared ha hb hlone hlone' hplain hlike htag]
      exact .refl htable ha tag
    | false =>
      have hplain' : a.isPlainObject = false :=
        Bool.eq_false_iff.mpr fun h => by simp [hcovered.isPlainObject h] at hplain
      rw [withKinds_of_not_plain hplain, withKinds_of_not_plain hplain']
      exact hcommon (htag'.resolve_right (by simp [hplain]))
  · rw [slot_withKinds ha hleft hlike, slot_withKinds hb hshared hlike]
    rcases hcovered tag htag with ⟨hmem, -⟩ | ⟨-, ⟨-, hlike'⟩ | ⟨rfl, -⟩⟩
    · exact hcommon hmem
    · exact absurd hlike' hlike
    · exact absurd (by decide) hlike

end

/-! ### Members of enumerations on one level -/

/-- A type covers a tag if it says the same about it as a type that does. -/
theorem TagCoveredBy.of_slot_eq {c : Ty} (h : t.TagCoveredBy table R b tag)
    (hslot : c.slot tag = b.slot tag) : t.TagCoveredBy table R c tag := by
  have hmem : tag ∈ c.tags := by
    rw [← not_not (a := tag ∈ c.tags), ← slot_eq_absent_iff, hslot, slot_eq_absent_iff]
    exact not_not.mpr h.1
  refine ⟨hmem, fun q hq => h.2 q ?_⟩
  rw [slot_eq_holds_iff.mpr ⟨hmem, hq⟩] at hslot
  exact (slot_eq_holds_iff.mp hslot.symm).2

/-- Beside members of a known enumeration, or with known literals, there are no literals of the
kinds that the members stand for. -/
def MembersApart (t : Ty) : Prop :=
  (t.payload? .enum).isSome → ∀ tag ∈ t.enumValue.tags, tag ∉ t.tags

instance : DecidablePred MembersApart := fun t =>
  inferInstanceAs (Decidable ((t.payload? .enum).isSome → _))

/-- A type with all kinds of literals has members of enumerations as well, unless it is the
unqualified object. -/
def EnumsBesideLiterals (t : Ty) : Prop :=
  (∀ tag ∈ enumValues, tag ∈ t.tags) → .enum ∈ t.tags ∨ t.isPlainObject

instance : DecidablePred EnumsBesideLiterals := fun t =>
  inferInstanceAs (Decidable ((∀ tag ∈ enumValues, tag ∈ t.tags) → _))

/-- Members of an enumeration that are accounted for by literals of a larger type are found again
with all their literals. -/
theorem enumValue_of_simulated (htable : table.WellFormed) (ha : a.WellFormed) (hb : b.WellFormed)
    (hexpanded : b.Expanded) (hmembers : a.MembersApart) (hliteral : a.LiteralEnum)
    (hbeside : b.EnumsBesideLiterals) (henum : .enum ∉ b.tags)
    (hplain : b.isPlainObject = false) (h : Simulated table a.enumValue b) :
    (∃ p, a.payload? .enum = some p) ∧ (a.kindsBeside b).isNever = false ∧
      ∀ value, meetExpanded? table n a.enumValue (a.kindsBeside b) = some value →
        value = a.enumValue := by
  have hcovered : ∀ tag ∈ a.enumValue.tags,
      a.enumValue.TagCoveredBy table (Simulated table) b tag := by
    rcases Simulated.isSimulation table _ _ h with hnever | ⟨-, hcovered⟩
    · simp [hliteral.isNever_eq_false] at hnever
    rw [hliteral.expand_eq, hexpanded.expand_eq] at hcovered
    intro tag htag
    rcases hcovered tag htag with hcovered | ⟨-, ⟨hplain', -⟩ | ⟨rfl, -⟩⟩
    · exact hcovered
    · simp [hplain] at hplain'
    · exact absurd htag hliteral.enum_notMem
  have hpayload : ∃ p, a.payload? .enum = some p := by
    refine Option.ne_none_iff_exists'.mp fun hnone => ?_
    rw [enumValue_of_none hnone] at hcovered
    rcases hbeside fun tag htag => (hcovered tag htag).1 with hmem | hplain'
    · exact henum hmem
    · simp [hplain] at hplain'
  obtain ⟨p, hp⟩ := hpayload
  -- The type has no literals of these kinds itself, so those of the larger type are looked at.
  have hslot {tag : Tag} (htag : tag ∈ a.enumValue.tags) :
      (a.kindsBeside b).slot tag = b.slot tag := by
    have hne : tag ≠ .enum := by
      rintro rfl
      exact hliteral.enum_notMem htag
    rw [kindsBeside, slot_without, if_neg]
    simpa using ⟨hmembers (by simp [hp]) tag htag, hne⟩
  have hrest : (a.kindsBeside b).WellFormed := hb.without _
  have hrest_enum : .enum ∉ (a.kindsBeside b).tags := by simp [kindsBeside]
  have hrest_plain : (a.kindsBeside b).isPlainObject = false :=
    Bool.eq_false_iff.mpr fun h => by simp [isPlainObject_of_without h] at hplain
  have hcovered' : ∀ tag ∈ a.enumValue.tags,
      a.enumValue.TagCoveredBy table (Simulated table) (a.kindsBeside b) tag :=
    fun tag htag => (hcovered tag htag).of_slot_eq (hslot htag)
  refine ⟨⟨p, hp⟩, ?_, fun value hvalue => ?_⟩
  · obtain ⟨tag, htag, -⟩ := hliteral.exists_mem
    exact isNever_eq_false_iff.mpr ⟨tag, (hcovered' tag htag).1⟩
  · exact IsLiteral.eq_of_covered htable hliteral ha.enumValue hrest hrest_enum hvalue hrest_plain
      hcovered'

/-- Members of an enumeration that are there already are not changed by some of them. -/
theorem slot_union_members (ha : a.WellFormed) (henum : .enum ∈ a.tags) (hvalue : value.WellFormed)
    (hbelow : value.Below a.enumValue) :
    (a.slot .enum).union .union (.holds (.enum a.enumDecl? (some value))) = a.slot .enum := by
  cases hp : a.payload? .enum with
  | none =>
    rw [slot_eq_bare_iff.mpr ⟨henum, hp⟩]
    rfl
  | some p =>
    obtain ⟨d, v, rfl, hdecl, hv⟩ := exists_of_payload?_enum hp
    have hproper := (ha.payload (payload?_mem hp)).proper trivial
    rw [slot_eq_holds_iff.mpr ⟨henum, hp⟩, Slot.union, hdecl, mergePayload_enum, agreed, if_pos rfl]
    cases v with
    | none =>
      cases d with
      | none => exact hproper.elim
      | some d => rfl
    | some t =>
      have ht : t.WellFormed := by
        have h := ha.enumValue
        rwa [hv] at h
      rw [hv] at hbelow
      have hunion : t.union value = t := by rw [ht.union_comm hvalue]; exact hbelow
      simp [enumPayload?, hunion]

/-- Members of an enumeration of the smaller type may be added. -/
theorem Absorbed.union_left (hkinds : kinds.WellFormed) (hvalue : value.WellFormed)
    (hslots : ∀ tag ∈ a.tags, tag ≠ .enum → Slot.Equivalent table (kinds.slot tag) (a.slot tag))
    (hadded : ∀ tag ∈ kinds.tags, tag ∉ a.tags →
      a.isPlainObject ∧ tag ∈ objectLike) (henum : .enum ∈ a.tags)
    (hmembers : Slot.Equivalent table
      ((kinds.slot .enum).union union (.holds (.enum a.enumDecl? (some value))))
      (a.slot .enum)) : Absorbed table a (kinds.union (enumeration a.enumDecl? (some value))) := by
  refine ⟨fun tag htag => ?_, fun tag htag hnot => .inl ?_⟩
  · rw [slot_union_enumeration hkinds hvalue]
    split
    · next heq => exact heq ▸ hmembers
    · next hne => exact hslots tag htag hne
  · rw [union_tags, mem_union, enumeration_some] at htag
    rcases htag with htag | htag
    · exact hadded tag htag hnot
    · obtain rfl : tag = .enum := mem_single.mp htag
      exact absurd henum hnot

/-- Members of an enumeration of the larger type may be added if the smaller type stands for
them. -/
theorem Absorbed.union_right (hkinds : kinds.WellFormed) (hvalue : value.WellFormed)
    (hslots : ∀ tag ∈ a.tags, Slot.Equivalent table (kinds.slot tag) (a.slot tag))
    (hadded : ∀ tag ∈ kinds.tags, tag ∉ a.tags → a.isPlainObject ∧ tag ∈ objectLike)
    (henum : .enum ∉ a.tags) (hliterals : a.isPlainObject = false → Simulated table value a) :
    Absorbed table a (kinds.union (enumeration d (some value))) := by
  refine ⟨fun tag htag => ?_, fun tag htag hnot => ?_⟩
  · have hne : tag ≠ .enum := by
      rintro rfl
      exact henum htag
    rw [slot_union_enumeration hkinds hvalue, if_neg hne]
    exact hslots tag htag
  rw [union_tags, mem_union, enumeration_some] at htag
  by_cases hmem : tag ∈ kinds.tags
  · exact .inl (hadded tag hmem hnot)
  · obtain rfl : tag = .enum := mem_single.mp (htag.resolve_left hmem)
    cases hplain : a.isPlainObject with
    | true => exact .inl ⟨rfl, by decide⟩
    | false =>
      have hslot : (kinds.union (enumeration d (some value))).slot .enum =
          .holds (.enum d (some value)) := by
        rw [slot_union_enumeration hkinds hvalue, if_pos rfl, slot_eq_absent_iff.mpr hmem,
          Slot.absent_union]
      have hliteral : (kinds.union (enumeration d (some value))).enumValue = value := by
        simp [enumValue, (slot_eq_holds_iff.mp hslot).2]
      exact .inr ⟨rfl, hliteral.symm ▸ hliterals hplain⟩

theorem payload?_without_of_none (h : t.payload? tag = none) (tags : Tags) :
    (t.without tags).payload? tag = none :=
  List.find?_eq_none.mpr fun p hp => List.find?_eq_none.mp h p (List.mem_filter.mp hp).1

/-- What is asked of every level of the smaller type: nothing competes with the unqualified object
and with members of enumerations, these stand for literals, and nothing is empty. -/
@[mk_iff] structure Tidy (table : DeclTable) (t : Ty) : Prop where
  object : t.LoneObject
  enum : t.MembersApart
  literal : t.LiteralEnum
  filled : t.Filled table

instance : DecidablePred (Tidy table) := fun t => decidable_of_iff' _ (tidy_iff table t)

/-- What is asked of every level of the larger type: nothing competes with the unqualified object,
and members of enumerations are not accounted for by all literals together. -/
@[mk_iff] structure Roomy (t : Ty) : Prop where
  object : t.LoneObject
  literals : t.EnumsBesideLiterals

instance : DecidablePred Roomy := fun t => decidable_of_iff' _ (roomy_iff t)

/-- Members of enumerations may be accounted for by literals, all other kinds by the kind itself or
by the unqualified object. -/
theorem StrictlyCoveredBy.reached (h : a.StrictlyCoveredBy table R b) (htag : tag ∈ a.tags) :
    (tag ∈ b.tags ∨ b.isPlainObject) ∨
      (tag = .enum ∧ .enum ∉ b.tags ∧ b.isPlainObject = false ∧ R a.enumValue b) := by
  cases hplain : b.isPlainObject with
  | true => exact .inl (.inr rfl)
  | false =>
    rcases h tag htag with ⟨hmem, -⟩ | ⟨hnot, ⟨hplain', -⟩ | ⟨rfl, hvalue⟩⟩
    · exact .inl (.inl hmem)
    · simp [hplain] at hplain'
    · exact .inr ⟨rfl, hnot, rfl, hvalue⟩

namespace MeetSteps

variable {shared first : Ty} (htable : table.WellFormed) (ha : a.WellFormed) (hb : b.WellFormed)
  (hlevel : a.Tidy table) (hlevel' : b.Roomy) (hexpanded : b.Expanded)
  (hmeet : ComponentsAbsorb table (meet? table n) a b)
  (hcovered : a.StrictlyCoveredBy table (Simulated table) b)
  (h : MeetSteps table n a b m shared first)

include htable ha hb hlevel hlevel' hmeet hcovered h

theorem kinds_equivalent {tag : Tag} (htag : tag ∈ a.tags)
    (htag' : tag ∈ b.tags ∨ b.isPlainObject) :
    Slot.Equivalent table ((b.withKinds a (a.withKinds b shared)).slot tag) (a.slot tag) :=
  slot_kinds_equivalent h.tags h.shared_wellFormed ha hb hlevel.object hlevel'.object htable
    hlevel.filled hmeet hcovered htag htag'

include hexpanded

/-- The smaller type has members of enumerations, and the larger one stands for them. -/
theorem absorbed_of_left (henum : .enum ∈ a.tags) (henum' : .enum ∉ b.tags)
    (hvalue : meetExpanded? table n a.enumValue (a.kindsBeside b) = some value) :
    Absorbed table a ((b.withKinds a (a.withKinds b shared)).union
      (enumeration a.enumDecl? (some value))) := by
  have hrest : (a.kindsBeside b).WellFormed := hb.without _
  have hvalue_wf : value.WellFormed := .meetExpanded? htable n _ _ value ha.enumValue hrest hvalue
  refine .union_left h.kinds_wellFormed hvalue_wf ?_ ?_ henum ?_
  · intro tag htag hne
    exact h.kinds_equivalent htable ha hb hlevel hlevel' hmeet hcovered htag
      ((hcovered.reached htag).resolve_right fun h => hne h.1)
  · exact fun tag htag => (mem_of_mem_kinds h.tags h.shared_wellFormed htag).resolve_left
  rcases hcovered.reached henum with (hmem | hplain) | ⟨-, -, hplain, hsimulated⟩
  · exact absurd hmem henum'
  · -- The literals that are found are some of the literals of the members, which are there already.
    have hbelow : value.Below a.enumValue := by
      refine IsLiteral.below_of_bare htable hlevel.literal ha.enumValue hrest
        (by simp [kindsBeside]) hvalue fun tag htag => ?_
      have hlike : ∀ tag ∈ enumValues, tag ∈ objectLike := by decide
      exact payload?_without_of_none (hlevel'.object hplain tag (hlike tag htag)) _
    rw [slot_kinds_of_plain h.tags h.shared_wellFormed ha hb hlevel.object hlevel'.object hplain
      (by decide) henum, slot_union_members ha henum hvalue_wf hbelow]
    exact .refl htable ha .enum
  · -- The literals of the members are all found.
    obtain ⟨⟨p, hp⟩, -, hfound⟩ := enumValue_of_simulated htable ha hb hexpanded
      hlevel.enum hlevel.literal hlevel'.literals henum' hplain hsimulated
    obtain ⟨d, v, rfl, hdecl, hv⟩ := exists_of_payload?_enum hp
    have hplain' : a.isPlainObject = false :=
      Bool.eq_false_iff.mpr fun h => by simp [hcovered.isPlainObject h] at hplain
    have habsent := slot_eq_absent_iff.mpr fun hmem =>
      henum' (mem_of_mem_meetTags? h.tags h.shared_wellFormed.canonical hmem).2
    have hself : Simulated table a.enumValue a.enumValue := .refl htable ha.enumValue
    rw [withKinds_of_not_plain hplain, withKinds_of_not_plain hplain', habsent,
      slot_eq_holds_iff.mpr ⟨henum, hp⟩, hfound value hvalue, hdecl]
    refine .holds ⟨.enum (.inr rfl) ?_, .enum (.inr rfl) ?_⟩
    · rintro u rfl
      simpa [hv] using hself
    · rintro u hu
      cases hu
      rwa [← hv]

omit hexpanded in
/-- The larger type has members of enumerations, and the smaller one stands for them. -/
theorem absorbed_of_right (henum : .enum ∈ b.tags) (henum' : .enum ∉ a.tags)
    (hrest : (b.kindsBeside a).isNever = false)
    (hvalue : meetExpanded? table n b.enumValue (b.kindsBeside a) = some value) :
    Absorbed table a ((b.withKinds a (a.withKinds b shared)).union
      (enumeration b.enumDecl? (some value))) := by
  have hreached {tag : Tag} (htag : tag ∈ a.tags) : tag ∈ b.tags ∨ b.isPlainObject :=
    (hcovered.reached htag).resolve_right fun h => h.2.1 henum
  -- Some kinds are beside the members, and these are not kinds of the larger type.
  have hplain : b.isPlainObject := by
    by_contra hplain
    refine absurd (isEmpty_iff.mpr fun tag htag => ?_) (Bool.eq_false_iff.mp hrest)
    simp only [kindsBeside, without_tags, mem_sdiff, mem_union, not_or] at htag
    exact (hreached htag.1).elim htag.2.1 hplain
  have hrest_wf : (b.kindsBeside a).WellFormed := ha.without _
  have hvalue_wf : value.WellFormed :=
    .meetExpanded? htable n _ _ value hb.enumValue hrest_wf hvalue
  refine .union_right h.kinds_wellFormed hvalue_wf ?_ ?_ henum' fun hplain' => ?_
  · intro tag htag
    exact h.kinds_equivalent htable ha hb hlevel hlevel' hmeet hcovered htag (hreached htag)
  · exact fun tag htag => (mem_of_mem_kinds h.tags h.shared_wellFormed htag).resolve_left
  · rw [enumValue_of_none (hlevel'.object hplain .enum (by decide))] at hvalue
    have hrest_plain : (b.kindsBeside a).isPlainObject = false :=
      Bool.eq_false_iff.mpr fun h => by simp [isPlainObject_of_without h] at hplain'
    have hbelow :=
      meetExpanded?_enumValues_below htable hrest_wf (by simp [kindsBeside]) hrest_plain hvalue
    exact ⟨_, below_isSimulation htable, hvalue_wf, ha,
      hbelow.trans hvalue_wf hrest_wf ha (without_below ha _)⟩

/-- The intersection of a level with a larger one says the same as the smaller one. -/
theorem absorbed : Absorbed table a m := by
  rcases meetEnum?_cases h.left with ⟨hfirst, hskip⟩ | ⟨henum, henum', -, value, hvalue, -, hfirst⟩
  · rcases meetEnum?_cases h.right with ⟨hm, -⟩ | ⟨henum, henum', hrest, value, hvalue, -, hm⟩
    · rw [hm, hfirst]
      refine ⟨fun tag htag => ?_, fun tag htag hnot => .inl ?_⟩
      · rcases hcovered.reached htag with htag' | ⟨rfl, henum, hplain, hsimulated⟩
        · exact h.kinds_equivalent htable ha hb hlevel hlevel' hmeet hcovered htag htag'
        -- Members that are accounted for by literals would have been added.
        obtain ⟨-, hrest, hfound⟩ := enumValue_of_simulated htable ha hb hexpanded
          hlevel.enum hlevel.literal hlevel'.literals henum hplain hsimulated
        rcases hskip with hnot | hmem | hnever | ⟨value, hvalue, hnever⟩
        · exact absurd htag hnot
        · exact absurd hmem henum
        · simp [hrest] at hnever
        · rw [hfound value hvalue] at hnever
          simp [hlevel.literal.isNever_eq_false] at hnever
      · exact (mem_of_mem_kinds h.tags h.shared_wellFormed htag).resolve_left hnot
    · rw [hm, hfirst]
      exact h.absorbed_of_right htable ha hb hlevel hlevel' hmeet hcovered henum henum' hrest hvalue
  · have hm : m = first := by
      rcases meetEnum?_cases h.right with ⟨hm, -⟩ | ⟨hmem, -⟩
      · exact hm
      · exact absurd hmem henum'
    rw [hm, hfirst]
    exact h.absorbed_of_left htable ha hb hlevel hlevel' hexpanded hmeet hcovered henum henum'
      hvalue

end MeetSteps

/-! ### All levels -/

/-- A type is not empty if its expansion is not. -/
theorem isNever_eq_false_of_expand (h : (t.expand table).isNever = false) : t.isNever = false :=
  Bool.eq_false_iff.mpr fun hnever => by simp [expand_of_isNever hnever, hnever] at h

namespace Absorbed

variable (h : Absorbed table (a.expand table) m)

include h

/-- What is in common refers to no typedefs, like the smaller type. -/
theorem expanded (hexpanded : table.Expanded) (hm : m.WellFormed) : m.Expanded := by
  intro hsynonym
  have hmem := hasSynonym_iff.mp hsynonym
  have hmem' : .synonym ∈ (a.expand table).tags := by
    by_contra hnot
    rcases h.added .synonym hmem hnot with ⟨-, hlike⟩ | ⟨henum, -⟩
    · exact absurd hlike (by decide)
    · cases henum
  have hany := expand_expanded hexpanded a (hasSynonym_iff.mpr hmem')
  have hslots := h.slots
  rw [hany] at hslots
  refine Canonical.ext_slot hm.canonical WellFormed.any.canonical fun tag => ?_
  refine (hslots tag (by cases tag <;> decide)).eq_of_isValue fun p hp => ?_
  cases (slot_eq_holds_iff.mp hp).2

variable (ha : (a.expand table).isNever = false)

include ha

theorem isNever_eq_false : m.isNever = false := by
  refine Bool.eq_false_iff.mpr fun hnever => Bool.eq_false_iff.mp ha ?_
  refine isEmpty_iff.mpr fun tag htag => ?_
  exact isEmpty_iff.mp hnever tag ((h.slots tag htag).symm.tagCoveredBy htag).1

variable (hexpanded : m.Expanded)

include hexpanded

theorem simulated_left : Simulated table m a := by
  refine Compared.simulated (.inr ⟨isNever_eq_false_of_expand ha, fun tag htag => ?_⟩)
  rw [hexpanded.expand_eq] at htag ⊢
  by_cases htag' : tag ∈ (a.expand table).tags
  · exact .inl ((h.slots tag htag').tagCoveredBy htag)
  · exact .inr ⟨htag', h.added tag htag htag'⟩

theorem simulated_right : Simulated table a m := by
  refine Compared.simulated (.inr ⟨h.isNever_eq_false ha, fun tag htag => .inl ?_⟩)
  rw [hexpanded.expand_eq]
  exact (h.slots tag htag).symm.tagCoveredBy htag

end Absorbed

/-- The intersection of a type with a larger one is equivalent to the type. -/
theorem Simulated.absorbs (htable : table.WellFormed)
    (hexpanded : table.Expanded) (ha : a.WellFormed) (hb : b.WellFormed)
    (htidy : a.EveryLevel table (Tidy table)) (hroomy : b.EveryLevel table Roomy)
    (hne : (a.expand table).isNever = false) (h : Simulated table a b) :
    Absorbs table (meet? table n) a b := by
  induction n generalizing a b with
  | zero =>
    intro m hm
    have ha_ne := isNever_eq_false_of_expand hne
    obtain ⟨hb_ne, -⟩ := (Simulated.isSimulation table a b h).resolve_left (by simp [ha_ne])
    simp [meet?, ha_ne, hb_ne, meetExpanded?] at hm
  | succ n ih =>
    intro m hm
    have ha_ne := isNever_eq_false_of_expand hne
    obtain ⟨hb_ne, hcovered⟩ := (Simulated.isSimulation table a b h).resolve_left (by simp [ha_ne])
    have ha' := ha.expand htable
    have hb' := hb.expand htable
    simp only [meet?, ha_ne, hb_ne, Bool.or_self, Bool.false_eq_true, if_false] at hm
    obtain ⟨shared, first, hsteps⟩ := exists_meetSteps htable ha' hb' hm
    have hmeet : ComponentsAbsorb table (meet? table n) (a.expand table) (b.expand table) := by
      intro p hp t ht q hq u hu htu
      exact ih ((ha'.payload hp).nested t ht) ((hb'.payload hq).nested u hu)
        (htidy.component hp ht) (hroomy.component hq hu)
        (htidy.level.filled.components p hp t ht) htu
    have habsorbed :=
      hsteps.absorbed htable ha' hb' htidy.level hroomy.level (expand_expanded hexpanded b) hmeet
        hcovered
    have hm' := habsorbed.expanded hexpanded hsteps.wellFormed
    exact ⟨habsorbed.isNever_eq_false hne, habsorbed.simulated_left hne hm',
      habsorbed.simulated_right hne hm'⟩

/-- A well-formed type without payloads for methods satisfies both demands. -/
theorem MethodFree.full (hfree : t.MethodFree) (h : t.WellFormed) : t.Full := by
  induction h with
  | intro hcanonical _ hdecls _ ih =>
    exact ⟨fun _ => hcanonical trivial, fun _ => hfree.payload, hdecls,
      fun p hp c hc => ih p hp c hc (hfree.nested p hp c hc)⟩

end Ty

/-- Intersecting with a supertype changes nothing: in every program, the intersection of a type with
a supertype is a subtype of the type and a supertype of it, if nothing competes with the unqualified
object and with members of enumerations at any level of the types and nothing is empty inside of the
smaller one. -/
theorem meet_supertype (source : Source) {a b : Ty} (ha : a.WellFormed) (hb : b.WellFormed)
    (hafree : a.MethodFree) (hbfree : b.MethodFree)
    (htidy : a.EveryLevel source.program.table (Ty.Tidy source.program.table))
    (hroomy : b.EveryLevel source.program.table Ty.Roomy)
    (hne : a.isNever = true ∨ (a.expand source.program.table).isNever = false)
    (hab : a.subtype source.program.table b = true) {n : Nat} {m : Ty}
    (h : meet? source.program.table n a b = some m) :
    m.subtype source.program.table a = true ∧ a.subtype source.program.table m = true := by
  have htable := source.program_table_wellFormed
  have hmethods := source.program_table_methodFree
  have hm : m.WellFormed := .meet? htable ha hb h
  have hmfree : m.MethodFree := by
    have hfull : source.program.table.Formed .full := fun e he => (hmethods e he).full (htable e he)
    exact .of_formed (.meet? hfull (hafree.full ha) (hbfree.full hb) h) trivial
  rw [subtype_iff_simulated htable hmethods ha hb hafree] at hab
  rw [subtype_iff_simulated htable hmethods hm ha hmfree,
    subtype_iff_simulated htable hmethods ha hm hafree]
  rcases hne with hnever | hne
  · have hm : m.isNever = true := by
      rw [meet?, hnever] at h
      exact Option.some.inj h ▸ rfl
    exact ⟨Ty.Compared.simulated (.inl hm), Ty.Compared.simulated (.inl hnever)⟩
  · exact (hab.absorbs htable source.program_table_expanded ha hb htidy hroomy hne m h).2

/-- Trees are objects, and members of enumerations that stand for five are numbers. The intersection
shows what the trees are. -/
theorem meet_supertype_nestedLists :
    let table := nestedLists.program.table
    let tree := exact (.synonym (.one 1))
    let number := ofTags (.single .number)
    let fives := enumeration none (some (.exact (.number 5)))
    let pair := tuple [tree, fives]
    let larger := tuple [.ofTags (.ofList [.null, .object]), .ofTags (.ofList [.null, .number])]
    let both := tuple [number.union (.array tree), fives]
    (pair.subtype table larger = true ∧ larger.subtype table pair = false) ∧
      meet? table 3 pair larger = some both ∧
      both.subtype table pair = true ∧ pair.subtype table both = true := by
  intro table tree number fives pair larger both
  have hsubtype : pair.subtype table larger = true := by decide +kernel
  have hmeet : meet? table 3 pair larger = some both := by decide +kernel
  have hpair : pair.WellFormed ∧ pair.MethodFree := by decide +kernel
  have hlarger : larger.WellFormed ∧ larger.MethodFree := by decide +kernel
  have htidy : pair.EveryLevel table (Ty.Tidy table) := .of_levels 2 (by decide +kernel)
  have hroomy : larger.EveryLevel table Ty.Roomy := .of_levels 1 (by decide +kernel)
  exact ⟨⟨hsubtype, by decide +kernel⟩, hmeet, meet_supertype nestedLists hpair.1 hlarger.1
    hpair.2 hlarger.2 htidy hroomy (.inr (by decide +kernel)) hsubtype hmeet⟩

/-- Empty arrays are arrays of numbers, but have nothing in common with them. Numbers that are
members of enumerations are lost beside another number. -/
theorem not_meet_supertype_empty :
    let table := nestedLists.program.table
    let number := ofTags (.single .number)
    let seven := exact (.number 7)
    let empty := array .never
    let mixed := (enumeration none (some number)).union seven
    (empty.WellFormed ∧ mixed.WellFormed ∧ empty.MethodFree ∧ mixed.MethodFree) ∧
      (empty.subtype table (.array number) = true ∧
        meet? table 2 empty (.array number) = some .never ∧
        empty.subtype table .never = false) ∧
      mixed.subtype table number = true ∧ meet? table 2 mixed number = some seven ∧
      mixed.subtype table seven = false := by decide +kernel

end TypeFlow
