import TypeFlow.Proofs.EqualityBranches

/-!
# What narrowing by equality leaves

Narrowing by equality goes through the kinds of a type and keeps of each kind what may equal a value
of the other type. Whether it leaves anything can be told from the operands, where members of
enumerations are replaced by their literals, as long as this forgets none of the literals: a kind is
kept for a number that can be converted to it, for a boolean or a number for which it stands, or for
what the two types have in common of it. Beside that, the unqualified object keeps all but null.
-/

namespace TypeFlow.Ty

open List
open Option hiding or_assoc

variable {table : DeclTable} {a b r t u x y : Ty} {n : Nat} {tag : Tag}

/-! ### Kinds of which something is kept -/

/-- The number of `x` of the kind `k` may be one of `y` of the kind `l`: if it is known, it can be
converted, and what it is converted to is the number of `y`, as far as that is known. -/
def NumberFits (x y : Ty) (k l : Tag) : Prop :=
  ∀ q, x.quantity? k = some q → ∃ c, q.convert l = some c ∧ ∀ p, y.payload? l = some p → p = c

/-- The number of `x` of the kind `k` may be that for which the boolean `tag` stands. -/
def NumberIsTruth (x : Ty) (k tag : Tag) : Prop :=
  ∀ q, x.quantity? k = some q → q.same (.int (if tag = .true then 1 else 0))

/-- Something is kept of the kind `tag` of `y` when its values equal one of `x`. -/
def KindKept (table : DeclTable) (x y : Ty) (tag : Tag) : Prop :=
  if tag ∈ Tags.comparable then ∃ k ∈ Tags.comparable, k ∈ x.tags ∧ NumberFits x y k tag
  else if tag ∈ Tags.boolean then
    tag ∈ x.tags ∨ ∃ k ∈ Tags.numeric, k ∈ x.tags ∧ NumberIsTruth x k tag
  else tag ∈ x.tags ∧ (meet table (x.part tag) (y.part tag)).isNever = false

/-- Something is kept of the part with the tag `tag`, where members of enumerations are kept if
something is left of their literals. -/
def PartKept (table : DeclTable) (n : Nat) (x y : Ty) (tag : Tag) : Prop :=
  if tag = .enum then ∃ v, narrowEq? table n x y.enumValue = some v ∧ v.isNever = false
  else KindKept table x y tag

theorem isNever_union_iff :
    (a.union b).isNever = false ↔ a.isNever = false ∨ b.isNever = false := by
  simp only [isNever_eq_false_iff, union_tags, Tags.mem_union, exists_or]

theorem isNever_unionAll_iff {ts : List Ty} :
    (unionAll ts).isNever = false ↔ ∃ t ∈ ts, t.isNever = false := by
  suffices h : ∀ acc : Ty, (ts.foldl union acc).isNever = false ↔
      acc.isNever = false ∨ ∃ t ∈ ts, t.isNever = false from
    (h never).trans (or_iff_right (by decide))
  intro acc
  induction ts generalizing acc with
  | nil => simp
  | cons t ts ih => rw [foldl_cons, ih, isNever_union_iff, exists_mem_cons_iff, or_assoc]

theorem isNever_exact (p : Payload Ty) : (exact p).isNever = false :=
  isNever_eq_false_iff.mpr ⟨p.tag, by simp [exact]⟩

theorem isNever_part_iff : (t.part tag).isNever = false ↔ tag ∈ t.tags := by
  rw [isNever_eq_false_iff]
  simp only [part, mem_restrictedTo, Tags.mem_single]
  exact ⟨fun ⟨_, h, heq⟩ => heq ▸ h, fun h => ⟨tag, h, rfl⟩⟩

theorem payload?_part (ht : t.WellFormed) : (t.part tag).payload? tag = t.payload? tag := by
  have hpart : (t.part tag).WellFormed := ht.part tag
  exact payload?_eq_of_slot_eq hpart.canonical.tagged ht.canonical.tagged
    (slot_restrictedTo t (Tags.mem_single.mpr rfl))

/-- A known number is kept if it can be converted to one of the narrowed type. -/
theorem isNever_equalNumber_iff (hy : y.WellFormed) {k : Tag} {q : Quantity}
    (hq : x.quantity? k = some q) :
    (equalNumber x (y.part tag) tag k).isNever = false ↔ NumberFits x y k tag := by
  have hnever : never.isNever := rfl
  unfold equalNumber NumberFits
  rw [payload?_part hy]
  cases hc : q.convert tag with
  | none => simp [hq, hc, hnever]
  | some c =>
    cases hp : y.payload? tag with
    | none => simp [hq, hc, isNever_exact]
    | some p =>
      by_cases heq : p = c
      · simp [hq, hc, heq, isNever_exact]
      · simp [hq, hc, heq, Ne.symm heq, hnever]

/-- A number is kept if some number of the other type may be it. -/
theorem isNever_numericEqual_iff (hy : y.WellFormed) (htag : tag ∈ y.tags) :
    (numericEqual x (y.part tag) tag).isNever = false ↔
      ∃ k ∈ Tags.comparable, k ∈ x.tags ∧ NumberFits x y k tag := by
  have hkind {k : Tag} : k ∈ (x.tags ∩ .comparable).toList ↔ k ∈ x.tags ∧ k ∈ Tags.comparable := by
    simp
  rw [numericEqual_eq]
  split
  · next hunknown =>
    obtain ⟨k, hk, hnone⟩ := List.any_eq_true.mp hunknown
    have hfits : NumberFits x y k tag := by
      intro q hq
      simp [hq] at hnone
    obtain ⟨hx, hk⟩ := hkind.mp hk
    exact ⟨fun _ => ⟨k, hk, hx, hfits⟩, fun _ => isNever_part_iff.mpr htag⟩
  · next hknown =>
    have hsome {k : Tag} (hx : k ∈ x.tags) (hk : k ∈ Tags.comparable) :
        ∃ q, x.quantity? k = some q := by
      simp only [List.any_eq_true, not_exists, not_and, isNone_iff_eq_none] at hknown
      exact ne_none_iff_exists'.mp (hknown k (hkind.mpr ⟨hx, hk⟩))
    rw [isNever_unionAll_iff]
    constructor
    · rintro ⟨t, ht, hne⟩
      obtain ⟨k, hk, rfl⟩ := List.mem_map.mp ht
      obtain ⟨hx, hk⟩ := hkind.mp hk
      obtain ⟨q, hq⟩ := hsome hx hk
      exact ⟨k, hk, hx, (isNever_equalNumber_iff hy hq).mp hne⟩
    · rintro ⟨k, hk, hx, hfits⟩
      obtain ⟨q, hq⟩ := hsome hx hk
      exact ⟨_, List.mem_map_of_mem (hkind.mpr ⟨hx, hk⟩), (isNever_equalNumber_iff hy hq).mpr hfits⟩

/-- A boolean is kept if the other type has it or a number for which it stands. -/
theorem isNever_booleanEqual_iff : (booleanEqual x tag).isNever = false ↔
    tag ∈ x.tags ∨ ∃ k ∈ Tags.numeric, k ∈ x.tags ∧ NumberIsTruth x k tag := by
  have hone (tag : Tag) : (ofTags (.single tag)).isNever = false :=
    isNever_eq_false_iff.mpr ⟨tag, Tags.mem_single.mpr rfl⟩
  unfold booleanEqual NumberIsTruth
  generalize Quantity.int (if tag = .true then 1 else 0) = wanted
  dsimp only
  split
  · next h =>
    simp only [Bool.or_eq_true, List.any_eq_true, Tags.mem_toList, Tags.mem_inter] at h
    refine iff_of_true (hone tag) (h.imp_right ?_)
    rintro ⟨k, ⟨hx, hk⟩, hsurvives⟩
    refine ⟨k, hk, hx, fun q hq => ?_⟩
    simpa [hq] using hsurvives
  · next h =>
    simp only [Bool.or_eq_true, List.any_eq_true, Tags.mem_toList, Tags.mem_inter] at h
    refine iff_of_false (by decide) fun h' => h (h'.imp_right ?_)
    rintro ⟨k, hk, hx, htruth⟩
    refine ⟨k, ⟨hx, hk⟩, ?_⟩
    cases hq : x.quantity? k with
    | none => rfl
    | some q => exact htruth q hq

/-- Something is left of a kind that is no enumeration exactly if something is kept of it. -/
theorem isNever_equalPart?_kind_iff (hy : y.WellFormed) (htag : tag ∈ y.tags) (henum : tag ≠ .enum)
    {part : Ty} (h : equalPart? table n x y tag = some part) :
    part.isNever = false ↔ KindKept table x y tag := by
  rw [equalPart?, if_neg henum] at h
  unfold KindKept
  by_cases hcomparable : tag ∈ Tags.comparable
  · rw [if_pos (Tags.mem_iff.mp hcomparable)] at h
    rw [if_pos hcomparable, ← isNever_numericEqual_iff hy htag, some.inj h]
  rw [if_neg (mt Tags.mem_iff.mpr hcomparable)] at h
  rw [if_neg hcomparable]
  by_cases hboolean : tag ∈ Tags.boolean
  · rw [if_pos (Tags.mem_iff.mp hboolean)] at h
    rw [if_pos hboolean, ← isNever_booleanEqual_iff, some.inj h]
  rw [if_neg (mt Tags.mem_iff.mpr hboolean)] at h
  rw [if_neg hboolean]
  by_cases hx : tag ∈ x.tags
  · rw [if_pos (Tags.mem_iff.mp hx)] at h
    rw [meet, h, getD_some, and_iff_right hx]
  · rw [if_neg (mt Tags.mem_iff.mpr hx)] at h
    cases h
    exact iff_of_false (by decide) fun h => hx h.1

/-- Members of an enumeration are kept if something is left of their literals. -/
theorem isNever_equalPart?_enum_iff {part : Ty} (h : equalPart? table n x y .enum = some part) :
    part.isNever = false ↔ ∃ v, narrowEq? table n x y.enumValue = some v ∧ v.isNever = false := by
  rw [equalPart?, if_pos rfl] at h
  obtain ⟨v, hv, h⟩ := bind_eq_some_iff.mp h
  rw [hv]
  unfold nonempty? at h
  cases hne : v.isNever with
  | true =>
    simp only [hne, if_true] at h
    cases h
    exact iff_of_false (by decide) (by simp [hne])
  | false =>
    simp only [hne, Bool.false_eq_true, if_false] at h
    cases h
    have henum : .enum ∈ (enumeration y.enumDecl? (some v)).tags := by
      simp [enumeration, exact, Payload.tag]
    exact iff_of_true (isNever_eq_false_iff.mpr ⟨.enum, henum⟩) ⟨v, rfl, hne⟩

theorem isNever_equalPart?_iff (hy : y.WellFormed) (htag : tag ∈ y.tags) {part : Ty}
    (h : equalPart? table n x y tag = some part) :
    part.isNever = false ↔ PartKept table n x y tag := by
  unfold PartKept
  by_cases henum : tag = .enum
  · subst henum
    exact isNever_equalPart?_enum_iff h
  · rw [if_neg henum]
    exact isNever_equalPart?_kind_iff hy htag henum h

/-! ### Operands -/

/-- Replacing members of enumerations by their literals forgets nothing about literals. -/
@[mk_iff] structure EnumsKept (t : Ty) : Prop where
  kinds : ∀ tag ∈ t.tags, tag ≠ .enum → t.enumToValue.payload? tag = t.payload? tag
  literals : .enum ∈ t.tags →
    ∀ tag ∈ t.enumValue.tags, t.enumToValue.payload? tag = t.enumValue.payload? tag

instance : DecidablePred EnumsKept := fun t => decidable_of_iff' _ (enumsKept_iff t)

theorem enumToValue_of_notMem (h : .enum ∉ t.tags) : t.enumToValue = t :=
  if_neg (mt Tags.mem_iff.mpr h)

theorem EnumsKept.of_notMem (h : .enum ∉ t.tags) : t.EnumsKept :=
  ⟨fun _ _ _ => by rw [enumToValue_of_notMem h], fun henum => absurd henum h⟩

theorem mem_enumToValue_iff : tag ∈ t.enumToValue.tags ↔
    (tag ∈ t.tags ∧ tag ≠ .enum) ∨ (.enum ∈ t.tags ∧ tag ∈ t.enumValue.tags) := by
  by_cases henum : .enum ∈ t.tags
  · rw [enumToValue, if_pos (Tags.mem_iff.mp henum)]
    simp [henum]
  · rw [enumToValue_of_notMem henum]
    grind

/-- Kinds that are no literals are those of the type itself. -/
theorem slot_enumToValue (ht : t.WellFormed) (hliteral : t.LiteralEnum)
    (htag : tag ∉ Tags.valueTypes) (henum : tag ≠ .enum) :
    t.enumToValue.slot tag = t.slot tag := by
  by_cases hmem : .enum ∈ t.tags
  · have hvalues : ∀ tag ∈ Tags.enumValues, tag ∈ Tags.valueTypes := by decide
    have hnot : tag ∉ t.enumValue.tags := fun h => htag (hvalues tag (hliteral.tags tag h))
    have hrest : (t.without (.single .enum)).WellFormed := ht.without _
    have hvalue : t.enumValue.WellFormed := ht.enumValue
    rw [enumToValue, if_pos (Tags.mem_iff.mp hmem), slot_union hrest.canonical hvalue.canonical,
      if_neg (fun h => htag h.2), slot_eq_absent_iff.mpr hnot, slot_without,
      if_neg (by simpa using henum), Slot.union_absent]
  · rw [enumToValue_of_notMem hmem]

theorem isPlainObject_enumToValue (ht : t.WellFormed) (hliteral : t.LiteralEnum) :
    t.enumToValue.isPlainObject = t.isPlainObject := by
  rw [Bool.eq_iff_iff, isPlainObject_iff_slot, isPlainObject_iff_slot,
    slot_enumToValue ht hliteral (by decide) (by decide)]

theorem enum_notMem_enumToValue (hliteral : t.LiteralEnum) : .enum ∉ t.enumToValue.tags := by
  rw [mem_enumToValue_iff]
  rintro (⟨-, h⟩ | ⟨-, h⟩)
  · exact h rfl
  · exact absurd (hliteral.tags _ h) (by decide)

theorem expand_any_enumToValue : any.enumToValue.expand table = any := by exact union_any _

/-- Operands refer to no typedefs, unless they have all kinds but enumerations. -/
theorem operand_cases (hexpanded : table.Expanded) (hliteral : (t.expand table).LiteralEnum) :
    .synonym ∉ (t.operand table).tags ∨ t.operand table = any.enumToValue := by
  by_cases hsynonym : (t.expand table).hasSynonym
  · exact .inr (congrArg enumToValue (expand_expanded hexpanded t hsynonym))
  · refine .inl fun h => ?_
    rw [operand, mem_enumToValue_iff] at h
    rcases h with ⟨h, -⟩ | ⟨-, h⟩
    · exact hsynonym (hasSynonym_iff.mpr h)
    · exact absurd (hliteral.tags _ h) (by decide)

theorem operand_expand (hexpanded : table.Expanded) (t : Ty) :
    (t.expand table).operand table = t.operand table :=
  congrArg enumToValue (expand_expand hexpanded t)

theorem operand_of_isNever (h : t.isNever) : t.operand table = t := by
  rw [operand, expand_of_isNever h, enumToValue_of_notMem (Tags.isEmpty_iff.mp h .enum)]

theorem isNever_eq_false_of_fits_operand {v : Value} (h : v.Fits table (t.operand table)) :
    t.isNever = false := by
  refine Bool.eq_false_iff.mpr fun hnever => ?_
  have hnone := Tags.isEmpty_iff.mp hnever
  rw [operand_of_isNever hnever] at h
  rcases h with ⟨htag, -⟩ | ⟨hplain, -⟩
  · exact hnone v.tag htag
  · exact hnone .object (isPlainObject_iff.mp hplain).1

section

variable (hexpanded : table.Expanded) (hliteral : (t.expand table).LiteralEnum)

include hexpanded hliteral

theorem operand_operand : (t.operand table).operand table = t.operand table := by
  rcases operand_cases hexpanded hliteral with h | h
  · rw [operand, expand_of_notMem h]
    exact enumToValue_of_notMem (enum_notMem_enumToValue hliteral)
  · rw [h, operand, expand_any_enumToValue]

theorem literalEnum_expand_operand (htable : table.WellFormed) (ht : t.WellFormed) :
    ((t.operand table).expand table).LiteralEnum := by
  rcases operand_cases hexpanded hliteral with h | h
  · have hnone := WellFormed.payload?_eq_none (operand_wellFormed htable ht)
      (enum_notMem_enumToValue hliteral)
    rw [expand_of_notMem h, LiteralEnum, enumValue, hnone]
    exact isLiteral_enumValues
  · rw [h]
    exact literalEnum_ofTags _

theorem enumsKept_expand_operand : ((t.operand table).expand table).EnumsKept := by
  rcases operand_cases hexpanded hliteral with h | h
  · rw [expand_of_notMem h]
    exact .of_notMem (enum_notMem_enumToValue hliteral)
  · rw [h, expand_any_enumToValue]
    exact ⟨fun _ _ _ => rfl, fun _ _ _ => rfl⟩

end

/-! ### What narrowing leaves -/

section

variable (hna : a.isNever = false) (hnb : b.isNever = false)
  (h : narrowEq? table (n + 1) a b = some r) (hx : a.operand table = x) (hy : b.expand table = y)

include hna hnb h hx hy

/-- Narrowing leaves something of a part, or all that is not null if the other type is the
unqualified object. -/
theorem isNever_narrowEq?_iff (htable : table.WellFormed) (ha : a.WellFormed) (hb : b.WellFormed)
    (hliteral : (a.expand table).LiteralEnum) :
    r.isNever = false ↔ (∃ tag ∈ y.tags, PartKept table n x y tag) ∨
      (x.isPlainObject ∧ ∃ tag ∈ y.tags, tag ≠ .null) := by
  subst hx hy
  have hb' := hb.expand htable
  obtain ⟨parts, hparts, rfl⟩ := narrowEq?_succ hna hnb h
  have hkept : (unionAll parts).isNever = false ↔
      ∃ tag ∈ (b.expand table).tags, PartKept table n (a.operand table) (b.expand table) tag := by
    rw [isNever_unionAll_iff]
    constructor
    · rintro ⟨part, hmem, hne⟩
      obtain ⟨tag, htag, hpart⟩ := hparts.origin part hmem
      rw [Tags.mem_toList] at htag
      exact ⟨tag, htag, (isNever_equalPart?_iff hb' htag hpart).mp hne⟩
    · rintro ⟨tag, htag, hpartKept⟩
      obtain ⟨part, hmem, hpart⟩ := hparts.given tag (Tags.mem_toList.mpr htag)
      exact ⟨part, hmem, (isNever_equalPart?_iff hb' htag hpart).mpr hpartKept⟩
  have hrest : ((b.expand table).without (.single .null)).isNever = false ↔
      ∃ tag ∈ (b.expand table).tags, tag ≠ .null := by
    simp [isNever_eq_false_iff]
  rw [← hkept, ← hrest, operand, isPlainObject_enumToValue (ha.expand htable) hliteral]
  split
  · next hplain => rw [isNever_union_iff, and_iff_right hplain]
  · next hplain => simp [hplain]

/-- The literals of an enumeration are narrowed on the way. -/
theorem exists_narrowEq?_enumValue (henum : .enum ∈ y.tags) :
    ∃ v, narrowEq? table n x y.enumValue = some v := by
  subst hx hy
  obtain ⟨parts, hparts, -⟩ := narrowEq?_succ hna hnb h
  obtain ⟨part, -, hpart⟩ := hparts.given .enum (Tags.mem_toList.mpr henum)
  obtain ⟨v, hv, -⟩ := bind_eq_some_iff.mp hpart
  exact ⟨v, hv⟩

/-- The intersections of common kinds that narrowing makes are defined. -/
theorem isSome_meet?_of_narrowEq? (hmem : tag ∈ x.tags) (hmem' : tag ∈ y.tags)
    (henum : tag ≠ .enum) (hcomparable : tag ∉ Tags.comparable) (hboolean : tag ∉ Tags.boolean) :
    (meet? table (comparisonBound table (x.part tag) (y.part tag)) (x.part tag)
      (y.part tag)).isSome := by
  subst hx hy
  obtain ⟨parts, hparts, -⟩ := narrowEq?_succ hna hnb h
  obtain ⟨part, -, hpart⟩ := hparts.given tag (Tags.mem_toList.mpr hmem')
  change equalPart? table n (a.operand table) _ tag = some part at hpart
  rw [equalPart?, if_neg henum, if_neg (mt Tags.mem_iff.mpr hcomparable),
    if_neg (mt Tags.mem_iff.mpr hboolean), if_pos (Tags.mem_iff.mp hmem)] at hpart
  exact isSome_iff_exists.mpr ⟨part, hpart⟩

end

/-! ### What is left of operands -/

/-- Something is left of `y` when its values equal one of `x`. -/
def Kept (table : DeclTable) (x y : Ty) : Prop :=
  (∃ tag ∈ y.tags, KindKept table x y tag) ∨ (x.isPlainObject ∧ ∃ tag ∈ y.tags, tag ≠ .null)

theorem KindKept.exists_mem (h : KindKept table x y tag) : ∃ k, k ∈ x.tags := by
  unfold KindKept at h
  split at h
  · obtain ⟨k, -, hk, -⟩ := h
    exact ⟨k, hk⟩
  · split at h
    · rcases h with h | ⟨k, -, hk, -⟩
      · exact ⟨tag, h⟩
      · exact ⟨k, hk⟩
    · exact ⟨tag, h.1⟩

theorem Kept.isNever_eq_false (h : Kept table x y) : x.isNever = false ∧ y.isNever = false := by
  simp only [isNever_eq_false_iff]
  rcases h with ⟨tag, hy, hkind⟩ | ⟨hplain, tag, hy, -⟩
  · exact ⟨hkind.exists_mem, tag, hy⟩
  · exact ⟨⟨.object, (isPlainObject_iff.mp hplain).1⟩, tag, hy⟩

/-- Nothing is left when one of the types is empty. -/
theorem isNever_narrowEq?_of_isNever (h : narrowEq? table n a b = some r)
    (hnever : a.isNever ∨ b.isNever) : r.isNever := by
  cases n with
  | zero => cases h
  | succ n =>
    rw [narrowEq?, if_pos (by simpa using hnever)] at h
    cases h
    rfl

theorem part_congr (ht : t.WellFormed) (hu : u.WellFormed) (hmem : tag ∈ t.tags)
    (hmem' : tag ∈ u.tags) (h : t.payload? tag = u.payload? tag) : t.part tag = u.part tag := by
  have hpart : (t.part tag).WellFormed := ht.part tag
  have hpart' : (u.part tag).WellFormed := hu.part tag
  refine Canonical.ext_slot hpart.canonical hpart'.canonical fun kind => ?_
  by_cases hkind : kind ∈ Tags.single tag
  · obtain rfl := Tags.mem_single.mp hkind
    rw [part, part, slot_restrictedTo _ hkind, slot_restrictedTo _ hkind]
    simp only [slot, hmem, hmem', h]
  · rw [part, part, slot_restrictedTo_of_notMem _ hkind, slot_restrictedTo_of_notMem _ hkind]

/-- What is kept of a kind depends on nothing but the kind. -/
theorem kindKept_congr (hy : y.WellFormed) (hu : u.WellFormed) (hmem : tag ∈ y.tags)
    (hmem' : tag ∈ u.tags) (h : y.payload? tag = u.payload? tag) :
    KindKept table x y tag ↔ KindKept table x u tag := by
  unfold KindKept NumberFits
  rw [part_congr hy hu hmem hmem' h, h]

/-- A kind of an operand is one of the type or one of the literals of its enumerations. -/
theorem exists_kindKept_enumToValue_iff (ht : t.WellFormed) (hkept : t.EnumsKept) :
    (∃ tag ∈ t.enumToValue.tags, KindKept table x t.enumToValue tag) ↔
      (∃ tag ∈ t.tags, tag ≠ .enum ∧ KindKept table x t tag) ∨
      (.enum ∈ t.tags ∧ ∃ tag ∈ t.enumValue.tags, KindKept table x t.enumValue tag) := by
  have hoperand := ht.enumToValue
  have hkind {tag : Tag} (htag : tag ∈ t.tags) (henum : tag ≠ .enum) :
      KindKept table x t.enumToValue tag ↔ KindKept table x t tag :=
    kindKept_congr hoperand ht (mem_enumToValue_iff.mpr (.inl ⟨htag, henum⟩)) htag
      (hkept.kinds tag htag henum)
  have hvalue {tag : Tag} (henum : .enum ∈ t.tags) (htag : tag ∈ t.enumValue.tags) :
      KindKept table x t.enumToValue tag ↔ KindKept table x t.enumValue tag :=
    kindKept_congr hoperand ht.enumValue (mem_enumToValue_iff.mpr (.inr ⟨henum, htag⟩)) htag
      (hkept.literals henum tag htag)
  constructor
  · rintro ⟨tag, htag, h⟩
    rcases mem_enumToValue_iff.mp htag with ⟨htag, henum⟩ | ⟨henum, htag⟩
    · exact .inl ⟨tag, htag, henum, (hkind htag henum).mp h⟩
    · exact .inr ⟨henum, tag, htag, (hvalue henum htag).mp h⟩
  · rintro (⟨tag, htag, henum, h⟩ | ⟨henum, tag, htag, h⟩)
    · exact ⟨tag, mem_enumToValue_iff.mpr (.inl ⟨htag, henum⟩), (hkind htag henum).mpr h⟩
    · exact ⟨tag, mem_enumToValue_iff.mpr (.inr ⟨henum, htag⟩), (hvalue henum htag).mpr h⟩

theorem exists_ne_null_enumToValue_iff (hliteral : t.LiteralEnum) :
    (∃ tag ∈ t.enumToValue.tags, tag ≠ .null) ↔ ∃ tag ∈ t.tags, tag ≠ .null := by
  constructor
  · rintro ⟨tag, htag, hne⟩
    rcases mem_enumToValue_iff.mp htag with ⟨htag, -⟩ | ⟨henum, -⟩
    · exact ⟨tag, htag, hne⟩
    · exact ⟨.enum, henum, by decide⟩
  · rintro ⟨tag, htag, hne⟩
    by_cases henum : tag = .enum
    · obtain ⟨kind, hkind, hvalue⟩ := hliteral.exists_mem
      refine ⟨kind, mem_enumToValue_iff.mpr (.inr ⟨henum ▸ htag, hkind⟩), ?_⟩
      rintro rfl
      exact absurd hvalue (by decide)
    · exact ⟨tag, mem_enumToValue_iff.mpr (.inl ⟨htag, henum⟩), hne⟩

section

variable (htable : table.WellFormed) (hexpanded : table.Expanded)

include htable hexpanded

/-- What is left of the literals of an enumeration. -/
theorem isNever_narrowEq?_literal_iff (ha : a.WellFormed) (hliteral : (a.expand table).LiteralEnum)
    {v : Ty} (hv : v.WellFormed) (hvalue : v.IsLiteral)
    (h : narrowEq? table n (a.operand table) v = some r) :
    r.isNever = false ↔ Kept table (a.operand table) v := by
  cases hne : (a.operand table).isNever with
  | true =>
    have hr := isNever_narrowEq?_of_isNever h (.inl hne)
    refine iff_of_false (by simp [hr]) fun hkept => ?_
    simp [hkept.isNever_eq_false.1] at hne
  | false =>
    have hparts {n : Nat} : (∃ tag ∈ v.tags, PartKept table n (a.operand table) v tag) ↔
        ∃ tag ∈ v.tags, KindKept table (a.operand table) v tag := by
      refine exists_congr fun tag => and_congr_right fun htag => ?_
      rw [PartKept, if_neg]
      rintro rfl
      exact absurd (hvalue.tags _ htag) (by decide)
    cases n with
    | zero => cases h
    | succ n =>
      rw [isNever_narrowEq?_iff hne hvalue.isNever_eq_false h (operand_operand hexpanded hliteral)
        hvalue.expand_eq htable (operand_wellFormed htable ha) hv
        (literalEnum_expand_operand hexpanded hliteral htable ha), hparts, Kept]

variable (ha : a.WellFormed) (hliteral : (a.expand table).LiteralEnum) (hb : b.WellFormed)
  (hliteral' : (b.expand table).LiteralEnum) (hkept : (b.expand table).EnumsKept)
  (h : narrowEq? table n (a.expand table) (b.expand table) = some r)

include ha hliteral hb hliteral' hkept h

/-- What narrowing leaves of a type, where both types are seen as operands. -/
theorem isNever_narrowEq?_operand_iff :
    r.isNever = false ↔ Kept table (a.operand table) (b.operand table) := by
  have ha' := ha.expand htable
  have hb' := hb.expand htable
  by_cases hnever : (a.expand table).isNever ∨ (b.expand table).isNever
  · have hr := isNever_narrowEq?_of_isNever h hnever
    refine iff_of_false (by simp [hr]) fun hkept => ?_
    obtain ⟨hx, hy⟩ := hkept.isNever_eq_false
    rw [← operand_expand hexpanded] at hx hy
    rcases hnever with hnever | hnever
    · simp [operand_of_isNever hnever, hnever] at hx
    · simp [operand_of_isNever hnever, hnever] at hy
  simp only [not_or, Bool.not_eq_true] at hnever
  obtain ⟨hna, hnb⟩ := hnever
  cases n with
  | zero => cases h
  | succ n =>
    -- Where the type has members of enumerations, their literals have been narrowed as well.
    have hvalue (henum : .enum ∈ (b.expand table).tags) :
        (∃ v, narrowEq? table n (a.operand table) (b.expand table).enumValue = some v ∧
          v.isNever = false) ↔ Kept table (a.operand table) (b.expand table).enumValue := by
      obtain ⟨v, hv⟩ := exists_narrowEq?_enumValue hna hnb h (operand_expand hexpanded a)
        (expand_expand hexpanded b) henum
      rw [← isNever_narrowEq?_literal_iff htable hexpanded ha hliteral hb'.enumValue hliteral' hv]
      simp [hv]
    have hoperand : b.operand table = (b.expand table).enumToValue := rfl
    rw [isNever_narrowEq?_iff hna hnb h (operand_expand hexpanded a) (expand_expand hexpanded b)
      htable ha' hb' ((expand_expand hexpanded a).symm ▸ hliteral), Kept, hoperand,
      exists_kindKept_enumToValue_iff hb' hkept, exists_ne_null_enumToValue_iff hliteral']
    constructor
    · rintro (⟨tag, htag, hpart⟩ | hobject)
      · unfold PartKept at hpart
        split at hpart
        · next henum =>
          subst henum
          rcases (hvalue htag).mp hpart with hkind | ⟨hobject, -⟩
          · exact .inl (.inr ⟨htag, hkind⟩)
          · exact .inr ⟨hobject, .enum, htag, by decide⟩
        · next henum => exact .inl (.inl ⟨tag, htag, henum, hpart⟩)
      · exact .inr hobject
    · rintro ((⟨tag, htag, henum, hkind⟩ | ⟨henum, hkind⟩) | hobject)
      · refine .inl ⟨tag, htag, ?_⟩
        rwa [PartKept, if_neg henum]
      · refine .inl ⟨.enum, henum, ?_⟩
        exact (hvalue henum).mpr (.inl hkind)
      · exact .inr hobject

omit ha in
/-- Where narrowing ends, so do the intersections of common kinds of the operands. -/
theorem isSome_meet?_operand (hx : tag ∈ (a.operand table).tags)
    (hy : tag ∈ (b.operand table).tags) (hcomparable : tag ∉ Tags.comparable)
    (hboolean : tag ∉ Tags.boolean) :
    (meet? table (comparisonBound table ((a.operand table).part tag) ((b.operand table).part tag))
      ((a.operand table).part tag) ((b.operand table).part tag)).isSome := by
  have hb' := hb.expand htable
  have hoperand := operand_wellFormed htable hb
  have hne {t : Ty} (ht : tag ∈ (t.operand table).tags) : (t.expand table).isNever = false := by
    refine Bool.eq_false_iff.mpr fun hnever => ?_
    rw [← operand_expand hexpanded, operand_of_isNever hnever] at ht
    exact Tags.isEmpty_iff.mp hnever tag ht
  cases n with
  | zero => cases h
  | succ n =>
    rcases mem_enumToValue_iff.mp hy with ⟨htag, henum⟩ | ⟨henum, htag⟩
    · rw [part_congr hoperand hb' hy htag (hkept.kinds tag htag henum)]
      exact isSome_meet?_of_narrowEq? (hne hx) (hne hy) h (operand_expand hexpanded a)
        (expand_expand hexpanded b) hx htag henum hcomparable hboolean
    · have hvalue := hb'.enumValue
      obtain ⟨v, hv⟩ := exists_narrowEq?_enumValue (hne hx) (hne hy) h (operand_expand hexpanded a)
        (expand_expand hexpanded b) henum
      cases n with
      | zero => cases hv
      | succ n =>
        have hnot : tag ≠ .enum := by
          rintro rfl
          exact absurd (hliteral'.tags _ htag) (by decide)
        rw [part_congr hoperand hvalue hy htag (hkept.literals henum tag htag)]
        exact isSome_meet?_of_narrowEq? (isNever_eq_false_iff.mpr ⟨tag, hx⟩)
          hliteral'.isNever_eq_false hv (operand_operand hexpanded hliteral) hliteral'.expand_eq
          hx htag hnot hcomparable hboolean

end

end TypeFlow.Ty
