import TypeFlow.Proofs.EqualityNarrowing

/-!
# Tests for equality with swapped operands

A test for equality and the test with swapped operands fold alike unless narrowing leaves something
of one of the two types only. What is kept for a common boolean, for numbers that fit each other or
for another kind in common is kept from both sides. Three reasons to keep something hold for one
side only: the unqualified object, numbers for which booleans stand, and numbers that can be
converted in one direction.
-/

namespace TypeFlow

open List Option Tags

theorem Binary.Datum.same_comm (x y : Binary.Datum) : x.same y = y.same x := by
  cases x <;> cases y <;> simp [Binary.Datum.same, Bool.beq_comm]

theorem Quantity.same_comm (x y : Quantity) : x.same y = y.same x := by
  cases x <;> cases y <;> simp [same, Double.same, Binary.Datum.same_comm, Bool.beq_comm]

namespace Ty

variable {table : DeclTable} {a b r t u x y : Ty} {n : Nat} {tag : Tag}

/-! ### The verdict on single values -/

/-- The verdict on types of which narrowing leaves something: only single known values are equal. -/
def knownVerdict (a b : Ty) : Option Bool :=
  if !(a.hasValue && b.hasValue) then none
  else if a.tags.intersects .singletons || b.tags.intersects .singletons then
    if a.tags = b.tags then some true else none
  else
    match a.data.head?, b.data.head? with
    | some p, some q =>
      match p.quantity?, q.quantity? with
      | some x, some y => if x.same y then some true else none
      | _, _ => if p = q then some true else none
    | _, _ => none

theorem knownVerdict_ne_false (a b : Ty) : knownVerdict a b ≠ some false := by
  unfold knownVerdict
  grind

theorem knownVerdict_comm (a b : Ty) : knownVerdict a b = knownVerdict b a := by
  unfold knownVerdict
  rw [Bool.and_comm, Bool.or_comm]
  refine if_congr Iff.rfl rfl (if_congr Iff.rfl (if_congr eq_comm rfl rfl) ?_)
  cases a.data.head? with
  | none => cases b.data.head? <;> rfl
  | some p =>
    cases b.data.head? with
    | none => rfl
    | some q =>
      have heq : (if p = q then some true else none) = if q = p then some true else none :=
        if_congr eq_comm rfl rfl
      cases hp : p.quantity? <;> cases hq : q.quantity? <;> simp only [hp, hq, heq]
      rw [Quantity.same_comm]

/-- An object is compared with null, which is left undecided. -/
def ObjectAgainstNull (x y : Ty) : Prop :=
  (.object ∈ x.tags ∧ .null ∈ y.tags) ∨ (.object ∈ y.tags ∧ .null ∈ x.tags)

instance : Decidable (ObjectAgainstNull x y) := inferInstanceAs (Decidable (_ ∨ _))

theorem equalsCheck_eq (ha : a.isNever = false) (hb : b.isNever = false) : equalsCheck table a b =
      if ObjectAgainstNull (a.expand table) (b.expand table) then none
      else if (narrowEq table (a.expand table) (b.expand table)).isNever then some false
      else knownVerdict (a.expand table) (b.expand table) := by
  simp only [equalsCheck, ha, hb, Bool.or_self, Bool.false_eq_true, if_false]
  refine if_congr ?_ rfl rfl
  simp [ObjectAgainstNull, mem_iff]

/-! ### Reasons to keep something -/

/-- Operands have values that may be equal, and this is seen from both sides: a common boolean,
numbers that fit each other, or another kind in common. -/
inductive MayEqual (table : DeclTable) (x y : Ty) : Prop
  | boolean {tag : Tag} (htag : tag ∈ Tags.boolean) (hx : tag ∈ x.tags) (hy : tag ∈ y.tags)
  | number {k l : Tag} (hk : k ∈ comparable) (hl : l ∈ comparable) (hx : k ∈ x.tags)
      (hy : l ∈ y.tags) (hxy : NumberFits x y k l) (hyx : NumberFits y x l k)
  | common {tag : Tag} (hcomparable : tag ∉ Tags.comparable) (hboolean : tag ∉ Tags.boolean)
      (hx : tag ∈ x.tags) (hy : tag ∈ y.tags)
      (h : (meet table (x.part tag) (y.part tag)).isNever = false)

/-- Operands have values that may be equal, as far as is seen from `x`: `x` is the unqualified
object, it has a number for which a boolean of `y` stands, or a number that fits one of `y`, but not
the other way round. -/
inductive OneSided (x y : Ty) : Prop
  | object {tag : Tag} (hx : x.isPlainObject) (hy : tag ∈ y.tags) (hnull : tag ≠ .null)
  | truth {k tag : Tag} (hk : k ∈ Tags.numeric) (htag : tag ∈ Tags.boolean) (hx : k ∈ x.tags)
      (hy : tag ∈ y.tags) (h : NumberIsTruth x k tag)
  | number {k l : Tag} (hk : k ∈ comparable) (hl : l ∈ comparable) (hx : k ∈ x.tags)
      (hy : l ∈ y.tags) (hxy : NumberFits x y k l) (hyx : ¬NumberFits y x l k)

/-- Something is kept for a reason of one of both sorts. -/
theorem kept_iff : Kept table x y ↔ MayEqual table x y ∨ OneSided x y := by
  have hdisjoint : ∀ tag ∈ Tags.boolean, tag ∉ Tags.comparable := by decide
  constructor
  · rintro (⟨tag, hy, h⟩ | ⟨hplain, tag, hy, hnull⟩)
    · unfold KindKept at h
      split at h
      · next htag =>
        obtain ⟨k, hk, hx, hfits⟩ := h
        by_cases hback : NumberFits y x tag k
        · exact .inl (.number hk htag hx hy hfits hback)
        · exact .inr (.number hk htag hx hy hfits hback)
      · next hcomparable =>
        split at h
        · next htag =>
          rcases h with hx | ⟨k, hk, hx, htruth⟩
          · exact .inl (.boolean htag hx hy)
          · exact .inr (.truth hk htag hx hy htruth)
        · next hboolean => exact .inl (.common hcomparable hboolean h.1 hy h.2)
    · exact .inr (.object hplain hy hnull)
  · have hnumber {k l : Tag} (hk : k ∈ comparable) (hl : l ∈ comparable)
        (hx : k ∈ x.tags) (hy : l ∈ y.tags) (hfits : NumberFits x y k l) : Kept table x y := by
      refine .inl ⟨l, hy, ?_⟩
      rw [KindKept, if_pos hl]
      exact ⟨k, hk, hx, hfits⟩
    have hboolean {tag : Tag} (htag : tag ∈ Tags.boolean) (hy : tag ∈ y.tags)
        (h : tag ∈ x.tags ∨ ∃ k ∈ numeric, k ∈ x.tags ∧ NumberIsTruth x k tag) :
        Kept table x y := by
      refine .inl ⟨tag, hy, ?_⟩
      rwa [KindKept, if_neg (hdisjoint tag htag), if_pos htag]
    rintro (h | h)
    · cases h with
      | boolean htag hx hy => exact hboolean htag hy (.inl hx)
      | number hk hl hx hy hxy _ => exact hnumber hk hl hx hy hxy
      | @common tag hcomparable hboolean hx hy h =>
        refine .inl ⟨tag, hy, ?_⟩
        rw [KindKept, if_neg hcomparable, if_neg hboolean]
        exact ⟨hx, h⟩
    · cases h with
      | @object tag hx hy hnull => exact .inr ⟨hx, tag, hy, hnull⟩
      | @truth k tag hk htag hx hy h => exact hboolean htag hy (.inr ⟨k, hk, hx, h⟩)
      | number hk hl hx hy hxy _ => exact hnumber hk hl hx hy hxy

theorem OneSided.isNever_eq_false (h : OneSided x y) : x.isNever = false ∧ y.isNever = false := by
  simp only [isNever_eq_false_iff]
  cases h with
  | @object tag hx hy _ => exact ⟨⟨.object, (isPlainObject_iff.mp hx).1⟩, tag, hy⟩
  | @truth k tag _ _ hx hy _ => exact ⟨⟨k, hx⟩, tag, hy⟩
  | @number k l _ _ hx hy _ _ => exact ⟨⟨k, hx⟩, l, hy⟩

/-! ### Parts of operands -/

/-- Literals have no components. -/
theorem components_of_isValue {p : Payload Ty} (h : p.isValue) :
    p.components = [] ∧ p.fields = [] := by
  cases p <;> simp_all [Payload.isValue, Payload.tag, Payload.components, Payload.fields,
    contains_valueTypes]

/-- A type is regular if its payloads are literals or those of a regular type. -/
theorem Regular.of_data (htable : table.WellFormed) (ht : t.Regular table) (hu : u.WellFormed)
    (hdata : ∀ p ∈ (u.expand table).data, p.isValue ∨ p ∈ (t.expand table).data) :
    u.Regular table := by
  refine ⟨hu, .of_components (fun p hp g hg => ?_) fun p hp c hc => ?_⟩
  · rcases hdata p hp with hvalue | hmem
    · simp [(components_of_isValue hvalue).2] at hg
    · exact ht.2.level p hmem g hg
  · rcases hdata p hp with hvalue | hmem
    · simp [(components_of_isValue hvalue).1] at hc
    · exact (ht.component htable hmem hc).2

theorem isValue_or_mem_of_mem_enumToValue (ht : t.WellFormed) (hliteral : t.LiteralEnum)
    {p : Payload Ty} (hp : p ∈ t.enumToValue.data) : p.isValue ∨ p ∈ t.data := by
  have hoperand : t.enumToValue.WellFormed := ht.enumToValue
  have hmem : p.tag ∈ t.enumToValue.tags := hoperand.canonical.tagged p hp
  by_cases hvalue : p.tag ∈ valueTypes
  · exact .inl hvalue
  · have henum : p.tag ≠ .enum := fun h => enum_notMem_enumToValue hliteral (h ▸ hmem)
    have hslot := slot_enumToValue ht hliteral hvalue henum
    have hpayload := (payload?_eq_some_iff hoperand.canonical.ordered).mpr ⟨hp, rfl⟩
    rw [slot_eq_holds_iff.mpr ⟨hmem, hpayload⟩] at hslot
    exact .inr (payload?_mem (slot_eq_holds_iff.mp hslot.symm).2)

theorem data_expand_of_nil (h : t.data = []) : (t.expand table).data = [] := by
  unfold expand
  split
  · have hnone : t.payload? .synonym = none := by simp [payload?, h]
    simp only [hnone, union_any]
    rfl
  · exact h

section

variable (htable : table.WellFormed) (hexpanded : table.Expanded) (ht : t.Regular table)
  (hliteral : (t.expand table).LiteralEnum)

include htable hexpanded ht hliteral

theorem Regular.operand : (t.operand table).Regular table := by
  refine .of_data htable ht (operand_wellFormed htable ht.1) fun p hp => ?_
  rcases operand_cases hexpanded hliteral with h | h
  · rw [expand_of_notMem h] at hp
    exact isValue_or_mem_of_mem_enumToValue (ht.1.expand htable) hliteral hp
  · rw [h] at hp
    cases hp

theorem Regular.part_operand (tag : Tag) : ((t.operand table).part tag).Regular table := by
  have hpart := (operand_wellFormed htable ht.1).part tag
  refine .of_data htable ht hpart fun p hp => ?_
  rcases operand_cases hexpanded hliteral with h | h
  · have hsynonym : .synonym ∉ ((t.operand table).part tag).tags :=
      fun hmem => h (mem_restrictedTo.mp hmem).1
    rw [expand_of_notMem hsynonym] at hp
    have hmem := (mem_filter.mp hp).1
    exact isValue_or_mem_of_mem_enumToValue (ht.1.expand htable) hliteral hmem
  · have hnone : ((t.operand table).part tag).data = [] := by
      rw [h]
      rfl
    rw [data_expand_of_nil hnone] at hp
    cases hp

end

/-! ### Swapped operands -/

/-- The two orders of a test fold alike: an object is compared with null, there are values that may
be equal as seen from both sides, or each side sees such values on its own, or none does. -/
def FoldsAlike (table : DeclTable) (x y : Ty) : Prop :=
  ObjectAgainstNull x y ∨ MayEqual table x y ∨ (OneSided x y ↔ OneSided y x)

theorem ObjectAgainstNull.symm (h : ObjectAgainstNull x y) : ObjectAgainstNull y x := Or.symm h

theorem FoldsAlike.of_isNever (h : a.isNever ∨ b.isNever) :
    FoldsAlike table (a.operand table) (b.operand table) := by
  have hnever : (a.operand table).isNever ∨ (b.operand table).isNever := by
    refine h.imp (fun h => ?_) fun h => ?_
    · rwa [operand_of_isNever h]
    · rwa [operand_of_isNever h]
  refine .inr (.inr (iff_of_false (fun hone => ?_) fun hone => ?_))
  all_goals
    obtain ⟨hx, hy⟩ := hone.isNever_eq_false
    simp [hx, hy] at hnever

theorem isNever_eq_isNever_iff :
    t.isNever = u.isNever ↔ (t.isNever = false ↔ u.isNever = false) := by
  cases t.isNever <;> cases u.isNever <;> decide

theorem comparisonBound_comm (table : DeclTable) (a b : Ty) :
    comparisonBound table a b = comparisonBound table b a := by
  rw [comparisonBound, comparisonBound, Nat.add_comm a.size]

/-- The verdicts of both orders are the same if an object is compared with null, or if narrowing
leaves something in both orders or in none. -/
theorem equalsCheck_comm_iff_isNever (ha : a.isNever = false) (hb : b.isNever = false) :
    equalsCheck table a b = equalsCheck table b a ↔
      ObjectAgainstNull (a.expand table) (b.expand table) ∨
      (narrowEq table (a.expand table) (b.expand table)).isNever =
        (narrowEq table (b.expand table) (a.expand table)).isNever := by
  rw [equalsCheck_eq ha hb, equalsCheck_eq hb ha]
  have hknown := knownVerdict_ne_false (a.expand table) (b.expand table)
  have hcomm := knownVerdict_comm (b.expand table) (a.expand table)
  by_cases hnull : ObjectAgainstNull (a.expand table) (b.expand table)
  · simp [hnull, hnull.symm]
  · rw [if_neg hnull, if_neg (mt ObjectAgainstNull.symm hnull), hcomm, or_iff_right hnull]
    cases (narrowEq table (a.expand table) (b.expand table)).isNever <;>
      simp [hknown, hknown.symm]

section

variable (htable : table.WellFormed) (hexpanded : table.Expanded) (ha : a.Regular table)
  (hb : b.Regular table) (hliteral : (a.expand table).LiteralEnum)
  (hliteral' : (b.expand table).LiteralEnum)

include htable hexpanded ha hb hliteral hliteral'

/-- Values that may be equal are seen from both sides where narrowing ends. -/
theorem MayEqual.symm (hkept : (a.expand table).EnumsKept)
    (hends : NarrowEqEnds table (b.expand table) (a.expand table))
    (h : MayEqual table (a.operand table) (b.operand table)) :
    MayEqual table (b.operand table) (a.operand table) := by
  cases h with
  | boolean htag hx hy => exact .boolean htag hy hx
  | number hk hl hx hy hxy hyx => exact .number hl hk hy hx hyx hxy
  | @common tag hcomparable hboolean hx hy h =>
    refine .common hcomparable hboolean hy hx ?_
    obtain ⟨r, hr⟩ := isSome_iff_exists.mp hends
    obtain ⟨m, hm⟩ := isSome_iff_exists.mp (isSome_meet?_operand htable hexpanded hliteral' ha.1
      hliteral hkept hr hy hx hcomparable hboolean)
    rw [meet, hm, getD_some]
    cases hm' : meet? table
        (comparisonBound table ((a.operand table).part tag) ((b.operand table).part tag))
        ((a.operand table).part tag) ((b.operand table).part tag) with
    | none =>
      rw [meet, hm'] at h
      cases h
    | some m' =>
      rw [meet, hm'] at h
      rw [comparisonBound_comm] at hm'
      rw [← h]
      exact isNever_meet?_comm htable (hb.part_operand htable hexpanded hliteral' tag)
        (ha.part_operand htable hexpanded hliteral tag) hm hm'

/-- What narrowing leaves can be told from the operands. -/
theorem isNever_narrowEq_iff (hkept : (b.expand table).EnumsKept)
    (hends : NarrowEqEnds table (a.expand table) (b.expand table)) :
    (narrowEq table (a.expand table) (b.expand table)).isNever = false ↔
      MayEqual table (a.operand table) (b.operand table) ∨
        OneSided (a.operand table) (b.operand table) := by
  obtain ⟨r, hr⟩ := isSome_iff_exists.mp hends
  rw [narrowEq, hr, getD_some, ← kept_iff]
  exact isNever_narrowEq?_operand_iff htable hexpanded ha.1 hliteral hb.1 hliteral' hkept hr

omit htable hexpanded ha hb in
/-- Objects and null are the same among the kinds of a type and of its operand. -/
theorem objectAgainstNull_operand_iff : ObjectAgainstNull (a.operand table) (b.operand table) ↔
      ObjectAgainstNull (a.expand table) (b.expand table) := by
  have hmem {t : Ty} {tag : Tag} (ht : t.LiteralEnum) (htag : tag ∉ enumValues)
      (henum : tag ≠ .enum) : tag ∈ t.enumToValue.tags ↔ tag ∈ t.tags := by
    rw [mem_enumToValue_iff, and_iff_left henum, or_iff_left]
    exact fun h => htag (ht.tags tag h.2)
  unfold ObjectAgainstNull operand
  rw [hmem hliteral (by decide) (by decide), hmem hliteral (by decide) (by decide),
    hmem hliteral' (by decide) (by decide), hmem hliteral' (by decide) (by decide)]

/-- Where narrowing ends in both orders, the two verdicts can be compared by means of the
operands. -/
theorem equalsCheck_comm_iff_foldsAlike (hkept : (a.expand table).EnumsKept)
    (hkept' : (b.expand table).EnumsKept)
    (hends : NarrowEqEnds table (a.expand table) (b.expand table))
    (hends' : NarrowEqEnds table (b.expand table) (a.expand table)) :
    equalsCheck table a b = equalsCheck table b a ↔
      FoldsAlike table (a.operand table) (b.operand table) := by
  by_cases hnever : a.isNever ∨ b.isNever
  · have hnone : equalsCheck table a b = equalsCheck table b a := by
      simp only [equalsCheck]
      rw [if_pos (by simpa using hnever), if_pos (by simpa using hnever.symm)]
    exact iff_of_true hnone (.of_isNever hnever)
  simp only [not_or, Bool.not_eq_true] at hnever
  have hleft := isNever_narrowEq_iff htable hexpanded ha hb hliteral hliteral' hkept' hends
  have hright := isNever_narrowEq_iff htable hexpanded hb ha hliteral' hliteral hkept hends'
  have hmay : MayEqual table (a.operand table) (b.operand table) ↔
      MayEqual table (b.operand table) (a.operand table) :=
    ⟨.symm htable hexpanded ha hb hliteral hliteral' hkept hends',
      .symm htable hexpanded hb ha hliteral' hliteral hkept' hends⟩
  rw [equalsCheck_comm_iff_isNever hnever.1 hnever.2, FoldsAlike,
    objectAgainstNull_operand_iff hliteral hliteral', isNever_eq_isNever_iff, hleft, hright, ← hmay]
  by_cases hequal : MayEqual table (a.operand table) (b.operand table)
  · simp only [hequal, true_or]
  · simp only [hequal, false_or]

end

theorem ofVerdict_injective : Function.Injective ofVerdict := by
  intro v w h
  rw [← truthiness_ofVerdict v, h, truthiness_ofVerdict]

/-- Two orders of an operator give the same where those of the verdict do. -/
theorem binary_comm_iff (ha : a.isNever = false) (hb : b.isNever = false) {op : BinaryOp}
    (hop : op = .eq ∨ op = .ne) :
    binary table op a b = binary table op b a ↔
      equalsCheck table (a.operand table) (b.operand table) =
        equalsCheck table (b.operand table) (a.operand table) := by
  have hnot := map_injective Bool.involutive_not.injective
  unfold binary
  simp only [ha, hb]
  rcases hop with rfl | rfl
  · exact ofVerdict_injective.eq_iff
  · exact (ofVerdict_injective.comp hnot).eq_iff

end Ty

open Ty

/-- A test for equality and the one with swapped operands give the same verdict if and only if an
object is compared with null, the operands have values that may be equal as seen from both sides, or
each side sees such values on its own, or none does. The operators for equality and inequality give
the same type in both orders exactly then. This is so where narrowing ends in both orders, fields of
shapes are not empty and members of enumerations stand for literals; the test itself, unlike the
operators, may be asked about enumerations, whose literals must not get lost beside others. -/
theorem equalsCheck_comm_iff (source : Source) {a b : Ty} (ha : a.Regular source.program.table)
    (hb : b.Regular source.program.table) (hliteral : (a.expand source.program.table).LiteralEnum)
    (hliteral' : (b.expand source.program.table).LiteralEnum) :
    let table := source.program.table
    let x := a.operand table
    let y := b.operand table
    ((a.expand table).EnumsKept → (b.expand table).EnumsKept →
      NarrowEqEnds table (a.expand table) (b.expand table) →
      NarrowEqEnds table (b.expand table) (a.expand table) →
      (equalsCheck table a b = equalsCheck table b a ↔ FoldsAlike table x y)) ∧
    (NarrowEqEnds table (x.expand table) (y.expand table) →
      NarrowEqEnds table (y.expand table) (x.expand table) →
      ∀ op, op = .eq ∨ op = .ne →
        (binary table op a b = binary table op b a ↔ FoldsAlike table x y)) := by
  intro table x y
  have htable := source.program_table_wellFormed
  have hexpanded := source.program_table_expanded
  constructor
  · intro hkept hkept' hends hends'
    exact equalsCheck_comm_iff_foldsAlike htable hexpanded ha hb hliteral hliteral' hkept hkept'
      hends hends'
  · intro hends hends' op hop
    by_cases hnever : a.isNever = true ∨ b.isNever = true
    · have hequal : binary table op a b = binary table op b a := by
        simp only [binary]
        rw [if_pos (by simpa using hnever), if_pos (by simpa using hnever.symm)]
      exact iff_of_true hequal (.of_isNever hnever)
    · simp only [not_or, Bool.not_eq_true] at hnever
      have hself := operand_operand hexpanded hliteral
      have hself' := operand_operand hexpanded hliteral'
      have hverdict := equalsCheck_comm_iff_foldsAlike htable hexpanded
        (ha.operand htable hexpanded hliteral) (hb.operand htable hexpanded hliteral')
        (literalEnum_expand_operand hexpanded hliteral htable ha.1)
        (literalEnum_expand_operand hexpanded hliteral' htable hb.1)
        (enumsKept_expand_operand hexpanded hliteral) (enumsKept_expand_operand hexpanded hliteral')
        hends hends'
      rw [hself, hself'] at hverdict
      exact (binary_comm_iff hnever.1 hnever.2 hop).trans hverdict

/-- A shape with a radius or a color is compared with a circle of radius four or a text: the shape
may be the circle, and the color may stand for the text. -/
theorem equalsCheck_comm_iff_drawings :
    let table := drawings.program.table
    let number := Ty.ofTags (.single .number)
    let withRadius (d : DeclId) (t : Ty) := Ty.exact (.object (.one d) (some [("radius", t)]))
    let shape := (withRadius 1 number).union (.enumeration (some 3) none)
    let circle := (withRadius 2 (.number 4)).union (.exact (.string "red"))
    FoldsAlike table (shape.operand table) (circle.operand table) ∧
      equalsCheck table shape circle = equalsCheck table circle shape ∧
      binary table .eq shape circle = binary table .eq circle shape ∧
      binary table .ne shape circle = binary table .ne circle shape := by
  intro table number withRadius shape circle
  have hshape : shape.Regular table := ⟨by decide +kernel, .of_levels 1 (by decide +kernel)⟩
  have hcircle : circle.Regular table := ⟨by decide +kernel, .of_levels 1 (by decide +kernel)⟩
  obtain ⟨hverdict, hoperators⟩ := equalsCheck_comm_iff drawings hshape hcircle
    (by decide +kernel) (by decide +kernel)
  have halike : FoldsAlike table (shape.operand table) (circle.operand table) := by
    have hobject : .object ∉ Tags.comparable := by decide
    exact .inr (.inl (.common hobject (by decide) (by decide +kernel) (by decide +kernel)
      (by decide +kernel)))
  have hends : NarrowEqEnds table ((shape.operand table).expand table)
      ((circle.operand table).expand table) := by decide +kernel
  have hends' : NarrowEqEnds table ((circle.operand table).expand table)
      ((shape.operand table).expand table) := by decide +kernel
  refine ⟨halike, (hverdict (by decide +kernel) (by decide +kernel) (by decide +kernel)
    (by decide +kernel)).mpr halike, ?_, ?_⟩
  · exact (hoperators hends hends' .eq (.inl rfl)).mpr halike
  · exact (hoperators hends hends' .ne (.inr rfl)).mpr halike

/-- A number may be the boolean that it is compared with, but not the other way round, and the
unqualified object may be a number, but not the other way round. -/
theorem equalsCheck_not_comm_drawings :
    let table := drawings.program.table
    let one := Ty.number 1
    let truth := Ty.bool true
    let five := Ty.number 5
    let object := Ty.ofTags (.single .object)
    ((one.WellFormed ∧ truth.WellFormed) ∧ five.WellFormed ∧ object.WellFormed) ∧
      ((NarrowEqEnds table one truth ∧ NarrowEqEnds table truth one) ∧
        NarrowEqEnds table five object ∧ NarrowEqEnds table object five) ∧
      (equalsCheck table one truth = none ∧ equalsCheck table truth one = some false) ∧
      (equalsCheck table five object = some false ∧ equalsCheck table object five = none) ∧
      binary table .eq one truth ≠ binary table .eq truth one ∧
      binary table .eq five object ≠ binary table .eq object five := by
  decide +kernel

end TypeFlow
