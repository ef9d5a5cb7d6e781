import TypeFlow.Proofs.EqualityNarrowing
import TypeFlow.Proofs.KnownValues

/-!
# Operators cover all pairs of operands

An operator is evaluated on the parts of its operands, and the results are joined. A part of which
only the kind is known gives a result of which at most the kind is known: this is the result for any
value of that kind with its literal forgotten. So whatever an operator gives for two known values is
covered by what it gives for any types that have them.
-/

namespace TypeFlow

open Value

open List hiding any
open Option

namespace Ty

variable {table : DeclTable} {l l' r r' t u z : Ty} {tag lt rt : Tag} {p : Payload Ty}
  {op : BinaryOp}

/-! ### Forgetting a literal -/

/-- A type is kept as it is, or all that is known about its kinds is forgotten. -/
def Blurred (t u : Ty) : Prop := u = t ∨ u = ofTags t.tags

theorem Blurred.refl (t : Ty) : t.Blurred t := .inl rfl

/-- The text of null and of the booleans depends on their kind alone, other texts are forgotten. -/
theorem Blurred.appended? (h : t.Blurred u) : u.appended? = t.appended? ∨ u.appended? = none := by
  rcases h with rfl | rfl
  · exact .inl rfl
  · simp only [Ty.appended?, ofTags]
    grind

/-! ### Operators on parts -/

/-- A rule for two parts rejects them whatever they are, or its results are of the same kinds, and
nothing else is known about a result if nothing is known about a part. -/
def Uniform (f : Ty → Ty → Option Ty) : Prop :=
  (∀ l r, f l r = none) ∨ ∃ tags, ∀ l r, ∃ z, f l r = some z ∧ z.tags = tags ∧
      (l.data = [] ∨ r.data = [] → z = ofTags tags)

theorem Uniform.blurred {f : Ty → Ty → Option Ty} (hf : Uniform f) (hl : l.Blurred l')
    (hr : r.Blurred r') (h : f l r = some z) : ∃ z', f l' r' = some z' ∧ z.Blurred z' := by
  rcases hf with hnone | ⟨tags, hsome⟩
  · simp [hnone] at h
  · obtain ⟨_, h', htags, -⟩ := hsome l r
    cases h.symm.trans h'
    obtain ⟨z', hz', -, hunknown⟩ := hsome l' r'
    refine ⟨z', hz', ?_⟩
    rcases hl with rfl | rfl
    · rcases hr with rfl | rfl
      · exact .inl (some.inj (hz'.symm.trans h))
      · exact .inr (htags ▸ hunknown (.inr rfl))
    · exact .inr (htags ▸ hunknown (.inl rfl))

theorem promoted_mem_numeric (hlt : lt ∈ Tags.numeric) (hrt : rt ∈ Tags.numeric) :
    promoted lt rt ∈ Tags.numeric := by
  unfold promoted
  split
  · decide
  · split
    · exact hlt
    · exact hrt

/-- Arithmetic stays in the representation of its operands. -/
theorem arithmetic_promote_tags {x y n : Num} (htag : tag ∈ Tags.numeric)
    (h : Num.arithmetic op (x.promote tag) (y.promote tag) = some n) :
    n.toTy.tags = Tags.single tag := by
  cases tag with
  | number | long | float | double =>
    obtain ⟨_, -, rfl⟩ := map_eq_some_iff.mp h
    rfl
  | _ => exact absurd htag (by decide)

theorem firstNum?_of_data (h : t.data = []) : t.firstNum? = none := by simp [firstNum?, h]

theorem numericPair_uniform (op : BinaryOp) (hlt : lt ∈ Tags.numeric) (hrt : rt ∈ Tags.numeric) :
    Uniform fun l r => numericPair op lt l rt r := by
  simp only [numericPair, Uniform]
  split
  · exact .inl fun _ _ => rfl
  · split
    · exact .inr ⟨_, fun _ _ => ⟨_, rfl, rfl, fun _ => rfl⟩⟩
    · refine .inr ⟨.single (promoted lt rt), fun l r => ?_⟩
      split
      · next n hn =>
        refine ⟨_, rfl, ?_, fun hunknown => ?_⟩
        · split at hn
          · exact arithmetic_promote_tags (promoted_mem_numeric hlt hrt) hn
          · cases hn
        · rcases hunknown with hl | hr
          · simp [firstNum?_of_data hl] at hn
          · simp [firstNum?_of_data hr] at hn
      · exact ⟨_, rfl, rfl, fun _ => rfl⟩

theorem asInteger?_of_data (h : t.data = []) : t.asInteger? = none := by simp [asInteger?, h]

theorem charPair_uniform (op : BinaryOp) (lt rt : Tag) :
    Uniform fun l r => charPair op lt l rt r := by
  have hchar {c : Prop} [Decidable c] (x : Char) :
      (if c then char x else ofTags (.single .char)).tags = .single .char := by
    split <;> rfl
  simp only [charPair, Uniform]
  split
  · refine .inr ⟨.single .number, fun l r => ?_⟩
    split
    · next hl hr =>
      refine ⟨_, rfl, rfl, fun hunknown => ?_⟩
      rcases hunknown with h | h <;> simp [asInteger?_of_data h] at hl hr
    · exact ⟨_, rfl, rfl, fun _ => rfl⟩
  iterate 3
    split
    · refine .inr ⟨.single .char, fun l r => ⟨_, rfl, ?_, fun hunknown => ?_⟩⟩
      · split
        · exact hchar _
        · rfl
      · rcases hunknown with h | h <;> simp [asInteger?_of_data h]
    · exact .inl fun _ _ => rfl
  · exact .inl fun _ _ => rfl

theorem concat_blurred (hl : l.Blurred l') (hr : r.Blurred r') :
    (concat l r).Blurred (concat l' r') := by
  have htags : (concat l r).tags = .single .string := by
    unfold concat
    split <;> rfl
  rw [Blurred, htags]
  unfold concat
  rcases hl.appended? with hl | hl
  · rcases hr.appended? with hr | hr
    · rw [hl, hr]
      exact .inl rfl
    · rw [hr]
      right
      split
      · next h => cases h
      · rfl
  · rw [hl]
    exact .inr rfl

/-- A pair of parts of which less is known gives the same result, or all values of its kind. -/
theorem binaryPair_blurred (hlt : lt ≠ .object) (hrt : rt ≠ .object) (hl : l.Blurred l')
    (hr : r.Blurred r') (h : binaryPair op lt l rt r = some z) :
    ∃ z', binaryPair op lt l' rt r' = some z' ∧ z.Blurred z' := by
  revert h
  simp only [binaryPair, hlt, hrt, decide_false, Bool.false_and, Bool.or_self, Bool.false_eq_true,
    if_false]
  split
  · exact fun h => ⟨_, rfl, some.inj h ▸ concat_blurred hl hr⟩
  split
  · next hnumeric =>
    obtain ⟨hlt, hrt⟩ := Bool.and_eq_true_iff.mp hnumeric
    exact (numericPair_uniform op hlt hrt).blurred hl hr
  split
  · exact (charPair_uniform op lt rt).blurred hl hr
  split
  · exact fun h => ⟨z, h, .refl z⟩
  · rintro ⟨⟩

theorem toTy_tags_of_firstNum? (hdata : ∀ p ∈ t.data, p.tag = tag) {n : Num}
    (h : t.firstNum? = some n) : n.toTy.tags = .single tag := by
  obtain ⟨p, hp, hn⟩ := bind_eq_some_iff.mp h
  have htag := hdata p (mem_of_mem_head? hp)
  cases p <;> simp only [Num.ofPayload?, reduceCtorEq, Option.some.injEq] at hn <;> subst hn <;>
    exact congrArg Tags.single htag

/-- A part of which less is known gives the same result, or all values of its kind. -/
theorem unaryPart_blurred {op : UnaryOp} (htag : tag ≠ .object)
    (hdata : ∀ p ∈ t.data, p.tag = tag) (hu : t.Blurred u) (h : unaryPart op tag t = some z) :
    ∃ z', unaryPart op tag u = some z' ∧ z.Blurred z' := by
  rcases hu with rfl | rfl
  · exact ⟨z, h, .refl z⟩
  have hnone : (ofTags t.tags).firstNum? = none := rfl
  have hkind (n : Num) (hn : t.firstNum? = some n) : n.toTy.tags = .single tag :=
    toTy_tags_of_firstNum? hdata hn
  have hsome {c : Ty} (hc : c.tags = .single tag) (h : some c = some z) :
      ∃ z', some (ofTags (.single tag)) = some z' ∧ z.Blurred z' :=
    ⟨_, rfl, .inr (congrArg ofTags (some.inj h ▸ hc.symm))⟩
  revert h
  simp only [unaryPart, htag]
  cases op with
  | plus =>
    dsimp only
    split
    · exact fun h => ⟨_, rfl, .inr (some.inj h ▸ rfl)⟩
    · rintro ⟨⟩
  | neg =>
    dsimp only
    split
    · refine hsome ?_
      split
      iterate 4
        next hn => exact hkind _ hn
      rfl
    · rintro ⟨⟩
  | not =>
    dsimp only
    split
    · exact fun h => ⟨z, h, .refl z⟩
    · split
      · refine hsome ?_
        split
        iterate 2
          next hn => exact hkind _ hn
        rfl
      · rintro ⟨⟩
  | bitNot =>
    dsimp only
    split
    · refine hsome ?_
      split
      iterate 2
        next hn => exact hkind _ hn
      rfl
    · rintro ⟨⟩

/-! ### Operators on types -/

/-- All results together. If there are none, nothing is known. -/
def joined (ts : List Ty) : Ty := if (unionAll ts).isNever then any else unionAll ts

theorem below_joined {ts : List Ty} (hts : ∀ t ∈ ts, t.WellFormed) (ht : t ∈ ts) :
    t.Below (joined ts) := by
  unfold joined
  split
  · exact union_any t
  · exact below_unionAll hts ht

theorem joined_wellFormed {ts : List Ty} (hts : ∀ t ∈ ts, t.WellFormed) : (joined ts).WellFormed :=
  iteInduction (fun _ => .any) fun _ => .unionAll hts

theorem joined_singleton (h : z.isNever = false) : joined [z] = z := by
  have hone : unionAll [z] = z := by
    change never.union z = z
    have hempty : never.isNever := rfl
    rw [union_eq_unionStep, unionStep, h, if_neg Bool.false_ne_true, if_pos hempty]
  rw [joined, hone, h, if_neg Bool.false_ne_true]

/-- A single result is a known value only by itself. -/
theorem eq_some_of_hasValue_joined {t? : Option Ty} (h : (joined t?.toList).hasValue) :
    t? = some (joined t?.toList) := by
  cases t? with
  | none => exact absurd h (by decide)
  | some z =>
    by_cases hnever : z.isNever
    · have hone : unionAll [z] = never := union_of_isNever hnever
      rw [toList_some, joined, hone] at h
      exact absurd h (by decide)
    · rw [toList_some, joined_singleton (by simpa using hnever)]

/-- What an operator gives for the pairs of parts of its operands that are not rejected. -/
def pairResults (op : BinaryOp) (l r : Ty) : List Ty :=
  l.tags.toList.flatMap fun lt => r.tags.toList.filterMap fun rt =>
    binaryPair op lt (l.part lt) rt (r.part rt)

theorem mem_pairResults : z ∈ pairResults op l r ↔
    ∃ lt ∈ l.tags, ∃ rt ∈ r.tags, binaryPair op lt (l.part lt) rt (r.part rt) = some z := by
  simp [pairResults]

theorem pairResults_wellFormed : ∀ z ∈ pairResults op l r, z.WellFormed := by
  intro z hz
  obtain ⟨lt, -, rt, -, hz⟩ := mem_pairResults.mp hz
  exact binaryPair_formed op lt _ rt _ z hz

theorem binary_eq (hop : op.isComparison = false) (hl : l.isNever = false)
    (hr : r.isNever = false) :
    binary table op l r = joined (pairResults op (l.operand table) (r.operand table)) := by
  rw [binary, hl, hr]
  simp only [hop]
  rfl

/-- What an operator gives for the parts of its operand that are not rejected. -/
def partResults (op : UnaryOp) (t : Ty) : List Ty :=
  t.tags.toList.filterMap fun tag => unaryPart op tag (t.part tag)

theorem mem_partResults {op : UnaryOp} : z ∈ partResults op t ↔
    ∃ tag ∈ t.tags, unaryPart op tag (t.part tag) = some z := by
  simp [partResults]

theorem partResults_wellFormed {op : UnaryOp} (ht : t.WellFormed) :
    ∀ z ∈ partResults op t, z.WellFormed := by
  intro z hz
  obtain ⟨tag, -, hz⟩ := mem_partResults.mp hz
  exact unaryPart_formed op tag (ht.part tag) z hz

theorem unary_eq {op : UnaryOp} (ht : t.isNever = false) :
    unary table op t = joined (partResults op (t.operand table)) := by
  rw [unary, ht]
  rfl

theorem part_eq_of_slot (ht : t.WellFormed) (hu : u.WellFormed) (htags : u.tags = Tags.single tag)
    (h : t.slot tag = u.slot tag) : t.part tag = u := by
  have hpart : (t.part tag).WellFormed := ht.part tag
  refine Canonical.ext_slot hpart.canonical hu.canonical fun kind => ?_
  by_cases hkind : kind ∈ Tags.single tag
  · obtain rfl := Tags.mem_single.mp hkind
    rw [part, slot_restrictedTo _ hkind, h]
  · rw [part, slot_restrictedTo_of_notMem _ hkind, slot_eq_absent_iff.mpr (htags ▸ hkind)]

theorem slot_ofTags (h : tag ∈ (ofTags t.tags).tags) : (ofTags t.tags).slot tag = .bare :=
  slot_eq_bare_iff.mpr ⟨h, rfl⟩

end Ty

open Ty

namespace Value

variable {table : DeclTable} {u v w : Value} {l r t x y z : Ty} {op : BinaryOp}

section

variable (hx : v.known? = some x)

include hx

/-- The part of a type in which a known value is found is the type of the value, or nothing but its
kind is known. -/
theorem InSlot.blurred (ht : t.WellFormed) (h : v.InSlot table (t.slot v.tag)) :
    x.Blurred (t.part v.tag) := by
  have hformed := known?_wellFormed hx
  have htags := known?_tags hx
  cases hslot : t.slot v.tag with
  | absent => simp [hslot, InSlot] at h
  | bare =>
    refine .inr (part_eq_of_slot ht (.ofTags _) htags ?_)
    rw [hslot, slot_ofTags]
    rw [ofTags, htags, Tags.mem_single]
  | holds p =>
    rw [hslot] at h
    refine .inl (part_eq_of_slot ht hformed htags ?_)
    obtain rfl := known?_eq_exact hx h
    have htag := payload?_tag (slot_eq_holds_iff.mp hslot).2
    rw [hslot, ← htag, slot_exact]

/-- The operand of a known value is its own type. -/
theorem known?_operand : x.operand table = x := by
  have hnot {tag : Tag} (hne : tag ≠ v.tag) : tag ∉ x.tags := by
    rwa [known?_tags hx, Tags.mem_single]
  rw [operand, expand_of_notMem (hnot v.tag_ne_synonym.symm), enumToValue_of_notMem]
  refine hnot fun henum => ?_
  obtain ⟨d, s, rfl⟩ := exists_eq_enum henum.symm
  cases hx

theorem known?_tag_ne_object : v.tag ≠ .object := by
  cases v with
  | bool b => cases b <;> simp [tag]
  | scalar s => cases s <;> simp [tag, Scalar.tag]
  | object c fs => cases hx
  | _ => simp [tag]

theorem known?_isNever : x.isNever = false := by
  rw [isNever_eq_false_iff, known?_tags hx]
  exact ⟨v.tag, Tags.mem_single.mpr rfl⟩

theorem known?_part : x.part v.tag = x :=
  part_eq_of_slot (known?_wellFormed hx) (known?_wellFormed hx) (known?_tags hx) rfl

end

/-- A known value of a blurred type has not been lost. -/
theorem Fits.of_blurred (hu : u.known? = some z) (hz : z.Blurred t) (ht : t.WellFormed) {out : Ty}
    (hout : out.WellFormed) (hbelow : t.Below out) : u.Fits table out := by
  have hslot : u.InSlot table (t.slot u.tag) := by
    rcases hz with rfl | rfl
    · exact known?_inSlot hu
    · rw [slot_ofTags]
      · trivial
      · rw [ofTags, known?_tags hu, Tags.mem_single]
  exact fits_iff.mpr (.inl (hslot.of_below (fun _ => known?_isValue hu) ht hout hbelow))

theorem fits_any (v : Value) : v.Fits table any := by
  refine fits_iff.mpr (.inl ?_)
  have hmem : v.tag ∈ Ty.any.tags := by
    generalize v.tag = tag
    cases tag <;> decide
  rw [slot_eq_bare_iff.mpr ⟨hmem, rfl⟩]
  trivial

theorem part_object (ht : t.WellFormed) (h : t.isPlainObject) :
    t.part .object = ofTags (.single .object) :=
  part_eq_of_slot ht (.ofTags _) rfl (isPlainObject_iff_slot.mp h)

theorem known?_toList (hx : v.known? = some x) : x.tags.toList = [v.tag] := by
  rw [known?_tags hx]
  generalize v.tag = tag
  cases tag <;> decide

/-- An operator is evaluated once for two known values. -/
theorem binary_known (hop : op.isComparison = false) (hx : v.known? = some x)
    (hy : w.known? = some y) :
    binary table op x y = joined (binaryPair op v.tag x w.tag y).toList := by
  rw [binary_eq hop (known?_isNever hx) (known?_isNever hy), known?_operand hx, known?_operand hy,
    pairResults, known?_toList hx, known?_toList hy, flatMap_singleton, filterMap_cons,
    known?_part hx, known?_part hy]
  cases binaryPair op v.tag x w.tag y <;> rfl

theorem unary_known {op : UnaryOp} (hx : v.known? = some x) :
    unary table op x = joined (unaryPart op v.tag x).toList := by
  rw [unary_eq (known?_isNever hx), known?_operand hx, partResults, known?_toList hx,
    filterMap_cons, known?_part hx]
  cases unaryPart op v.tag x <;> rfl

/-- What an operator gives for two known values, if this is known. -/
theorem binaryPair_of_hasValue (hop : op.isComparison = false) (hx : v.known? = some x)
    (hy : w.known? = some y) (h : (binary table op x y).hasValue) :
    binaryPair op v.tag x w.tag y = some (binary table op x y) := by
  rw [binary_known hop hx hy] at h ⊢
  exact eq_some_of_hasValue_joined h

theorem unaryPart_of_hasValue {op : UnaryOp} (hx : v.known? = some x)
    (h : (unary table op x).hasValue) : unaryPart op v.tag x = some (unary table op x) := by
  rw [unary_known hx] at h ⊢
  exact eq_some_of_hasValue_joined h

/-- Some pair of parts of types that have two known values gives what the values give, or no more
than its kind, or it gives every value. -/
theorem exists_pairResults (hl : l.WellFormed) (hr : r.WellFormed) (hx : v.known? = some x)
    (hy : w.known? = some y) (hv : v.Fits table l) (hw : w.Fits table r)
    (h : binaryPair op v.tag x w.tag y = some z) :
    ∃ out ∈ pairResults op l r, z.Blurred out ∨ out = any := by
  have hmem {u : Value} {t : Ty} (hu : u.Fits table t) : ∃ tag, tag ∈ t.tags :=
    hu.elim (fun h => ⟨u.tag, h.1⟩) fun h => ⟨.object, (isPlainObject_iff.mp h.1).1⟩
  rcases fits_iff.mp hv with hslot | ⟨hplain, -⟩
  · rcases fits_iff.mp hw with hslot' | ⟨hplain, -⟩
    · obtain ⟨out, hout, hblurred⟩ := binaryPair_blurred (known?_tag_ne_object hx)
        (known?_tag_ne_object hy) (hslot.blurred hx hl) (hslot'.blurred hy hr) h
      exact ⟨out, mem_pairResults.mpr ⟨_, hslot.mem, _, hslot'.mem, hout⟩, .inl hblurred⟩
    · have hobject := (isPlainObject_iff.mp hplain).1
      refine ⟨any, mem_pairResults.mpr ⟨_, hslot.mem, _, hobject, ?_⟩, .inr rfl⟩
      simp [part_object hr hplain, binaryPair, ofTags]
  · obtain ⟨rt, hrt⟩ := hmem hw
    refine ⟨any, mem_pairResults.mpr ⟨_, (isPlainObject_iff.mp hplain).1, rt, hrt, ?_⟩, .inr rfl⟩
    simp [part_object hl hplain, binaryPair, ofTags]

theorem exists_partResults {op : UnaryOp} (ht : t.WellFormed) (hx : v.known? = some x)
    (hv : v.Fits table t) (h : unaryPart op v.tag x = some z) :
    ∃ out ∈ partResults op t, z.Blurred out ∨ out = any := by
  rcases fits_iff.mp hv with hslot | ⟨hplain, -⟩
  · have hdata (p : Payload Ty) (hp : p ∈ x.data) : p.tag = v.tag := by
      have htagged := (known?_wellFormed hx).canonical.tagged p hp
      rwa [known?_tags hx, Tags.mem_single] at htagged
    obtain ⟨out, hout, hblurred⟩ := unaryPart_blurred (known?_tag_ne_object hx) hdata
      (hslot.blurred hx ht) h
    exact ⟨out, mem_partResults.mpr ⟨_, hslot.mem, hout⟩, .inl hblurred⟩
  · refine ⟨any, mem_partResults.mpr ⟨_, (isPlainObject_iff.mp hplain).1, ?_⟩, .inr rfl⟩
    rw [part_object ht hplain]
    cases op <;> decide

/-- A known value is among joined results of which one has it. -/
theorem fits_joined {ts : List Ty} (hts : ∀ t ∈ ts, t.WellFormed) (hu : u.known? = some z)
    (h : ∃ out ∈ ts, z.Blurred out ∨ out = any) : u.Fits table (joined ts) := by
  obtain ⟨out, hout, hblurred | rfl⟩ := h
  · exact .of_blurred hu hblurred (hts out hout) (joined_wellFormed hts) (below_joined hts hout)
  · have heq := (below_joined hts hout).symm.trans (any_union _)
    exact heq ▸ fits_any u

end Value

/-- Operators on unions cover every pair of operands: what an operator gives for two known values is
among what it gives for types that have these values, if it is a known value itself, and so it is
with operators that have one operand. -/
theorem operators_cover_values (source : Source) {l r : Ty} (hl : l.WellFormed) (hr : r.WellFormed)
    {v w : Value} {x y : Ty} (hx : v.known? = some x) (hy : w.known? = some y)
    (hv : v.Fits source.program.table (l.operand source.program.table))
    (hw : w.Fits source.program.table (r.operand source.program.table)) :
    (∀ op : BinaryOp, op.isComparison = false →
      (binary source.program.table op x y).hasValue = true →
        ∃ u : Value, u.known? = some (binary source.program.table op x y) ∧
          u.Fits source.program.table (binary source.program.table op l r)) ∧
    ∀ op : UnaryOp, (unary source.program.table op x).hasValue = true →
      ∃ u : Value, u.known? = some (unary source.program.table op x) ∧
        u.Fits source.program.table (unary source.program.table op l) := by
  have htable := source.program_table_wellFormed
  have hl' := operand_wellFormed htable hl
  have hr' := operand_wellFormed htable hr
  refine ⟨fun op hop hvalue => ?_, fun op hvalue => ?_⟩
  · have hpair := binaryPair_of_hasValue hop hx hy hvalue
    obtain ⟨u, hu⟩ := exists_known?_of_hasValue (.binary op x y) hvalue
    rw [binary_eq hop (isNever_eq_false_of_fits_operand hv) (isNever_eq_false_of_fits_operand hw)]
    exact ⟨u, hu, fits_joined pairResults_wellFormed hu
      (exists_pairResults hl' hr' hx hy hv hw hpair)⟩
  · have hpart := unaryPart_of_hasValue hx hvalue
    obtain ⟨u, hu⟩ := exists_known?_of_hasValue (.unary htable op (known?_wellFormed hx)) hvalue
    rw [unary_eq (isNever_eq_false_of_fits_operand hv)]
    exact ⟨u, hu, fits_joined (partResults_wellFormed hl') hu (exists_partResults hl' hx hv hpart)⟩

/-- A label may be the number two, and the members of the enumeration stand for five: their sum is
among numbers and strings, and the negated label is among numbers. -/
theorem operators_cover_values_labels :
    let table := labels.program.table
    let label := Ty.exact (.synonym (.one 1))
    let five := Ty.enumeration none (some (.exact (.number 5)))
    let sums := Ty.ofTags (Tags.ofList [.number, .string])
    ((scalar (.number 2)).Fits table (label.operand table) ∧
      (scalar (.number 5)).Fits table (five.operand table)) ∧
    (binary table .add (.number 2) (.number 5) = .number 7 ∧ binary table .add label five = sums ∧
      ∃ u : Value, u.known? = some (.number 7) ∧ u.Fits table sums) ∧
    (unary table .neg (.number 2) = .number (-2) ∧
      unary table .neg label = .ofTags (Tags.single .number) ∧
      ∃ u : Value, u.known? = some (.number (-2)) ∧
        u.Fits table (.ofTags (Tags.single .number))) := by
  intro table label five sums
  have hv : (scalar (.number 2)).Fits table (label.operand table) := by
    refine fits_iff.mpr (.inl ?_)
    rw [slot_eq_bare_iff.mpr (by decide +kernel)]
    trivial
  have hw : (scalar (.number 5)).Fits table (five.operand table) :=
    fits_iff.mpr (.inl (.of_payload (by decide +kernel) (.number 5)))
  obtain ⟨hbinary, hunary⟩ :=
    operators_cover_values labels .ofDecls (by decide +kernel) rfl rfl hv hw
  have hsum : binary table .add (.number 2) (.number 5) = .number 7 := by decide +kernel
  have hsums : binary table .add label five = sums := by decide +kernel
  have hneg : unary table .neg (.number 2) = .number (-2) := by decide +kernel
  have hnegated : unary table .neg label = .ofTags (Tags.single .number) := by decide +kernel
  exact ⟨⟨hv, hw⟩, ⟨hsum, hsums, hsum ▸ hsums ▸ hbinary .add rfl (by decide +kernel)⟩,
    ⟨hneg, hnegated, hneg ▸ hnegated ▸ hunary .neg (by decide +kernel)⟩⟩

end TypeFlow
