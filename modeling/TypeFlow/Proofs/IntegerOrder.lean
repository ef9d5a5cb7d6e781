import TypeFlow.Proofs.EqualityNarrowing
import TypeFlow.Proofs.KnownValues
import TypeFlow.Proofs.RoundingOrder

/-!
# Comparing integers

An ordering operator looks for the number that each operand is, and compares the two after rounding
them to 64-bit floats. What it finds is the value of the operand, unless the value is only one of
those of unknown objects.
-/

namespace TypeFlow

open Double Tags Ty

/-- The integer that a value is. -/
def Value.int? : Value → Option Int
  | .scalar (.number n) | .scalar (.long n) => some n.toInt
  | _ => none

/-- What an ordering operator gives for two integers. -/
def BinaryOp.orders? (m n : Int) : BinaryOp → Option Bool
  | .lt => some (m < n)
  | .le => some (m ≤ n)
  | .gt => some (n < m)
  | .ge => some (n ≤ m)
  | _ => none

/-- A number that the type has is known. -/
def Ty.NumberKnown (t : Ty) : Prop := ∃ tag ∈ numeric, (t.payload? tag).isSome

/-- Different kinds of numbers are different kinds of literals. -/
theorem Tags.manyValues_of_numeric {tags : Tags} {a b : Tag} (ha : a ∈ tags) (hb : b ∈ tags)
    (hna : a ∈ numeric) (hnb : b ∈ numeric) (hne : a ≠ b) : tags.ManyValues := by
  have hboth : (.single a ∪ single b).ManyValues := by
    revert hna hnb hne
    cases a <;> cases b <;> decide
  refine hboth.mono fun tag htag => ?_
  rcases mem_union.mp htag with htag | htag
  · exact mem_single.mp htag ▸ ha
  · exact mem_single.mp htag ▸ hb

theorem Num.isValue_of_ofPayload? {p : Payload Ty} {x : Num} (h : ofPayload? p = some x) :
    p.tag ∈ numeric ∧ p.isValue := by
  have htag : p.tag ∈ numeric := by
    cases p with
    | number => exact (by decide : Tag.number ∈ numeric)
    | long => exact (by decide : Tag.long ∈ numeric)
    | float => exact (by decide : Tag.float ∈ numeric)
    | double => exact (by decide : Tag.double ∈ numeric)
    | _ => cases h
  unfold Payload.isValue
  revert htag
  generalize p.tag = tag
  cases tag <;> decide

namespace Value

variable {table : DeclTable} {v w : Value} {m n : Int} {p : Payload Ty} {t : Ty} {a : Double}

/-- An integer is a number, and its payload is this number. -/
theorem int?_spec (h : v.int? = some m) : v.tag ∈ numeric ∧ m.natAbs ≤ 2 ^ 63 ∧
    ∀ table p, v.Matches table p → ∃ x, Num.ofPayload? p = some x ∧ x.toDouble = .ofInt m := by
  unfold int? at h
  split at h
  · next k =>
    cases h
    have hle := k.le_toInt
    have hlt := k.toInt_lt
    refine ⟨(by decide : Tag.number ∈ _), by omega, fun table p hp => ?_⟩
    cases hp
    exact ⟨_, rfl, rfl⟩
  · next k =>
    cases h
    have hle := k.le_toInt
    have hlt := k.toInt_lt
    refine ⟨(by decide : Tag.long ∈ _), by omega, fun table p hp => ?_⟩
    cases hp
    exact ⟨_, rfl, rfl⟩
  · cases h

section

variable (ht : t.WellFormed) (hm : v.int? = some m) (hv : v.Fits table t) (h : t.ordered? = some a)

include ht hm hv h

/-- The number that is found in a type with an integer is one of its payloads. -/
theorem exists_num_of_ordered? : ∃ p ∈ t.data, ∃ x, Num.ofPayload? p = some x ∧ a = x.toDouble := by
  unfold ordered? at h
  cases hhead : t.data.head? with
  | none => simp [hhead] at h
  | some p =>
    have hp := List.mem_of_mem_head? hhead
    simp only [hhead] at h
    cases hnum : Num.ofPayload? p with
    | some x =>
      simp only [hnum] at h
      exact ⟨p, hp, x, hnum, (Option.some.inj h).symm⟩
    | none =>
      -- Of everything else, only a character is taken for a number, when it is all there is.
      simp only [hnum, asDouble?, hhead] at h
      split at h
      · next hexact =>
        obtain ⟨tag, htags⟩ := exists_eq_single hexact
        have hptag := ht.canonical.tagged p hp
        rw [htags, mem_single] at hptag
        have hchar : p.tag = .char := by
          cases p with
          | char => rfl
          | number | long | float | double => cases hnum
          | _ => cases h
        have hmem {tag' : Tag} (h : tag' ∈ t.tags) : tag' = .char := by
          rw [htags, mem_single] at h
          exact h.trans (hptag.symm.trans hchar)
        rcases fits_iff.mp hv with hslot | ⟨hplain, -⟩
        · have hnumeric := (int?_spec hm).1
          rw [hmem hslot.mem] at hnumeric
          exact absurd hnumeric (by decide)
        · cases hmem (isPlainObject_iff.mp hplain).1
      · cases h

theorem numberKnown_of_ordered? : t.NumberKnown := by
  obtain ⟨p, hp, x, hx, -⟩ := exists_num_of_ordered? ht hm hv h
  refine ⟨p.tag, (Num.isValue_of_ofPayload? hx).1, ?_⟩
  rw [(payload?_eq_some_iff ht.canonical.ordered).mpr ⟨hp, rfl⟩]
  rfl

end

/-- The number that is found is the integer. -/
theorem InSlot.ordered?_eq (ht : t.WellFormed) (hm : v.int? = some m)
    (hv : v.InSlot table (t.slot v.tag)) (h : t.ordered? = some a) : a = .ofInt m := by
  obtain ⟨p, hp, x, hx, rfl⟩ := exists_num_of_ordered? ht hm (fits_iff.mpr (.inl hv)) h
  obtain ⟨hnumeric, -, hmatches⟩ := int?_spec hm
  obtain ⟨hptag, hvalue⟩ := Num.isValue_of_ofPayload? hx
  have hsame : p.tag = v.tag := by
    by_contra hne
    have hmany := manyValues_of_numeric (ht.canonical.tagged p hp) hv.mem hptag hnumeric hne
    exact absurd hvalue (Bool.eq_false_iff.mp (ht.canonical.literal hmany p hp))
  have hslot := slot_eq_holds_iff.mpr
    ⟨hv.mem, (payload?_eq_some_iff ht.canonical.ordered).mpr ⟨hp, hsame⟩⟩
  rw [hslot] at hv
  obtain ⟨y, hy, hdouble⟩ := hmatches table p hv
  obtain rfl := Option.some.inj (hx.symm.trans hy)
  exact hdouble

/-- A boolean is among those that a test gives, unless it gives the other one. -/
theorem fits_ofVerdict {b : Bool} {verdict : Option Bool} (h : ∀ c, verdict = some c → c = b) :
    (bool b).Fits table (.ofVerdict verdict) := by
  refine fits_iff.mpr (.inl ?_)
  cases verdict with
  | some c =>
    obtain rfl := h c rfl
    exact known?_inSlot rfl
  | none =>
    have hmem : (bool b).tag ∈ boolean.tags := by cases b <;> decide
    rw [ofVerdict, slot_eq_bare_iff.mpr ⟨hmem, rfl⟩]
    trivial

end Value

namespace Ty

variable {l r : Ty} {m n : Int} {op : BinaryOp} {b c : Bool}

/-- A comparison that is decided has found a number on both sides. -/
theorem exists_ordered?_of_ordering? (h : ordering? op l r = some c) :
    ∃ x y, l.ordered? = some x ∧ r.ordered? = some y := by
  unfold ordering? at h
  split at h
  · next x y hx hy => exact ⟨x, y, hx, hy⟩
  · cases h

/-- Integers that are rounded to different numbers are compared as they are. -/
theorem ordering?_eq (hl : l.ordered? = some (.ofInt m)) (hr : r.ordered? = some (.ofInt n))
    (hm : m.natAbs ≤ 2 ^ 63) (hn : n.natAbs ≤ 2 ^ 63)
    (hmn : ofInt m = ofInt n → m = n) (op : BinaryOp) :
    ordering? op l r = op.orders? m n := by
  have hnm : ofInt n = ofInt m → n = m := fun h => (hmn h.symm).symm
  unfold ordering?
  rw [hl, hr]
  cases op <;> simp only [BinaryOp.orders?, lt_ofInt hm hn hmn, le_ofInt hm hn hmn,
    lt_ofInt hn hm hnm, le_ofInt hn hm hnm]

theorem binary_of_orders? {table : DeclTable} (hop : op.orders? m n = some b)
    (hl : l.isNever = false) (hr : r.isNever = false) :
    binary table op l r = ofVerdict (ordering? op (l.operand table) (r.operand table)) := by
  rw [binary, hl, hr]
  cases op <;> first | rfl | cases hop

end Ty

open Ty

/-- What an ordering operator gives for two integers is among what it gives for types that have
them. If a number is known on both sides, the integers must not only be values of unknown objects,
and must not be rounded to the same number. -/
theorem ordering_covers_integers (source : Source) {l r : Ty} (hl : l.WellFormed)
    (hr : r.WellFormed) {v w : Value} {m n : Int} (hm : v.int? = some m) (hn : w.int? = some n)
    (hv : v.Fits source.program.table (l.operand source.program.table))
    (hw : w.Fits source.program.table (r.operand source.program.table))
    (hknown : (l.operand source.program.table).NumberKnown →
      (r.operand source.program.table).NumberKnown →
      v.InSlot source.program.table ((l.operand source.program.table).slot v.tag) ∧
      w.InSlot source.program.table ((r.operand source.program.table).slot w.tag) ∧
      (ofInt m = ofInt n → m = n))
    {op : BinaryOp} {b : Bool} (hop : op.orders? m n = some b) :
    (Value.bool b).Fits source.program.table (binary source.program.table op l r) := by
  have hl' := operand_wellFormed source.program_table_wellFormed hl
  have hr' := operand_wellFormed source.program_table_wellFormed hr
  rw [binary_of_orders? hop (isNever_eq_false_of_fits_operand hv)
    (isNever_eq_false_of_fits_operand hw)]
  refine Value.fits_ofVerdict fun c hc => ?_
  obtain ⟨x, y, hx, hy⟩ := exists_ordered?_of_ordering? hc
  obtain ⟨hv', hw', hmn⟩ := hknown (Value.numberKnown_of_ordered? hl' hm hv hx)
    (Value.numberKnown_of_ordered? hr' hn hw hy)
  obtain rfl := hv'.ordered?_eq hl' hm hx
  obtain rfl := hw'.ordered?_eq hr' hn hy
  rw [ordering?_eq hx hy (Value.int?_spec hm).2.1 (Value.int?_spec hn).2.1 hmn, hop] at hc
  exact (Option.some.inj hc).symm

/-- Two or null is less than the five that the members of an enumeration stand for. -/
theorem ordering_covers_integers_labels :
    let table := labels.program.table
    let two := (Ty.number 2).union .null
    let five := Ty.enumeration none (some (.long 5))
    binary table .lt two five = .bool true ∧ (Value.bool true).Fits table (.bool true) := by
  intro table two five
  have hv : (Value.scalar (.number 2)).InSlot table ((two.operand table).slot .number) :=
    .of_payload (by decide +kernel) (.number 2)
  have hw : (Value.scalar (.long 5)).InSlot table ((five.operand table).slot .long) :=
    .of_payload (by decide +kernel) (.long 5)
  have hresult : binary table .lt two five = .bool true := by decide +kernel
  exact ⟨hresult, hresult ▸ ordering_covers_integers labels (by decide +kernel) (by decide +kernel)
    rfl rfl (Value.fits_iff.mpr (.inl hv)) (Value.fits_iff.mpr (.inl hw))
    (fun _ _ => ⟨hv, hw, by decide +kernel⟩) rfl⟩

/-- Three may be an unknown object, and it is less than four; but where five stands beside unknown
objects, a comparison with four gives only that it is not less. The same comes out for two integers
of which the lesser one is the number to which both are rounded. -/
theorem ordering_loses_integers :
    let table := labels.program.table
    let objects := (Ty.ofTags (Tags.single .object)).union (.number 5)
    ((Value.scalar (.number 3)).Fits table (objects.operand table) ∧
      (Value.scalar (.number 4)).Fits table ((Ty.number 4).operand table) ∧
      binary table .lt objects (.number 4) = .bool false) ∧
    ((Value.scalar (.long 9007199254740992)).Fits table ((Ty.long 9007199254740992).operand table) ∧
      (Value.scalar (.long 9007199254740993)).Fits table
        ((Ty.long 9007199254740993).operand table) ∧
      binary table .lt (.long 9007199254740992) (.long 9007199254740993) = .bool false) ∧
    ¬(Value.bool true).Fits table (.bool false) := by
  intro table objects
  have hfits {v : Value} {p : Payload Ty} (h : v.tag ∈ ((Ty.exact p).operand table).tags ∧
        ((Ty.exact p).operand table).payload? v.tag = some p) (hp : v.Matches table p) :
      v.Fits table ((Ty.exact p).operand table) := Value.fits_iff.mpr (.inl (.of_payload h hp))
  refine ⟨⟨Value.fits_iff.mpr (.inr (by decide +kernel)), hfits (by decide +kernel) (.number 4),
      by decide +kernel⟩,
    ⟨hfits (by decide +kernel) (.long _), hfits (by decide +kernel) (.long _), by decide +kernel⟩,
    fun h => ?_⟩
  rcases Value.fits_iff.mp h with h | ⟨h, -⟩
  · exact absurd h.mem (by decide)
  · exact absurd h (by decide)

end TypeFlow
