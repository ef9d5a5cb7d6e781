import TypeFlow.Proofs.CommonValues

/-!
# Values that pass a test for equality

Narrowing by equality goes through the kinds of the type that is narrowed and keeps of each kind
what may equal a value of the other type. A null, a boolean, an integer, a character, a string or a
symbol that belongs to both types is kept, provided that the narrowed type has its kind, or that the
other type is the unqualified object. It is lost if only the unqualified object of the narrowed type
stands for it, since that object is looked for on one side only.
-/

namespace TypeFlow

open Option Quantity Tags

namespace Ty

variable {table : DeclTable} {a b r t : Ty} {n : Nat}

/-! ### The parts that are kept -/

/-- Narrowing gives a type above what is kept of each kind, and above all that is not null if the
other type is the unqualified object. -/
theorem below_narrowEq? (htable : table.WellFormed) (ha : a.WellFormed) (hb : b.WellFormed)
    (ha_ne : a.isNever = false) (hb_ne : b.isNever = false)
    (h : narrowEq? table (n + 1) a b = some r) :
    r.WellFormed ∧ (∀ tag ∈ (b.expand table).tags, ∃ part,
        equalPart? table n (a.expand table).enumToValue (b.expand table) tag = some part ∧
        part.WellFormed ∧ part.Below r) ∧
      ((a.expand table).isPlainObject → ((b.expand table).without (.single .null)).Below r) := by
  have hr : r.WellFormed := .narrowEq? htable (n + 1) a b r ha hb h
  have hb' := hb.expand htable
  have hrest : ((b.expand table).without (.single .null)).WellFormed := hb'.without _
  have hvalues : (a.expand table).enumToValue.WellFormed := .enumToValue (ha.expand htable)
  obtain ⟨parts, hparts, rfl⟩ := narrowEq?_succ ha_ne hb_ne h
  have hformed : ∀ part ∈ parts, part.WellFormed := fun part hpart => by
    obtain ⟨tag, -, htag⟩ := hparts.origin part hpart
    exact .equalPart? htable hvalues hb' (fun v => .narrowEq? htable n _ _ v hvalues hb'.enumValue)
      htag
  have hkept : (unionAll parts).WellFormed := .unionAll hformed
  refine ⟨hr, fun tag htag => ?_, fun hplain => ?_⟩
  · obtain ⟨part, hmem, hpart⟩ := hparts.given tag (mem_toList.mpr htag)
    have hle := below_unionAll hformed hmem
    refine ⟨part, hpart, hformed part hmem, ?_⟩
    split
    · exact hle.trans (hformed part hmem) hkept (hkept.union hrest) (below_union_left hkept hrest)
    · exact hle
  · rw [if_pos hplain]
    exact below_union_right hkept hrest

/-- Narrowing finds the type that is left within the bound for comparisons. -/
def NarrowEqEnds (table : DeclTable) (a b : Ty) : Prop :=
  (narrowEq? table (comparisonBound table a b) a b).isSome

instance : Decidable (NarrowEqEnds table a b) := inferInstanceAs (Decidable (_ = true))

/-! ### Types with the same kinds -/

/-- The unqualified object stays unqualified in larger types. -/
theorem isPlainObject_of_below (ha : a.WellFormed) (hb : b.WellFormed) (hab : a.Below b)
    (h : a.isPlainObject) : b.isPlainObject := by
  rw [isPlainObject_iff_slot] at h ⊢
  rw [← hab, slot_union ha.canonical hb.canonical, h,
    if_neg (fun hvalue => absurd hvalue.2 (by decide))]
  cases b.slot .object <;> rfl

/-- Replacing members of enumerations by their literals takes nothing from other kinds. -/
theorem without_enum_below (ht : t.WellFormed) :
    (t.without (.single .enum)).Below t.enumToValue := by
  unfold enumToValue
  split
  · exact below_union_left (ht.without _) ht.enumValue
  · exact without_below ht _

/-- Expansion takes nothing from other kinds. -/
theorem without_synonym_below (htable : table.WellFormed) (ht : t.WellFormed) :
    (t.without (.single .synonym)).Below (t.expand table) := by
  have h := (without_below ht (.single .synonym)).expand htable (ht.without _) ht
  rwa [(Expanded.without_synonym t).expand_eq] at h

end Ty

open Ty

namespace Value

variable {table : DeclTable} {v : Value} {a b t : Ty} {p q : Payload Ty}

/-- Values that are compared by their kind and their literal alone. -/
inductive Simple : Value → Prop
  | null : Simple null
  | bool (b : Bool) : Simple (bool b)
  | number (n : Int32) : Simple (scalar (.number n))
  | long (n : Int64) : Simple (scalar (.long n))
  | char (c : Char) : Simple (scalar (.char c))
  | string (s : String) : Simple (scalar (.string s))
  | symbol (s : String) : Simple (symbol s)

section

variable (hv : v.Simple)

include hv

/-- The payloads that such a value matches are its literal. -/
theorem Simple.isValue (hp : v.Matches table p) : p.isValue := by
  cases hv <;> cases hp <;> simp [Payload.isValue, Payload.tag, contains_valueTypes]

theorem Simple.eq (hp : v.Matches table p) (hq : v.Matches table q) : p = q := by
  cases hv <;> cases hp <;> cases hq <;> rfl

theorem Simple.tag_eq (hp : v.Matches table p) : p.tag = v.tag := by
  cases hv <;> cases hp <;> rfl

theorem Simple.tag_ne_enum : v.tag ≠ .enum := by
  cases hv with
  | bool b => cases b <;> simp [tag]
  | _ => simp [tag, Scalar.tag]

theorem Simple.tag_ne_object : v.tag ≠ .object := by
  cases hv with
  | bool b => cases b <;> simp [tag]
  | _ => simp [tag, Scalar.tag]

/-- Such a value belongs to the types whose expansion it fits. -/
theorem Simple.inhabits_iff : v.Inhabits table t ↔ v.Fits table (t.expand table) := by
  rw [Value.inhabits_iff, or_iff_left]
  rintro ⟨d, s, rfl, -⟩
  exact hv.tag_ne_enum rfl

/-- A number or a character is found again in its own representation. -/
theorem Simple.convert {n : Quantity} (hp : v.Matches table p) (hn : p.quantity? = some n) :
    n.convert v.tag = some p := by
  cases hv <;> cases hp <;> cases hn
  · next n =>
    have hbounds : -2147483648 ≤ n.toInt ∧ n.toInt ≤ 2147483647 :=
      ⟨n.le_toInt, Int.le_of_lt_add_one n.toInt_lt⟩
    simp [tag, Scalar.tag, convert, whole?, hbounds]
  · next n => simp [tag, Scalar.tag, convert, whole?]
  · next c =>
    have hvalid : c.toNat.isValidChar := c.valid
    simp [tag, Scalar.tag, convert, hvalid]

end

/-! ### Slots with literals -/

/-- A value stays in a slot that is joined with another one. -/
theorem InSlot.union (hv : ∀ p, v.Matches table p → p.isValue) {join : Ty → Ty → Ty}
    {s : Slot} (h : v.InSlot table s) (s' : Slot) : v.InSlot table (s.union join s') := by
  match s, s' with
  | .bare, .absent | .bare, .bare | .bare, .holds _ | .holds _, .bare => trivial
  | .holds p, .absent => exact h
  | .holds p, .holds q =>
    rw [Slot.union, mergePayload_value (hv p h)]
    by_cases heq : p = q
    · rw [if_pos heq]
      exact h
    · rw [if_neg heq]
      trivial

/-- A larger type has the value as well. -/
theorem InSlot.of_below (hv : ∀ p, v.Matches table p → p.isValue) (ha : a.WellFormed)
    (hb : b.WellFormed) (hab : a.Below b)
    (h : v.InSlot table (a.slot v.tag)) : v.InSlot table (b.slot v.tag) := by
  rw [← hab, slot_union ha.canonical hb.canonical]
  split
  · exact (h.union hv _).flattened
  · exact h.union hv _

theorem InSlot.part (h : v.InSlot table (t.slot v.tag)) :
    v.InSlot table ((t.part v.tag).slot v.tag) := by
  rwa [Ty.part, slot_restrictedTo t (mem_single.mpr rfl)]

/-- Members of enumerations are replaced by their literals, which takes nothing from other kinds. -/
theorem InSlot.enumToValue (hv : v.Simple) (ht : t.WellFormed) (h : v.InSlot table (t.slot v.tag)) :
    v.InSlot table (t.enumToValue.slot v.tag) := by
  have hvalue := ht.enumToValue
  refine .of_below (fun _ => hv.isValue) (ht.without (.single .enum)) hvalue
    (without_enum_below ht) ?_
  rwa [slot_without, if_neg (by simpa using hv.tag_ne_enum)]

/-- The narrowing of `b` by equality with `a` looks for the value: `b` has its kind, or `a` is the
unqualified object. -/
def Sought (table : DeclTable) (v : Value) (a b : Ty) : Prop :=
  v.InSlot table ((b.expand table).slot v.tag) ∨ (a.expand table).isPlainObject

/-! ### Values that are kept -/

section

variable (htable : table.WellFormed) (hexpanded : table.Expanded)

include htable hexpanded

/-- The intersection of two types keeps their common null, booleans, literals and symbols. -/
theorem Simple.meet? (hv : v.Simple) {n : Nat} {m : Ty} (ha : a.WellFormed) (hb : b.WellFormed)
    (h : Ty.meet? table n a b = some m) (hva : v.Inhabits table a) (hvb : v.Inhabits table b) :
    v.Inhabits table m := by
  simp only [Ty.meet?, hva.isNever_eq_false, hvb.isNever_eq_false] at h
  rw [hv.inhabits_iff] at hva hvb
  refine leaf_meet htable hexpanded (fun w hw => ?_) hv.tag_ne_object ?_ ?_ (ha.expand htable)
    (hb.expand htable) h hva hvb
  · cases hv <;> cases hw
  · rintro rfl
    cases hv
  · rintro rfl
    cases hv

/-- A number or a character that is in both types is kept. -/
theorem Simple.numericEqual (hv : v.Simple) (hcomparable : v.tag ∈ comparable)
    (hb : b.WellFormed) (hva : v.InSlot table (a.slot v.tag))
    (hvb : v.InSlot table (b.slot v.tag)) :
    v.Inhabits table (.numericEqual a (b.part v.tag) v.tag) := by
  have hpart := hvb.part
  have hkind : v.tag ∈ (a.tags ∩ .comparable).toList := by simpa using ⟨hva.mem, hcomparable⟩
  rw [numericEqual_eq]
  split
  · exact Fits.inhabits htable hexpanded (hb.part _) (fits_iff.mpr (.inl hpart))
  · next hknown =>
    -- All numbers of `a` are known, and that of the kind of the value is the value.
    obtain ⟨n, hn⟩ : ∃ n, a.quantity? v.tag = some n := by
      simp only [List.any_eq_true, not_exists, not_and, isNone_iff_eq_none] at hknown
      exact ne_none_iff_exists'.mp (hknown v.tag hkind)
    obtain ⟨p, hp, hpn⟩ := bind_eq_some_iff.mp hn
    rw [slot_eq_holds_iff.mpr ⟨hva.mem, hp⟩] at hva
    have hnumber : equalNumber a (b.part v.tag) v.tag v.tag = .exact p := by
      have hconvert := hv.convert hva hpn
      unfold equalNumber
      simp only [hn, bind_some, hconvert]
      split
      · next q hq =>
        rw [slot_eq_holds_iff.mpr ⟨hpart.mem, hq⟩] at hpart
        rw [if_pos (hv.eq hpart hva)]
      · rfl
    have hall : ∀ t ∈ (a.tags ∩ .comparable).toList.map
        (equalNumber a (b.part v.tag) v.tag), t.WellFormed := by
      intro t ht
      obtain ⟨kind, -, rfl⟩ := List.mem_map.mp ht
      exact .equalNumber ..
    have hmem := List.mem_map_of_mem (f := equalNumber a (b.part v.tag) v.tag) hkind
    rw [hnumber] at hmem
    exact (Inhabits.exact (hv.tag_eq hva).symm hva).of_below htable hexpanded (hall _ hmem)
      (.unionAll hall) (below_unionAll hall hmem)

variable (hv : v.Simple) (ha : a.WellFormed) (hb : b.WellFormed)
include hv ha hb

/-- What is kept of the kind of a value that is in both types has the value. -/
theorem Simple.equalPart? {n : Nat} {part : Ty} (hva : v.InSlot table (a.slot v.tag))
    (hvb : v.InSlot table (b.slot v.tag)) (h : Ty.equalPart? table n a b v.tag = some part) :
    v.Inhabits table part := by
  rw [Ty.equalPart?, if_neg hv.tag_ne_enum] at h
  split at h
  · next hcomparable =>
    exact some.inj h ▸ hv.numericEqual htable hexpanded (mem_iff.mpr hcomparable) hb hva hvb
  split at h
  · have htag := mem_iff.mp hva.mem
    rw [Ty.booleanEqual, htag] at h
    refine some.inj h ▸ Inhabits.ofTags (mem_single.mpr rfl) ?_
    simpa using v.tag_ne_synonym.symm
  rw [if_pos (mem_iff.mp hva.mem)] at h
  have hpart {t : Ty} (ht : t.WellFormed) (hvt : v.InSlot table (t.slot v.tag)) :
      v.Inhabits table (t.part v.tag) :=
    Fits.inhabits htable hexpanded (ht.part _) (fits_iff.mpr (.inl hvt.part))
  exact hv.meet? htable hexpanded (ha.part _) (hb.part _) h (hpart ha hva) (hpart hb hvb)

/-- A value of both types that is looked for is kept. -/
theorem Simple.narrowEq? {n : Nat} {r : Ty} (h : Ty.narrowEq? table n a b = some r)
    (hva : v.Inhabits table a) (hvb : v.Inhabits table b) (hsought : v.Sought table a b) :
    v.Inhabits table r := by
  cases n with
  | zero => cases h
  | succ n =>
    obtain ⟨hr, hparts, hrest⟩ :=
      below_narrowEq? htable ha hb hva.isNever_eq_false hvb.isNever_eq_false h
    have ha' := ha.expand htable
    have hb' := hb.expand htable
    rw [hv.inhabits_iff] at hva hvb
    -- The unqualified object keeps everything but null.
    have hobject (hplain : (a.expand table).isPlainObject) (hnull : v.tag ≠ .null) :
        v.Inhabits table r := by
      refine (Fits.inhabits htable hexpanded (hb'.without _) ?_).of_below htable hexpanded
        (hb'.without _) hr (hrest hplain)
      rw [fits_iff] at hvb ⊢
      rw [isPlainObject_iff_slot, slot_without, slot_without, if_neg (by simpa using hnull),
        if_neg (by simp), ← isPlainObject_iff_slot]
      exact hvb
    have hlike (hlike : v.tag ∈ objectLike) : v.tag ≠ .null := by
      intro hnull
      rw [hnull] at hlike
      exact absurd hlike (by decide)
    have hslots (hva : v.InSlot table ((a.expand table).slot v.tag))
        (hvb : v.InSlot table ((b.expand table).slot v.tag)) : v.Inhabits table r := by
      obtain ⟨part, hpart, hformed, hbelow⟩ := hparts v.tag hvb.mem
      have hvalues := ha'.enumToValue
      exact (hv.equalPart? htable hexpanded hvalues hb' (hva.enumToValue hv ha') hvb
        hpart).of_below htable hexpanded hformed hr hbelow
    rw [fits_iff] at hva hvb
    rcases hva with hva | ⟨hplain, hva⟩
    · rcases hvb with hvb | ⟨-, hvb⟩
      · exact hslots hva hvb
      · exact hsought.elim (hslots hva) fun hplain => hobject hplain (hlike hvb)
    · exact hobject hplain (hlike hva)

theorem Simple.narrowEq_isNever (hends : NarrowEqEnds table a b) (hva : v.Inhabits table a)
    (hvb : v.Inhabits table b) (hsought : v.Sought table a b) :
    (narrowEq table a b).isNever = false := by
  obtain ⟨r, hr⟩ := isSome_iff_exists.mp hends
  rw [narrowEq, hr]
  exact (hv.narrowEq? htable hexpanded ha hb hr hva hvb hsought).isNever_eq_false

/-- A value of both types that is looked for keeps them from being told apart. -/
theorem Simple.equalsCheck_ne (hends : NarrowEqEnds table (a.expand table) (b.expand table))
    (hva : v.Inhabits table a) (hvb : v.Inhabits table b) (hsought : v.Sought table a b) :
    equalsCheck table a b ≠ some false := by
  have hkept : (narrowEq table (a.expand table) (b.expand table)).isNever = false := by
    refine hv.narrowEq_isNever htable hexpanded (ha.expand htable) (hb.expand htable) hends ?_ ?_ ?_
    · rwa [hv.inhabits_iff, expand_expand hexpanded, ← hv.inhabits_iff]
    · rwa [hv.inhabits_iff, expand_expand hexpanded, ← hv.inhabits_iff]
    · rwa [Sought, expand_expand hexpanded, expand_expand hexpanded]
  simp only [Ty.equalsCheck]
  grind

end

end Value

end TypeFlow
