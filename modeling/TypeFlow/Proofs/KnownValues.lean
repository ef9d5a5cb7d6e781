import TypeFlow.Proofs.EqualityValues

/-!
# Known values

Null, the booleans, literals and symbols are known values: each of them is the only value of a type
of its own. `Value.known?` gives this type, and the well-formed types that have a single known value
are exactly those that it gives.
-/

namespace TypeFlow

open List Option Tags

/-- The payload that stands for a literal. -/
def Scalar.payload : Scalar → Payload Ty
  | number n => .number n
  | long n => .long n
  | float x => .float x
  | double x => .double x
  | char c => .char c
  | string s => .string s

/-- The type that has only this value, if there is one. -/
def Value.known? : Value → Option Ty
  | null => some .null
  | bool b => some (.bool b)
  | scalar s => some (.exact s.payload)
  | symbol s => some (.symbol s)
  | _ => none

/-- The literal is a floating-point number. -/
def Scalar.isDecimal : Scalar → Bool
  | float _ | double _ => true
  | _ => false

/-- The value is a floating-point number or a member of an enumeration that stands for one. -/
def Value.isDecimal : Value → Bool
  | scalar s | enum _ s => s.isDecimal
  | _ => false

/-- A set with one member. -/
theorem Tags.exists_eq_single {tags : Tags} (h : tags.isSingle) : ∃ tag, tags = .single tag := by
  obtain ⟨tag, htag⟩ := length_eq_one_iff.mp (beq_iff_eq.mp h)
  refine ⟨tag, ext_mem fun s => ?_⟩
  rw [← mem_toList, htag, mem_singleton, mem_single]

theorem Tags.isSingle_single (tag : Tag) : (single tag).isSingle := by
  cases tag <;> decide

namespace Value

open Ty

variable {table : DeclTable} {v w : Value} {a b t x : Ty} {p : Payload Ty}

/-! ### The type of a known value -/

section

variable (h : v.known? = some x)
include h

/-- A known value has a kind of its own, or it is the only match of a literal. -/
theorem known?_cases :
    (v.tag ∈ singletons ∧ x = ofTags (single v.tag) ∧ ∀ w, w.tag = v.tag → w = v) ∨
      ∃ p : Payload Ty, p.isValue ∧ p.tag = v.tag ∧ x = Ty.exact p ∧
        (∀ table, v.Matches table p) ∧ ∀ table w, w.Matches table p → w = v := by
  cases v with
  | null =>
    refine .inl ⟨by decide, (some.inj h).symm, fun w hw => ?_⟩
    cases w with
    | null => rfl
    | bool b => cases b <;> simp [tag] at hw
    | scalar s => cases s <;> simp [tag, Scalar.tag] at hw
    | _ => simp [tag] at hw
  | bool b =>
    refine .inl ⟨by cases b <;> decide, (some.inj h).symm, fun w hw => ?_⟩
    cases w with
    | bool c => cases b <;> cases c <;> simp [tag] at hw ⊢
    | scalar s => cases b <;> cases s <;> simp [tag, Scalar.tag] at hw
    | _ => cases b <;> simp [tag] at hw
  | scalar s =>
    refine .inr ⟨s.payload, ?_, ?_, (some.inj h).symm, ?_, ?_⟩
    · cases s <;> simp [Scalar.payload, Payload.isValue, Payload.tag, contains_valueTypes]
    · cases s <;> rfl
    · intro table
      cases s <;> constructor
    · intro table w hw
      cases s <;> cases hw <;> rfl
  | symbol s =>
    refine .inr ⟨.symbol s, ?_, rfl, (some.inj h).symm, fun _ => .symbol s, ?_⟩
    · simp [Payload.isValue, Payload.tag, contains_valueTypes]
    intro table w hw
    cases hw
    rfl
  | _ => cases h

/-- All payloads that a known value matches are literals. -/
theorem known?_isValue (hp : v.Matches table p) : p.isValue := by
  cases v <;> simp only [known?, reduceCtorEq] at h <;> cases hp <;>
    simp [Payload.isValue, Payload.tag, contains_valueTypes]

/-- A payload that a known value matches is all there is to its type. -/
theorem known?_eq_exact (hp : v.Matches table p) : x = .exact p := by
  cases v <;> simp only [known?, reduceCtorEq] at h <;> cases hp <;> exact (some.inj h).symm

theorem known?_tags : x.tags = single v.tag := by
  rcases known?_cases h with ⟨-, rfl, -⟩ | ⟨p, -, htag, rfl, -⟩
  · rfl
  · exact congrArg single htag

theorem known?_wellFormed : x.WellFormed := by
  rcases known?_cases h with ⟨-, rfl, -⟩ | ⟨p, hvalue, -, rfl, -⟩
  · exact .ofTags _
  · exact .exact (.of_isValue hvalue)

theorem known?_inSlot : v.InSlot table (x.slot v.tag) := by
  rcases known?_cases h with ⟨-, rfl, -⟩ | ⟨p, -, htag, rfl, hmatch, -⟩
  · rw [slot_eq_bare_iff.mpr ⟨mem_single.mpr rfl, rfl⟩]
    trivial
  · rw [← htag, slot_exact]
    exact hmatch table

theorem known?_hasValue : x.hasValue := by
  have hexact : x.isExact := by
    rw [isExact, known?_tags h]
    exact isSingle_single _
  rw [hasValue, hexact, Bool.true_and, Bool.or_eq_true]
  rcases known?_cases h with ⟨hsingleton, rfl, -⟩ | ⟨p, hvalue, -, rfl, -⟩
  · exact .inl (intersects_iff.mpr ⟨v.tag, mem_single.mpr rfl, hsingleton⟩)
  · exact .inr (by simpa [Ty.exact] using hvalue)

end

/-! ### Types with a known value -/

theorem exists_known?_of_singleton {tag : Tag} (h : tag ∈ singletons) :
    ∃ v : Value, v.known? = some (ofTags (.single tag)) := by
  have hcases : tag = .null ∨ tag = .false ∨ tag = .true := by
    revert h
    cases tag <;> decide
  rcases hcases with rfl | rfl | rfl
  · exact ⟨null, rfl⟩
  · exact ⟨bool false, rfl⟩
  · exact ⟨bool true, rfl⟩

theorem exists_known?_of_isValue (h : p.isValue) : ∃ v : Value, v.known? = some (.exact p) := by
  cases p with
  | number n => exact ⟨scalar (.number n), rfl⟩
  | long n => exact ⟨scalar (.long n), rfl⟩
  | float x => exact ⟨scalar (.float x), rfl⟩
  | double x => exact ⟨scalar (.double x), rfl⟩
  | char c => exact ⟨scalar (.char c), rfl⟩
  | string s => exact ⟨scalar (.string s), rfl⟩
  | symbol s => exact ⟨symbol s, rfl⟩
  | _ => simp [Payload.isValue, Payload.tag, contains_valueTypes] at h

/-- A type with a known value is the type of that value. -/
theorem exists_known?_of_hasValue (ht : t.WellFormed) (h : t.hasValue) :
    ∃ v : Value, v.known? = some t := by
  rw [hasValue, Bool.and_eq_true, Bool.or_eq_true] at h
  obtain ⟨hexact, hknown⟩ := h
  obtain ⟨tag, htags⟩ := exists_eq_single hexact
  have habsent {tag' : Tag} (hne : tag' ≠ tag) : t.slot tag' = .absent := by
    rw [slot_eq_absent_iff, htags, mem_single]
    exact hne
  have hmem : tag ∈ t.tags := by rw [htags, mem_single]
  rcases hknown with hsingleton | hvalue
  · have hsingleton : tag ∈ singletons := by
      obtain ⟨tag', htag', hsingleton⟩ := intersects_iff.mp hsingleton
      rw [htags, mem_single] at htag'
      exact htag' ▸ hsingleton
    have hdata : t.data = [] := by
      refine eq_nil_iff_forall_not_mem.mpr fun p hp => ?_
      have htag : p.tag = tag := by simpa [htags] using ht.canonical.tagged p hp
      have := p.tag_mem_data
      rw [htag, Tags.data, Tags.mem_sdiff] at this
      exact this.2 hsingleton
    have heq : t = ofTags (.single tag) := by
      obtain ⟨tags, data⟩ := t
      exact congr (congrArg Ty.mk htags) hdata
    exact heq ▸ exists_known?_of_singleton hsingleton
  · obtain ⟨p, hhead, hvalue⟩ : ∃ p, t.data.head? = some p ∧ p.isValue := by
      cases hhead : t.data.head? with
      | none => simp [hhead] at hvalue
      | some p => exact ⟨p, rfl, by simpa [hhead] using hvalue⟩
    have hp := mem_of_mem_head? hhead
    have htag : p.tag = tag := by simpa [htags] using ht.canonical.tagged p hp
    have hpayload := (payload?_eq_some_iff ht.canonical.ordered).mpr ⟨hp, htag⟩
    have heq : t = .exact p := by
      have hformed : (Ty.exact p).WellFormed := .exact (.of_isValue hvalue)
      refine ht.canonical.ext_slot hformed.canonical fun tag' => ?_
      by_cases hne : tag' = tag
      · rw [hne, slot_eq_holds_iff.mpr ⟨hmem, hpayload⟩, ← htag, slot_exact]
      · rw [habsent hne, slot_exact_of_ne (htag ▸ hne)]
    exact heq ▸ exists_known?_of_isValue hvalue

end Value

end TypeFlow
