import TypeFlow.Proofs.KnownValues

/-!
# Values that pass a test for truth

Null, false and zero are falsy, as are members of enumerations that stand for zero; every other
value is truthy. Narrowing by truth keeps the values that pass the test, kind by kind, and what is
left of members of enumerations is found by narrowing their literals. This ends, since no typedef
says which literals the members of an enumeration stand for. Where a type decides the test, all of
its values agree, and narrowing by inequality takes away nothing but the known value.
-/

namespace TypeFlow

open List Option Tags Ty

/-- Zero is falsy, and every other literal is truthy. -/
def Scalar.truth : Scalar → Bool
  | number n | long n => n != 0
  | float x => !(Double.ofInt 0).same x.toDouble
  | double x => !(Double.ofInt 0).same x
  | char c => c != '\x00'
  | string _ => true

/-- Null, false and zero are falsy, and every other value is truthy. -/
def Value.truth : Value → Bool
  | null => false
  | bool b => b
  | scalar s | enum _ s => s.truth
  | _ => true

namespace Ty

variable {table : DeclTable} {a b r t u : Ty} {n : Nat} {truth : Bool}

/-! ### Literals of enumerations in typedefs -/

/-- Nothing is known about the literals of the members of enumerations on this level. -/
def OpenEnums (t : Ty) : Prop := ∀ d v, .enum d (some v) ∉ t.data

variable {d : Option DeclId}

/-- The literals of a union of members are known only if they are on both sides. -/
theorem exists_enum_of_mergePayload {join : Ty → Ty → Ty} {p q : Payload Ty} {v : Ty}
    (h : mergePayload join p q = some (.enum d (some v))) :
    (∃ d v, p = .enum d (some v)) ∧ ∃ d v, q = .enum d (some v) := by
  obtain ⟨hp, hq⟩ := mergePayload_tag h
  cases p <;> simp only [Payload.tag, reduceCtorEq] at hp
  cases q <;> simp only [Payload.tag, reduceCtorEq] at hq
  next d v e w =>
  rw [mergePayload_enum] at h
  cases v <;> cases w <;> simp [enumPayload?] at h ⊢

theorem mem_union_enum {v : Ty} (h : .enum d (some v) ∈ (a.union b).data) :
    .enum d (some v) ∈ a.data ∨ ∃ d v, .enum d (some v) ∈ b.data := by
  rw [union_eq_unionStep] at h
  rcases mem_unionStep_data h with h | h | ⟨p, -, q, hq, hmerge⟩
  · exact .inl h
  · exact .inr ⟨d, v, h⟩
  · obtain ⟨-, e, w, rfl⟩ := exists_enum_of_mergePayload hmerge
    exact .inr ⟨e, w, hq⟩

namespace OpenEnums

theorem ofTags (tags : Tags) : (ofTags tags).OpenEnums := fun _ _ => not_mem_nil

theorem union (ha : a.OpenEnums) (hb : b.OpenEnums) : (a.union b).OpenEnums := by
  intro d v h
  rcases mem_union_enum h with h | ⟨e, w, h⟩
  · exact ha d v h
  · exact hb e w h

theorem unionAll {ts : List Ty} (h : ∀ t ∈ ts, t.OpenEnums) : (unionAll ts).OpenEnums :=
  foldl_invariant (fun _ hacc t ht => hacc.union (h t ht)) (.ofTags _)

theorem closed : Closed (fun _ => True) OpenEnums where
  ofTags := .ofTags
  exact p hwritten _ _ _ d v h := by
    obtain rfl : .enum d (some v) = p := mem_singleton.mp h
    exact hwritten
  union _ _ := .union

end OpenEnums

theorem referred_openEnums (htable : ∀ e ∈ table.expansions, e.2.OpenEnums) (s : Slot) :
    (referred table s).OpenEnums := by
  unfold referred
  split
  · exact .ofTags _
  · refine .unionAll (List.forall_mem_map.mpr fun d _ => ?_)
    exact expansionOf_closed (.ofTags _) htable d
  · exact .ofTags _

/-- What is known about the literals of members of an enumeration stands in the type itself and not
in one of its typedefs. -/
theorem enumValue_expand_cases (htable : table.WellFormed)
    (hopen : ∀ e ∈ table.expansions, e.2.OpenEnums) (ht : t.WellFormed) :
    (∃ p ∈ t.data, (t.expand table).enumValue ∈ p.components) ∨
      (t.expand table).enumValue = ofTags .enumValues := by
  unfold enumValue
  split
  · next d v hp =>
    have hmem := payload?_mem hp
    rw [expand_eq ht htable] at hmem
    rcases mem_union_enum hmem with h | ⟨e, w, h⟩
    · exact .inl ⟨_, mem_of_mem_without_data h, by simp⟩
    · exact absurd h (referred_openEnums hopen _ e w)
  · exact .inr rfl

/-! ### The parts that are kept -/

/-- What is kept of each kind lies below the result. -/
theorem below_narrowTruth? (htable : table.WellFormed) (ht : t.WellFormed)
    (h : narrowTruth? table (n + 1) truth t = some r) {tag : Tag}
    (htag : tag ∈ (t.expand table).tags) :
    ∃ part, truthPart? table n truth (t.expand table) tag = some part ∧
      part.WellFormed ∧ part.Below r := by
  rw [narrowTruth?_succ] at h
  obtain ⟨parts, hparts, rfl⟩ := exists_parts_of_foldlM h
  have ht' := ht.expand htable
  have hformed : ∀ part ∈ parts, part.WellFormed := fun part hpart => by
    obtain ⟨tag, -, htag⟩ := hparts.origin part hpart
    exact .truthPart? ht' (fun v => .narrowTruth? htable n _ _ v ht'.enumValue) htag
  obtain ⟨part, hmem, hpart⟩ := hparts.given tag (mem_toList.mpr htag)
  exact ⟨part, hpart, hformed part hmem, below_unionAll hformed hmem⟩

/-! ### Narrowing ends -/

/-- A step finds what is left if this is so for the literals of members of enumerations. -/
theorem isSome_narrowTruth?_succ (h : .enum ∈ (t.expand table).tags →
      (narrowTruth? table n truth (t.expand table).enumValue).isSome) :
    (narrowTruth? table (n + 1) truth t).isSome := by
  rw [narrowTruth?_succ]
  have hparts : ∀ tag ∈ (t.expand table).tags.toList,
      (truthPart? table n truth (t.expand table) tag).isSome := by
    intro tag htag
    cases tag with
    | enum =>
      obtain ⟨v, hv⟩ := isSome_iff_exists.mp (h (mem_toList.mp htag))
      simp only [truthPart?, hv, bind_eq_bind, bind_some]
      split <;> rfl
    | _ => rfl
  generalize (t.expand table).tags.toList = tags at hparts
  generalize never = acc
  induction tags generalizing acc with
  | nil => rfl
  | cons tag tags ih =>
    rw [forall_mem_cons] at hparts
    obtain ⟨part, hpart⟩ := isSome_iff_exists.mp hparts.1
    rw [foldlM_cons, hpart]
    exact ih hparts.2 _

/-- The nesting of a type limits the steps, since typedefs add no literals to enumerations. -/
theorem isSome_narrowTruth? (htable : table.WellFormed)
    (hopen : ∀ e ∈ table.expansions, e.2.OpenEnums) (ht : t.WellFormed) (truth : Bool)
    (hn : t.depth + 1 < n) :
    (narrowTruth? table n truth t).isSome := by
  induction n generalizing t with
  | zero => omega
  | succ n ih =>
    refine isSome_narrowTruth?_succ fun _ => ?_
    rcases enumValue_expand_cases htable hopen ht with ⟨p, hp, hc⟩ | heq
    · have := depth_lt_of_mem_components hp hc
      exact ih ((ht.payload hp).nested _ hc) (by omega)
    · -- All literals have no members of enumerations among them, so one more step is enough.
      obtain ⟨k, rfl⟩ : ∃ k, n = k + 1 := ⟨n - 1, by omega⟩
      rw [heq]
      refine isSome_narrowTruth?_succ fun henum => ?_
      rw [expand_of_notMem (by decide)] at henum
      exact absurd henum (by decide)

theorem exists_narrowTruth (htable : table.WellFormed)
    (hopen : ∀ e ∈ table.expansions, e.2.OpenEnums) (ht : t.WellFormed) (truth : Bool) :
    ∃ n, narrowTruth? table n truth t = some (narrowTruth table truth t) := by
  have hdepth := depth_le_size t
  have hbound : t.depth + 1 < comparisonBound table t never := by
    have hpow : t.size + 2 < 2 ^ (t.size + 2) := Nat.lt_two_pow_self
    have hle : 2 ^ (t.size + 2) ≤ comparisonBound table t never :=
      Nat.pow_le_pow_right (by decide) (by omega)
    omega
  obtain ⟨r, hr⟩ := isSome_iff_exists.mp (isSome_narrowTruth? htable hopen ht truth hbound)
  exact ⟨_, by rw [narrowTruth, hr, getD_some]⟩

end Ty

open Ty

/-! ### Values that are kept -/

variable {s : Scalar}

/-- A literal number is zero exactly if it is falsy. -/
theorem Scalar.isZero_of_quantity? {q : Quantity} (h : s.payload.quantity? = some q) :
    q.isZero = !s.truth := by
  cases s with
  | number n =>
    cases h
    simp [Quantity.isZero, Quantity.same, truth, ← Int32.toInt_inj, bne]
  | long n =>
    cases h
    simp [Quantity.isZero, Quantity.same, truth, ← Int64.toInt_inj, bne]
  | float x | double x =>
    cases h
    simp [Quantity.isZero, Quantity.same, truth]
  | char c =>
    cases h
    simp [Quantity.isZero, Quantity.same, truth, ← Char.toNat_inj, bne]
  | string s => cases h

/-- The only falsy integer and the only falsy character stand for zero. -/
theorem Scalar.convert_zero (hdecimal : s.isDecimal = false)
    (hnumber : s.payload.quantity?.isSome) (hfalse : s.truth = false) :
    (Quantity.int 0).convert s.tag = some s.payload := by
  cases s with
  | number n | long n =>
    obtain rfl : n = 0 := by simpa [truth] using hfalse
    rfl
  | float x | double x => cases hdecimal
  | char c =>
    obtain rfl : c = '\x00' := by simpa [truth] using hfalse
    rfl
  | string s => cases hnumber

namespace Value

variable {table : DeclTable} {v : Value} {a t : Ty} {n : Nat}

/-- A literal that is a number or a character is kept. -/
theorem InSlot.truthNumber (hdecimal : s.isDecimal = false)
    (hnumber : s.payload.quantity?.isSome) (h : (scalar s).InSlot table (t.slot s.tag)) :
    (scalar s).InSlot table ((truthNumber s.truth t s.tag).slot s.tag) := by
  unfold Ty.truthNumber
  cases hp : t.payload? s.tag with
  | some p =>
    have hmatch : (scalar s).Matches table p := by rwa [slot_eq_holds_iff.mpr ⟨h.mem, hp⟩] at h
    obtain rfl : p = s.payload := by cases s <;> cases hmatch <;> rfl
    obtain ⟨q, hq⟩ := isSome_iff_exists.mp hnumber
    have hquantity : t.quantity? s.tag = some q := by rw [quantity?, hp]; exact hq
    simpa [hquantity, Scalar.isZero_of_quantity? hq] using h
  | none =>
    have hquantity : t.quantity? s.tag = none := by rw [quantity?, hp]; rfl
    simp only [hquantity]
    cases htruth : s.truth with
    | true => exact h
    | false =>
      have htag : s.payload.tag = s.tag := by cases s <;> rfl
      simp only [Bool.false_eq_true, if_false, s.convert_zero hdecimal hnumber htruth, elim_some]
      rw [← htag, slot_exact]
      cases s <;> constructor

/-- A value that is not a member of an enumeration is found in what is kept of its kind. -/
theorem InSlot.truthPart? (hv : v.tag ≠ .enum) (hdecimal : v.isDecimal = false) {part : Ty}
    (h : v.InSlot table (t.slot v.tag))
    (hpart : truthPart? table n v.truth t v.tag = some part) :
    v.InSlot table (part.slot v.tag) := by
  cases v with
  | enum d s => exact absurd rfl hv
  | bool b => cases b <;> exact some.inj hpart ▸ h.part
  | scalar s =>
    cases s with
    | float x | double x => cases hdecimal
    | string s => exact some.inj hpart ▸ h.part
    | number n | long n | char c => exact some.inj hpart ▸ .truthNumber hdecimal rfl h.part
  | _ => exact some.inj hpart ▸ h.part

section

variable (htable : table.WellFormed) (hexpanded : table.Expanded)

include htable hexpanded

variable {r : Ty}

/-- What the unqualified object stands for is kept whatever the truth. -/
theorem inhabits_narrowTruth?_of_isPlainObject {truth : Bool} (ht : t.WellFormed)
    (h : narrowTruth? table (n + 1) truth t = some r)
    (hplain : (t.expand table).isPlainObject) (hlike : v.tag ∈ objectLike) :
    v.Inhabits table r := by
  have hr : r.WellFormed := .narrowTruth? htable _ _ t r ht h
  have hobject := (isPlainObject_iff.mp hplain).1
  obtain ⟨part, hpart, hformed, hbelow⟩ := below_narrowTruth? htable ht h hobject
  simp only [truthPart?, hplain, Bool.or_true, if_true, Option.some.injEq] at hpart
  have hfits : v.Fits table part := by
    refine fits_iff.mpr (.inr ⟨?_, hlike⟩)
    rw [isPlainObject_iff_slot] at hplain ⊢
    rwa [← hpart, Ty.part, slot_restrictedTo _ (mem_single.mpr rfl)]
  exact (hfits.inhabits htable hexpanded hformed).of_below htable hexpanded hformed hr hbelow

/-- Narrowing by its own truth keeps a value that is not a member of an enumeration. -/
theorem Inhabits.narrowTruth?_of_ne (hv : v.tag ≠ .enum) (hdecimal : v.isDecimal = false)
    (ht : t.WellFormed) (h : narrowTruth? table n v.truth t = some r)
    (hvt : v.Inhabits table t) :
    v.Inhabits table r := by
  cases n with
  | zero => cases h
  | succ n =>
    have hr : r.WellFormed := .narrowTruth? htable _ _ t r ht h
    have hfits : v.Fits table (t.expand table) := by
      refine (inhabits_iff.mp hvt).resolve_right ?_
      rintro ⟨d, s, rfl, -⟩
      exact hv rfl
    rcases fits_iff.mp hfits with hslot | ⟨hplain, hlike⟩
    · obtain ⟨part, hpart, hformed, hbelow⟩ := below_narrowTruth? htable ht h hslot.mem
      have hkept := fits_iff.mpr (.inl (hslot.truthPart? hv hdecimal hpart))
      exact (hkept.inhabits htable hexpanded hformed).of_below htable hexpanded hformed hr hbelow
    · exact inhabits_narrowTruth?_of_isPlainObject htable hexpanded ht h hplain hlike

/-- Narrowing by its own truth keeps a member of an enumeration. -/
theorem Inhabits.narrowTruth?_enum {d : DeclId} (hdecimal : s.isDecimal = false) (ht : t.WellFormed)
    (h : narrowTruth? table n s.truth t = some r) (hvt : (enum d s).Inhabits table t) :
    (enum d s).Inhabits table r := by
  have hscalar : (scalar s).tag ≠ .enum := by cases s <;> simp [tag, Scalar.tag]
  have hr : r.WellFormed := .narrowTruth? htable _ _ t r ht h
  cases n with
  | zero => cases h
  | succ n =>
  rcases inhabits_iff.mp hvt with hfits | ⟨d', s', heq, hunderlying⟩
  · rcases fits_iff.mp hfits with hslot | ⟨hplain, hlike⟩
    · -- The literal is kept among those of the members.
      have hmem : Tag.enum ∈ (t.expand table).tags := hslot.mem
      obtain ⟨part, hpart, hformed, hbelow⟩ := below_narrowTruth? htable ht h hmem
      obtain ⟨v, hv, hpart⟩ := bind_eq_some_iff.mp hpart
      have hmatch (p : Payload Ty) (hp : (t.expand table).payload? .enum = some p) :
          (enum d s).Matches table p := by
        rwa [show (enum d s).tag = .enum from rfl, slot_eq_holds_iff.mpr ⟨hmem, hp⟩] at hslot
      have hliteral : (scalar s).Inhabits table v :=
        (scalar_inhabits_enumValue hmatch).narrowTruth?_of_ne htable hexpanded hscalar hdecimal
          (ht.expand htable).enumValue hv
      simp only [nonempty?, hliteral.isNever_eq_false] at hpart
      refine .of_below htable hexpanded hformed hr hbelow ?_
      rw [← some.inj hpart, enumeration_some]
      refine .exact rfl (.enum (fun e he => ?_) fun u hu => some.inj hu ▸ hliteral)
      cases hp : (t.expand table).payload? .enum with
      | none => simp [enumDecl?, hp] at he
      | some p =>
        obtain ⟨decl, value, rfl, hdecl, -⟩ := exists_of_payload?_enum hp
        cases hmatch _ hp with
        | enum hdecl' => exact hdecl' e (hdecl ▸ he)
    · exact inhabits_narrowTruth?_of_isPlainObject htable hexpanded ht h hplain hlike
  · cases heq
    exact .underlying (hunderlying.narrowTruth?_of_ne htable hexpanded hscalar hdecimal ht h)

/-- Narrowing by its own truth keeps a value. -/
theorem Inhabits.narrowTruth (hopen : ∀ e ∈ table.expansions, e.2.OpenEnums)
    (hdecimal : v.isDecimal = false) (ht : t.WellFormed) (hvt : v.Inhabits table t) :
    v.Inhabits table (.narrowTruth table v.truth t) := by
  obtain ⟨n, hn⟩ := exists_narrowTruth htable hopen ht v.truth
  by_cases hv : v.tag = .enum
  · obtain ⟨d, s, rfl⟩ := exists_eq_enum hv
    exact hvt.narrowTruth?_enum htable hexpanded hdecimal ht hn
  · exact hvt.narrowTruth?_of_ne htable hexpanded hv hdecimal ht hn

end

end Value

/-! ### Types that decide the test -/

namespace Ty

variable {t : Ty} {ofEnum : Option Bool} {x : Bool} {tag : Tag}

/-- Each part of a type can be truthy or falsy. -/
theorem truthsOf_ne (t : Ty) (ofEnum : Option Bool) (tag : Tag) :
    truthsOf t ofEnum tag ≠ (false, false) := by
  cases tag with
  | number | long | float | double | char =>
    simp only [truthsOf]
    cases t.quantity? _ <;> simp
  | enum => cases ofEnum <;> simp [truthsOf]
  | object =>
    simp only [truthsOf]
    split <;> simp
  | _ => simp [truthsOf]

/-- If the parts of a type agree on a truth, each of them has this truth. -/
theorem truthsOf_of_combinedTruth (h : combinedTruth t ofEnum = some x) (htag : tag ∈ t.tags) :
    truthsOf t ofEnum tag = (x, !x) := by
  have hpossible := truthsOf_ne t ofEnum tag
  have hmem : truthsOf t ofEnum tag ∈ t.tags.toList.map (truthsOf t ofEnum) :=
    List.mem_map_of_mem (mem_toList.mpr htag)
  generalize truthsOf t ofEnum tag = truths at hpossible hmem ⊢
  obtain ⟨truthy, falsy⟩ := truths
  simp only [combinedTruth] at h
  split at h
  · next hnone =>
    cases h
    have hfalsy := List.any_eq_false.mp hnone _ hmem
    cases truthy <;> cases falsy <;> simp at hpossible hfalsy ⊢
  · next hnone _ =>
    cases h
    have htruthy := List.any_eq_false.mp hnone _ hmem
    cases truthy <;> cases falsy <;> simp at hpossible htruthy ⊢
  · cases h

/-- The members of enumerations have the truth of their literals, if these are known. -/
theorem exists_of_enumTruth {data : List (Payload Ty)} (h : enumTruth data = some x) :
    ∃ d v, data.find? (fun p => p.tag == .enum) = some (.enum d (some v)) ∧
      truthiness v = some x := by
  induction data with
  | nil => cases h
  | cons p ps ih =>
    cases p with
    | enum d value =>
      cases value with
      | none => cases h
      | some v => exact ⟨d, v, rfl, h⟩
    | _ => exact ih h

theorem truthiness_eq (t : Ty) : truthiness t = combinedTruth t (enumTruth t.data) := by
  obtain ⟨tags, data⟩ := t
  rw [truthiness]

end Ty

namespace Value

variable {table : DeclTable} {v : Value} {t : Ty} {x : Bool}

/-- Values of a type that decides the test fit it by their own kind. -/
theorem Fits.inSlot_of_truthiness (h : t.truthiness = some x)
    (hvt : v.Fits table (t.expand table)) : v.InSlot table (t.slot v.tag) := by
  rw [truthiness_eq] at h
  have hsynonym : .synonym ∉ t.tags := by
    intro hmem
    have := truthsOf_of_combinedTruth h hmem
    cases x <;> simp [truthsOf] at this
  rw [expand_of_notMem hsynonym] at hvt
  rcases fits_iff.mp hvt with hslot | ⟨hplain, -⟩
  · exact hslot
  · have := truthsOf_of_combinedTruth h (isPlainObject_iff.mp hplain).1
    cases x <;> simp [truthsOf, hplain] at this

/-- A literal has the truth that its kind is found to have. -/
theorem InSlot.scalar_truth {ofEnum : Option Bool} (hslot : (scalar s).InSlot table (t.slot s.tag))
    (h : truthsOf t ofEnum s.tag = (x, !x)) : s.truth = x := by
  have hquantity {q : Quantity} (hq : t.quantity? s.tag = some q) : q.isZero = !s.truth := by
    obtain ⟨p, hp, hpq⟩ := bind_eq_some_iff.mp hq
    rw [slot_eq_holds_iff.mpr ⟨hslot.mem, hp⟩] at hslot
    obtain rfl : p = s.payload := by cases s <;> cases hslot <;> rfl
    exact Scalar.isZero_of_quantity? hpq
  cases s with
  | string s =>
    cases x
    · simp [truthsOf, Scalar.tag] at h
    · rfl
  | number n | long n | float y | double y | char c =>
    simp only [truthsOf, Scalar.tag] at h hquantity
    split at h
    · next hmap =>
      obtain ⟨q, hq, rfl⟩ := map_eq_some_iff.mp hmap
      have hfirst : (!q.isZero) = x := congrArg Prod.fst h
      rwa [hquantity hq, Bool.not_not] at hfirst
    · cases x <;> simp at h

/-- Where a type decides the test, its values agree. -/
theorem Inhabits.truth_eq (h : t.truthiness = some x) (hvt : v.Inhabits table t) : v.truth = x := by
  have hscalar {t : Ty} {s : Scalar} (h : t.truthiness = some x)
      (hst : (scalar s).Inhabits table t) : s.truth = x := by
    have hslot := (scalar_inhabits_iff.mp hst).inSlot_of_truthiness h
    exact hslot.scalar_truth (truthsOf_of_combinedTruth (truthiness_eq t ▸ h) hslot.mem)
  rcases inhabits_iff.mp hvt with hfits | ⟨d, s, rfl, hs⟩
  · have hslot := hfits.inSlot_of_truthiness h
    have htruths := truthsOf_of_combinedTruth (truthiness_eq t ▸ h) hslot.mem
    cases v with
    | scalar s => exact hslot.scalar_truth htruths
    | enum d s =>
      simp only [tag, truthsOf] at htruths
      cases hof : enumTruth t.data with
      | none => cases x <;> simp [hof] at htruths
      | some y =>
        obtain ⟨e, u, hp, hu⟩ := exists_of_enumTruth hof
        obtain rfl : y = x := by simpa [hof] using congrArg Prod.fst htruths
        rw [slot_eq_holds_iff.mpr ⟨hslot.mem, hp⟩] at hslot
        cases hslot with
        | enum _ hvalue => exact hscalar hu (hvalue u rfl)
    | bool b => cases b <;> simpa [tag, truthsOf, truth] using congrArg Prod.fst htruths
    | object c fs =>
      simp only [tag, truthsOf] at htruths
      split at htruths
      · cases x <;> cases htruths
      · simpa [truth] using congrArg Prod.fst htruths
    | _ => simpa [tag, truthsOf, truth] using congrArg Prod.fst htruths
  · exact hscalar h hs

/-! ### Inequality -/

variable {w : Value} {a : Ty}

/-- A known value is excluded by its kind, if it is the only value of it that the type has. -/
theorem narrowNe_cases (hw : w.known? = some a) (table : DeclTable) (t : Ty) :
    narrowNe table a t = t.expand table ∨
      (narrowNe table a t = (t.expand table).without (.single w.tag) ∧
        ∀ v : Value, v.tag = w.tag → v.InSlot table ((t.expand table).slot w.tag) → v = w) := by
  rw [narrowNe, if_pos (known?_hasValue hw)]
  rcases known?_cases hw with ⟨hsingleton, rfl, honly⟩ | ⟨p, hvalue, htag, rfl, -, honly⟩
  · have hintersects : (ofTags (.single w.tag)).tags.intersects .singletons :=
      intersects_iff.mpr ⟨w.tag, mem_single.mpr rfl, hsingleton⟩
    rw [if_pos hintersects]
    exact .inr ⟨rfl, fun v hv _ => honly v hv⟩
  · have hdisjoint : ¬(exact p).tags.intersects singletons := by
      rw [intersects_iff]
      rintro ⟨tag, hmem, hsingleton⟩
      obtain rfl : tag = p.tag := mem_single.mp hmem
      exact (mem_sdiff.mp p.tag_mem_data).2 hsingleton
    rw [if_neg hdisjoint]
    simp only [exact, head?_cons]
    split
    · next hp =>
      refine .inr ⟨by rw [htag], fun v hv hslot => ?_⟩
      rw [← htag] at hslot
      rw [slot_eq_holds_iff.mpr ⟨hslot.mem, hp⟩] at hslot
      exact honly table v hslot
    · exact .inl rfl

section

variable (htable : table.WellFormed) (hexpanded : table.Expanded)

include htable hexpanded

/-- Values of a level other than the known value are kept. -/
theorem Fits.narrowNe (hw : w.known? = some a) (ht : t.WellFormed) (hne : v ≠ w)
    (h : v.Fits table (t.expand table)) : v.Inhabits table (.narrowNe table a t) := by
  refine Fits.inhabits htable hexpanded (.narrowNe htable a ht) ?_
  rcases narrowNe_cases hw table t with heq | ⟨heq, honly⟩
  · rwa [heq]
  · have hobject : Tag.object ∉ single w.tag := by
      cases w with
      | bool b => cases b <;> simp [tag]
      | scalar s => cases s <;> simp [tag, Scalar.tag]
      | object => cases hw
      | _ => simp [tag]
    rw [heq, fits_iff, slot_without, isPlainObject_iff_slot, slot_without, if_neg hobject,
      ← isPlainObject_iff_slot]
    refine (fits_iff.mp h).imp_left fun hslot => ?_
    rwa [if_neg]
    rw [mem_single]
    exact fun htag => hne (honly v htag (htag ▸ hslot))

/-- Values other than the known value and the members of enumerations that stand for it are kept. -/
theorem Inhabits.narrowNe (hw : w.known? = some a) (ht : t.WellFormed) (hne : v ≠ w)
    (hover : ∀ d s, w = scalar s → v ≠ enum d s) (hvt : v.Inhabits table t) :
    v.Inhabits table (.narrowNe table a t) := by
  rcases inhabits_iff.mp hvt with hfits | ⟨d, s, rfl, hs⟩
  · exact hfits.narrowNe htable hexpanded hw ht hne
  · have hne : scalar s ≠ w := fun heq => hover d s heq.symm rfl
    exact .underlying ((scalar_inhabits_iff.mp hs).narrowNe htable hexpanded hw ht hne)

end

end Value

/-- In typedefs nothing is known about the literals of the members of enumerations. -/
theorem Source.program_table_openEnums (source : Source) :
    ∀ e ∈ source.program.table.expansions, e.2.OpenEnums :=
  source.program_table_closed OpenEnums.closed
    (fun _ ht d v h => ht d v (mem_of_mem_without_data h)) fun _ _ _ => trivial

/-- Narrowing by truth and by inequality loses no value: a value that is not a floating-point number
is kept when a type is narrowed by the truth of the value; all values of a type that decides the
test have the truth that is found; and narrowing by inequality with a single known value keeps every
value but this one and the members of enumerations that stand for it. -/
theorem narrowTruth_keeps_values (source : Source) {t : Ty} (ht : t.WellFormed) {v : Value}
    (hvt : v.Inhabits source.program.table t) :
    (v.isDecimal = false →
      v.Inhabits source.program.table (narrowTruth source.program.table v.truth t)) ∧
    (∀ x, t.truthiness = some x → v.truth = x) ∧
    ∀ a : Ty, a.WellFormed → a.hasValue = true → ∃ w : Value, w.known? = some a ∧
      (v ≠ w → (∀ d s, w = .scalar s → v ≠ .enum d s) →
        v.Inhabits source.program.table (narrowNe source.program.table a t)) := by
  have htable := source.program_table_wellFormed
  have hexpanded := source.program_table_expanded
  refine ⟨fun hdecimal => ?_, fun x hx => hvt.truth_eq hx, fun a ha hvalue => ?_⟩
  · exact hvt.narrowTruth htable hexpanded source.program_table_openEnums hdecimal ht
  · obtain ⟨w, hw⟩ := Value.exists_known?_of_hasValue ha hvalue
    exact ⟨w, hw, fun hne hover => hvt.narrowNe htable hexpanded hw ht hne hover⟩

/-- A typedef for optional lists of numbers, and an enumeration. -/
def switches : Source :=
  .ofItems [.synonym () "Levels" ⟨(), [.ofArgs "Array" [["Number"]], .ofName "Null"]⟩,
    .enum ⟨(), some "Switch", []⟩]

/-- A switch that stands for zero is falsy. It is kept beside null where truthy lists and switches
are left out, it has the truth on which switches for zero agree, and it is kept where null is left
out. -/
theorem narrowTruth_keeps_values_switches :
    let table := switches.program.table
    let off := Value.enum 2 (.number 0)
    let t := (Ty.exact (.synonym (.one 1))).union
      (.enumeration (some 2) (some (.ofTags (Tags.single .number))))
    let zero := Ty.enumeration (some 2) (some (.exact (.number 0)))
    let falsy := Ty.null.union zero
    let lists := Ty.array (.ofTags (Tags.single .number))
    let present := lists.union (.enumeration (some 2) (some (.ofTags (Tags.single .number))))
    off.Inhabits table t ∧ (narrowTruth table off.truth t = falsy ∧ off.Inhabits table falsy) ∧
      (zero.truthiness = some false ∧ off.truth = false) ∧
      (Ty.null.hasValue = true ∧ narrowNe table .null t = present ∧
        off.Inhabits table present) := by
  intro table off t zero falsy lists present
  have ht : t.WellFormed := by decide +kernel
  have hoff {u : Ty} (hu : (Value.scalar (.number 0)).Inhabits table u) :
      off.Matches table (.enum (some 2) (some u)) := .enum (by simp) (by simpa using hu)
  have hvt : off.Inhabits table t :=
    .payload (by decide +kernel) (by decide +kernel) (hoff (u := .ofTags (Tags.single .number))
      (.bare (by decide) (by decide)))
  obtain ⟨hkept, -, hdiffer⟩ := narrowTruth_keeps_values switches ht hvt
  obtain ⟨-, hagree, -⟩ := narrowTruth_keeps_values switches (by decide +kernel)
    (.exact rfl (hoff (.exact rfl (.number 0))))
  obtain ⟨w, hw, hdiffer⟩ := hdiffer .null (.ofTags _) (by decide)
  have hfalsy : narrowTruth table off.truth t = falsy := by decide +kernel
  have hpresent : narrowNe table .null t = present := by decide +kernel
  have hdecided : zero.truthiness = some false := by decide +kernel
  refine ⟨hvt, ⟨hfalsy, hfalsy ▸ hkept rfl⟩, ⟨hdecided, hagree false hdecided⟩, by decide, hpresent,
    hpresent ▸ hdiffer ?_ ?_⟩
  · rintro rfl
    cases hw
  · rintro d s rfl
    cases s <;> cases hw

end TypeFlow
