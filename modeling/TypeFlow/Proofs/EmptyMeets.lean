import TypeFlow.Proofs.MeetByTag
import TypeFlow.Proofs.Overlapping

/-!
# Intersections that are empty from both sides

The intersection of two types depends on their order, but whether anything is left of it does not.
What is in common at one level looks the same from both sides, and the members of enumerations are
intersected in the same order anyway. Shapes are the one exception: a field that only one of them
has must not be empty if it belongs to the second.
-/

namespace TypeFlow

open List Option

/-! ### Components -/

/-- Components have something in common as far as `meet` finds out. -/
def Met (meet : Ty → Ty → Option Ty) (t u : Ty) : Prop := ∃ m, meet t u = some m ∧ m.isNever = false

/-- Components have nothing in common. -/
def Refused (meet : Ty → Ty → Option Ty) (t u : Ty) : Prop := ∃ m, meet t u = some m ∧ m.isNever

theorem Met.not_refused {meet : Ty → Ty → Option Ty} {t u : Ty} (h : Met meet t u) :
    ¬Refused meet t u := by
  obtain ⟨m, hm, hne⟩ := h
  rintro ⟨m', hm', hnever⟩
  obtain rfl := some.inj (hm.symm.trans hm')
  simp [hne] at hnever

/-- The fields of a payload with a shape. -/
def Payload.fields : Payload Ty → List (String × Ty)
  | .object _ (some fields) => fields
  | _ => []

/-- Fields of shapes are not empty. -/
def Ty.FieldsInhabited (t : Ty) : Prop := ∀ p ∈ t.data, ∀ g ∈ p.fields, g.2.isNever = false

instance : DecidablePred Ty.FieldsInhabited := fun t =>
  inferInstanceAs (Decidable (∀ p ∈ t.data, ∀ g ∈ p.fields, g.2.isNever = false))

/-- The common fields of two shapes are related by `R`. -/
def Payload.FieldsMeet (R : Ty → Ty → Prop) (p q : Payload Ty) : Prop :=
  ∀ ds fs es gs, p = .object ds (some fs) → q = .object es (some gs) →
    ∀ name t u, fs.lookup name = some t → gs.lookup name = some u → R t u

/-- Two payloads have something in common, also in the fields of shapes, where `R` relates
components. -/
structure Payload.Meets (table : DeclTable) (R : Ty → Ty → Prop) (p q : Payload Ty) : Prop where
  overlaps : p.Overlaps table R q
  fields : p.FieldsMeet R q

namespace Payload

variable {table : DeclTable} {R S : Ty → Ty → Prop} {C : Ty → Prop} {p q : Payload Ty}

theorem exists_object_of_mem_fields {g : String × Ty} (h : g ∈ p.fields) :
    ∃ ds, p = .object ds (some p.fields) := by
  unfold fields at h ⊢
  split at h
  · exact ⟨_, rfl⟩
  · simp at h

theorem Meets.mono_on (hp : ∀ t ∈ p.components, C t) (hq : ∀ t ∈ q.components, C t)
    (h : p.Meets table R q) (hRS : ∀ t u, C t → C u → R t u → S t u) : p.Meets table S q where
  overlaps := h.overlaps.mono_on hp hq hRS
  fields := by
    rintro ds fs es gs rfl rfl name t u ht hu
    refine hRS t u (hp t ?_) (hq u ?_) (h.fields _ _ _ _ rfl rfl name t u ht hu)
    · exact mem_map.mpr ⟨(name, t), mem_of_lookup ht, rfl⟩
    · exact mem_map.mpr ⟨(name, u), mem_of_lookup hu, rfl⟩

theorem Meets.symm (hR : Std.Symm R) (h : p.Meets table R q) : q.Meets table R p where
  overlaps := h.overlaps.symm hR
  fields ds fs es gs hp hq name t u ht hu := hR.symm _ _ (h.fields es gs ds fs hq hp name u t hu ht)

end Payload

namespace Ty

variable {table : DeclTable} {meet : Ty → Ty → Option Ty} {a b m m' t u : Ty} {p q r : Payload Ty}
  {n : Nat} {ts us : List Ty} {ds es : DeclSet} {make : DeclSet → Payload Ty} {R E : Ty → Ty → Prop}

/-! ### Tuples and shapes -/

theorem SharesAll.forall₂ {ms : List Ty} (h : SharesAll meet ts us ms) :
    Forall₂ (Met meet) ts us := by
  induction h with
  | nil => exact .nil
  | cons hfirst _ ih => exact .cons ⟨_, hfirst⟩ ih

theorem meetSlots?_ne_some_none (h : Forall₂ (fun t u => ¬Refused meet t u) ts us) :
    meetSlots? meet ts us ≠ some none := by
  intro hnone
  induction h with
  | nil => simp [meetSlots?] at hnone
  | @cons t u ts us hfirst _ ih =>
    obtain ⟨m, hm, ⟨hnever, -⟩ | ⟨-, rest, hrest, hfound⟩⟩ := meetSlots?_cons hnone
    · exact hfirst ⟨m, hm, hnever⟩
    · obtain rfl := map_eq_none_iff.mp hfound.symm
      exact ih hrest

theorem meetFields?_ne_some_none {fs gs acc : List (String × Ty)}
    (hfields : ∀ g ∈ gs, ∀ m, MeetsField meet fs g m → m.isNever = false) :
    meetFields? meet fs acc gs ≠ some none := by
  intro hnone
  induction gs generalizing acc with
  | nil => simp [meetFields?] at hnone
  | cons g gs ih =>
    obtain ⟨hg, hfields⟩ := forall_mem_cons.mp hfields
    obtain ⟨m, hm, ⟨hnever, -⟩ | ⟨-, hrest⟩⟩ := meetFields?_cons hnone
    · simp [hg m hm] at hnever
    · exact ih hfields hrest

/-! ### Payloads -/
theorem forall₂_replicate_iff : Forall₂ R ts (replicate ts.length u) ↔ ∀ t ∈ ts, R t u := by
  induction ts with
  | nil => simp
  | cons t ts ih => simp [replicate_succ, ih]

/-- A payload is what is left of two others only if they have something in common. -/
theorem overlaps_of_meetPayload? (hr : meetPayload? table meet p q = some (some r)) :
    p.Overlaps table (Met meet) q := by
  have hcommon {ds es : DeclSet} (h : ∃ d, d ∈ ds.inter es) : ∃ d ∈ ds, d ∈ es :=
    h.imp fun _ => DeclSet.mem_inter.mp
  cases joint_of_meetPayload? hr with
  | value h => exact .value h
  | elements h => exact .elements ⟨_, h⟩
  | tuple h => exact .tuple h.forall₂
  | slots h => exact .slots (forall₂_replicate_iff.mp h.forall₂)
  | slots' h => exact .slots' (forall₂_replicate_iff.mp h.forall₂)
  | dictionary hkey hvalue => exact .dictionary ⟨_, hkey⟩ ⟨_, hvalue⟩
  | method => exact .method ..
  | module h => exact .module (hcommon h)
  | function h => exact .function (hcommon h)
  | cls h => exact .cls (hcommon h)
  | synonym h => exact .synonym (hcommon h)
  | object h =>
    obtain ⟨x, hx⟩ := h
    obtain ⟨y, hy, z, hz, ⟨hyz, -⟩ | ⟨-, hzy, -⟩⟩ := mem_meetClasses_iff.mp hx
    · exact .object _ _ ⟨y, hy, z, hz, .inl hyz⟩
    · exact .object _ _ ⟨y, hy, z, hz, .inr hzy⟩
  | enum hdecl hvalue =>
    refine .enum hdecl ?_
    rintro t u rfl rfl
    obtain ⟨_, _, m, ht, hu, -, hm⟩ | ⟨hnone, -⟩ | ⟨hnone, -⟩ := hvalue
    · cases ht
      cases hu
      exact ⟨m, hm⟩
    · cases hnone
    · cases hnone

theorem fieldsMeet_of_meetPayload? (hr : meetPayload? table meet p q = some (some r)) :
    p.FieldsMeet (Met meet) q := by
  rintro ds fs es gs rfl rfl name t u ht hu
  cases joint_of_meetPayload? hr with
  | value h => simp [Payload.isValue, Payload.tag, Tags.contains_valueTypes] at h
  | object _ hshape =>
    obtain ⟨_, _, out, hfs, hgs, -, hout⟩ | ⟨hnone, -⟩ | ⟨hnone, -⟩ := hshape
    · cases hfs
      cases hgs
      have hmet := (meetFields?_steps (P := fun _ => True) hout trivial (by simp)).2
      obtain ⟨m, ⟨t', ht', hm⟩ | ⟨hnone, -⟩, hne⟩ := hmet _ (mem_of_lookup hu)
      · obtain rfl := some.inj (ht.symm.trans ht')
        exact ⟨m, hm, hne⟩
      · cases ht.symm.trans hnone
    · cases hnone
    · cases hnone

theorem refused_of_map {make : Ty → Payload Ty}
    (h : (do return (nonempty? (← meet t u)).map make) = some none) : Refused meet t u := by
  obtain ⟨m, hm, h⟩ := bind_eq_some_iff.mp h
  have hnone := map_eq_none_iff.mp (some.inj h)
  unfold nonempty? at hnone
  split at hnone
  · next hnever => exact ⟨m, hm, hnever⟩
  · cases hnone

theorem map_ne_some_none_of_common (h : ∃ d ∈ ds, d ∈ es) :
    some ((nonemptySet? (ds.inter es)).map make) ≠ some none := by
  obtain ⟨d, hd⟩ := h
  rw [nonemptySet?_of_mem (DeclSet.mem_inter.mpr hd)]
  simp

theorem map_slots_ne_some_none (h : Forall₂ (fun t u => ¬Refused meet t u) ts us) :
    (do return (← meetSlots? meet ts us).map Payload.tuple) ≠ some none := by
  intro hnone
  obtain ⟨found, hfound, hnone⟩ := bind_eq_some_iff.mp hnone
  obtain rfl : found = none := map_eq_none_iff.mp (some.inj hnone)
  exact meetSlots?_ne_some_none h hfound

/-- Of two related classes there is a common one. -/
theorem exists_mem_meetClasses
    (h : ∃ x ∈ ds, ∃ y ∈ es, table.isSubclass x y ∨ table.isSubclass y x) :
    ∃ x, x ∈ meetClasses table ds es := by
  obtain ⟨x, hx, y, hy, hxy⟩ := h
  cases hsub : table.isSubclass x y with
  | true => exact ⟨x, mem_meetClasses_iff.mpr ⟨x, hx, y, hy, .inl ⟨hsub, rfl⟩⟩⟩
  | false =>
    have hyx := hxy.resolve_left (by simp [hsub])
    exact ⟨y, mem_meetClasses_iff.mpr ⟨x, hx, y, hy, .inr ⟨hsub, hyx, rfl⟩⟩⟩

/-- Something is left of payloads with something in common. -/
theorem meetPayload?_ne_some_none (hoverlaps : p.Overlaps table (fun t u => ¬Refused meet t u) q)
    (hfields : ∀ g ∈ q.fields, ∀ m, MeetsField meet p.fields g m → m.isNever = false) :
    meetPayload? table meet p q ≠ some none := by
  intro hnone
  cases hoverlaps with
  | value hvalue =>
    cases p <;> simp [meetPayload?, Payload.isValue, Payload.tag, Tags.contains_valueTypes]
      at hvalue hnone
  | elements h => exact h (refused_of_map hnone)
  | tuple h =>
    simp only [meetPayload?, h.length_eq] at hnone
    exact map_slots_ne_some_none h hnone
  | slots h | slots' h => exact map_slots_ne_some_none (forall₂_replicate_iff.mpr h) hnone
  | dictionary hkey hvalue =>
    obtain ⟨key, hmeet, hnone⟩ := bind_eq_some_iff.mp hnone
    cases hne : key.isNever with
    | true => exact hkey ⟨key, hmeet, hne⟩
    | false =>
      simp only [nonempty?, hne] at hnone
      exact hvalue (refused_of_map hnone)
  | method => simp [meetPayload?] at hnone
  | module h | function h | cls h | synonym h => exact map_ne_some_none_of_common h hnone
  | object shape shape' h =>
    obtain ⟨x, hx⟩ := exists_mem_meetClasses h
    simp only [meetPayload?, nonemptySet?_of_mem hx] at hnone
    cases shape with
    | none => simp at hnone
    | some fs =>
      cases shape' with
      | none => simp at hnone
      | some gs =>
        obtain ⟨found, hfound, hnone⟩ := bind_eq_some_iff.mp hnone
        obtain rfl : found = none := map_eq_none_iff.mp (some.inj hnone)
        exact meetFields?_ne_some_none hfields hfound
  | @enum d e v w hdecl hvalue =>
    have hdecl : (d.isSome && e.isSome && decide (d ≠ e)) = false := by
      cases d <;> cases e <;> simp_all
    simp only [meetPayload?, hdecl] at hnone
    cases v with
    | none => simp at hnone
    | some t =>
      cases w with
      | none => simp at hnone
      | some u => exact hvalue t u rfl rfl (refused_of_map hnone)
/-- Shapes whose common fields are not refused have fields with something in common. -/
theorem MeetsField.isNever_eq_false (h : p.Meets table (fun t u => ¬Refused meet t u) q)
    (hproper : q.Proper) (hfields : ∀ g ∈ q.fields, g.2.isNever = false) {g : String × Ty}
    (hg : g ∈ q.fields) (hm : MeetsField meet p.fields g m) : m.isNever = false := by
  obtain ⟨t, ht, hm⟩ | ⟨-, rfl⟩ := hm
  · obtain ⟨ds, hp⟩ := Payload.exists_object_of_mem_fields (mem_of_lookup ht)
    obtain ⟨es, hq⟩ := Payload.exists_object_of_mem_fields hg
    rw [hq] at hproper
    have hu := hproper.2.lookup_eq_some_iff.mpr hg
    exact Bool.eq_false_iff.mpr fun hnever => h.fields _ _ _ _ hp hq _ _ _ ht hu ⟨m, hm, hnever⟩
  · exact hfields g hg

/-! ### Levels -/

/-- Members of the enumeration `e` stand for literals of the other type, as `E` says. -/
structure EnumMeets (E : Ty → Ty → Prop) (e other : Ty) : Prop where
  mem : .enum ∈ e.tags
  notMem : .enum ∉ other.tags
  rest : (e.kindsBeside other).isNever = false
  literals : E e.enumValue (e.kindsBeside other)

/-- Two expanded types have something in common: a kind, a kind for which the unqualified object of
one of them stands, or members of an enumeration whose literals belong to the other one. -/
inductive LevelMeets (table : DeclTable) (R E : Ty → Ty → Prop) (a b : Ty) : Prop
  | shared {tag : Tag} (ha : tag ∈ a.tags) (hb : tag ∈ b.tags)
      (h : ∀ p q, a.payload? tag = some p → b.payload? tag = some q → p.Meets table R q)
  | left {tag : Tag} (ha : a.isPlainObject) (hb : tag ∈ b.tags) (h : tag ∈ Tags.objectLike)
  | right {tag : Tag} (ha : tag ∈ a.tags) (hb : b.isPlainObject) (h : tag ∈ Tags.objectLike)
  | leftEnum (h : EnumMeets E a b)
  | rightEnum (h : EnumMeets E b a)

/-- The relations may be changed as long as this is justified by what holds of all components. -/
theorem LevelMeets.mono {S F : Ty → Ty → Prop} {C : Ty → Prop} (h : a.LevelMeets table R E b)
    (hCa : ∀ p ∈ a.data, ∀ c ∈ p.components, C c) (hCb : ∀ p ∈ b.data, ∀ c ∈ p.components, C c)
    (hRS : ∀ t u, C t → C u → R t u → S t u) (hEF : ∀ t u, E t u → F t u) :
    a.LevelMeets table S F b := by
  cases h with
  | shared ha hb h =>
    refine .shared ha hb fun p q hp hq => ?_
    exact (h p q hp hq).mono_on (hCa p (payload?_mem hp)) (hCb q (payload?_mem hq)) hRS
  | left ha hb h => exact .left ha hb h
  | right ha hb h => exact .right ha hb h
  | leftEnum h => exact .leftEnum ⟨h.mem, h.notMem, h.rest, hEF _ _ h.literals⟩
  | rightEnum h => exact .rightEnum ⟨h.mem, h.notMem, h.rest, hEF _ _ h.literals⟩

theorem LevelMeets.symm (hR : Std.Symm R) (h : a.LevelMeets table R E b) :
    b.LevelMeets table R E a := by
  cases h with
  | shared ha hb h => exact .shared hb ha fun q p hq hp => (h p q hp hq).symm hR
  | left ha hb h => exact .right hb ha h
  | right ha hb h => exact .left hb ha h
  | leftEnum h => exact .rightEnum h
  | rightEnum h => exact .leftEnum h

section

variable {tag : Tag} (h : meetTags? table meet a b = some t) (ht : t.Canonical) (ha : tag ∈ a.tags)
  (hb : tag ∈ b.tags)

include h ht ha hb

/-- Two payloads of a common kind are intersected, and the kind is kept if something is left. -/
theorem exists_meetPayload? (hp : a.payload? tag = some p) (hq : b.payload? tag = some q) :
    ∃ found, meetPayload? table meet p q = some found ∧ (tag ∈ t.tags ↔ found.isSome) := by
  obtain ⟨s, hs, hslot⟩ := slot_meetTags? h ht tag
  rw [slot_eq_holds_iff.mpr ⟨ha, hp⟩, slot_eq_holds_iff.mpr ⟨hb, hq⟩] at hs
  obtain ⟨found, hfound, rfl⟩ := map_eq_some_iff.mp hs
  refine ⟨found, hfound, ?_⟩
  rw [← not_iff_not, ← slot_eq_absent_iff, hslot]
  cases found <;> split <;> simp [Slot.flattened]

/-- A common kind is kept if one of the types says nothing more about it. -/
theorem mem_meetTags?_of_none (hnone : a.payload? tag = none ∨ b.payload? tag = none) :
    tag ∈ t.tags := by
  obtain ⟨s, hs, hslot⟩ := slot_meetTags? h ht tag
  have hne : s ≠ .absent := by
    rintro rfl
    simp only [slot, ha, hb] at hs
    rcases hnone with hnone | hnone
    · cases hq : b.payload? tag <;> simp [hnone, hq, Slot.meet?] at hs
    · cases hp : a.payload? tag <;> simp [hnone, hp, Slot.meet?] at hs
  by_contra htag
  rw [slot_eq_absent_iff.mpr htag] at hslot
  split at hslot
  · cases s <;> simp [Slot.flattened] at hne hslot
  · exact hne hslot.symm

end

/-- Members of an enumeration are added where they stand for literals of the other type. -/
theorem EnumMeets.mem_meetEnum? {e other result : Ty}
    (h : EnumMeets (fun t u => ¬Refused meet t u) e other)
    (hm : meetEnum? meet e other result = some m) : .enum ∈ m.tags := by
  rcases meetEnum?_cases hm with ⟨-, hnot | henum | hrest | ⟨value, hvalue⟩⟩ |
    ⟨-, -, -, value, -, -, rfl⟩
  · exact absurd h.mem hnot
  · exact absurd henum h.notMem
  · simp [h.rest] at hrest
  · exact absurd ⟨value, hvalue⟩ h.literals
  · rw [union_tags, Tags.mem_union]
    exact .inr (by simp [enumeration, exact, Payload.tag])

section

variable (htable : table.WellFormed) (ha : a.WellFormed) (hb : b.WellFormed)

include htable ha hb

/-- Where something is left of an intersection, the types have something in common. -/
theorem levelMeets_of_meetExpanded? (h : meetExpanded? table (n + 1) a b = some m)
    (hne : m.isNever = false) :
    a.LevelMeets table (Met (meet? table n)) (Met (meetExpanded? table n)) b := by
  obtain ⟨shared, first, hsteps⟩ := exists_meetSteps htable ha hb h
  obtain ⟨tag, htag⟩ := isNever_eq_false_iff.mp hne
  rcases meetEnum?_cases hsteps.right with ⟨rfl, -⟩ | ⟨hmem, hnot, hrest, value, hmeet, hvalue, -⟩
  · rcases meetEnum?_cases hsteps.left with ⟨rfl, -⟩ | ⟨hmem, hnot, hrest, value, hmeet, hvalue, -⟩
    · rw [mem_withKinds_iff, mem_withKinds_iff] at htag
      rcases htag with (htag | ⟨hplain, htag, hlike⟩) | ⟨hplain, htag, hlike⟩
      · have ht := hsteps.shared_wellFormed.canonical
        obtain ⟨hta, htb⟩ := mem_of_mem_meetTags? hsteps.tags ht htag
        refine .shared hta htb fun p q hp hq => ?_
        obtain ⟨found, hfound, hkept⟩ := exists_meetPayload? hsteps.tags ht hta htb hp hq
        obtain ⟨r, rfl⟩ := isSome_iff_exists.mp (hkept.mp htag)
        exact ⟨overlaps_of_meetPayload? hfound, fieldsMeet_of_meetPayload? hfound⟩
      · exact .left hplain htag hlike
      · exact .right htag hplain hlike
    · exact .leftEnum ⟨hmem, hnot, hrest, value, hmeet, hvalue⟩
  · exact .rightEnum ⟨hmem, hnot, hrest, value, hmeet, hvalue⟩

/-- Something is left of the intersection of types with something in common. -/
theorem meetExpanded?_isNever (h : meetExpanded? table (n + 1) a b = some m)
    (hmeets : a.LevelMeets table (fun t u => ¬Refused (meet? table n) t u)
      (fun t u => ¬Refused (meetExpanded? table n) t u) b)
    (hfields : b.FieldsInhabited) : m.isNever = false := by
  obtain ⟨shared, first, hsteps⟩ := exists_meetSteps htable ha hb h
  have hbelow {u : Ty} {tag : Tag} (hu : u.Below m) (htag : tag ∈ u.tags) : m.isNever = false :=
    isNever_eq_false_iff.mpr ⟨tag, hu.mem htag⟩
  cases hmeets with
  | @shared tag hta htb hpayloads =>
    have ht := hsteps.shared_wellFormed.canonical
    suffices htag : tag ∈ shared.tags from hbelow (hsteps.shared_below htable ha hb) htag
    cases hp : a.payload? tag with
    | none => exact mem_meetTags?_of_none hsteps.tags ht hta htb (.inl hp)
    | some p =>
      cases hq : b.payload? tag with
      | none => exact mem_meetTags?_of_none hsteps.tags ht hta htb (.inr hq)
      | some q =>
        obtain ⟨found, hfound, hkept⟩ := exists_meetPayload? hsteps.tags ht hta htb hp hq
        refine hkept.mpr (isSome_iff_ne_none.mpr ?_)
        rintro rfl
        have hmem := payload?_mem hq
        have hmeets := hpayloads p q hp hq
        exact meetPayload?_ne_some_none hmeets.overlaps
          (fun g hg m => MeetsField.isNever_eq_false hmeets (hb.canonical.proper q hmem)
            (hfields q hmem) hg) hfound
  | left hplain htag hlike =>
    exact hbelow (hsteps.right_below htable ha hb hplain) (mem_restrictedTo.mpr ⟨htag, hlike⟩)
  | right htag hplain hlike =>
    exact hbelow (hsteps.left_below htable ha hb hplain) (mem_restrictedTo.mpr ⟨htag, hlike⟩)
  | leftEnum hmeets =>
    exact hbelow (hsteps.first_below htable ha hb) (hmeets.mem_meetEnum? hsteps.left)
  | rightEnum hmeets => exact isNever_eq_false_iff.mpr ⟨.enum, hmeets.mem_meetEnum? hsteps.right⟩

end

/-! ### Whole types -/

/-- An intersection with something in it is one of expanded types. -/
theorem exists_expanded_of_meet? (h : meet? table n a b = some m) (hne : m.isNever = false) :
    a.isNever = false ∧ b.isNever = false ∧
      meetExpanded? table n (a.expand table) (b.expand table) = some m := by
  unfold meet? at h
  split at h
  · cases h
    cases hne
  · next hboth =>
    simp only [Bool.or_eq_true, not_or, Bool.not_eq_true] at hboth
    exact ⟨hboth.1, hboth.2, h⟩

/-- What both orders of an intersection need: levels are well-formed and fields are not empty. -/
def Regular (table : DeclTable) (t : Ty) : Prop := t.WellFormed ∧ t.EveryLevel table FieldsInhabited

section

variable (htable : table.WellFormed)

include htable

theorem Regular.component (ht : t.Regular table) (hp : p ∈ (t.expand table).data)
    (hu : u ∈ p.components) : u.Regular table :=
  ⟨((ht.1.expand htable).payload hp).nested u hu, ht.2.component hp hu⟩

section

variable (ha : a.Regular table) (hb : b.Regular table) (h : meet? table n a b = some m)
  (h' : meet? table n b a = some m')

include ha hb h h'

/-- If something is left of an intersection, something is left of it in the other order. -/
theorem isNever_meet?_swap (hne : m.isNever = false) : m'.isNever = false := by
  induction n generalizing a b m m' with
  | zero =>
    obtain ⟨-, -, h⟩ := exists_expanded_of_meet? h hne
    cases h
  | succ n ih =>
    obtain ⟨hna, hnb, h⟩ := exists_expanded_of_meet? h hne
    simp only [meet?, hna, hnb] at h'
    have hwa := ha.1.expand htable
    have hwb := hb.1.expand htable
    -- Components with something in common do not refuse each other in either order.
    let Agree (t u : Ty) : Prop := ¬Refused (meet? table n) t u ∧ ¬Refused (meet? table n) u t
    have hsymm : Std.Symm Agree := ⟨fun t u => And.symm⟩
    have hagree (t u : Ty) (ht : t.Regular table) (hu : u.Regular table)
        (hmet : Met (meet? table n) t u) : Agree t u := by
      refine ⟨hmet.not_refused, ?_⟩
      obtain ⟨m, hm, hne⟩ := hmet
      rintro ⟨m', hm', hnever⟩
      simp [ih ht hu hm hm' hne] at hnever
    have hCa := fun p hp c => ha.component htable (p := p) (u := c) hp
    have hCb := fun p hp c => hb.component htable (p := p) (u := c) hp
    have hlevel := levelMeets_of_meetExpanded? htable hwa hwb h hne
    have hswapped := (hlevel.mono hCa hCb hagree fun _ _ => Met.not_refused).symm hsymm
    refine meetExpanded?_isNever htable hwb hwa h' ?_ ha.2.level
    exact hswapped.mono hCb hCa (fun t u _ _ h => h.1) fun _ _ => id

/-- Both orders of an intersection leave something, or none does. -/
theorem isNever_meet?_comm : m.isNever = m'.isNever := by
  cases hm : m.isNever with
  | false => exact (isNever_meet?_swap htable ha hb h h' hm).symm
  | true =>
    cases hm' : m'.isNever with
    | true => rfl
    | false =>
      have hne := isNever_meet?_swap htable hb ha h' h hm'
      exact absurd (hm.symm.trans hne) (by simp)

end

end

end Ty

end TypeFlow
