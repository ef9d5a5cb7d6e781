import TypeFlow.Proofs.EmptyMeets
import TypeFlow.Proofs.Monotonicity

/-!
# Values in common

An intersection keeps the values that belong to both types, as far as classes inherit from one class
at most and containers are not empty. Values of one tag are found among the common tags or among the
kinds that an unqualified object stands for. A member of an enumeration that belongs to one type by
itself and to the other one by its literal is found where the literals are intersected, but only if
the two types keep members of enumerations apart from literals.
-/

namespace TypeFlow

open List Option Tags Ty Value

namespace DeclTable

/-- No class has two direct superclasses. -/
def SingleInheritance (table : DeclTable) : Prop :=
  ∀ c d e, d ∈ table.parents c → e ∈ table.parents c → d = e

variable {table : DeclTable}

/-- The superclasses of a class are in line. -/
theorem SingleInheritance.total (h : table.SingleInheritance) {c d e : DeclId}
    (hd : table.isSubclass c d) (he : table.isSubclass c e) :
    table.isSubclass d e ∨ table.isSubclass e d := by
  simp only [isSubclass_iff] at hd he ⊢
  exact Relation.ReflTransGen.total_of_right_unique (fun c d e => h c d e) hd he

theorem singleInheritance_of_length (h : ∀ parents ∈ table.superclasses, parents.length ≤ 1) :
    table.SingleInheritance := by
  intro c d e hd he
  have hlength : (table.parents c).length ≤ 1 := by
    rw [parents, Array.getD_eq_getD_getElem?]
    cases hc : table.superclasses[c]? with
    | none => simp
    | some parents => exact h parents (Array.mem_of_getElem? hc)
  obtain ⟨x, hparents⟩ := List.length_eq_one_iff.mp (hlength.antisymm (length_pos_of_mem hd))
  rw [hparents, mem_singleton] at hd he
  exact hd.trans he.symm

end DeclTable

namespace Ty

/-- Members of enumerations are kept apart from literals: what they stand for is not given by
typedefs, beside them nothing is known about literals, and where something is known about them there
are no literals. -/
@[mk_iff] structure EnumsApart (t : Ty) : Prop where
  direct : t.enumValue.hasSynonym = false
  bare : .enum ∈ t.tags → ∀ tag ∈ enumValues, t.payload? tag = none
  lone : t.LoneEnum

instance : DecidablePred EnumsApart := fun t => decidable_of_iff' _ (enumsApart_iff t)

end Ty

open Ty Relation

namespace Value

variable {table : DeclTable} {meet : Ty → Ty → Option Ty} {C : Ty → Prop} {v : Value} {a b t : Ty}
  {p q : Payload Ty} {s : Scalar} {n : Nat}

/-! ### Payloads -/

section

/-- Nothing stands in the way of keeping a value: the parts of it that two types have are in what
the types have in common, its class has one line of superclasses, and it is no empty container. -/
structure KeepsParts (table : DeclTable) (C : Ty → Prop) (meet : Ty → Ty → Option Ty)
    (v : Value) : Prop where
  part : ∀ w : Value, w.Part v → ∀ t u m, C t → C u → meet t u = some m → w.Inhabits table t →
    w.Inhabits table u → w.Inhabits table m
  single : v.tag = .object → table.SingleInheritance
  array : v ≠ .array []
  dictionary : v ≠ .dictionary []

variable (hmeet : KeepsParts table C meet v) {found : Option (Payload Ty)}

include hmeet

/-- The items of an array belong to the slots that two tuples have in common. -/
theorem forall₂_of_sharesAll {ts us ms : List Ty} {items : List Value}
    (hitems : ∀ w ∈ items, w.Part v) (hts : ∀ t ∈ ts, C t) (hus : ∀ u ∈ us, C u)
    (h : SharesAll meet ts us ms) (ht : Forall₂ (Inhabits table) items ts)
    (hu : Forall₂ (Inhabits table) items us) : Forall₂ (Inhabits table) items ms := by
  induction h generalizing items with
  | nil => exact ht
  | cons hfirst _ ih =>
    cases ht with
    | cons hwt ht =>
    cases hu with
    | cons hwu hu =>
      rw [forall_mem_cons] at hitems hts hus
      exact .cons (hmeet.part _ hitems.1 _ _ _ hts.1 hus.1 hfirst.1 hwt hwu)
        (ih hitems.2 hts.2 hus.2 ht hu)

/-- A field of an object belongs to what two shapes have in common about it. -/
theorem inhabits_of_meetsField {fields : List (String × Value)} {fs : List (String × Ty)}
    {g : String × Ty} {m : Ty} {w : Value} (hw : fields.lookup g.1 = some w) (hpart : w.Part v)
    (hfs : ∀ f ∈ fs, C f.2) (hg : C g.2)
    (hf : ∀ f ∈ fs, ∀ w, fields.lookup f.1 = some w → w.Inhabits table f.2)
    (hwg : w.Inhabits table g.2) (hm : MeetsField meet fs g m) : w.Inhabits table m := by
  obtain ⟨t, ht, hm⟩ | ⟨-, rfl⟩ := hm
  · have hmem := mem_of_lookup ht
    exact hmeet.part w hpart t g.2 m (hfs _ hmem) hg hm (hf _ hmem w hw) hwg
  · exact hwg

variable (hCp : ∀ c ∈ p.components, C c) (hCq : ∀ c ∈ q.components, C c) (hp : v.Matches table p)
  (hq : v.Matches table q)

include hCp hCq hp hq

/-- Payloads that a value matches have something in common. -/
theorem Matches.overlaps : p.Overlaps table (fun t u => ¬Refused meet t u) q := by
  have hne {w : Value} {t u : Ty} (hw : w.Part v) (ht : C t) (hu : C u)
      (hwt : w.Inhabits table t) (hwu : w.Inhabits table u) : ¬Refused meet t u := by
    rintro ⟨m, hm, hnever⟩
    simp [(hmeet.part w hw t u m ht hu hm hwt hwu).isNever_eq_false] at hnever
  -- Each slot of a tuple has an item of the array.
  have hitem {items : List Value} {ts : List Ty} (h : Forall₂ (Inhabits table) items ts)
      {t : Ty} (ht : t ∈ ts) : ∃ w ∈ items, w.Inhabits table t := by
    obtain ⟨i, rfl⟩ := get_of_mem ht
    have hi : i < items.length := by simp [h.length_eq]
    exact ⟨_, get_mem items ⟨i, hi⟩, h.get hi i.2⟩
  cases hp <;> cases hq
  case elements.elements items t ht u hu =>
    obtain ⟨w, hw⟩ := exists_mem_of_ne_nil items (by simpa using hmeet.array)
    exact .elements (hne (.item hw) (hCp _ (by simp)) (hCq _ (by simp)) (ht w hw) (hu w hw))
  case elements.tuple t ht us hu =>
    refine .slots' fun u hmem => ?_
    obtain ⟨w, hw, hwu⟩ := hitem hu hmem
    exact hne (.item hw) (hCq u hmem) (hCp t (by simp)) hwu (ht w hw)
  case tuple.elements ht u hu =>
    refine .slots fun t hmem => ?_
    obtain ⟨w, hw, hwt⟩ := hitem ht hmem
    exact hne (.item hw) (hCp t hmem) (hCq _ (by simp)) hwt (hu w hw)
  case tuple.tuple ht us hu =>
    have hlength := ht.length_eq.symm.trans hu.length_eq
    refine .tuple (forall₂_iff_get.mpr ⟨hlength, fun i hi hi' => ?_⟩)
    have hitems := ht.length_eq.symm ▸ hi
    exact hne (.item (get_mem _ ⟨i, hitems⟩)) (hCp _ (get_mem _ _)) (hCq _ (get_mem _ _))
      (ht.get hitems hi) (hu.get hitems hi')
  case dictionary.dictionary entries k u hk hu k' u' hk' hu' =>
    obtain ⟨e, he⟩ := exists_mem_of_ne_nil entries (by simpa using hmeet.dictionary)
    exact .dictionary (hne (.key he) (hCp _ (by simp)) (hCq _ (by simp)) (hk e he) (hk' e he))
      (hne (.value he) (hCp _ (by simp)) (hCq _ (by simp)) (hu e he) (hu' e he))
  case method.method => exact .method ..
  case module.module hd _ he => exact .module ⟨_, hd, he⟩
  case function.function hd _ he => exact .function ⟨_, hd, he⟩
  case cls.cls hd _ he => exact .cls ⟨_, hd, he⟩
  case object.object hclass _ _ _ _ hclass' _ _ =>
    obtain ⟨x, hx, hcx⟩ := hclass
    obtain ⟨y, hy, hcy⟩ := hclass'
    exact .object _ _ ⟨x, hx, y, hy, (hmeet.single rfl).total hcx hcy⟩
  case enum.enum d s decl value hdecl hvalue decl' value' hdecl' hvalue' =>
    refine .enum (by cases decl <;> cases decl' <;> simp_all) ?_
    rintro t u rfl rfl
    exact hne (.underlying d s) (hCp t (by simp)) (hCq u (by simp)) (hvalue t rfl) (hvalue' u rfl)
  all_goals exact .value (by simp [Payload.isValue, Payload.tag, contains_valueTypes])

/-- A value that matches two payloads matches what is left of them. -/
theorem Matches.joint {r : Payload Ty} (hjoint : p.Joint table meet q r) : v.Matches table r := by
  have hreplicate {items : List Value} {ts : List Ty} {u : Ty}
      (ht : Forall₂ (Inhabits table) items ts) (hu : ∀ w ∈ items, w.Inhabits table u) :
      Forall₂ (Inhabits table) items (replicate ts.length u) := by
    refine forall₂_iff_get.mpr ⟨by simp [ht.length_eq], fun i hi _ => ?_⟩
    simpa using hu _ (getElem_mem hi)
  have hCr {n : Nat} {u : Ty} (hu : C u) : ∀ t ∈ replicate n u, C t := fun t ht =>
    eq_of_mem_replicate ht ▸ hu
  cases hjoint
  case value | method => exact hp
  all_goals cases hp <;> cases hq
  case elements.elements.elements hm _ ht hu =>
    exact .elements fun w hw => hmeet.part w (.item hw) _ _ _ (hCp _ (by simp)) (hCq _ (by simp))
      hm.1 (ht w hw) (hu w hw)
  case tuple.tuple.tuple hms _ ht hu =>
    exact .tuple (forall₂_of_sharesAll hmeet (fun w => .item) hCp hCq hms ht hu)
  case slots.tuple.elements hms _ ht hu =>
    exact .tuple (forall₂_of_sharesAll hmeet (fun w => .item) hCp (hCr (hCq _ (by simp))) hms ht
      (hreplicate ht hu))
  case slots'.elements.tuple hms _ hu ht =>
    exact .tuple (forall₂_of_sharesAll hmeet (fun w => .item) hCq (hCr (hCp _ (by simp))) hms ht
      (hreplicate ht hu))
  case dictionary.dictionary.dictionary hkey hvalue _ hk hu hk' hu' =>
    exact .dictionary
      (fun e he => hmeet.part e.1 (.key he) _ _ _ (hCp _ (by simp)) (hCq _ (by simp)) hkey.1
        (hk e he) (hk' e he))
      fun e he => hmeet.part e.2 (.value he) _ _ _ (hCp _ (by simp)) (hCq _ (by simp)) hvalue.1
        (hu e he) (hu' e he)
  case module.module.module hd he => exact .module (DeclSet.mem_inter.mpr ⟨hd, he⟩)
  case function.function.function hd he => exact .function (DeclSet.mem_inter.mpr ⟨hd, he⟩)
  case cls.cls.cls hd he => exact .cls (DeclSet.mem_inter.mpr ⟨hd, he⟩)
  case object.object.object ds es shape shape' shape'' _ hshape c fields hclass hknown hfields
      hclass' hknown' hfields' =>
    have hclass'' : ∃ x ∈ meetClasses table ds es, table.isSubclass c x := by
      obtain ⟨x, hx, hcx⟩ := hclass
      obtain ⟨y, hy, hcy⟩ := hclass'
      cases hxy : table.isSubclass x y with
      | true => exact ⟨x, mem_meetClasses_iff.mpr ⟨x, hx, y, hy, .inl ⟨hxy, rfl⟩⟩, hcx⟩
      | false =>
        have hyx := ((hmeet.single rfl).total hcx hcy).resolve_left (by simp [hxy])
        exact ⟨y, mem_meetClasses_iff.mpr ⟨x, hx, y, hy, .inr ⟨hxy, hyx, rfl⟩⟩, hcy⟩
    obtain ⟨fs, gs, out, rfl, rfl, rfl, hout⟩ | ⟨-, rfl⟩ | ⟨-, rfl⟩ := hshape
    · have hinhabits := (meetFields?_steps (P := fun acc => ∀ f ∈ acc,
        (fields.lookup f.1).isSome ∧ ∀ w, fields.lookup f.1 = some w →
          w.Inhabits table f.2) hout (fun f hf => ⟨hknown f hf, hfields f hf⟩) ?_).1
      · exact .object hclass'' (fun f hf => (hinhabits f hf).1) fun f hf => (hinhabits f hf).2
      · intro acc g hg m hm _ hacc f hf
        rcases mem_insertField hf with rfl | hf
        · refine ⟨hknown' g hg, fun w hw => ?_⟩
          exact inhabits_of_meetsField (g := g) hmeet hw (.field (mem_of_lookup hw))
            (fun f hf => hCp _ (mem_map_of_mem hf)) (hCq g.2 (mem_map_of_mem hg))
            hfields (hfields' g hg w hw) hm
        · exact hacc f hf
    · exact .object hclass'' hknown hfields
    · exact .object hclass'' hknown' hfields'
  case enum.enum.enum decl decl' _ _ _ _ hx d s hdecl hvalue hdecl' hvalue' =>
    refine .enum (by cases decl <;> simp_all) ?_
    obtain ⟨t, u, m, rfl, rfl, rfl, hm⟩ | ⟨-, rfl⟩ | ⟨-, rfl⟩ := hx
    · intro _ heq
      cases heq
      exact hmeet.part _ (.underlying d s) t u m (hCp t (by simp)) (hCq u (by simp)) hm.1
        (hvalue t rfl) (hvalue' u rfl)
    · exact hvalue
    · exact hvalue'

/-- A value that matches two payloads matches what they have in common. -/
theorem Matches.meetPayload? (h : meetPayload? table meet p q = some found) :
    ∃ r, found = some r ∧ v.Matches table r := by
  cases found with
  | some r => exact ⟨r, rfl, .joint hmeet hCp hCq hp hq (joint_of_meetPayload? h)⟩
  | none =>
    refine absurd h (meetPayload?_ne_some_none (Matches.overlaps hmeet hCp hCq hp hq)
      fun g hg m hm => ?_)
    obtain ⟨es, hq'⟩ := Payload.exists_object_of_mem_fields hg
    generalize q.fields = gs at hg hq'
    subst hq'
    cases hq with
    | object _ hknown' hfields' =>
    cases hp with
    | @object _ _ ds shape _ _ hfields =>
      obtain ⟨w, hw⟩ := isSome_iff_exists.mp (hknown' g hg)
      have hCf : ∀ f ∈ shape.getD [], C f.2 := by
        cases shape with
        | none => exact nofun
        | some fs => exact fun f hf => hCp _ (mem_map_of_mem hf)
      have hm : MeetsField meet (shape.getD []) g m := by cases shape <;> exact hm
      exact (inhabits_of_meetsField hmeet hw (.field (mem_of_lookup hw)) hCf
        (hCq _ (mem_map_of_mem hg)) hfields (hfields' g hg w hw) hm).isNever_eq_false

end

/-! ### One level -/

/-- The value is one of those that a slot of its tag stands for. -/
def InSlot (table : DeclTable) (v : Value) : Slot → Prop
  | .absent => False
  | .bare => True
  | .holds p => v.Matches table p

theorem InSlot.flattened {s : Slot} (h : v.InSlot table s) : v.InSlot table s.flattened := by
  cases s <;> simp_all [InSlot, Slot.flattened]

theorem InSlot.mem {tag : Tag} (h : v.InSlot table (t.slot tag)) : tag ∈ t.tags := by
  by_contra hnot
  rw [slot_eq_absent_iff.mpr hnot] at h
  exact h

theorem InSlot.of_payload (h : v.tag ∈ t.tags ∧ t.payload? v.tag = some p)
    (hp : v.Matches table p) : v.InSlot table (t.slot v.tag) := by
  rw [slot_eq_holds_iff.mpr h]
  exact hp

theorem fits_iff : v.Fits table t ↔
    v.InSlot table (t.slot v.tag) ∨ (t.isPlainObject ∧ v.tag ∈ objectLike) := by
  refine or_congr ?_ Iff.rfl
  unfold slot
  split
  · next htag => cases hp : t.payload? v.tag <;> simp [InSlot, htag]
  · next htag => simp [InSlot, htag]

/-- A value in two slots is in what they have in common. -/
theorem InSlot.meet? (hmeet : KeepsParts table C meet v) {r s found : Slot}
    (hr : ∀ p, r = .holds p → ∀ c ∈ p.components, C c)
    (hs : ∀ p, s = .holds p → ∀ c ∈ p.components, C c)
    (h : Slot.meet? table meet r s = some found) (hvr : v.InSlot table r)
    (hvs : v.InSlot table s) : v.InSlot table found := by
  match r, s with
  | .absent, _ => exact hvr.elim
  | _, .absent => exact hvs.elim
  | .bare, .bare | .bare, .holds _ => exact some.inj h ▸ hvs
  | .holds _, .bare => exact some.inj h ▸ hvr
  | .holds p, .holds q =>
    obtain ⟨o, ho, rfl⟩ := map_eq_some_iff.mp h
    obtain ⟨r, rfl, hvr⟩ := Matches.meetPayload? hmeet (hr p rfl) (hs q rfl) hvr hvs ho
    exact hvr

theorem tag_ne_synonym (v : Value) : v.tag ≠ .synonym := by
  cases v with
  | bool b => cases b <;> simp [tag]
  | scalar s => cases s <;> simp [tag, Scalar.tag]
  | _ => simp [tag]

/-- A value belongs to the type of a payload that it matches. -/
theorem Inhabits.exact (htag : v.tag = p.tag) (h : v.Matches table p) :
    v.Inhabits table (Ty.exact p) := by
  have hsynonym : .synonym ∉ (Ty.exact p).tags := by
    simpa [Ty.exact, ← htag] using v.tag_ne_synonym.symm
  refine inhabits_iff.mpr (.inl (fits_iff.mpr (.inl ?_)))
  rw [expand_of_notMem hsynonym, htag, slot_exact]
  exact h

/-- A value belongs to the types of its kind. -/
theorem Inhabits.ofTags {tags : Tags} (htag : v.tag ∈ tags) (hsynonym : .synonym ∉ tags) :
    v.Inhabits table (.ofTags tags) := by
  have heq : (Ty.ofTags tags).expand table = Ty.ofTags tags := expand_of_notMem hsynonym
  refine inhabits_iff.mpr (.inl (.inl ?_))
  rw [heq]
  exact ⟨htag, nofun⟩

variable (htable : table.WellFormed) (hexpanded : table.Expanded)

include htable hexpanded

/-- A value that fits one level of a type belongs to it, whatever its typedefs add. -/
theorem Fits.inhabits (ht : t.WellFormed) (h : v.Fits table t) : v.Inhabits table t := by
  let rest := t.without (.single .synonym)
  have hslot {tag : Tag} (htag : tag ≠ .synonym) : rest.slot tag = t.slot tag := by
    rw [slot_without, if_neg (by simpa using htag)]
  have hfits : v.Fits table rest := by
    rw [fits_iff, hslot v.tag_ne_synonym, isPlainObject_iff_slot, hslot (by simp),
      ← isPlainObject_iff_slot, ← fits_iff]
    exact h
  have hrest : v.Inhabits table rest := by
    refine inhabits_iff.mpr (.inl ?_)
    rwa [(Expanded.without_synonym t).expand_eq]
  exact hrest.of_below htable hexpanded (ht.without _) ht (without_below ht _)

variable {m : Ty}

/-- A value that fits two levels belongs to their intersection, if this is so for its parts. -/
theorem Fits.inhabits_meet {shared first : Ty}
    (hmeet : KeepsParts table C (meet? table n) v) (hCa : ∀ p ∈ a.data, ∀ c ∈ p.components, C c)
    (hCb : ∀ p ∈ b.data, ∀ c ∈ p.components, C c) (ha : a.WellFormed) (hb : b.WellFormed)
    (h : MeetSteps table n a b m shared first) (hva : v.Fits table a) (hvb : v.Fits table b) :
    v.Inhabits table m := by
  have hbelow {t : Ty} (ht : t.WellFormed) (htm : t.Below m) (hv : v.Fits table t) :
      v.Inhabits table m :=
    (hv.inhabits htable hexpanded ht).of_below htable hexpanded ht h.wellFormed htm
  rw [fits_iff] at hva hvb
  rcases hva with hva | ⟨hplain, hlike⟩
  · rcases hvb with hvb | ⟨hplain, hlike⟩
    · -- The value is found among the common tags.
      refine hbelow h.shared_wellFormed (h.shared_below htable ha hb) (fits_iff.mpr (.inl ?_))
      obtain ⟨s, hs, hslot⟩ := slot_meetTags? h.tags h.shared_wellFormed.canonical v.tag
      have hvs : v.InSlot table s :=
        .meet? hmeet (fun p hp => hCa p (payload?_mem (slot_eq_holds_iff.mp hp).2))
          (fun p hp => hCb p (payload?_mem (slot_eq_holds_iff.mp hp).2)) hs hva hvb
      rw [hslot]
      split
      · exact hvs.flattened
      · exact hvs
    · refine hbelow (ha.restrictedTo _) (h.left_below htable ha hb hplain) (fits_iff.mpr (.inl ?_))
      rwa [slot_restrictedTo a hlike]
  · rcases hvb with hvb | ⟨hplain', -⟩
    · refine hbelow (hb.restrictedTo _) (h.right_below htable ha hb hplain) (fits_iff.mpr (.inl ?_))
      rwa [slot_restrictedTo b hlike]
    · -- Both types have the unqualified object, and so have the common tags.
      refine hbelow h.shared_wellFormed (h.shared_below htable ha hb)
        (fits_iff.mpr (.inr ⟨?_, hlike⟩))
      rw [isPlainObject_iff_slot] at hplain hplain' ⊢
      obtain ⟨s, hs, hslot⟩ := slot_meetTags? h.tags h.shared_wellFormed.canonical .object
      rw [hplain, hplain'] at hs
      rw [hslot, if_neg (fun hvalue => absurd hvalue.2 (by decide))]
      exact (some.inj hs).symm

/-- For a value without parts nothing has to be known about smaller intersections. -/
theorem leaf_meet (hleaf : ∀ w : Value, ¬w.Part v) (hobject : v.tag ≠ .object)
    (harray : v ≠ array []) (hdictionary : v ≠ dictionary []) (ha : a.WellFormed)
    (hb : b.WellFormed) (h : meetExpanded? table n a b = some m) (hva : v.Fits table a)
    (hvb : v.Fits table b) : v.Inhabits table m := by
  cases n with
  | zero => cases h
  | succ n =>
    obtain ⟨shared, first, hsteps⟩ := exists_meetSteps htable ha hb h
    exact Fits.inhabits_meet htable hexpanded
      ⟨fun w hw => absurd hw (hleaf w), (absurd · hobject), harray, hdictionary⟩
      (fun _ _ _ _ => trivial) (fun _ _ _ _ => trivial) ha hb hsteps hva hvb

/-- Literals have no parts. -/
theorem scalar_meet (ha : a.WellFormed) (hb : b.WellFormed) (h : meetExpanded? table n a b = some m)
    (hsa : (scalar s).Fits table a) (hsb : (scalar s).Fits table b) :
    (scalar s).Inhabits table m := by
  have hobject : (scalar s).tag ≠ .object := by cases s <;> simp [tag, Scalar.tag]
  have hleaf : ∀ w : Value, ¬w.Part (scalar s) := by
    intro w hw
    cases hw
  exact leaf_meet htable hexpanded hleaf hobject (by simp) (by simp) ha hb h hsa hsb

/-- A member of an enumeration is added to an intersection if it belongs to one type by itself and
to the other one by a kind of literal that the first one lacks. -/
theorem enum_meetEnum? {e other result : Ty} {d : DeclId} (he : e.WellFormed)
    (hother : other.WellFormed) (hresult : result.WellFormed)
    (h : meetEnum? (meetExpanded? table n) e other result = some m)
    (hdirect : e.enumValue.hasSynonym = false) (henum : .enum ∉ other.tags)
    (hliteral : s.tag ∉ e.tags) (hve : (enum d s).InSlot table (e.slot .enum))
    (hvo : (scalar s).InSlot table (other.slot s.tag)) : (enum d s).Inhabits table m := by
  have hmem := hve.mem
  have hmatch : ∀ p, e.payload? .enum = some p → (enum d s).Matches table p := by
    intro p hp
    rwa [slot_eq_holds_iff.mpr ⟨hmem, hp⟩] at hve
  -- The literal belongs to the kinds that the other type has besides.
  have hbeside : (scalar s).InSlot table ((e.kindsBeside other).slot s.tag) := by
    rw [kindsBeside, slot_without, if_neg]
    · exact hvo
    · have hne : s.tag ≠ .enum := by cases s <;> simp [Scalar.tag]
      simpa using ⟨hliteral, hne⟩
  have hvalues {value : Ty} (hvalue : meetExpanded? table n e.enumValue (e.kindsBeside other) =
      some value) : (scalar s).Inhabits table value := by
    refine scalar_meet htable hexpanded he.enumValue (hother.without _) hvalue ?_
      (fits_iff.mpr (.inl hbeside))
    have hscalar := scalar_inhabits_iff.mp (scalar_inhabits_enumValue hmatch)
    rwa [expand_of_not_hasSynonym hdirect] at hscalar
  rcases meetEnum?_cases h with ⟨-, hskip⟩ | ⟨-, -, -, value, hvalue, -, rfl⟩
  · rcases hskip with hskip | hskip | hnever | ⟨value, hvalue, hnever⟩
    · exact absurd hmem hskip
    · exact absurd hskip henum
    · rw [slot_eq_absent_iff.mpr (isEmpty_iff.mp hnever s.tag)] at hbeside
      exact hbeside.elim
    · simp [(hvalues hvalue).isNever_eq_false] at hnever
  · have hformed : (enumeration e.enumDecl? (some value)).WellFormed := by
      refine .enumeration fun u hu => some.inj hu ▸ ?_
      exact .meetExpanded? htable n _ _ value he.enumValue (hother.without _) hvalue
    refine .of_below htable hexpanded hformed (hresult.union hformed)
      (below_union_right hresult hformed) ?_
    have hdecl : ∀ x, e.enumDecl? = some x → d = x := by
      intro x hx
      cases hp : e.payload? .enum with
      | none => simp [enumDecl?, hp] at hx
      | some p =>
        obtain ⟨decl, _, rfl, hdecl, -⟩ := exists_of_payload?_enum hp
        cases hmatch _ hp with
        | enum hd _ => exact hd x (hdecl.symm.trans hx)
    rw [enumeration_some]
    exact .exact rfl (.enum hdecl fun u hu => some.inj hu ▸ hvalues hvalue)

omit htable hexpanded in
/-- A member of an enumeration that belongs to one type by itself and to another one by its literal
belongs to both in the same way, or the first type lacks the literal and the second one lacks
members of enumerations. -/
theorem enum_fits_cases {d : DeclId} (ha : a.EnumsApart) (hb : b.EnumsApart)
    (hva : (enum d s).Fits table a) (hvb : (scalar s).Fits table b) :
    (enum d s).Fits table b ∨ (scalar s).Fits table a ∨
      ((enum d s).InSlot table (a.slot .enum) ∧ (scalar s).InSlot table (b.slot s.tag) ∧
        .enum ∉ b.tags ∧ s.tag ∉ a.tags) := by
  have hliteral : s.tag ∈ enumValues := by cases s <;> simp only [Scalar.tag] <;> decide
  have hlike : s.tag ∈ objectLike := by cases s <;> simp only [Scalar.tag] <;> decide
  have henum : .enum ∈ objectLike := by decide
  rw [fits_iff] at hva hvb
  rcases hva with hva | ⟨hplain, -⟩
  · rcases hvb with hvb | ⟨hplain, -⟩
    · by_cases hmem : .enum ∈ b.tags
      · refine .inl (fits_iff.mpr (.inl ?_))
        have hnone : b.payload? .enum = none := by
          by_contra hsome
          exact hb.lone (isSome_iff_ne_none.mpr hsome) s.tag hliteral hvb.mem
        rw [tag, slot_eq_bare_iff.mpr ⟨hmem, hnone⟩]
        trivial
      by_cases htag : s.tag ∈ a.tags
      · refine .inr (.inl (fits_iff.mpr (.inl ?_)))
        rw [tag, slot_eq_bare_iff.mpr ⟨htag, ha.bare hva.mem s.tag hliteral⟩]
        trivial
      exact .inr (.inr ⟨hva, hvb, hmem, htag⟩)
    · exact .inl (fits_iff.mpr (.inr ⟨hplain, henum⟩))
  · exact .inr (.inl (fits_iff.mpr (.inr ⟨hplain, hlike⟩)))

/-- The value and its parts are no empty arrays or dictionaries. -/
def Populated (v : Value) : Prop := ∀ w, ReflTransGen Part w v → w ≠ array [] ∧ w ≠ dictionary []

omit htable hexpanded in
theorem Populated.of_parts (harray : v ≠ array []) (hdictionary : v ≠ dictionary [])
    (h : ∀ w : Value, w.Part v → w.Populated) : v.Populated := by
  intro w hw
  rcases hw.cases_tail with rfl | ⟨x, hwx, hx⟩
  · exact ⟨harray, hdictionary⟩
  · exact h x hx w hwx

omit htable hexpanded in
theorem populated_scalar (s : Scalar) : (scalar s).Populated := .of_parts nofun nofun nofun

omit htable hexpanded in
theorem populated_enum (d : DeclId) (s : Scalar) : (enum d s).Populated := by
  refine .of_parts nofun nofun ?_
  rintro w ⟨⟩
  exact populated_scalar s

/-- A value that belongs to two types belongs to their intersection. -/
theorem Inhabits.meet? (hsingle : table.SingleInheritance) (ha : a.WellFormed) (hb : b.WellFormed)
    (hapart : a.EveryLevel table EnumsApart) (hbpart : b.EveryLevel table EnumsApart)
    (hv : v.Populated) (h : meet? table n a b = some m) (hva : v.Inhabits table a)
    (hvb : v.Inhabits table b) : v.Inhabits table m := by
  induction n generalizing a b m v with
  | zero => simp [meet?, hva.isNever_eq_false, hvb.isNever_eq_false, meetExpanded?] at h
  | succ n ih =>
    simp only [meet?, hva.isNever_eq_false, hvb.isNever_eq_false] at h
    have ha' := ha.expand htable
    have hb' := hb.expand htable
    obtain ⟨shared, first, hsteps⟩ := exists_meetSteps htable ha' hb' h
    have hfirst := hsteps.first_below htable ha' hb'
    have hfits (hva : v.Fits table (a.expand table)) (hvb : v.Fits table (b.expand table)) :
        v.Inhabits table m := by
      obtain ⟨harray, hdictionary⟩ := hv v .refl
      refine Fits.inhabits_meet (C := fun t => t.WellFormed ∧ t.EveryLevel table EnumsApart) htable
        hexpanded ⟨?_, fun _ => hsingle, harray, hdictionary⟩ ?_ ?_ ha' hb' hsteps hva hvb
      · intro w hw t u m ht hu hm hwt hwu
        exact ih ht.1 hu.1 ht.2 hu.2 (fun x hx => hv x (hx.tail hw)) hm hwt hwu
      · exact fun p hp c hc => ⟨(ha'.payload hp).nested c hc, hapart.component hp hc⟩
      · exact fun p hp c hc => ⟨(hb'.payload hp).nested c hc, hbpart.component hp hc⟩
    have hscalar {d : DeclId} {s : Scalar} (hsa : (scalar s).Fits table (a.expand table))
        (hsb : (scalar s).Fits table (b.expand table)) : (enum d s).Inhabits table m :=
      .underlying (scalar_meet htable hexpanded ha' hb' h hsa hsb)
    rw [inhabits_iff] at hva hvb
    rcases hva with hva | ⟨d, s, rfl, hsa⟩
    · rcases hvb with hvb | ⟨d, s, rfl, hsb⟩
      · exact hfits hva hvb
      · rw [scalar_inhabits_iff] at hsb
        rcases enum_fits_cases hapart.level hbpart.level hva hsb with
          hvb | hsa | ⟨hslot, hliteral, henum, htag⟩
        · exact hfits hva hvb
        · exact hscalar hsa hsb
        · refine (enum_meetEnum? htable hexpanded ha' hb' hsteps.kinds_wellFormed hsteps.left
            hapart.level.direct henum htag hslot hliteral).of_below htable hexpanded
            hsteps.first_wellFormed hsteps.wellFormed hfirst
    · rw [scalar_inhabits_iff] at hsa
      rcases hvb with hvb | ⟨d', s', heq, hsb⟩
      · rcases enum_fits_cases hbpart.level hapart.level hvb hsa with
          hva | hsb | ⟨hslot, hliteral, henum, htag⟩
        · exact hfits hva hvb
        · exact hscalar hsa hsb
        · exact enum_meetEnum? htable hexpanded hb' ha' hsteps.first_wellFormed hsteps.right
            hbpart.level.direct henum htag hslot hliteral
      · cases heq
        exact hscalar hsa (scalar_inhabits_iff.mp hsb)

end Value

/-- Intersection keeps every common value: in every program with single inheritance, a value without
empty containers that belongs to two types belongs to their intersection, if the types keep members
of enumerations apart from literals. -/
theorem meet_keeps_values (source : Source) (hsingle : source.program.table.SingleInheritance)
    {a b : Ty} (ha : a.WellFormed) (hb : b.WellFormed)
    (hapart : a.EveryLevel source.program.table Ty.EnumsApart)
    (hbpart : b.EveryLevel source.program.table Ty.EnumsApart) {n : Nat} {m : Ty}
    (h : meet? source.program.table n a b = some m) {v : Value} (hv : v.Populated)
    (hva : v.Inhabits source.program.table a) (hvb : v.Inhabits source.program.table b) :
    v.Inhabits source.program.table m :=
  hva.meet? source.program_table_wellFormed source.program_table_expanded hsingle ha hb hapart
    hbpart hv h hvb

/-- Shapes, circles, which are shapes, and colors. -/
def drawings : Source :=
  .ofItems [.cls () "Shape" none [], .cls () "Circle" (some (.ofDotted "Shape")) [],
    .enum ⟨(), some "Color", []⟩]

/-- A circle with a radius and a color belong to arrays of circles and numbers, and to pairs of a
shape with a radius and a color. -/
theorem meet_keeps_values_drawings :
    let table := drawings.program.table
    let number := ofTags (.single .number)
    let withRadius (d : DeclId) := exact (.object (.one d) (some [("radius", number)]))
    let circles := array ((object (.one 2)).union number)
    let pair := tuple [withRadius 1, .enumeration (some 3) none]
    let both := tuple [withRadius 2, .enumeration (some 3) (some number)]
    let v := array [.object 2 [("radius", .scalar (.number 4))], .enum 3 (.number 5)]
    meet? table 3 circles pair = some both ∧ v.Inhabits table circles ∧ v.Inhabits table pair ∧
      v.Inhabits table both := by
  intro table number withRadius circles pair both v
  have h : meet? table 3 circles pair = some both := by decide +kernel
  have hsingle : table.SingleInheritance :=
    DeclTable.singleInheritance_of_length (by decide +kernel)
  have hcircles : circles.WellFormed := by decide +kernel
  have hpair : pair.WellFormed := by decide +kernel
  have hapart : circles.EveryLevel table Ty.EnumsApart := .of_levels 1 (by decide +kernel)
  have hbpart : pair.EveryLevel table Ty.EnumsApart := .of_levels 2 (by decide +kernel)
  have hva : v.Inhabits table circles := by
    refine .exact rfl (.elements ?_)
    simp only [List.forall_mem_cons, List.not_mem_nil, false_implies, implies_true, and_true]
    refine ⟨.payload (p := .object (.one 2) none) (by decide) (by decide +kernel) ?_, ?_⟩
    · exact .object ⟨2, by decide, by decide +kernel⟩ nofun nofun
    · exact .underlying (.bare (by decide +kernel) (by decide +kernel))
  have hvb : v.Inhabits table pair := by
    have hnumber : (scalar (.number 4)).Inhabits table number := .bare (by decide) (by decide)
    have hcircle : (object 2 [("radius", .scalar (.number 4))]).Inhabits table (withRadius 1) :=
      .exact rfl (.object ⟨1, by decide, by decide +kernel⟩ (by decide) (by simpa using hnumber))
    exact .exact rfl (.tuple (.cons hcircle (.cons (.exact rfl (.enum (by simp) (by simp))) .nil)))
  have hv : v.Populated := by
    have hobject : (object 2 [("radius", .scalar (.number 4))]).Populated := by
      refine .of_parts nofun nofun ?_
      intro w hw
      cases hw with
      | field hw =>
        simp only [List.mem_singleton, Prod.mk.injEq] at hw
        exact hw.2 ▸ populated_scalar _
    have harray {items : List Value} (hne : items ≠ []) (h : ∀ w ∈ items, w.Populated) :
        (array items).Populated := by
      refine .of_parts (by simpa using hne) nofun ?_
      rintro w ⟨hw⟩
      exact h w hw
    exact harray (by simp) (by simpa using ⟨hobject, populated_enum _ _⟩)
  exact ⟨h, hva, hvb, meet_keeps_values drawings hsingle hcircles hpair hapart hbpart h hv hva hvb⟩

/-- The five that a member of an enumeration stands for is lost where the enumeration stands beside
the number seven. -/
theorem not_meet_keeps_values_literal :
    let table := drawings.program.table
    let five := exact (.number 5)
    let mixed := (enumeration none (some five)).union (.exact (.number 7))
    let v := enum 3 (.number 5)
    table.SingleInheritance ∧ (mixed.WellFormed ∧ five.WellFormed) ∧ v.Populated ∧
      (v.Inhabits table mixed ∧ v.Inhabits table five) ∧
      meet? table 2 mixed five = some .never ∧ ¬v.Inhabits table .never := by
  intro table five mixed v
  have hfive : (scalar (.number 5)).Inhabits table five := .exact rfl (.number 5)
  have hmixed : v.Inhabits table mixed :=
    .payload (p := .enum none (some five)) (by decide +kernel) (by decide +kernel)
      (.enum (by simp) (by simpa using hfive))
  refine ⟨DeclTable.singleInheritance_of_length (by decide +kernel), by decide +kernel,
    populated_enum _ _, ⟨hmixed, .underlying hfive⟩, by decide +kernel, fun h => ?_⟩
  exact absurd h.isNever_eq_false (by decide)

end TypeFlow
