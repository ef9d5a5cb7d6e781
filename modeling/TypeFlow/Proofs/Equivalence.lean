import TypeFlow.Proofs.EmptyMeets
import TypeFlow.Proofs.Supertypes
import TypeFlow.Proofs.Transitivity

/-!
# What a type has in common with a larger one

Payload by payload and slot by slot, what a type has in common with a larger type is equivalent to
the smaller one: each covers the other. A component of the smaller type must not be found empty on
the way, since the payload is given up then. Literals, which have no components, are found again as
they are.
-/

namespace TypeFlow

open List Option Payload Tags

namespace Payload

/-- Each of two payloads covers the other one. -/
def Equivalent (table : DeclTable) (p q : Payload Ty) : Prop :=
  p.CoveredBy table (Ty.Simulated table) q ∧ q.CoveredBy table (Ty.Simulated table) p

end Payload

namespace Ty

variable {table : DeclTable} {meet : Ty → Ty → Option Ty} {a b t u m : Ty} {p q : Payload Ty}
  {n : Nat} {found : Option (Payload Ty)} {r s : Slot}

/-- What two types have in common is equivalent to the first one and not empty. -/
def Absorbs (table : DeclTable) (meet : Ty → Ty → Option Ty) (t u : Ty) : Prop :=
  ∀ m, meet t u = some m → m.isNever = false ∧ Simulated table m t ∧ Simulated table t m

/-- What components of two levels have in common is equivalent to the component of the first level,
wherever this is the smaller one. -/
def ComponentsAbsorb (table : DeclTable) (meet : Ty → Ty → Option Ty) (a b : Ty) : Prop :=
  ∀ p ∈ a.data, ∀ t ∈ p.components, ∀ q ∈ b.data, ∀ u ∈ q.components,
    Simulated table t u → Absorbs table meet t u

theorem Simulated.refl (htable : table.WellFormed) (ht : t.WellFormed) : Simulated table t t :=
  ⟨_, below_isSimulation htable, ht, ht, .refl ht⟩

/-! ### Payloads -/

/-- The common slots of a tuple and a larger one are equivalent to those of the tuple. -/
theorem SharesAll.equivalent {ts us ms : List Ty} (h : SharesAll meet ts us ms)
    (habsorbs : Forall₂ (Absorbs table meet) ts us) :
    (Payload.tuple ms).Equivalent table (.tuple ts) := by
  suffices hslots : Forall₂ (Simulated table) ms ts ∧ Forall₂ (Simulated table) ts ms from
    ⟨.tuple hslots.1, .tuple hslots.2⟩
  induction h with
  | nil => exact ⟨.nil, .nil⟩
  | cons hfirst _ ih =>
    obtain ⟨habsorb, habsorbs⟩ := forall₂_cons.mp habsorbs
    obtain ⟨-, hmt, htm⟩ := habsorb _ hfirst.1
    exact ⟨.cons hmt (ih habsorbs).1, .cons htm (ih habsorbs).2⟩

/-- The first of two shapes has all fields of the second one, and they hold smaller types. -/
def FieldsBelow (table : DeclTable) (fs gs : List (String × Ty)) : Prop :=
  ∀ e ∈ gs, ∃ t, fs.lookup e.1 = some t ∧ Simulated table t e.2

/-- The fields that a shape has in common with a smaller shape are equivalent to those of the
smaller one. -/
theorem meetFields?_of_absorbs {fs gs out : List (String × Ty)} (hkeys : AscendingKeys fs)
    (habsorbs : ∀ e ∈ gs, ∃ t, fs.lookup e.1 = some t ∧ Absorbs table meet t e.2)
    (hself : FieldsBelow table fs fs) (h : meetFields? meet fs fs gs = some (some out)) :
    FieldsBelow table out fs ∧ FieldsBelow table fs out := by
  refine (meetFields?_steps (P := fun acc => FieldsBelow table acc fs ∧ FieldsBelow table fs acc)
    h ⟨hself, hself⟩ ?_).1
  rintro acc g hg m hm - ⟨hacc, hacc'⟩
  obtain ⟨t, ht, htu⟩ := habsorbs g hg
  obtain ⟨t', ht', hm⟩ | ⟨hnone, -⟩ := hm
  · cases ht.symm.trans ht'
    obtain ⟨-, hmt, htm⟩ := htu m hm
    constructor
    · intro e he
      rw [lookup_insertField]
      split
      · next hname =>
        have hlookup := hkeys.lookup_eq_some_iff.mpr he
        rw [hname, ht] at hlookup
        exact ⟨m, rfl, some.inj hlookup ▸ hmt⟩
      · exact hacc e he
    · intro e he
      rcases mem_insertField he with rfl | he
      · exact ⟨t, ht, htm⟩
      · exact hacc' e he
  · cases ht.symm.trans hnone

variable {d e : DeclSet}

/-- The classes in common with a larger set are those of the smaller set and subclasses of them. -/
theorem meetClasses_of_below (hclasses : ∀ c ∈ d, ∃ x ∈ e, table.isSubclass c x) :
    (∀ c ∈ d, c ∈ meetClasses table d e) ∧
      ∀ c ∈ meetClasses table d e, ∃ x ∈ d, table.isSubclass c x := by
  constructor
  · intro c hc
    obtain ⟨x, hx, hcx⟩ := hclasses c hc
    exact mem_meetClasses_iff.mpr ⟨c, hc, x, hx, .inl ⟨hcx, rfl⟩⟩
  · intro c hc
    obtain ⟨x, hx, y, -, ⟨-, rfl⟩ | ⟨-, hyx, rfl⟩⟩ := mem_meetClasses_iff.mp hc
    · exact ⟨c, hx, DeclTable.isSubclass_refl table c⟩
    · exact ⟨x, hx, hyx⟩
/-- What is left of a payload and a larger one is equivalent to the smaller one. -/
theorem joint_equivalent {r : Payload Ty} (hjoint : p.Joint table meet q r)
    (hself : ∀ c ∈ p.components, Simulated table c c) (hproper : p.Proper)
    (hmeet : ∀ t ∈ p.components, ∀ u ∈ q.components, Simulated table t u → Absorbs table meet t u)
    (hcommon : ∀ g ∈ q.fields, ∃ t, p.fields.lookup g.1 = some t ∧ Absorbs table meet t g.2)
    (h : p.CoveredBy table (Simulated table) q) : r.Equivalent table p := by
  have hset {ds es : DeclSet} {f : DeclSet → Payload Ty} (hsubset : ∀ d ∈ ds, d ∈ es)
      (hf : ∀ s s' : DeclSet, (∀ d ∈ s, d ∈ s') → (f s).CoveredBy table (Simulated table) (f s')) :
      (f (ds.inter es)).Equivalent table (f ds) :=
    ⟨hf _ _ fun d hd => (DeclSet.mem_inter.mp hd).1,
      hf _ _ fun d hd => DeclSet.mem_inter.mpr ⟨hd, hsubset d hd⟩⟩
  cases h <;> cases hjoint
  any_goals first
    | exact ⟨.value ‹_›, .value ‹_›⟩
    | exact absurd ‹isValue _ = true› (by simp [isValue, tag, contains_valueTypes])
    | exact ⟨.method .., .method ..⟩
  case elements.elements t u htu m hm =>
    obtain ⟨-, hmt, htm⟩ := hmeet t (by simp) u (by simp) htu _ hm.1
    exact ⟨.elements hmt, .elements htm⟩
  case slots.slots ts u htu us hms =>
    refine hms.equivalent (forall₂_replicate_iff.mpr fun t ht => ?_)
    exact hmeet t ht u (by simp) (htu t ht)
  case tuple.tuple ts us htu ms hms =>
    refine hms.equivalent (forall₂_iff_zip.mpr ⟨htu.length_eq, fun {t u} hmem => ?_⟩)
    obtain ⟨ht, hu⟩ := of_mem_zip hmem
    exact hmeet t ht u hu ((forall₂_iff_zip.mp htu).2 hmem)
  case dictionary.dictionary k v k' v' hkey hvalue m n hm hn =>
    obtain ⟨-, hkk, hkk'⟩ := hmeet k (by simp) k' (by simp) hkey _ hm.1
    obtain ⟨-, hvv, hvv'⟩ := hmeet v (by simp) v' (by simp) hvalue _ hn.1
    exact ⟨.dictionary hkk hvv, .dictionary hkk' hvv'⟩
  case module.module hd _ => exact hset hd fun _ _ => .module
  case function.function hd _ => exact hset hd fun _ _ => .function
  case cls.cls hd _ => exact hset hd fun _ _ => .cls
  case synonym.synonym hd _ => exact hset hd fun _ _ => .synonym
  case object.object ds es shape shape' hclasses hcovered shape'' hne hshape =>
    obtain ⟨hsub, hsup⟩ := meetClasses_of_below hclasses
    have hfields (fs : List (String × Ty)) (hfs : shape = some fs) : FieldsBelow table fs fs := by
      subst hfs
      exact fun f hf => ⟨f.2, hproper.2.lookup_eq_some_iff.mpr hf, hself f.2 (mem_map_of_mem hf)⟩
    suffices hfields' : (∀ gs, shape = some gs → ∃ fs, shape'' = some fs ∧
          FieldsBelow table fs gs) ∧
        ∀ gs, shape'' = some gs → ∃ fs, shape = some fs ∧ FieldsBelow table fs gs from
      ⟨.object hsup hfields'.1,
        .object (fun c hc => ⟨c, hsub c hc, DeclTable.isSubclass_refl table c⟩) hfields'.2⟩
    obtain ⟨fs, gs, out, rfl, rfl, rfl, hout⟩ | ⟨-, rfl⟩ | ⟨rfl, rfl⟩ := hshape
    · simpa using meetFields?_of_absorbs hproper.2 hcommon (hfields fs rfl) hout
    · exact ⟨fun gs hgs => ⟨gs, hgs, hfields gs hgs⟩, fun gs hgs => ⟨gs, hgs, hfields gs hgs⟩⟩
    · exact ⟨by simp, hcovered⟩
  case enum.enum d e v w hdecl hcovered x hne hvalue =>
    have hor : d.or e = d := by rcases hdecl with rfl | rfl <;> simp
    rw [hor]
    obtain ⟨t, u, m, rfl, rfl, rfl, hm⟩ | ⟨-, rfl⟩ | ⟨rfl, rfl⟩ := hvalue
    · obtain ⟨-, hmt, htm⟩ := hmeet t (by simp) u (by simp) (hcovered u rfl) m hm.1
      exact ⟨.enum (.inr rfl) (by simpa using hmt), .enum (.inr rfl) (by simpa using htm)⟩
    · have hv : (enum d x).CoveredBy table (Simulated table) (.enum d x) :=
        .enum (.inr rfl) fun u hu => by simpa [hu] using hself u (by simp [hu])
      exact ⟨hv, hv⟩
    · exact ⟨.enum (.inr rfl) (by simp), .enum (.inr rfl) hcovered⟩

/-- A payload and a larger one have in common what is equivalent to the smaller one. -/
theorem equivalent_of_meetPayload? (htable : table.WellFormed) (hp : p.Formed True)
    (hdecls : ∀ ds, p.decls? = some ds → ∃ d, d ∈ ds)
    (hmeet : ∀ t ∈ p.components, ∀ u ∈ q.components, Simulated table t u →
      Absorbs table meet t u) (h : p.CoveredBy table (Simulated table) q)
    (hfound : meetPayload? table meet p q = some found) :
    ∃ r, found = some r ∧ r.Equivalent table p := by
  have hself : ∀ c ∈ p.components, Simulated table c c := fun c hc => .refl htable (hp.nested c hc)
  have hcommon : ∀ g ∈ q.fields, ∃ t, p.fields.lookup g.1 = some t ∧ Absorbs table meet t g.2 := by
    intro g hg
    obtain ⟨es, hq⟩ := exists_object_of_mem_fields hg
    generalize q.fields = gs at hg hq
    subst hq
    cases h with
    | value hv => simp [isValue, tag, contains_valueTypes] at hv
    | object _ hshape =>
      obtain ⟨fs, rfl, hfields⟩ := hshape gs rfl
      obtain ⟨t, ht, htg⟩ := hfields g hg
      have hmem : t ∈ fs.map Prod.snd := mem_map.mpr ⟨_, mem_of_lookup ht, rfl⟩
      exact ⟨t, ht, hmeet t hmem g.2 (mem_map_of_mem hg) htg⟩
  cases found with
  | none =>
    refine absurd hfound (meetPayload?_ne_some_none (h.overlaps hdecls ?_) ?_)
    · rintro t ht u hu htu ⟨m, hm, hnever⟩
      simp [(hmeet t (parts_subset ht) u hu htu m hm).1] at hnever
    · intro g hg m hm
      obtain ⟨t, ht, habsorbs⟩ := hcommon g hg
      obtain ⟨t', ht', hm⟩ | ⟨hnone, -⟩ := hm
      · cases ht.symm.trans ht'
        exact (habsorbs m hm).1
      · cases ht.symm.trans hnone
  | some r =>
    exact ⟨r, rfl, joint_equivalent (joint_of_meetPayload? hfound) hself (hp.proper trivial) hmeet
      hcommon h⟩

/-! ### Common tags -/

/-- Two slots say the same up to equivalent payloads. -/
inductive Slot.Equivalent (table : DeclTable) : Slot → Slot → Prop
  | absent : Equivalent table .absent .absent
  | bare : Equivalent table .bare .bare
  | holds {p q : Payload Ty} (h : p.Equivalent table q) : Equivalent table (.holds p) (.holds q)

section

variable (h : Slot.Equivalent table r s)

include h

theorem Slot.Equivalent.absent_iff : r = .absent ↔ s = .absent := by
  cases h <;> simp

/-- A slot that is equivalent to one without a payload is that slot. -/
theorem Slot.Equivalent.flattened (hs : s.flattened = s) : Slot.Equivalent table r.flattened s := by
  cases h with
  | absent => exact .absent
  | bare => exact .bare
  | holds h => cases hs

/-- A slot that is equivalent to one with a literal has the same literal. -/
theorem Slot.Equivalent.eq_of_isValue (hs : ∀ p, s = .holds p → p.isValue) : r = s := by
  cases h with
  | absent | bare => rfl
  | holds h => rw [h.1.eq_of_isValue_right (hs _ rfl)]

end

theorem Slot.Equivalent.refl (htable : table.WellFormed) (ht : t.WellFormed) (tag : Tag) :
    Slot.Equivalent table (t.slot tag) (t.slot tag) := by
  cases hslot : t.slot tag with
  | absent => exact .absent
  | bare => exact .bare
  | holds p =>
    obtain ⟨htag, hp⟩ := slot_eq_holds_iff.mp hslot
    have hcovered : t.TagCoveredBy table (Simulated table) t tag := by
      refine (Below.refl ht).tagCoveredBy ht ht htag fun p hp t' ht' u hu hbelow => ?_
      exact ⟨_, below_isSimulation htable, (ht.payload hp).nested t' ht', hu, hbelow⟩
    obtain ⟨q, hq, hqp⟩ := hcovered.2 p hp
    obtain rfl : p = q := some.inj (hp.symm.trans hq)
    exact .holds ⟨hqp, hqp⟩

theorem Slot.Equivalent.symm (h : Slot.Equivalent table r s) : Slot.Equivalent table s r := by
  cases h with
  | absent => exact .absent
  | bare => exact .bare
  | holds h => exact .holds h.symm

variable {tag : Tag}

theorem Slot.Equivalent.tagCoveredBy (h : Slot.Equivalent table (t.slot tag) (u.slot tag))
    (htag : tag ∈ t.tags) : t.TagCoveredBy table (Simulated table) u tag := by
  have htag' : tag ∈ u.tags := by
    by_contra hnot
    exact slot_eq_absent_iff.mp (h.absent_iff.mpr (slot_eq_absent_iff.mpr hnot)) htag
  refine ⟨htag', fun q hq => ?_⟩
  rw [slot_eq_holds_iff.mpr ⟨htag', hq⟩] at h
  cases hslot : t.slot tag with
  | absent | bare =>
    rw [hslot] at h
    cases h
  | holds p =>
    rw [hslot] at h
    cases h with
    | holds h => exact ⟨p, (slot_eq_holds_iff.mp hslot).2, h.1⟩

/-- Nothing on this level is known to be empty: neither sets of declarations nor components. -/
@[mk_iff] structure Filled (table : DeclTable) (t : Ty) : Prop where
  decls : ∀ p ∈ t.data, ∀ ds ∈ p.decls?, ds.isEmpty = false
  components : ∀ p ∈ t.data, ∀ c ∈ p.components, (c.expand table).isNever = false

instance : DecidablePred (Filled table) := fun t => decidable_of_iff' _ (filled_iff table t)

section

variable (htable : table.WellFormed) (ha : a.WellFormed) (hfilled : a.Filled table)
  (hmeet : ComponentsAbsorb table meet a b)

include htable ha hfilled hmeet

/-- What two slots have in common is equivalent to the first one, if the second one covers it. -/
theorem slot_equivalent_of_meet? {s : Slot}
    (hcovered : tag ∈ a.tags → a.TagCoveredBy table (Simulated table) b tag)
    (h : (a.slot tag).meet? table meet (b.slot tag) = some s) :
    Slot.Equivalent table s (a.slot tag) := by
  have hself := Slot.Equivalent.refl htable ha tag
  cases hslot : a.slot tag with
  | absent =>
    rw [hslot, Slot.absent_meet?] at h
    exact some.inj h ▸ .absent
  | bare =>
    obtain ⟨htag, hnone⟩ := slot_eq_bare_iff.mp hslot
    obtain ⟨htag', hpayload⟩ := hcovered htag
    have hbare : b.slot tag = .bare := by
      refine slot_eq_bare_iff.mpr ⟨htag', eq_none_iff_forall_not_mem.mpr fun q hq => ?_⟩
      obtain ⟨p, hp, -⟩ := hpayload q hq
      simp [hnone] at hp
    rw [hslot, hbare] at h
    exact some.inj h ▸ .bare
  | holds p =>
    obtain ⟨htag, hp⟩ := slot_eq_holds_iff.mp hslot
    obtain ⟨htag', hpayload⟩ := hcovered htag
    cases hq : b.payload? tag with
    | none =>
      rw [hslot, slot_eq_bare_iff.mpr ⟨htag', hq⟩] at h
      rw [hslot] at hself
      exact some.inj h ▸ hself
    | some q =>
      obtain ⟨p', hp', hpq⟩ := hpayload q hq
      obtain rfl : p = p' := some.inj (hp.symm.trans hp')
      have hmem := payload?_mem hp
      rw [hslot, slot_eq_holds_iff.mpr ⟨htag', hq⟩] at h
      obtain ⟨found, hfound, rfl⟩ := map_eq_some_iff.mp h
      obtain ⟨r, rfl, hr⟩ := equivalent_of_meetPayload? htable (ha.payload hmem)
        (fun ds hds => isEmpty_eq_false_iff_exists_mem.mp (hfilled.decls p hmem ds hds))
        (fun t ht u hu => hmeet p hmem t ht q (payload?_mem hq) u hu) hpq hfound
      exact .holds hr

/-- The common tags say the same as the first type about what the second one covers. -/
theorem slot_equivalent_of_meetTags? (hm : m.WellFormed)
    (hcovered : tag ∈ a.tags → a.TagCoveredBy table (Simulated table) b tag)
    (h : meetTags? table meet a b = some m) : Slot.Equivalent table (m.slot tag) (a.slot tag) := by
  obtain ⟨s, hs, hslot⟩ := slot_meetTags? h hm.canonical tag
  have hequivalent := slot_equivalent_of_meet? htable ha hfilled hmeet hcovered hs
  rw [hslot]
  split
  · next hmany =>
    refine hequivalent.flattened (ha.canonical.slot_flattened (hmany.1.mono ?_) hmany.2)
    exact fun tag htag => (mem_of_mem_meetTags? h hm.canonical htag).1
  · exact hequivalent

end

/-! ### Literals -/

theorem IsLiteral.isPlainObject_eq_false (h : t.IsLiteral) : t.isPlainObject = false :=
  Bool.eq_false_iff.mpr fun hplain =>
    absurd (h.tags .object (isPlainObject_iff.mp hplain).1) (by decide)

theorem IsLiteral.enum_notMem (h : t.IsLiteral) : .enum ∉ t.tags :=
  fun henum => absurd (h.tags .enum henum) (by decide)

/-- The payloads beside kinds of literals are literals. -/
theorem IsLiteral.isValue (h : t.IsLiteral) (ht : t.WellFormed) (hp : p ∈ t.data) : p.isValue := by
  have hmem := h.tags p.tag (ht.canonical.tagged p hp)
  have hsub : ∀ tag ∈ enumValues, tag ∈ valueTypes := by decide
  exact mem_iff.mp (hsub p.tag hmem)

section

variable (htable : table.WellFormed) (hliteral : t.IsLiteral) (ht : t.WellFormed)
  (hb : b.WellFormed) (henum : .enum ∉ b.tags) (h : meetExpanded? table n t b = some m)

include htable hliteral ht hb henum h

/-- Kinds of literals and a type without members of enumerations have their common tags in common,
and all literals if the type is the unqualified object. -/
theorem exists_meetTags?_of_isLiteral : ∃ meet shared, meetTags? table meet t b = some shared ∧
    shared.WellFormed ∧ m = b.withKinds t shared := by
  cases n with
  | zero => cases h
  | succ n =>
    obtain ⟨shared, first, hsteps⟩ := exists_meetSteps htable ht hb h
    refine ⟨_, shared, hsteps.tags, hsteps.shared_wellFormed, ?_⟩
    have hkinds := withKinds_of_not_plain hliteral.isPlainObject_eq_false b shared
    have hfirst : first = b.withKinds t shared := by
      rcases meetEnum?_cases hsteps.left with ⟨hfirst, -⟩ | ⟨hmem, -⟩
      · rw [hfirst, hkinds]
      · exact absurd hmem hliteral.enum_notMem
    rcases meetEnum?_cases hsteps.right with ⟨hm, -⟩ | ⟨hmem, -⟩
    · exact hm.trans hfirst
    · exact absurd hmem henum

/-- Literals stay as they are if another type covers all of them. -/
theorem IsLiteral.eq_of_covered (hplain : b.isPlainObject = false)
    (hcovered : ∀ tag ∈ t.tags, t.TagCoveredBy table (Simulated table) b tag) : m = t := by
  obtain ⟨meet, shared, htags, hshared, rfl⟩ :=
    exists_meetTags?_of_isLiteral htable hliteral ht hb henum h
  have hvalue {p : Payload Ty} (hp : p ∈ t.data) : p.decls? = none ∧ p.components = [] := by
    have hvalue := hliteral.isValue ht hp
    cases p <;> simp_all [Payload.isValue, Payload.tag, contains_valueTypes, Payload.decls?,
      Payload.components]
  have hfilled : t.Filled table :=
    ⟨fun p hp => by simp [(hvalue hp).1], fun p hp => by simp [(hvalue hp).2]⟩
  rw [withKinds_of_not_plain hplain]
  refine Canonical.ext_slot hshared.canonical ht.canonical fun tag => ?_
  have hslot := slot_equivalent_of_meetTags? htable ht hfilled
    (fun p hp t' ht' => by simp [(hvalue hp).2] at ht') hshared (hcovered tag) htags
  exact hslot.eq_of_isValue fun p hp =>
    hliteral.isValue ht (payload?_mem (slot_eq_holds_iff.mp hp).2)

/-- No literal is added if another type knows nothing about its literals. -/
theorem IsLiteral.below_of_bare (hbare : ∀ tag ∈ enumValues, b.payload? tag = none) :
    m.Below t := by
  obtain ⟨meet, shared, htags, hshared, rfl⟩ :=
    exists_meetTags?_of_isLiteral htable hliteral ht hb henum h
  have hbelow : shared.Below t := by
    refine below_of_slots hshared ht fun tag htag => ?_
    obtain ⟨hmem, hmem'⟩ := mem_of_mem_meetTags? htags hshared.canonical htag
    refine slot_meetTags?_eq htags hshared.canonical ht.canonical
      (fun tag htag => (mem_of_mem_meetTags? htags hshared.canonical htag).1) ?_
    rw [slot_eq_bare_iff.mpr ⟨hmem', hbare tag (hliteral.tags tag hmem)⟩]
    cases t.slot tag <;> rfl
  unfold withKinds
  split
  · exact (union_below_iff hshared (ht.restrictedTo _) ht).mpr ⟨hbelow, restrictedTo_below ht _⟩
  · exact hbelow

end

/-- All literals and a type without the unqualified object have kinds of the type in common. -/
theorem meetExpanded?_enumValues_below (htable : table.WellFormed) (hb : b.WellFormed)
    (henum : .enum ∉ b.tags) (hplain : b.isPlainObject = false)
    (h : meetExpanded? table n (ofTags .enumValues) b = some m) : m.Below b := by
  obtain ⟨meet, shared, htags, hshared, rfl⟩ :=
    exists_meetTags?_of_isLiteral htable isLiteral_enumValues (.ofTags _) hb henum h
  rw [withKinds_of_not_plain hplain]
  refine below_of_slots hshared hb fun tag htag => ?_
  obtain ⟨hmem, -⟩ := mem_of_mem_meetTags? htags hshared.canonical htag
  refine slot_meetTags?_eq htags hshared.canonical hb.canonical
    (fun tag htag => (mem_of_mem_meetTags? htags hshared.canonical htag).2) ?_
  rw [slot_eq_bare_iff.mpr ⟨hmem, rfl⟩]
  cases b.slot tag <;> rfl

end Ty

end TypeFlow
