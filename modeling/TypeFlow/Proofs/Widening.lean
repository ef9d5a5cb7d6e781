import TypeFlow.Proofs.Join

/-!
# Widening

Widening keeps the tags of a type and replaces each payload by a wider one, or drops it. So a type
lies below what it is widened to.
-/

namespace TypeFlow

open List Option Payload

namespace Payload

variable {f : Ty → Ty} {p : Payload Ty}

@[simp] theorem components_map (f : Ty → Ty) (p : Payload Ty) :
    (p.map f).components = p.components.map f := by
  cases p with
  | object _ shape => cases shape <;> simp [map, components]
  | enum _ v => cases v <;> rfl
  | _ => simp [map, components]

@[simp] theorem decls?_map (f : Ty → Ty) (p : Payload Ty) : (p.map f).decls? = p.decls? := by
  cases p <;> rfl

/-- A change of the components keeps a payload proper. -/
theorem Proper.map (hp : p.Proper) (f : Ty → Ty) : (p.map f).Proper := by
  cases p with
  | object _ shape =>
    cases shape with
    | none => trivial
    | some fields => exact ⟨by simpa using hp.1, pairwise_map.mpr (hp.2.imp fun h => h)⟩
  | enum d v => cases d <;> cases v <;> exact hp
  | _ => trivial

/-- A change that keeps the components formed keeps the payload formed. -/
theorem Formed.map {strict : Demands} (hp : p.Formed strict)
    (hf : ∀ c ∈ p.components, (f c).Formed strict) : (p.map f).Formed strict where
  proper hstrict := (hp.proper hstrict).map f
  methodFree hstrict := p.tag_map f ▸ hp.methodFree hstrict
  decls := by
    rw [decls?_map]
    exact hp.decls
  nested := by
    rw [components_map]
    exact forall_mem_map.mpr hf

/-- A payload without its components. -/
def form (p : Payload Ty) : Payload Unit := p.map fun _ => ()

private theorem fields_ext {fields others : List (String × Ty)}
    (hnames : fields.map (fun e => (e.1, ())) = others.map fun e => (e.1, ()))
    (htypes : fields.map Prod.snd = others.map Prod.snd) : fields = others := by
  induction fields generalizing others with
  | nil => exact (map_eq_nil_iff.mp htypes.symm).symm
  | cons e fields ih =>
    cases others with
    | nil => simp at htypes
    | cons e' others =>
      simp only [map_cons, cons.injEq, Prod.mk.injEq, and_true] at hnames htypes
      rw [Prod.ext hnames.1 htypes.1, ih hnames.2 htypes.2]

/-- A payload is determined by its form and its components. -/
theorem ext_form {p q : Payload Ty} (hform : p.form = q.form) (h : p.components = q.components) :
    p = q := by
  cases p with
  | object d shape =>
    cases q <;> simp [form, map] at hform
    obtain ⟨rfl, hform⟩ := hform
    rename_i other
    cases shape <;> cases other <;> simp at hform
    · rfl
    · rw [fields_ext hform h]
  | enum d v =>
    cases q <;> simp [form, map] at hform
    obtain ⟨rfl, hform⟩ := hform
    rename_i w
    cases v <;> cases w <;> simp at hform
    · rfl
    · simpa using h
  | method args r =>
    cases q <;> simp [form, map] at hform
    obtain ⟨rfl, hresult⟩ := append_inj' h rfl
    rw [singleton_inj.mp hresult]
  | _ => cases q <;> simp_all [form, map]

@[simp] theorem form_map (f : Ty → Ty) (p : Payload Ty) : (p.map f).form = p.form := by
  cases p with
  | object _ shape => cases shape <;> simp [form, map]
  | enum _ v => cases v <;> rfl
  | _ => simp [form, map, Function.comp_def]

/-- A change that keeps all components keeps the payload. -/
theorem map_eq_self (h : ∀ c ∈ p.components, f c = c) : p.map f = p := by
  refine ext_form (form_map f p) ?_
  rw [components_map, map_congr_left h, List.map_id']

end Payload

namespace Ty

theorem ext_parts {t u : Ty} (htags : t.tags = u.tags) (hdata : t.data = u.data) : t = u := by
  obtain ⟨tags, data⟩ := t
  obtain ⟨tags', data'⟩ := u
  rw [show tags = tags' from htags, show data = data' from hdata]

/-- What widening makes of a payload. -/
def widenPayload : Nat → Payload Ty → Option (Payload Ty)
  | 0 => flattenPayload
  | depth + 1 => fun p => some (p.map (widen depth))

theorem widen_eq (depth : Nat) (t : Ty) :
    t.widen depth = ⟨t.tags, t.data.filterMap (widenPayload depth)⟩ := by
  cases depth with
  | zero => rfl
  | succ depth => simp [widen, widenPayload]

@[simp] theorem widen_tags (depth : Nat) (t : Ty) : (t.widen depth).tags = t.tags := by
  rw [widen_eq]

variable {strict : Demands} {t : Ty} {p q : Payload Ty} {depth : Nat}

/-- Flattening forgets components and nothing else. -/
theorem flattenPayload_eq_some (h : flattenPayload p = some q) :
    q = p ∧ p.isNested = false ∨ (∃ d fields, p = .object d (some fields) ∧ q = .object d none) ∨
      ∃ d v, p = .enum (some d) (some v) ∧ q = .enum (some d) none := by
  unfold flattenPayload at h
  split at h
  · next d fields => exact .inr (.inl ⟨d, fields, rfl, (some.inj h).symm⟩)
  · next d v => exact .inr (.inr ⟨d, v, rfl, (some.inj h).symm⟩)
  · split at h
    · simp at h
    · next hnested => exact .inl ⟨(some.inj h).symm, by simpa using hnested⟩

theorem widenPayload_tag (h : widenPayload depth p = some q) : q.tag = p.tag := by
  cases depth with
  | zero =>
    rcases flattenPayload_eq_some h with ⟨rfl, -⟩ | ⟨d, fields, rfl, rfl⟩ | ⟨d, v, rfl, rfl⟩ <;> rfl
  | succ depth =>
    cases h
    exact p.tag_map _

/-- A flattened payload is formed. -/
theorem flattenPayload_formed (hp : p.Formed strict) (h : flattenPayload p = some q) :
    q.Formed strict := by
  rcases flattenPayload_eq_some h with ⟨rfl, -⟩ | ⟨d, fields, rfl, rfl⟩ | ⟨d, v, rfl, rfl⟩
  · exact hp
  · exact ⟨fun _ => trivial, fun _ => tag_ne_method_of_components rfl, hp.decls,
      by simp [components]⟩
  · exact ⟨fun _ => trivial, fun _ => tag_ne_method_of_components rfl, hp.decls, by simp⟩

/-- Widening keeps the order of payloads. -/
theorem widen_ordered (h : Ordered t.data) : Ordered (t.widen depth).data := by
  rw [widen_eq]
  refine pairwise_filterMap.mpr (h.imp ?_)
  intro p q hpq p' hp' q' hq'
  rw [widenPayload_tag hp', widenPayload_tag hq']
  exact hpq

/-- Widening keeps types formed. -/
theorem Formed.widen (ht : t.Formed strict) (depth : Nat) : (t.widen depth).Formed strict := by
  have hstep {t : Ty} {depth : Nat} (ht : t.Formed strict)
      (hpayload : ∀ p ∈ t.data, ∀ q, widenPayload depth p = some q → q.Formed strict) :
      (t.widen depth).Formed strict := by
    have hmem {q : Payload Ty} (hq : q ∈ (t.widen depth).data) :
        ∃ p ∈ t.data, widenPayload depth p = some q := by
      rw [widen_eq] at hq
      exact mem_filterMap.mp hq
    refine .of_payloads ?_ ?_
    · intro hstrict
      have hcanonical := ht.canonical hstrict
      rw [widen_tags]
      refine ⟨widen_ordered hcanonical.ordered, ?_, ?_⟩
      · intro q hq
        obtain ⟨p, hp, hpq⟩ := hmem hq
        exact widenPayload_tag hpq ▸ hcanonical.tagged p hp
      · intro hmany q hq
        obtain ⟨p, hp, hpq⟩ := hmem hq
        rw [isValue, widenPayload_tag hpq]
        exact hcanonical.literal hmany p hp
    · intro q hq
      obtain ⟨p, hp, hpq⟩ := hmem hq
      exact hpayload p hp q hpq
  induction depth generalizing t with
  | zero => exact hstep ht fun p hp q => flattenPayload_formed (ht.payload hp)
  | succ depth ih =>
    refine hstep ht fun p hp q hq => some.inj hq ▸ (ht.payload hp).map ?_
    intro c hc
    exact ih ((ht.payload hp).nested c hc)

/-- What is left of a payload without its components is not nested. -/
theorem flattenPayload_isNested (h : flattenPayload p = some q) : q.isNested = false := by
  rcases flattenPayload_eq_some h with ⟨rfl, hnested⟩ | ⟨d, fields, rfl, rfl⟩ | ⟨d, v, rfl, rfl⟩
  · exact hnested
  · rfl
  · rfl

/-- Widening limits the nesting of a type. -/
theorem depth_widen_le (depth : Nat) (t : Ty) : (t.widen depth).depth ≤ depth := by
  induction depth generalizing t with
  | zero =>
    refine Nat.le_of_eq (depth_eq_zero_iff.mpr fun q hq => ?_)
    obtain ⟨p, -, hpq⟩ := mem_filterMap.mp hq
    exact flattenPayload_isNested hpq
  | succ depth ih =>
    refine depth_le_succ_iff.mpr fun q hq c hc => ?_
    obtain ⟨p, -, rfl⟩ := mem_map.mp hq
    rw [components_map] at hc
    obtain ⟨c', -, rfl⟩ := mem_map.mp hc
    exact ih c'

/-- Flattening keeps a payload that holds no components. -/
theorem flattenPayload_of_isNested (h : p.isNested = false) : flattenPayload p = some p := by
  unfold flattenPayload
  split
  · simp [isNested] at h
  · simp [isNested] at h
  · simp [h]

/-- Widening leaves exactly the types alone that are not nested more deeply. -/
theorem widen_eq_self_iff : t.widen depth = t ↔ t.depth ≤ depth := by
  refine ⟨fun h => h ▸ depth_widen_le depth t, fun h => ?_⟩
  induction depth generalizing t with
  | zero =>
    have hflat := depth_eq_zero_iff.mp (Nat.le_zero.mp h)
    refine ext_parts rfl (.trans ?_ filterMap_some)
    exact filterMap_congr fun p hp => flattenPayload_of_isNested (hflat p hp)
  | succ depth ih =>
    refine ext_parts rfl (.trans ?_ (map_id' t.data))
    refine map_congr_left fun p hp => map_eq_self fun c hc => ?_
    exact ih (depth_le_succ_iff.mp h p hp c hc)

/-- Widening tells a change exactly when it makes one. -/
theorem widenDrops_eq_false_iff : t.widenDrops depth = false ↔ t.widen depth = t := by
  rw [widen_eq_self_iff]
  induction depth generalizing t with
  | zero => simp [widenDrops, depth_eq_zero_iff]
  | succ depth ih => simp [widenDrops, depth_le_succ_iff, ih]

/-- The payload of a tag after widening. -/
theorem payload?_widen (h : Ordered t.data) (tag : Tag) :
    (t.widen depth).payload? tag = (t.payload? tag).bind (widenPayload depth) := by
  apply Option.ext
  intro q
  rw [payload?_eq_some_iff (widen_ordered h), widen_eq, mem_filterMap, bind_eq_some_iff]
  constructor
  · rintro ⟨⟨p, hp, hpq⟩, rfl⟩
    exact ⟨p, (payload?_eq_some_iff h).mpr ⟨hp, (widenPayload_tag hpq).symm⟩, hpq⟩
  · rintro ⟨p, hp, hpq⟩
    obtain ⟨hmem, rfl⟩ := (payload?_eq_some_iff h).mp hp
    exact ⟨⟨p, hmem, hpq⟩, widenPayload_tag hpq⟩

/-- What widening makes of a slot. -/
def Slot.widen (depth : Nat) : Slot → Slot
  | holds p => (widenPayload depth p).elim bare holds
  | s => s

theorem slot_widen (h : Ordered t.data) (tag : Tag) :
    (t.widen depth).slot tag = (t.slot tag).widen depth := by
  unfold slot
  rw [widen_tags, payload?_widen h]
  split
  · cases t.payload? tag <;> rfl
  · rfl

/-! ### A type lies below what it is widened to -/

private theorem zipWith_map_absorbed {f : Ty → Ty} {ts : List Ty}
    (h : ∀ t ∈ ts, t.union (f t) = f t) : zipWith union ts (ts.map f) = ts.map f := by
  rw [zipWith_map_right, zipWith_self]
  exact map_congr_left h

private theorem fieldOf_map (f : Ty → Ty) (s : Option (List (String × Ty))) (name : String) :
    fieldOf (s.map fun fields => fields.map fun (n, t) => (n, f t)) name =
      (fieldOf s name).map f := by
  cases s with
  | none => rfl
  | some fields =>
    simp only [fieldOf, map_some, bind_some]
    induction fields with
    | nil => rfl
    | cons e fields ih =>
      obtain ⟨m, t⟩ := e
      simp only [map_cons, lookup_cons_eq_ite, ih]
      split <;> rfl

/-- When each component is absorbed by its image, so is the payload. -/
theorem mergePayload_map {f : Ty → Ty} (hp : p.Proper)
    (hf : ∀ c ∈ p.components, c.union (f c) = f c) :
    mergePayload union p (p.map f) = some (p.map f) := by
  cases p with
  | elements t => simpa [mergePayload, Payload.map, elementUnionWith] using hf
  | tuple ts =>
    simp only [Payload.components] at hf
    simp [mergePayload, Payload.map, zipWith_map_absorbed hf]
  | dictionary k v => simpa [mergePayload, Payload.map] using hf
  | method args r =>
    simp only [Payload.components, forall_mem_append] at hf
    simp [mergePayload, Payload.map, zipWith_map_absorbed hf.1, hf.2]
  | object d s =>
    rw [Payload.map, mergePayload_object, DeclSet.union_self]
    have hshape : mergeShape union s (s.map fun fields => fields.map fun (n, t) => (n, f t)) =
        s.map fun fields => fields.map fun (n, t) => (n, f t) := by
      apply shape_ext (mergePayload_proper hp (mergePayload_object d d s _)) (hp.map f)
      intro name
      rw [fieldOf_mergeShape, fieldOf_map]
      cases hfield : fieldOf s name with
      | none => rfl
      | some t => exact congrArg some (JoinOn.within_field hf name t hfield)
    rw [hshape]
  | enum d v =>
    rw [Payload.map, mergePayload_enum, agreed_self, enumPayload?]
    cases v with
    | none =>
      cases d with
      | none => exact hp.elim
      | some _ => rfl
    | some v =>
      have hvalue : v.union (f v) = f v := by simpa using hf
      cases d <;> simp [hvalue]
  | module d | function d | cls d | synonym d => simp [mergePayload, Payload.map]
  | _ => exact if_pos rfl

/-- A payload is absorbed by what is left of it without components. -/
theorem mergePayload_flattenPayload (hp : mergePayload union p p = some p)
    (h : flattenPayload p = some q) : mergePayload union p q = some q := by
  rcases flattenPayload_eq_some h with ⟨rfl, -⟩ | ⟨d, fields, rfl, rfl⟩ | ⟨d, v, rfl, rfl⟩
  · exact hp
  · simp [mergePayload]
  · simp [mergePayload]

/-- A type lies below another one if it adds nothing to what that one says about each tag. -/
theorem below_of_slot_union {a b : Ty} (ha : a.WellFormed) (hb : b.WellFormed)
    (h : ∀ tag, (a.slot tag).union union (b.slot tag) = b.slot tag) : a.Below b := by
  have hunion : (a.union b).WellFormed := ha.union hb
  have htags : a.tags ∪ b.tags = b.tags := Tags.ext_mem fun tag => by
    have htag := h tag
    rw [Tags.mem_union]
    refine ⟨fun hmem => hmem.elim (fun hmem => ?_) id, .inr⟩
    by_contra hnot
    rw [slot_eq_absent_iff.mpr hnot, Slot.union_absent, slot_eq_absent_iff] at htag
    exact htag hmem
  refine Canonical.ext_slot hunion.canonical hb.canonical fun tag => ?_
  rw [slot_union ha.canonical hb.canonical, h, htags]
  split
  · next hmany => exact hb.canonical.slot_flattened hmany.1 hmany.2
  · rfl

/-- A type lies below what it is widened to. -/
theorem below_widen (ht : t.WellFormed) (depth : Nat) : t.Below (t.widen depth) := by
  induction depth using Nat.strong_induction_on generalizing t with
  | _ depth ih =>
  refine below_of_slot_union ht (ht.widen depth) fun tag => ?_
  rw [slot_widen ht.canonical.ordered]
  cases hs : t.slot tag with
  | absent | bare => rfl
  | holds p =>
    obtain ⟨-, hp⟩ := slot_eq_holds_iff.mp hs
    have hp := payload?_mem hp
    have hself := joinOn_wellFormed.mergePayload_self (ht.payload hp).nested
      (ht.canonical.proper p hp)
    have hmerge : ∀ q, widenPayload depth p = some q → mergePayload union p q = some q := by
      cases depth with
      | zero => exact fun q => mergePayload_flattenPayload hself
      | succ depth =>
        intro q hq
        cases hq
        exact mergePayload_map (ht.canonical.proper p hp)
          fun c hc => ih depth depth.lt_succ_self ((ht.payload hp).nested c hc)
    simp only [Slot.widen]
    cases hq : widenPayload depth p with
    | none => rfl
    | some q => simp [Slot.union, hmerge q hq]

end Ty

end TypeFlow
