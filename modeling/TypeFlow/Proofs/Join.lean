import Mathlib.Data.String.Basic
import TypeFlow.Proofs.Union

/-!
# Laws of the union

On well-formed types the union is commutative, associative and idempotent, so that it is the join of
the order in which `a` lies below `b` when their union is `b`. The laws of one level follow from the
laws for the components, slot by slot.
-/

namespace TypeFlow

open List Payload Tags

namespace DeclSet

/-- Sets with the same members are equal. -/
theorem ext_mem {s t : DeclSet} (h : ∀ d, d ∈ s ↔ d ∈ t) : s = t := by
  obtain ⟨ids, hids⟩ := s
  obtain ⟨others, hothers⟩ := t
  obtain rfl : ids = others := Pairwise.eq_of_mem_iff hids hothers h
  rfl

theorem union_comm (s t : DeclSet) : s.union t = t.union s := ext_mem fun _ => by simp [or_comm]

theorem union_assoc (r s t : DeclSet) : (r.union s).union t = r.union (s.union t) :=
  ext_mem fun _ => by simp [or_assoc]

@[simp] theorem union_self (s : DeclSet) : s.union s = s := ext_mem fun _ => by simp

end DeclSet

section

variable {β : Type} [DecidableEq β]

/-- Two sides agree on a value when both have it. -/
@[simp] theorem agreed_eq_some_iff {x y : Option β} {n : β} :
    agreed x y = some n ↔ x = some n ∧ y = some n := by
  unfold agreed
  split
  · next h => simp [h]
  · next h =>
    simp only [reduceCtorEq, false_iff, not_and]
    exact fun hx hy => h (hx.trans hy.symm)

theorem agreed_comm (x y : Option β) : agreed x y = agreed y x :=
  Option.ext fun n => by simp [and_comm]

theorem agreed_assoc (x y z : Option β) : agreed (agreed x y) z = agreed x (agreed y z) :=
  Option.ext fun n => by simp [and_assoc]

@[simp] theorem agreed_self (x : Option β) : agreed x x = x := if_pos rfl

@[simp] theorem agreed_none (x : Option β) : agreed x none = none := Option.ext fun n => by simp

@[simp] theorem none_agreed (x : Option β) : agreed none x = none := Option.ext fun n => by simp

end

namespace Ty

/-- The laws of a join on the types that satisfy `C`. -/
structure JoinOn (C : Ty → Prop) (join : Ty → Ty → Ty) : Prop where
  never_mem : C never
  closed : ∀ a b, C a → C b → C (join a b)
  comm : ∀ a b, C a → C b → join a b = join b a
  assoc : ∀ a b c, C a → C b → C c → join (join a b) c = join a (join b c)
  self : ∀ a, C a → join a a = a

/-- A payload whose components satisfy `C`. -/
def Over (C : Ty → Prop) (p : Payload Ty) : Prop := ∀ c ∈ p.components, C c

/-! ### Lists of components -/

namespace JoinOn

variable {C : Ty → Prop} {join : Ty → Ty → Ty}

theorem zipWith_comm (hj : JoinOn C join) {ts us : List Ty} (hts : ∀ t ∈ ts, C t)
    (hus : ∀ u ∈ us, C u) : List.zipWith join ts us = List.zipWith join us ts := by
  rw [List.zipWith_comm]
  exact zipWith_congr (fun u t hu ht => hj.comm t u ht hu) hus hts

theorem zipWith_assoc (hj : JoinOn C join) : ∀ {ts us vs : List Ty}, (∀ t ∈ ts, C t) →
    (∀ u ∈ us, C u) → (∀ v ∈ vs, C v) →
    zipWith join (zipWith join ts us) vs = zipWith join ts (zipWith join us vs)
  | [], _, _, _, _, _ => by simp
  | _ :: _, [], _, _, _, _ | _ :: _, _ :: _, [], _, _, _ => by simp
  | t :: ts, u :: us, v :: vs, hts, hus, hvs => by
    rw [forall_mem_cons] at hts hus hvs
    simp only [zipWith_cons_cons, hj.assoc t u v hts.1 hus.1 hvs.1,
      zipWith_assoc hj hts.2 hus.2 hvs.2]

theorem zipWith_self (hj : JoinOn C join) {ts : List Ty} (hts : ∀ t ∈ ts, C t) :
    List.zipWith join ts ts = ts := by
  rw [List.zipWith_self]
  exact (map_congr_left fun t ht => hj.self t (hts t ht)).trans (List.map_id' ts)

/-- Joining slot by slot and then all slots is joining all slots of both. -/
theorem foldl_zipWith (hj : JoinOn C join) : ∀ {ts us : List Ty}, ts.length = us.length →
    (∀ t ∈ ts, C t) → (∀ u ∈ us, C u) → ∀ {x y : Ty}, C x → C y →
    (zipWith join ts us).foldl join (join x y) = join (ts.foldl join x) (us.foldl join y)
  | [], [], _, _, _, _, _, _, _ => rfl
  | t :: ts, u :: us, hlen, hts, hus, x, y, hx, hy => by
    rw [forall_mem_cons] at hts hus
    have hswap : join (join x y) (join t u) = join (join x t) (join y u) := by
      rw [hj.assoc x y _ hx hy (hj.closed t u hts.1 hus.1), ← hj.assoc y t u hy hts.1 hus.1,
        hj.comm y t hy hts.1, hj.assoc t y u hts.1 hy hus.1,
        ← hj.assoc x t _ hx hts.1 (hj.closed y u hy hus.1)]
    rw [zipWith_cons_cons, foldl_cons, hswap]
    exact foldl_zipWith hj (by simpa using hlen) hts.2 hus.2 (hj.closed x t hx hts.1)
      (hj.closed y u hy hus.1)

end JoinOn

/-! ### Shapes -/

/-- The type of a field, if the shape knows it. -/
def fieldOf (shape : Option (List (String × Ty))) (name : String) : Option Ty :=
  shape.bind fun fields => fields.lookup name

/-- Shapes in the form that the algebra keeps are determined by the types of their fields. -/
theorem shape_ext {d e : DeclSet} {s s' : Option (List (String × Ty))}
    (hs : (Payload.object d s).Proper) (hs' : (Payload.object e s').Proper)
    (h : ∀ name, fieldOf s name = fieldOf s' name) : s = s' := by
  have hknown {fields : List (String × Ty)} (hne : fields ≠ []) :
      ∃ name t, fieldOf (some fields) name = some t := by
    obtain ⟨⟨name, t⟩, rest, rfl⟩ := exists_cons_of_ne_nil hne
    exact ⟨name, t, by simp [fieldOf]⟩
  cases s with
  | none =>
    cases s' with
    | none => rfl
    | some gs =>
      obtain ⟨name, t, ht⟩ := hknown hs'.1
      rw [← h] at ht
      exact absurd ht (by simp [fieldOf])
  | some fs =>
    cases s' with
    | none =>
      obtain ⟨name, t, ht⟩ := hknown hs.1
      rw [h] at ht
      exact absurd ht (by simp [fieldOf])
    | some gs => exact congrArg some (AscendingKeys.ext hs.2 hs'.2 h)

private theorem lookup_commonFields (join : Ty → Ty → Ty) (fs gs : List (String × Ty))
    (name : String) :
    (fs.filterMap fun (m, t) => (gs.lookup m).map fun u => (m, join t u)).lookup name =
      Option.map₂ join (fs.lookup name) (gs.lookup name) := by
  induction fs with
  | nil => rfl
  | cons f fs ih =>
    obtain ⟨m, t⟩ := f
    rw [filterMap_cons, lookup_cons_eq_ite]
    cases hm : gs.lookup m with
    | none =>
      simp only [hm, Option.map_none, ih]
      by_cases hname : name = m
      · subst hname
        simp [hm]
      · simp [hname]
    | some u =>
      simp only [hm, Option.map_some, lookup_cons_eq_ite, ih]
      by_cases hname : name = m
      · subst hname
        simp [hm]
      · simp [hname]

/-- A field is common when both shapes know it. -/
theorem fieldOf_mergeShape (join : Ty → Ty → Ty) (s s' : Option (List (String × Ty)))
    (name : String) :
    fieldOf (mergeShape join s s') name = Option.map₂ join (fieldOf s name) (fieldOf s' name) := by
  match s, s' with
  | none, _ => rfl
  | some _, none => simp [fieldOf, mergeShape]
  | some fs, some gs =>
    simp only [fieldOf, Option.bind_some, ← lookup_commonFields, mergeShape, commonFields]
    split
    · next hempty => rw [isEmpty_iff.mp hempty]; rfl
    · rfl

/-! ### Arrays -/

section

variable {C : Ty → Prop} {join : Ty → Ty → Ty} {p q r : Payload Ty}

/-- The number of slots of an array of fixed length. -/
def arity? : Payload Ty → Option Nat
  | .tuple ts => some ts.length
  | _ => none

theorem exists_eq_tuple {n : Nat} (h : arity? p = some n) :
    ∃ ts, p = .tuple ts ∧ ts.length = n := by
  cases p <;> simp [arity?] at h ⊢
  exact h

/-- Arrays that do not agree on a length are merged by all their elements. -/
theorem mergeArray_eq_elements (h : agreed (arity? p) (arity? q) = none) :
    mergeArray join p q = .elements (join (elementUnionWith join p) (elementUnionWith join q)) := by
  unfold mergeArray
  split
  · next ts us =>
    have hlen : ts.length ≠ us.length := by
      intro hlen
      simp [arity?, hlen] at h
    rw [if_neg hlen]
  · rfl

/-- A merged array has the length that both arrays have. -/
theorem arity?_mergeArray (join : Ty → Ty → Ty) (p q : Payload Ty) :
    arity? (mergeArray join p q) = agreed (arity? p) (arity? q) := by
  cases h : agreed (arity? p) (arity? q) with
  | none =>
    rw [mergeArray_eq_elements h]
    rfl
  | some n =>
    obtain ⟨hpn, hqn⟩ := agreed_eq_some_iff.mp h
    obtain ⟨ts, rfl, hts⟩ := exists_eq_tuple hpn
    obtain ⟨us, rfl, hus⟩ := exists_eq_tuple hqn
    simp [mergeArray, arity?, hts, hus]

end

namespace JoinOn

variable {C : Ty → Prop} {join : Ty → Ty → Ty} {p q r : Payload Ty} {v w : Option Ty}

section

variable (hj : JoinOn C join) (hp : Over C p)

include hj hp

/-- All that an array may hold satisfies what its components do. -/
theorem elements_mem : C (elementUnionWith join p) :=
  elementUnionWith_closed hj.never_mem hj.closed hp

/-- A merged array may hold what both arrays may. -/
theorem elementUnionWith_mergeArray (hq : Over C q) : elementUnionWith join (mergeArray join p q) =
      join (elementUnionWith join p) (elementUnionWith join q) := by
  unfold mergeArray
  split
  · split
    · next hlen =>
      have hfold := hj.foldl_zipWith hlen hp hq hj.never_mem hj.never_mem
      rwa [hj.self _ hj.never_mem] at hfold
    · rfl
  · rfl

theorem mergeArray_comm (hq : Over C q) : mergeArray join p q = mergeArray join q p := by
  cases h : agreed (arity? p) (arity? q) with
  | none =>
    rw [mergeArray_eq_elements h, mergeArray_eq_elements (agreed_comm (arity? q) _ ▸ h),
      hj.comm _ _ (hj.elements_mem hp) (hj.elements_mem hq)]
  | some n =>
    obtain ⟨hpn, hqn⟩ := agreed_eq_some_iff.mp h
    obtain ⟨ts, rfl, hts⟩ := exists_eq_tuple hpn
    obtain ⟨us, rfl, hus⟩ := exists_eq_tuple hqn
    have hzip : zipWith join ts us = zipWith join us ts := hj.zipWith_comm hp hq
    simp [mergeArray, hts, hus, hzip]

theorem mergeArray_assoc (hq : Over C q) (hr : Over C r) :
    mergeArray join (mergeArray join p q) r = mergeArray join p (mergeArray join q r) := by
  cases h : agreed (agreed (arity? p) (arity? q)) (arity? r) with
  | none =>
    have hleft : agreed (arity? (mergeArray join p q)) (arity? r) = none := by
      rw [arity?_mergeArray, h]
    have hright : agreed (arity? p) (arity? (mergeArray join q r)) = none := by
      rw [arity?_mergeArray, ← agreed_assoc, h]
    rw [mergeArray_eq_elements hleft, mergeArray_eq_elements hright,
      hj.elementUnionWith_mergeArray hp hq, hj.elementUnionWith_mergeArray hq hr,
      hj.assoc _ _ _ (hj.elements_mem hp) (hj.elements_mem hq) (hj.elements_mem hr)]
  | some n =>
    rw [agreed_eq_some_iff, agreed_eq_some_iff] at h
    obtain ⟨ts, rfl, hts⟩ := exists_eq_tuple h.1.1
    obtain ⟨us, rfl, hus⟩ := exists_eq_tuple h.1.2
    obtain ⟨vs, rfl, hvs⟩ := exists_eq_tuple h.2
    have hzip : zipWith join (zipWith join ts us) vs =
        zipWith join ts (zipWith join us vs) := hj.zipWith_assoc hp hq hr
    simp [mergeArray, hts, hus, hvs, hzip]

theorem mergeArray_self (htag : p.tag = .array) : mergeArray join p p = p := by
  cases p <;> simp [tag] at htag
  case elements t => exact congrArg elements (hj.self t (hp t (mem_singleton_self t)))
  case tuple ts =>
    simp only [mergeArray]
    exact congrArg Payload.tuple (hj.zipWith_self hp)

end

/-! ### Optional components -/

/-- An optional component satisfies `C` if there is one. -/
def Within (C : Ty → Prop) (v : Option Ty) : Prop := ∀ t, v = some t → C t

theorem map₂_comm (hj : JoinOn C join) (hv : Within C v) (hw : Within C w) :
    Option.map₂ join v w = Option.map₂ join w v := by
  match v, w with
  | none, _ | some _, none => simp
  | some v, some w => exact congrArg some (hj.comm v w (hv v rfl) (hw w rfl))

theorem map₂_assoc (hj : JoinOn C join) {u : Option Ty} (hu : Within C u) (hv : Within C v)
    (hw : Within C w) :
    Option.map₂ join (Option.map₂ join u v) w = Option.map₂ join u (Option.map₂ join v w) := by
  match u, v, w with
  | none, _, _ | some _, none, _ | some _, some _, none => simp
  | some u, some v, some w => exact congrArg some (hj.assoc u v w (hu u rfl) (hv v rfl) (hw w rfl))

theorem map₂_self (hj : JoinOn C join) (hv : Within C v) : .map₂ join v v = v := by
  cases v with
  | none => rfl
  | some v => exact congrArg some (hj.self v (hv v rfl))

theorem within_field {d : DeclSet} {s : Option (List (String × Ty))} (h : Over C (.object d s))
    (name : String) : Within C (fieldOf s name) := by
  intro t ht
  cases s with
  | none => simp [fieldOf] at ht
  | some fields => exact h t (mem_map_of_mem (mem_of_lookup ht))

theorem within_value {d : Option DeclId} (h : Over C (.enum d v)) : Within C v := by
  rintro t rfl
  exact h t (mem_singleton_self t)

/-! ### Payloads of one tag -/

/-- The merge of payloads is commutative. -/
theorem mergePayload_comm (hj : JoinOn C join) (htag : q.tag = p.tag) (hp : Over C p)
    (hq : Over C q) (hpp : p.Proper) (hqp : q.Proper) :
    mergePayload join p q = mergePayload join q p := by
  cases alike htag with
  | value hvalue =>
    have hvalue' : q.isValue := by rwa [isValue, htag]
    rw [mergePayload_value hvalue, mergePayload_value hvalue']
    grind
  | array hptag hqtag =>
    rw [mergePayload_array hptag hqtag, mergePayload_array hqtag hptag, hj.mergeArray_comm hp hq]
  | dictionary k v k' v' =>
    simp only [Over, components, forall_mem_cons] at hp hq
    simp only [mergePayload, hj.comm k k' hp.1 hq.1, hj.comm v v' hp.2.1 hq.2.1]
  | method args r args' r' =>
    simp only [Over, components, forall_mem_append, forall_mem_singleton] at hp hq
    simp only [mergePayload, hj.zipWith_comm hp.1 hq.1, hj.comm r r' hp.2 hq.2, eq_comm]
  | object d s e s' =>
    rw [mergePayload_object, mergePayload_object, DeclSet.union_comm]
    have hshape : mergeShape join s s' = mergeShape join s' s := by
      refine shape_ext (mergePayload_proper hpp (mergePayload_object d e s s'))
        (mergePayload_proper hqp (mergePayload_object e d s' s)) ?_
      intro name
      rw [fieldOf_mergeShape, fieldOf_mergeShape,
        hj.map₂_comm (within_field hp name) (within_field hq name)]
    rw [hshape]
  | enum d v e w =>
    rw [mergePayload_enum, mergePayload_enum, agreed_comm,
      hj.map₂_comm (within_value hp) (within_value hq)]
  | module d e | function d e | cls d e | synonym d e =>
    simp only [mergePayload, DeclSet.union_comm]

/-- Equal payloads are merged to themselves. -/
theorem mergePayload_self (hj : JoinOn C join) (hp : Over C p) (hpp : p.Proper) :
    mergePayload join p p = some p := by
  cases Payload.alike (rfl : p.tag = p.tag) with
  | value hvalue => rw [mergePayload_value hvalue, if_pos rfl]
  | array htag _ => rw [mergePayload_array htag htag, hj.mergeArray_self hp htag]
  | dictionary k v =>
    simp only [Over, Payload.components, forall_mem_cons] at hp
    simp only [mergePayload, hj.self k hp.1, hj.self v hp.2.1]
  | method args r =>
    simp only [Over, Payload.components, forall_mem_append, forall_mem_singleton] at hp
    simp only [mergePayload, hj.zipWith_self hp.1, hj.self r hp.2, if_true]
  | object d s =>
    rw [mergePayload_object, DeclSet.union_self]
    have hshape : mergeShape join s s = s := by
      apply shape_ext (mergePayload_proper hpp (mergePayload_object d d s s)) hpp
      intro name
      rw [fieldOf_mergeShape, hj.map₂_self (within_field hp name)]
    rw [hshape]
  | enum d v =>
    rw [mergePayload_enum, hj.map₂_self (within_value hp), enumPayload?]
    cases d <;> cases v <;> simp [Payload.Proper] at hpp ⊢
  | module d | function d | cls d | synonym d => simp only [mergePayload, DeclSet.union_self]

private theorem enumPayload?_bind_left (d e : Option DeclId) (v w : Option Ty) :
    ((enumPayload? d v).bind fun p => mergePayload join p (.enum e w)) =
      enumPayload? (agreed d e) (.map₂ join v w) := by
  cases d <;> cases v <;> simp [enumPayload?, mergePayload_enum]

private theorem enumPayload?_bind_right (d e : Option DeclId) (v w : Option Ty) :
    ((enumPayload? e w).bind fun p => mergePayload join (.enum d v) p) =
      enumPayload? (agreed d e) (.map₂ join v w) := by
  cases e <;> cases w <;> simp [enumPayload?, mergePayload_enum]

/-- The merge of payloads is associative. -/
theorem mergePayload_assoc (hj : JoinOn C join) (hqp : q.tag = p.tag) (hrq : r.tag = q.tag)
    (hp : Over C p) (hq : Over C q) (hr : Over C r) (hpp : p.Proper) :
    ((mergePayload join p q).bind fun s => mergePayload join s r) =
      (mergePayload join q r).bind fun s => mergePayload join p s := by
  cases alike hqp with
  | value hvalue =>
    have hvalue' : q.isValue := by rwa [isValue, hqp]
    rw [mergePayload_value hvalue, mergePayload_value hvalue']
    by_cases hpq : p = q
    · subst hpq
      by_cases hpr : p = r <;> simp [mergePayload_value hvalue, hpr]
    · by_cases hqr : q = r
      · subst hqr
        simp [mergePayload_value hvalue, hpq]
      · simp [hpq, hqr]
  | array hptag hqtag =>
    have hrtag := hrq.trans hqtag
    have htag {s t : Payload Ty} (hs : s.tag = .array) (ht : t.tag = .array) :
        (mergeArray join s t).tag = .array :=
      (mergePayload_tag (mergePayload_array hs ht)).1.trans hs
    rw [mergePayload_array hptag hqtag, mergePayload_array hqtag hrtag, Option.bind_some,
      Option.bind_some, mergePayload_array (htag hptag hqtag) hrtag,
      mergePayload_array hptag (htag hqtag hrtag), hj.mergeArray_assoc hp hq hr]
  | dictionary k v k' v' =>
    cases r <;> simp [tag] at hrq
    simp only [Over, components, forall_mem_cons] at hp hq hr
    simp only [mergePayload, Option.bind_some, hj.assoc _ _ _ hp.1 hq.1 hr.1,
      hj.assoc _ _ _ hp.2.1 hq.2.1 hr.2.1]
  | method args res args' res' =>
    cases r <;> simp [tag] at hrq
    case method args'' res'' =>
    simp only [Over, components, forall_mem_append, forall_mem_singleton] at hp hq hr
    by_cases hlen : args.length = args'.length
    · by_cases hlen' : args'.length = args''.length
      · simp [mergePayload, hlen, hlen', hj.zipWith_assoc hp.1 hq.1 hr.1,
          hj.assoc _ _ _ hp.2 hq.2 hr.2]
      · simp [mergePayload, hlen, hlen']
    · by_cases hlen' : args'.length = args''.length
      · simp [mergePayload, hlen', hlen' ▸ hlen]
      · simp [mergePayload, hlen, hlen']
  | object d s e s' =>
    cases r <;> simp [tag] at hrq
    case object f s'' =>
    simp only [mergePayload_object, Option.bind_some, DeclSet.union_assoc]
    have hshape : mergeShape join (mergeShape join s s') s'' =
        mergeShape join s (mergeShape join s' s'') := by
      refine shape_ext (mergePayload_proper (mergePayload_proper hpp (mergePayload_object d e s s'))
          (mergePayload_object _ f _ s''))
        (mergePayload_proper hpp (mergePayload_object d (e.union f) s _)) ?_
      intro name
      simp only [fieldOf_mergeShape]
      exact hj.map₂_assoc (within_field hp name) (within_field hq name) (within_field hr name)
    rw [hshape]
  | enum d v e w =>
    cases r <;> simp [tag] at hrq
    rw [mergePayload_enum, mergePayload_enum, enumPayload?_bind_left, enumPayload?_bind_right,
      agreed_assoc, hj.map₂_assoc (within_value hp) (within_value hq) (within_value hr)]
  | module d e | function d e | cls d e | synonym d e =>
    cases r <;> simp [tag] at hrq
    simp only [mergePayload, Option.bind_some, DeclSet.union_assoc]

end JoinOn

/-! ### Slots -/

namespace Slot

variable {C : Ty → Prop} {join : Ty → Ty → Ty} {tag : Tag} {s t u : Slot}

/-- What a slot of the tag holds is proper and has components that satisfy `C`. -/
def Fits (C : Ty → Prop) (tag : Tag) (s : Slot) : Prop :=
  ∀ p, s = holds p → p.tag = tag ∧ Over C p ∧ p.Proper

theorem union_comm (hj : JoinOn C join) (hs : s.Fits C tag) (ht : t.Fits C tag) :
    union join s t = union join t s := by
  match s, t with
  | holds p, holds q =>
    obtain ⟨hptag, hp, hpp⟩ := hs p rfl
    obtain ⟨hqtag, hq, hqp⟩ := ht q rfl
    simp only [union, hj.mergePayload_comm (hqtag.trans hptag.symm) hp hq hpp hqp]
  | absent, _ | _, absent => simp
  | bare, bare | bare, holds _ | holds _, bare => rfl

/-- The slot of a merged payload. -/
private theorem union_holds (p q : Payload Ty) :
    union join (holds p) (holds q) = (mergePayload join p q).elim bare holds := by
  simp only [union]
  cases mergePayload join p q <;> rfl

private theorem elim_union (v : Option (Payload Ty)) (q : Payload Ty) :
    union join (v.elim bare holds) (holds q) =
      (v.bind fun p => mergePayload join p q).elim bare holds := by
  cases v with
  | none => rfl
  | some p => exact union_holds p q

private theorem union_elim (p : Payload Ty) (v : Option (Payload Ty)) :
    union join (holds p) (v.elim bare holds) =
      (v.bind fun q => mergePayload join p q).elim bare holds := by
  cases v with
  | none => rfl
  | some q => exact union_holds p q

@[simp] private theorem bare_union_holds (p : Payload Ty) : union join bare (holds p) = bare := rfl

@[simp] private theorem holds_union_bare (p : Payload Ty) : union join (holds p) bare = bare := rfl

@[simp] private theorem bare_union_bare : union join bare bare = bare := rfl

theorem union_assoc (hj : JoinOn C join) (hs : s.Fits C tag) (ht : t.Fits C tag)
    (hu : u.Fits C tag) : union join (union join s t) u = union join s (union join t u) := by
  match s, t, u with
  | holds p, holds q, holds r =>
    obtain ⟨hptag, hp, hpp⟩ := hs p rfl
    obtain ⟨hqtag, hq, -⟩ := ht q rfl
    obtain ⟨hrtag, hr, -⟩ := hu r rfl
    rw [union_holds, union_holds, elim_union, union_elim,
      hj.mergePayload_assoc (hqtag.trans hptag.symm) (hrtag.trans hqtag.symm) hp hq hr hpp]
  | absent, _, _ | _, absent, _ | _, _, absent => simp
  | bare, bare, bare | bare, bare, holds _ | bare, holds _, bare | holds _, bare, bare
  | holds _, bare, holds _ => simp
  | bare, holds p, holds q | holds p, holds q, bare =>
    rw [union_holds]
    cases mergePayload join p q <;> rfl

theorem union_self (hj : JoinOn C join) (hs : s.Fits C tag) : union join s s = s := by
  match s with
  | absent | bare => rfl
  | holds p =>
    obtain ⟨-, hp, hpp⟩ := hs p rfl
    simp only [union, hj.mergePayload_self hp hpp]

end Slot

/-! ### Types -/

section

variable {C : Ty → Prop} {a b c : Ty}

/-- The slots of a well-formed type hold what its components allow. -/
theorem WellFormed.slot_fits (ha : a.WellFormed) (hover : ∀ p ∈ a.data, Over C p) (tag : Tag) :
    (a.slot tag).Fits C tag := by
  intro p hp
  obtain ⟨-, hp⟩ := slot_eq_holds_iff.mp hp
  exact ⟨payload?_tag hp, hover p (payload?_mem hp), ha.canonical.proper p (payload?_mem hp)⟩

/-- The laws for the components of well-formed types give the laws for these types. -/
theorem JoinOn.level (hj : JoinOn C union) {D : Ty → Prop} (hnever : D never)
    (hclosed : ∀ a b, D a → D b → D (a.union b)) (hwf : ∀ t, D t → t.WellFormed)
    (hover : ∀ t, D t → ∀ p ∈ t.data, Over C p) : JoinOn D union where
  never_mem := hnever
  closed := hclosed
  comm a b ha hb := by
    refine Canonical.ext_slot (hwf _ (hclosed a b ha hb)).canonical
      (hwf _ (hclosed b a hb ha)).canonical ?_
    intro tag
    rw [slot_union (hwf a ha).canonical (hwf b hb).canonical,
      slot_union (hwf b hb).canonical (hwf a ha).canonical, union_comm,
      Slot.union_comm hj ((hwf a ha).slot_fits (hover a ha) tag)
        ((hwf b hb).slot_fits (hover b hb) tag)]
  assoc a b c ha hb hc := by
    have hab := hclosed a b ha hb
    have hbc := hclosed b c hb hc
    refine Canonical.ext_slot (hwf _ (hclosed _ c hab hc)).canonical
      (hwf _ (hclosed a _ ha hbc)).canonical ?_
    intro tag
    have hassoc := Slot.union_assoc hj ((hwf a ha).slot_fits (hover a ha) tag)
      ((hwf b hb).slot_fits (hover b hb) tag) ((hwf c hc).slot_fits (hover c hc) tag)
    rw [slot_union (hwf _ hab).canonical (hwf c hc).canonical,
      slot_union (hwf a ha).canonical (hwf _ hbc).canonical,
      slot_union (hwf a ha).canonical (hwf b hb).canonical,
      slot_union (hwf b hb).canonical (hwf c hc).canonical, union_tags, union_tags,
      ← union_assoc]
    by_cases hmany : (a.tags ∪ b.tags ∪ c.tags).ManyValues ∧ tag ∈ valueTypes
    · -- Literals are dropped in the end, so it does not matter whether they were before.
      have hleft (p : Prop) [Decidable p] (s t : Slot) :
          (Slot.union Ty.union (if p then s.flattened else s) t).flattened =
            (Slot.union Ty.union s t).flattened := by
        split
        · exact Slot.flattened_union_flattened_left ..
        · rfl
      have hright (p : Prop) [Decidable p] (s t : Slot) :
          (Slot.union Ty.union s (if p then t.flattened else t)).flattened =
            (Slot.union Ty.union s t).flattened := by
        split
        · exact Slot.flattened_union_flattened_right ..
        · rfl
      rw [if_pos hmany, if_pos hmany, hleft, hright, hassoc]
    · have hab' : ¬((a.tags ∪ b.tags).ManyValues ∧ tag ∈ valueTypes) :=
        fun h => hmany ⟨h.1.mono fun _ => by simp; grind, h.2⟩
      have hbc' : ¬((b.tags ∪ c.tags).ManyValues ∧ tag ∈ valueTypes) :=
        fun h => hmany ⟨h.1.mono fun _ => by simp; grind, h.2⟩
      rw [if_neg hmany, if_neg hmany, if_neg hab', if_neg hbc', hassoc]
  self a ha := by
    apply Canonical.ext_slot (hwf _ (hclosed a a ha ha)).canonical (hwf a ha).canonical
    intro tag
    rw [slot_union (hwf a ha).canonical (hwf a ha).canonical, union_self,
      Slot.union_self hj ((hwf a ha).slot_fits (hover a ha) tag)]
    split
    · next hmany => exact (hwf a ha).canonical.slot_flattened hmany.1 hmany.2
    · rfl

/-- The union of well-formed types satisfies the laws of a join. -/
theorem joinOn_wellFormed : JoinOn WellFormed union := by
  -- The laws hold of types of bounded depth, by induction on the bound.
  have hbounded : ∀ n, JoinOn (fun t => t.WellFormed ∧ t.depth ≤ n) union := by
    have hstep {C : Ty → Prop} (hj : JoinOn C union) (n : Nat)
        (hover : ∀ t : Ty, t.WellFormed → t.depth ≤ n → ∀ p ∈ t.data, Over C p) :
        JoinOn (fun t => t.WellFormed ∧ t.depth ≤ n) union :=
      hj.level ⟨.ofTags _, Nat.zero_le n⟩
        (fun a b ha hb => ⟨ha.1.union hb.1, depth_union_le ha.2 hb.2⟩) (fun t ht => ht.1)
        fun t ht => hover t ht.1 ht.2
    intro n
    induction n with
    | zero =>
      have hnever : JoinOn (· = never) union :=
        ⟨rfl, by rintro _ _ rfl rfl; rfl, by rintro _ _ rfl rfl; rfl,
          by rintro _ _ _ rfl rfl rfl; rfl, by rintro _ rfl; rfl⟩
      apply hstep hnever 0
      intro t _ hdepth p hp c hc
      have := depth_lt_of_mem_components hp hc
      omega
    | succ n ih =>
      apply hstep ih (n + 1)
      intro t ht hdepth p hp c hc
      exact ⟨(ht.payload hp).nested c hc, depth_le_succ_iff.mp hdepth p hp c hc⟩
  refine ⟨.ofTags _, fun a b ha hb => ha.union hb, ?_, ?_, ?_⟩
  · intro a b ha hb
    exact (hbounded (max a.depth b.depth)).comm a b ⟨ha, by omega⟩ ⟨hb, by omega⟩
  · intro a b c ha hb hc
    exact (hbounded (max a.depth (max b.depth c.depth))).assoc a b c ⟨ha, by omega⟩ ⟨hb, by omega⟩
      ⟨hc, by omega⟩
  · intro a ha
    exact (hbounded a.depth).self a ⟨ha, le_rfl⟩

theorem WellFormed.union_comm (ha : a.WellFormed) (hb : b.WellFormed) : a.union b = b.union a :=
  joinOn_wellFormed.comm a b ha hb

theorem WellFormed.union_assoc (ha : a.WellFormed) (hb : b.WellFormed) (hc : c.WellFormed) :
    (a.union b).union c = a.union (b.union c) := joinOn_wellFormed.assoc a b c ha hb hc

theorem WellFormed.union_self (ha : a.WellFormed) : a.union a = a := joinOn_wellFormed.self a ha

/-! ### The order of the union -/

/-- Everything that `a` describes is described by `b`. -/
def Below (a b : Ty) : Prop := a.union b = b

theorem Below.refl (ha : a.WellFormed) : a.Below a := ha.union_self

/-- Well-formed types are ordered by what they say. -/
theorem Below.trans (ha : a.WellFormed) (hb : b.WellFormed) (hc : c.WellFormed) (hab : a.Below b)
    (hbc : b.Below c) : a.Below c := by
  calc a.union c = a.union (b.union c) := by rw [hbc]
    _ = (a.union b).union c := (ha.union_assoc hb hc).symm
    _ = c := by rw [hab, hbc]

theorem Below.mem {tag : Tag} (h : a.Below b) (htag : tag ∈ a.tags) : tag ∈ b.tags := by
  rw [← h, union_tags, mem_union]
  exact .inl htag

/-- Both sides lie below their union. -/
theorem below_union_left (ha : a.WellFormed) (hb : b.WellFormed) : a.Below (a.union b) := by
  rw [Below, ← ha.union_assoc ha hb, ha.union_self]

theorem below_union_right (ha : a.WellFormed) (hb : b.WellFormed) : b.Below (a.union b) := by
  rw [ha.union_comm hb]
  exact below_union_left hb ha

end

end Ty

end TypeFlow
