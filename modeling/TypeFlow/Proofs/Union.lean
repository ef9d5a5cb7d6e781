import Mathlib.Data.Option.NAry
import TypeFlow.Proofs.Formed

/-!
# Unions without a bound on nesting

The union of two types is computed with a bound on nesting that always suffices, so it satisfies the
equation of one level with itself for the components. Its tags and payloads are then given slot by
slot, and it keeps types formed.
-/

namespace TypeFlow

open List Option Payload

/-- Two payloads of one tag. -/
inductive Payload.Alike : Payload Ty → Payload Ty → Prop
  | value {p q : Payload Ty} (hp : p.isValue) (htag : q.tag = p.tag) : Alike p q
  | array {p q : Payload Ty} (hp : p.tag = .array) (hq : q.tag = .array) : Alike p q
  | dictionary (k v k' v' : Ty) : Alike (.dictionary k v) (.dictionary k' v')
  | method (args : List Ty) (r : Ty) (args' : List Ty) (r' : Ty) :
      Alike (.method args r) (.method args' r')
  | module (d e : DeclSet) : Alike (.module d) (.module e)
  | function (d e : DeclSet) : Alike (.function d) (.function e)
  | cls (d e : DeclSet) : Alike (.cls d) (.cls e)
  | synonym (d e : DeclSet) : Alike (.synonym d) (.synonym e)
  | object (d : DeclSet) (s : Option (List (String × Ty))) (e : DeclSet)
      (s' : Option (List (String × Ty))) : Alike (.object d s) (.object e s')
  | enum (d : Option DeclId) (v : Option Ty) (e : Option DeclId) (w : Option Ty) :
      Alike (.enum d v) (.enum e w)

/-- Payloads of the same tag fall into one of the listed pairs. -/
theorem Payload.alike {p q : Payload Ty} (htag : q.tag = p.tag) : Alike p q := by
  cases p with
  | elements t | tuple ts => exact .array rfl htag
  | dictionary k v => cases q <;> first | exact .dictionary .. | simp [tag] at htag
  | method args r => cases q <;> first | exact .method .. | simp [tag] at htag
  | module d => cases q <;> first | exact .module .. | simp [tag] at htag
  | function d => cases q <;> first | exact .function .. | simp [tag] at htag
  | cls d => cases q <;> first | exact .cls .. | simp [tag] at htag
  | synonym d => cases q <;> first | exact .synonym .. | simp [tag] at htag
  | object d s => cases q <;> first | exact .object .. | simp [tag] at htag
  | enum d v => cases q <;> first | exact .enum .. | simp [tag] at htag
  | _ => exact .value (by simp [isValue, tag, Tags.contains_valueTypes]) htag

/-- What two sides agree on. -/
def agreed {β : Type} [DecidableEq β] (x y : Option β) : Option β := if x = y then x else none

namespace Ty

variable {join join' : Ty → Ty → Ty} {p q r : Payload Ty} {C : Ty → Prop}
  {fs gs fields : List (String × Ty)}

/-! ### Merged payloads -/

/-- Literals are kept when they are equal. -/
theorem mergePayload_value (hp : p.isValue) :
    mergePayload join p q = if p = q then some p else none := by
  cases p <;> first
    | rfl
    | simp [isValue, tag, Tags.contains_valueTypes] at hp

/-- Arrays of one length are merged slot by slot, others by all their elements. -/
def mergeArray (join : Ty → Ty → Ty) (p q : Payload Ty) : Payload Ty :=
  match p, q with
  | .tuple ts, .tuple us =>
    if ts.length = us.length then .tuple (zipWith join ts us)
    else .elements (join (elementUnionWith join p) (elementUnionWith join q))
  | _, _ => .elements (join (elementUnionWith join p) (elementUnionWith join q))

theorem mergePayload_array (hp : p.tag = .array) (hq : q.tag = .array) :
    mergePayload join p q = some (mergeArray join p q) := by
  cases p <;> simp [tag] at hp <;> cases q <;> simp [tag] at hq
  case tuple.tuple ts us => simp only [mergePayload, mergeArray]; split <;> rfl
  all_goals rfl

/-- The fields that two shapes have in common. -/
def mergeShape (join : Ty → Ty → Ty) :
    Option (List (String × Ty)) → Option (List (String × Ty)) → Option (List (String × Ty))
  | some fs, some gs => commonFields join fs gs
  | _, _ => none

theorem mergePayload_object (d e : DeclSet) (s s' : Option (List (String × Ty))) :
    mergePayload join (.object d s) (.object e s') =
      some (.object (d.union e) (mergeShape join s s')) := by
  cases s <;> cases s' <;> rfl

/-- Members of an enum, unless nothing is known about them. -/
def enumPayload? (d : Option DeclId) (v : Option Ty) : Option (Payload Ty) :=
  if d.isNone && v.isNone then none else some (.enum d v)

theorem mergePayload_enum (d e : Option DeclId) (v w : Option Ty) :
    mergePayload join (.enum d v) (.enum e w) = enumPayload? (agreed d e) (.map₂ join v w) := by
  cases v <;> cases w <;> rfl

/-- What two payloads have in common: equal literals, arrays slot by slot or by all their elements,
containers component by component, and the declarations of both. -/
inductive Merges (join : Ty → Ty → Ty) : Payload Ty → Payload Ty → Payload Ty → Prop
  | value {p : Payload Ty} (hp : p.isValue) : Merges join p p p
  | tuple {ts us : List Ty} (hlength : ts.length = us.length) :
      Merges join (.tuple ts) (.tuple us) (.tuple (zipWith join ts us))
  | elements {p q : Payload Ty} (hp : p.tag = .array) (hq : q.tag = .array) :
      Merges join p q (.elements (join (elementUnionWith join p) (elementUnionWith join q)))
  | dictionary (k v k' v' : Ty) :
      Merges join (.dictionary k v) (.dictionary k' v') (.dictionary (join k k') (join v v'))
  | method {args args' : List Ty} (r r' : Ty) (hlength : args.length = args'.length) :
      Merges join (.method args r) (.method args' r')
        (.method (zipWith join args args') (join r r'))
  | module (d e : DeclSet) : Merges join (.module d) (.module e) (.module (d.union e))
  | function (d e : DeclSet) : Merges join (.function d) (.function e) (.function (d.union e))
  | cls (d e : DeclSet) : Merges join (.cls d) (.cls e) (.cls (d.union e))
  | synonym (d e : DeclSet) : Merges join (.synonym d) (.synonym e) (.synonym (d.union e))
  | object (d : DeclSet) (s : Option (List (String × Ty))) (e : DeclSet)
      (s' : Option (List (String × Ty))) :
      Merges join (.object d s) (.object e s') (.object (d.union e) (mergeShape join s s'))
  | enum {d e : Option DeclId} {v w : Option Ty}
      (hsome : agreed d e ≠ none ∨ .map₂ join v w ≠ none) :
      Merges join (.enum d v) (.enum e w) (.enum (agreed d e) (.map₂ join v w))

theorem merges_of_mergePayload (h : mergePayload join p q = some r) : Merges join p q r := by
  have htag : q.tag = p.tag := by
    unfold mergePayload at h
    split at h <;> grind [tag]
  cases alike htag with
  | value hvalue =>
    rw [mergePayload_value hvalue] at h
    split at h
    · next heq => exact some.inj h ▸ heq ▸ .value hvalue
    · simp at h
  | array hp hq =>
    rw [mergePayload_array hp hq] at h
    cases h
    unfold mergeArray
    split
    · split
      · next hlength => exact .tuple hlength
      · exact .elements rfl rfl
    · exact .elements hp hq
  | method args r args' r' =>
    simp only [mergePayload] at h
    split at h
    · next hlength => exact some.inj h ▸ .method r r' hlength
    · simp at h
  | object d s e s' =>
    rw [mergePayload_object] at h
    exact some.inj h ▸ .object ..
  | enum d v e w =>
    rw [mergePayload_enum, enumPayload?] at h
    split at h
    · simp at h
    · next hsome => exact some.inj h ▸ .enum (by simpa [imp_iff_not_or] using hsome)
  | _ =>
    cases h
    constructor

/-- A common payload has the tag of both payloads. -/
theorem mergePayload_tag (h : mergePayload join p q = some r) : r.tag = p.tag ∧ r.tag = q.tag := by
  cases merges_of_mergePayload h with
  | elements hp hq => exact ⟨hp.symm, hq.symm⟩
  | _ => exact ⟨rfl, rfl⟩

/-- What the join of components keeps holds of all that an array may hold. -/
theorem elementUnionWith_closed (hnever : C never) (hjoin : ∀ a b, C a → C b → C (join a b))
    (hp : ∀ c ∈ p.components, C c) : C (elementUnionWith join p) := by
  cases p with
  | elements t => exact hp t (mem_singleton_self t)
  | tuple ts => exact foldlRecOn ts join hnever fun acc hacc t ht => hjoin acc t hacc (hp t ht)
  | _ => exact hnever

variable {ts us : List Ty}

private theorem zipWith_closed (hjoin : ∀ a b, C a → C b → C (join a b)) (hts : ∀ t ∈ ts, C t)
    (hus : ∀ u ∈ us, C u) : ∀ c ∈ List.zipWith join ts us, C c := by
  rw [← map_uncurry_zip_eq_zipWith, List.forall_mem_map]
  exact fun e he => hjoin _ _ (hts _ (of_mem_zip he).1) (hus _ (of_mem_zip he).2)

/-- Common fields are fields of both sides. -/
theorem mem_of_commonFields {name : String} {c : Ty} (h : commonFields join fs gs = some fields)
    (hc : (name, c) ∈ fields) : ∃ t u, (name, t) ∈ fs ∧ gs.lookup name = some u ∧ c = join t u := by
  simp only [commonFields] at h
  split at h
  · simp at h
  · cases h
    rw [mem_filterMap] at hc
    obtain ⟨⟨m, t⟩, hmem, hlookup⟩ := hc
    rw [map_eq_some_iff] at hlookup
    obtain ⟨u, hu, heq⟩ := hlookup
    cases heq
    exact ⟨t, u, hmem, hu, rfl⟩

theorem exists_of_mergeShape {s s' : Option (List (String × Ty))}
    (h : mergeShape join s s' = some fields) :
    ∃ fs gs, s = some fs ∧ s' = some gs ∧ commonFields join fs gs = some fields := by
  cases s <;> cases s' <;> simp [mergeShape] at h ⊢
  exact h

/-- What the join of components keeps holds of the components of a common payload. -/
theorem mergePayload_components (hnever : C never) (hjoin : ∀ a b, C a → C b → C (join a b))
    (hp : ∀ c ∈ p.components, C c) (hq : ∀ c ∈ q.components, C c)
    (h : mergePayload join p q = some r) : ∀ c ∈ r.components, C c := by
  cases merges_of_mergePayload h with
  | value => exact hp
  | tuple => exact zipWith_closed hjoin hp hq
  | elements =>
    rw [components_elements, forall_mem_singleton]
    exact hjoin _ _ (elementUnionWith_closed hnever hjoin hp)
      (elementUnionWith_closed hnever hjoin hq)
  | dictionary k v k' v' =>
    simp only [components, forall_mem_cons] at hp hq ⊢
    exact ⟨hjoin _ _ hp.1 hq.1, hjoin _ _ hp.2.1 hq.2.1, by simp⟩
  | method r r' =>
    simp only [components, forall_mem_append, forall_mem_singleton] at hp hq ⊢
    exact ⟨zipWith_closed hjoin hp.1 hq.1, hjoin _ _ hp.2 hq.2⟩
  | object d s e s' =>
    cases hshape : mergeShape join s s' with
    | none => simp [components]
    | some fields =>
      obtain ⟨fs, gs, rfl, rfl, hfields⟩ := exists_of_mergeShape hshape
      simp only [components, List.forall_mem_map] at hp hq ⊢
      rintro ⟨name, c⟩ hc
      obtain ⟨t, u, ht, hu, rfl⟩ := mem_of_commonFields hfields hc
      exact hjoin t u (hp _ ht) (hq _ (mem_of_lookup hu))
  | enum =>
    intro c hc
    rw [components_enum, mem_toList] at hc
    obtain ⟨v, w, hv, hw, rfl⟩ := map₂_eq_some_iff.mp hc
    exact hjoin v w (hp v (by simpa using hv)) (hq w (by simpa using hw))
  | _ => simp [components]

section

variable {C : Ty → Prop}

/-- Joins that agree where it matters give the same elements. -/
theorem elementUnionWith_congr (hnever : C never) (hjoin : ∀ a b, C a → C b → C (join a b))
    (hagree : ∀ a b, C a → C b → join a b = join' a b) (hp : ∀ c ∈ p.components, C c) :
    elementUnionWith join p = elementUnionWith join' p := by
  cases p with
  | tuple ts =>
    have hfold : ∀ (us : List Ty) (acc : Ty), C acc → (∀ u ∈ us, C u) →
        us.foldl join acc = us.foldl join' acc := by
      intro us
      induction us with
      | nil => exact fun _ _ _ => rfl
      | cons u us ih =>
        intro acc hacc hus
        rw [forall_mem_cons] at hus
        rw [foldl_cons, foldl_cons, ← hagree acc u hacc hus.1]
        exact ih (join acc u) (hjoin acc u hacc hus.1) hus.2
    exact hfold ts never hnever hp
  | _ => rfl

theorem zipWith_congr (hagree : ∀ a b, C a → C b → join a b = join' a b) (hts : ∀ t ∈ ts, C t)
    (hus : ∀ u ∈ us, C u) : zipWith join ts us = zipWith join' ts us := by
  rw [← map_uncurry_zip_eq_zipWith, ← map_uncurry_zip_eq_zipWith]
  refine map_congr_left fun e he => ?_
  exact hagree _ _ (hts _ (of_mem_zip he).1) (hus _ (of_mem_zip he).2)

theorem commonFields_eq (join : Ty → Ty → Ty) (fs gs : List (String × Ty)) :
    commonFields join fs gs =
      let fields := fs.filterMap fun e => (gs.lookup e.1).map fun u => (e.1, join e.2 u)
      if fields.isEmpty then none else some fields := rfl

private theorem commonFields_congr (hagree : ∀ a b, C a → C b → join a b = join' a b)
    (hfs : ∀ t ∈ fs.map Prod.snd, C t) (hgs : ∀ t ∈ gs.map Prod.snd, C t) :
    commonFields join fs gs = commonFields join' fs gs := by
  have hfields : (fs.filterMap fun e => (gs.lookup e.1).map fun u => (e.1, join e.2 u)) =
      fs.filterMap fun e => (gs.lookup e.1).map fun u => (e.1, join' e.2 u) := by
    apply filterMap_congr
    rintro ⟨name, t⟩ ht
    apply Option.map_congr
    intro u hu
    have hu := mem_map_of_mem (f := Prod.snd) (mem_of_lookup hu)
    rw [hagree t u (hfs t (mem_map_of_mem ht)) (hgs u hu)]
  rw [commonFields_eq, commonFields_eq, hfields]

/-- Joins that agree where it matters give the same common payload. -/
theorem mergePayload_congr (hnever : C never) (hjoin : ∀ a b, C a → C b → C (join a b))
    (hagree : ∀ a b, C a → C b → join a b = join' a b) (hp : ∀ c ∈ p.components, C c)
    (hq : ∀ c ∈ q.components, C c) : mergePayload join p q = mergePayload join' p q := by
  by_cases htag : q.tag = p.tag
  · cases alike htag with
    | value hvalue => rw [mergePayload_value hvalue, mergePayload_value hvalue]
    | array hptag hqtag =>
      rw [mergePayload_array hptag hqtag, mergePayload_array hptag hqtag]
      have hall : join (elementUnionWith join p) (elementUnionWith join q) =
          join' (elementUnionWith join' p) (elementUnionWith join' q) := by
        rw [← elementUnionWith_congr hnever hjoin hagree hp,
          ← elementUnionWith_congr hnever hjoin hagree hq]
        exact hagree _ _ (elementUnionWith_closed hnever hjoin hp)
          (elementUnionWith_closed hnever hjoin hq)
      unfold mergeArray
      split
      · simp only [components] at hp hq
        rw [zipWith_congr hagree hp hq, hall]
      · rw [hall]
    | dictionary k v k' v' =>
      simp only [components, forall_mem_cons] at hp hq
      simp only [mergePayload, hagree k k' hp.1 hq.1, hagree v v' hp.2.1 hq.2.1]
    | method args r args' r' =>
      simp only [components, forall_mem_append, forall_mem_singleton] at hp hq
      simp only [mergePayload, zipWith_congr hagree hp.1 hq.1, hagree r r' hp.2 hq.2]
    | object d s e s' =>
      rw [mergePayload_object, mergePayload_object]
      cases s with
      | none => rfl
      | some fs =>
        cases s' with
        | none => rfl
        | some gs => simp only [mergeShape, commonFields_congr hagree hp hq]
    | enum d v e w =>
      rw [mergePayload_enum, mergePayload_enum]
      cases v with
      | none => rfl
      | some v =>
        cases w with
        | none => rfl
        | some w =>
          simp only [components, forall_mem_singleton] at hp hq
          have hvalue : map₂ join (some v) (some w) = map₂ join' (some v) (some w) :=
            congrArg some (hagree v w hp hq)
          rw [hvalue]
    | _ => rfl
  · have hnone (f : Ty → Ty → Ty) : mergePayload f p q = none :=
      eq_none_iff_forall_ne_some.mpr fun r hr =>
        htag ((mergePayload_tag hr).2.symm.trans (mergePayload_tag hr).1)
    rw [hnone, hnone]

end

/-- Payloads without components have a common payload without components. -/
theorem mergePayload_isNested (hp : p.isNested = false) (h : mergePayload join p q = some r) :
    r.isNested = false := by
  cases merges_of_mergePayload h with
  | value => exact hp
  | elements hptag => cases p <;> simp [tag, isNested] at hptag hp
  | tuple | dictionary | method => simp [isNested] at hp
  | object d s =>
    obtain rfl : s = none := by cases s <;> simp [isNested] at hp ⊢
    rfl
  | @enum d e v =>
    obtain rfl : v = none := by cases v <;> simp [isNested] at hp ⊢
    rfl
  | _ => rfl

/-- A common payload names declarations that one of the payloads names. -/
theorem mergePayload_decls {ds : DeclSet} (h : mergePayload join p q = some r)
    (hr : r.decls? = some ds) {d : DeclId} (hd : d ∈ ds.ids) :
    (∃ es, p.decls? = some es ∧ d ∈ es.ids) ∨ ∃ es, q.decls? = some es ∧ d ∈ es.ids := by
  have hunion {es es' : DeclSet} (heq : es.union es' = ds) : d ∈ es.ids ∨ d ∈ es'.ids := by
    subst heq
    exact DeclSet.mem_union.mp hd
  cases merges_of_mergePayload h with
  | value => exact .inl ⟨ds, hr, hd⟩
  | module | function | cls | synonym | object =>
    exact (hunion (some.inj hr)).imp (fun h => ⟨_, rfl, h⟩) fun h => ⟨_, rfl, h⟩
  | _ => simp [decls?] at hr

/-- The common fields of ascending fields ascend and are not empty. -/
theorem commonFields_ascending (hfs : AscendingKeys fs)
    (h : commonFields join fs gs = some fields) :
    fields ≠ [] ∧ AscendingKeys fields := by
  simp only [commonFields] at h
  split at h
  · simp at h
  · next hne =>
    cases h
    refine ⟨by simpa using hne, pairwise_filterMap.mpr (hfs.imp ?_)⟩
    rintro ⟨m, t⟩ ⟨n, u⟩ hlt a ha b hb
    obtain ⟨_, -, rfl⟩ := map_eq_some_iff.mp ha
    obtain ⟨_, -, rfl⟩ := map_eq_some_iff.mp hb
    exact hlt

/-- Proper payloads have a proper common payload. -/
theorem mergePayload_proper (hp : p.Proper) (h : mergePayload join p q = some r) : r.Proper := by
  cases merges_of_mergePayload h with
  | value => exact hp
  | object d s e s' =>
    cases hshape : mergeShape join s s' with
    | none => trivial
    | some fields =>
      obtain ⟨fs, gs, rfl, rfl, hfields⟩ := exists_of_mergeShape hshape
      exact commonFields_ascending hp.2 hfields
  | @enum d e v w hsome =>
    cases hd : agreed d e <;> cases hv : map₂ join v w <;>
      simp [Proper, hd, hv] at hsome ⊢
  | _ => trivial

/-! ### One level of the union -/

variable {a b : Ty}

/-- The payload that a union chooses for a tag. -/
def unionPayload (join : Ty → Ty → Ty) (a b : Ty) (tag : Tag) : Option (Payload Ty) :=
  match a.payload? tag, b.payload? tag with
  | some p, some q => mergePayload join p q
  | some p, none => if b.tags.contains tag then none else some p
  | none, some q => if a.tags.contains tag then none else some q
  | none, none => none

theorem unionStep_of_inhabited (ha : a.isNever = false) (hb : b.isNever = false) :
    unionStep join a b = ofParts (a.tags ∪ b.tags)
      (((a.tags ∪ b.tags) ∩ .data).toList.filterMap (unionPayload join a b)) := by
  rw [unionStep, if_neg (by simp [hb]), if_neg (by simp [ha])]
  rfl

variable {tag : Tag}

/-- A payload of a union comes from one side or is common to both. -/
theorem unionPayload_eq_some (h : unionPayload join a b tag = some r) :
    r.tag = tag ∧ (r ∈ a.data ∨ r ∈ b.data ∨
      ∃ p ∈ a.data, ∃ q ∈ b.data, mergePayload join p q = some r) := by
  unfold unionPayload at h
  split at h
  · next p q hp hq =>
    exact ⟨(mergePayload_tag h).1.trans (payload?_tag hp),
      .inr (.inr ⟨p, payload?_mem hp, q, payload?_mem hq, h⟩)⟩
  · next p hp _ =>
    split at h
    · simp at h
    · cases h
      exact ⟨payload?_tag hp, .inl (payload?_mem hp)⟩
  · next q _ hq =>
    split at h
    · simp at h
    · cases h
      exact ⟨payload?_tag hq, .inr (.inl (payload?_mem hq))⟩
  · simp at h

theorem unionPayload_tagged (join : Ty → Ty → Ty) (a b : Ty) : Tagged (unionPayload join a b) :=
  fun _ _ h => (unionPayload_eq_some h).1

/-- The payloads of a union come from one side or are common to both. -/
theorem mem_unionStep_data (h : r ∈ (unionStep join a b).data) :
    r ∈ a.data ∨ r ∈ b.data ∨ ∃ p ∈ a.data, ∃ q ∈ b.data, mergePayload join p q = some r := by
  unfold unionStep at h
  split at h
  · exact .inl h
  · split at h
    · exact .inr (.inl h)
    · obtain ⟨tag, -, hr⟩ := mem_filterMap.mp (mem_ofParts_data.mp h).1
      exact (unionPayload_eq_some hr).2

/-- What the join of components keeps holds of the components of a level. -/
theorem unionStep_components (hnever : C never) (hjoin : ∀ a b, C a → C b → C (join a b))
    (ha : ∀ p ∈ a.data, ∀ c ∈ p.components, C c) (hb : ∀ p ∈ b.data, ∀ c ∈ p.components, C c) :
    ∀ p ∈ (unionStep join a b).data, ∀ c ∈ p.components, C c := by
  intro r hr
  rcases mem_unionStep_data hr with hr | hr | ⟨p, hp, q, hq, hr⟩
  · exact ha r hr
  · exact hb r hr
  · exact mergePayload_components hnever hjoin (ha p hp) (hb q hq) hr

/-- Joins that agree where it matters give the same level. -/
theorem unionStep_congr (hnever : C never) (hjoin : ∀ a b, C a → C b → C (join a b))
    (hagree : ∀ a b, C a → C b → join a b = join' a b) (ha : ∀ p ∈ a.data, ∀ c ∈ p.components, C c)
    (hb : ∀ p ∈ b.data, ∀ c ∈ p.components, C c) : unionStep join a b = unionStep join' a b := by
  have hpayload : unionPayload join a b = unionPayload join' a b := by
    funext tag
    unfold unionPayload
    split
    · next p q hp hq =>
      exact mergePayload_congr hnever hjoin hagree (ha p (payload?_mem hp)) (hb q (payload?_mem hq))
    all_goals rfl
  cases hna : a.isNever <;> cases hnb : b.isNever
  · rw [unionStep_of_inhabited hna hnb, unionStep_of_inhabited hna hnb, hpayload]
  all_goals simp [unionStep, hna, hnb]

/-! ### The bound on nesting -/

/-- A level is not nested more deeply than its sides when the join of components is not. -/
theorem depth_unionStep_le {m : Nat}
    (hjoin : ∀ k a b, a.depth ≤ k → b.depth ≤ k → (join a b).depth ≤ k)
    (ha : a.depth ≤ m) (hb : b.depth ≤ m) : (unionStep join a b).depth ≤ m := by
  cases m with
  | zero =>
    rw [Nat.le_zero, depth_eq_zero_iff] at ha hb ⊢
    intro r hr
    rcases mem_unionStep_data hr with hr | hr | ⟨p, hp, q, hq, hr⟩
    · exact ha r hr
    · exact hb r hr
    · exact mergePayload_isNested (ha p hp) hr
  | succ m =>
    rw [depth_le_succ_iff] at ha hb ⊢
    exact unionStep_components (Nat.zero_le m) (hjoin m) ha hb

/-- A union is not nested more deeply than its sides. -/
theorem depth_unionWithin_le (n m : Nat) (a b : Ty) (ha : a.depth ≤ m) (hb : b.depth ≤ m) :
    (unionWithin n a b).depth ≤ m := by
  induction n generalizing a b m with
  | zero => exact depth_unionStep_le (fun _ _ _ ha _ => ha) ha hb
  | succ n ih => exact depth_unionStep_le ih ha hb

variable {n : Nat}

section

variable (ha : a.depth ≤ n) (hb : b.depth ≤ n)

include ha hb

/-- A bound on nesting that suffices may be raised. -/
theorem unionWithin_succ : unionWithin (n + 1) a b = unionWithin n a b := by
  induction n generalizing a b with
  | zero =>
    -- No payload has components, so the join is only ever applied to the empty type.
    have hnone {t : Ty} (ht : t.depth ≤ 0) : ∀ p ∈ t.data, ∀ c ∈ p.components, c = never := by
      intro p hp c hc
      have := depth_lt_of_mem_components hp hc
      omega
    refine unionStep_congr (C := (· = never)) rfl ?_ ?_ (hnone ha) (hnone hb)
    · rintro _ _ rfl rfl
      rfl
    · rintro _ _ rfl rfl
      rfl
  | succ n ih =>
    exact unionStep_congr (Nat.zero_le n) (depth_unionWithin_le _ n)
      (fun _ _ => ih) (depth_le_succ_iff.mp ha) (depth_le_succ_iff.mp hb)

/-- Every bound that suffices gives the union. -/
theorem unionWithin_eq_union : unionWithin n a b = a.union b := by
  have hraise : ∀ k, unionWithin (max a.depth b.depth + k) a b = a.union b := by
    intro k
    induction k with
    | zero => rfl
    | succ k ih =>
      rw [← ih]
      exact unionWithin_succ (n := max a.depth b.depth + k) (by omega) (by omega)
  have hn : max a.depth b.depth + (n - max a.depth b.depth) = n := by omega
  rw [← hn, hraise]

theorem depth_union_le : (a.union b).depth ≤ n := depth_unionWithin_le _ n a b ha hb

end

/-- The union is one level of the union whose components are joined by the union. -/
theorem union_eq_unionStep (a b : Ty) : a.union b = unionStep union a b := by
  obtain ⟨n, ha, hb⟩ : ∃ n, a.depth ≤ n ∧ b.depth ≤ n :=
    ⟨max a.depth b.depth, Nat.le_max_left .., Nat.le_max_right ..⟩
  have hcomponents {t : Ty} (ht : t.depth ≤ n) : ∀ p ∈ t.data, ∀ c ∈ p.components, c.depth ≤ n :=
    fun p hp c hc => (depth_lt_of_mem_components hp hc).le.trans ht
  calc a.union b = unionWithin (n + 1) a b := by
        rw [unionWithin_eq_union (ha.trans n.le_succ) (hb.trans n.le_succ)]
    _ = unionStep union a b :=
        unionStep_congr (Nat.zero_le n) (depth_unionWithin_le n n)
          (fun _ _ => unionWithin_eq_union) (hcomponents ha) (hcomponents hb)

theorem union_of_isNever (h : b.isNever) : a.union b = a := by
  rw [union_eq_unionStep, unionStep, if_pos h]

/-- Joining a type into another one gives their union and tells whether it is another type. -/
theorem unionInto_eq (a b : Ty) : a.unionInto b = (a.union b, decide (a.union b ≠ a)) := by
  unfold unionInto
  split
  · next hb => simp [union_of_isNever hb]
  · next hb =>
    split
    · next ha =>
      have hunion : a.union b = b := by rw [union_eq_unionStep, unionStep, if_neg hb, if_pos ha]
      have hne : b ≠ a := fun heq => hb (heq ▸ ha)
      simp [hunion, hne]
    · dsimp only
      split
      · next heq => simp [heq]
      · next hne => simp [hne]

/-! ### What the union keeps -/

variable {strict : Demands}

/-- A common payload of formed payloads is formed when the join of components is. -/
theorem mergePayload_formed
    (hjoin : ∀ a b, Formed strict a → Formed strict b → Formed strict (join a b))
    (hp : p.Formed strict) (hq : q.Formed strict) (h : mergePayload join p q = some r) :
    r.Formed strict where
  proper hstrict := mergePayload_proper (hp.proper hstrict) h
  methodFree hstrict := (mergePayload_tag h).1 ▸ hp.methodFree hstrict
  decls ds hds d hd := by
    rcases mergePayload_decls h hds hd with ⟨es, hes, hmem⟩ | ⟨es, hes, hmem⟩
    · exact hp.decls es hes d hmem
    · exact hq.decls es hes d hmem
  nested := mergePayload_components (.ofTags _) hjoin hp.nested hq.nested h

/-- What one level keeps when the join of components does is kept by unions. -/
theorem union_closed (hstep : ∀ {join : Ty → Ty → Ty}, (∀ a b, C a → C b → C (join a b)) →
    ∀ a b, C a → C b → C (unionStep join a b)) (ha : C a) (hb : C b) : C (a.union b) := by
  suffices hwithin : ∀ n a b, C a → C b → C (unionWithin n a b) from hwithin _ a b ha hb
  intro n
  induction n with
  | zero => exact hstep fun _ _ ha _ => ha
  | succ n ih => exact hstep ih

/-- The union of formed types is formed. -/
theorem Formed.union (ha : a.Formed strict) (hb : b.Formed strict) : (a.union b).Formed strict := by
  refine union_closed (fun {join} hjoin a b ha hb => ?_) ha hb
  cases hna : a.isNever <;> cases hnb : b.isNever
  · rw [unionStep_of_inhabited hna hnb]
    apply Formed.ofParts (fun _ => (unionPayload_tagged join a b).ordered (Tags.toList_pairwise _))
    intro r hr
    obtain ⟨tag, -, hr⟩ := mem_filterMap.mp hr
    rcases (unionPayload_eq_some hr).2 with hr | hr | ⟨p, hp, q, hq, hr⟩
    · exact ha.payload hr
    · exact hb.payload hr
    · exact mergePayload_formed hjoin (ha.payload hp) (hb.payload hq) hr
  all_goals simp [unionStep, hna, hnb, ha, hb]

/-- The tags of a union are those of both sides. -/
@[simp] theorem union_tags (a b : Ty) : (a.union b).tags = a.tags ∪ b.tags := by
  have hempty {t : Ty} (ht : t.isNever) (tag : Tag) : tag ∉ t.tags := Tags.isEmpty_iff.mp ht tag
  rw [union_eq_unionStep]
  cases hna : a.isNever <;> cases hnb : b.isNever
  · rw [unionStep_of_inhabited hna hnb, ofParts_tags]
  all_goals
    apply Tags.ext_mem
    simp [unionStep]
    grind

/-- The payload of a tag fills its slot. -/
theorem Canonical.slot_eq_holds (ha : a.Canonical) (h : a.payload? tag = some p) :
    a.slot tag = .holds p :=
  slot_eq_holds_iff.mpr ⟨payload?_tag h ▸ ha.tagged p (payload?_mem h), h⟩

/-- The slots of a union of inhabited types, as long as literals are kept. -/
theorem slot_eq_of_unionPayload (ha : a.Canonical) (hb : b.Canonical)
    (htag : tag ∈ a.tags ∪ b.tags) :
    (unionPayload join a b tag).elim .bare .holds = (a.slot tag).union join (b.slot tag) := by
  unfold unionPayload
  split
  · next p q hp hq =>
    rw [ha.slot_eq_holds hp, hb.slot_eq_holds hq, Slot.union]
    cases mergePayload join p q <;> rfl
  · next p hp hq =>
    rw [ha.slot_eq_holds hp]
    by_cases hmem : tag ∈ b.tags
    · simp [slot, hmem, hq, Tags.mem_iff.mp hmem, Slot.union]
    · simp [slot, hmem, mt Tags.mem_iff.mpr hmem]
  · next q hp hq =>
    rw [hb.slot_eq_holds hq]
    by_cases hmem : tag ∈ a.tags
    · simp [slot, hmem, hp, Tags.mem_iff.mp hmem, Slot.union]
    · simp [slot, hmem, mt Tags.mem_iff.mpr hmem]
  · next hp hq =>
    by_cases hmem : tag ∈ a.tags <;> by_cases hmem' : tag ∈ b.tags <;>
      simp [slot, hmem, hmem', hp, hq, Slot.union] at htag ⊢

/-- What the union of two types says about a tag is what both say together, except that literals
are dropped when there are several kinds of them. -/
theorem slot_union (ha : a.Canonical) (hb : b.Canonical) (tag : Tag) : (a.union b).slot tag =
      if (a.tags ∪ b.tags).ManyValues ∧ tag ∈ Tags.valueTypes then
        ((a.slot tag).union Ty.union (b.slot tag)).flattened
      else (a.slot tag).union Ty.union (b.slot tag) := by
  -- An empty side adds nothing, and the other side has no literals to drop.
  have hone {s t : Ty} (tags : Tags) (ht : t.Canonical) (hs : s.isNever)
      (htags : ∀ tag, tag ∈ tags → tag ∈ s.tags ∨ tag ∈ t.tags) :
      s.slot tag = .absent ∧
        (tags.ManyValues ∧ tag ∈ Tags.valueTypes → (t.slot tag).flattened = t.slot tag) := by
    have hempty := Tags.isEmpty_iff.mp hs
    refine ⟨slot_eq_absent_iff.mpr (hempty tag), ?_⟩
    rintro ⟨hmany, hvalue⟩
    refine ht.slot_flattened (hmany.mono ?_) hvalue
    intro tag htag
    exact (htags tag htag).resolve_left (hempty tag)
  rw [union_eq_unionStep]
  by_cases hnb : b.isNever
  · obtain ⟨habsent, hflat⟩ := hone (a.tags ∪ b.tags) ha hnb (by simp [or_comm])
    rw [unionStep, if_pos hnb, habsent, Slot.union_absent]
    split
    · next h => exact (hflat h).symm
    · rfl
  by_cases hna : a.isNever
  · obtain ⟨habsent, hflat⟩ := hone (a.tags ∪ b.tags) hb hna (by simp)
    rw [unionStep, if_neg hnb, if_pos hna, habsent]
    split
    · next h => exact (hflat h).symm
    · rfl
  rw [unionStep_of_inhabited (by simpa using hna) (by simpa using hnb)]
  by_cases htag : tag ∈ a.tags ∪ b.tags
  · rw [← slot_eq_of_unionPayload ha hb htag, slot, ofParts_tags, if_pos htag,
      payload?_ofParts (unionPayload_tagged _ a b)]
    by_cases hdropped : (a.tags ∪ b.tags).ManyValues ∧ tag ∈ Tags.valueTypes
    · rw [if_neg (by simp [hdropped]), if_pos hdropped]
      cases unionPayload union a b tag <;> rfl
    · rw [if_pos ⟨htag, hdropped⟩, if_neg hdropped]
  · have habsent : a.slot tag = .absent ∧ b.slot tag = .absent := by
      rw [slot_eq_absent_iff, slot_eq_absent_iff]
      simpa using htag
    rw [habsent.1, habsent.2]
    simp [slot, htag, Slot.flattened]

end Ty

end TypeFlow
