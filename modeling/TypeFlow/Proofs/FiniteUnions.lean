import Mathlib.Data.List.Sublists
import TypeFlow.Proofs.TypedefExpansion

/-!
# Unions of finitely many types

Taking components, dropping typedefs and expanding them leads from unions of types to unions of
parts of these types and of what the typedefs stand for. A union depends only on which types it is
taken of, so all types that are reached in this way are among finitely many: the unions of the
sublists of one list, whose length is limited by the sizes of the types to begin with.
-/

namespace TypeFlow.Ty

open List Nat Payload Tags

variable {table : DeclTable} {C : Ty → Prop} {S : List Ty} {a b c s t : Ty} {p : Payload Ty}
  {n : Nat}

/-! ### Parts of a type -/

/-- The types that a type consists of, down to a number of levels, itself included. -/
def partsWithin : Nat → Ty → List Ty
  | 0, t => [t]
  | n + 1, t => t :: (t.data.flatMap components).flatMap (partsWithin n)

/-- The types that a type consists of, itself included. -/
def parts (t : Ty) : List Ty := partsWithin t.depth t

theorem sizeList_append (ts us : List Ty) : sizeList (ts ++ us) = sizeList ts + sizeList us := by
  induction ts with
  | nil => simp [sizeList]
  | cons t ts ih => simp [sizeList, ih, add_assoc]

theorem size_le_sizeList {ts : List Ty} (h : t ∈ ts) : t.size ≤ sizeList ts := by
  induction ts with
  | nil => simp at h
  | cons u ts ih =>
    rcases mem_cons.mp h with rfl | h
    · exact Nat.le_add_right ..
    · exact (ih h).trans (Nat.le_add_left ..)

private theorem sizeFields_eq (fields : List (String × Ty)) :
    sizeFields fields = sizeList (fields.map Prod.snd) := by
  induction fields with
  | nil => rfl
  | cons e fields ih => simp [sizeFields, sizeList, ih]

/-- The size of a payload is made up of the sizes of its components. -/
theorem sizePayload_eq (p : Payload Ty) : sizePayload p = 1 + sizeList p.components := by
  cases p with
  | object _ shape =>
    cases shape <;> simp [sizePayload, components, sizeFields_eq, sizeList]
  | enum _ v => cases v <;> simp [sizePayload, sizeList]
  | _ => simp [sizePayload, components, sizeList_append, sizeList, add_assoc]

/-- A type is larger than its components together. -/
theorem sizeList_components_lt (t : Ty) : sizeList (t.data.flatMap components) < t.size := by
  obtain ⟨tags, data⟩ := t
  have hdata : sizeList (data.flatMap components) ≤ sizeData data := by
    induction data with
    | nil => simp [sizeList]
    | cons p data ih =>
      rw [flatMap_cons, sizeList_append, sizeData, sizePayload_eq]
      omega
  rw [size]
  exact lt_one_add_iff.mpr hdata

theorem size_lt_of_mem_components (hp : p ∈ t.data) (hc : c ∈ p.components) : c.size < t.size :=
  (size_le_sizeList (mem_flatMap.mpr ⟨p, hp, hc⟩)).trans_lt (sizeList_components_lt t)

theorem depth_le_size (t : Ty) : t.depth ≤ t.size := by
  induction t using levelInduction with
  | _ t ih =>
  cases hsize : t.size with
  | zero => exact absurd (sizeList_components_lt t) (by omega)
  | succ m =>
    refine depth_le_succ_iff.mpr fun p hp c hc => ?_
    have hdepth := ih p hp c hc
    have hlt := size_lt_of_mem_components hp hc
    omega

private theorem length_flatMap_le {f : Ty → List Ty} (hf : ∀ t, (f t).length ≤ t.size)
    (ts : List Ty) : (ts.flatMap f).length ≤ sizeList ts := by
  induction ts with
  | nil => simp
  | cons t ts ih =>
    have hhead := hf t
    rw [flatMap_cons, length_append, sizeList]
    omega

/-- There are no more parts than the size of a type says. -/
theorem length_partsWithin_le (n : Nat) (t : Ty) : (partsWithin n t).length ≤ t.size := by
  induction n generalizing t with
  | zero => exact one_le_of_lt (sizeList_components_lt t)
  | succ n ih =>
    have hlt := sizeList_components_lt t
    have hle := length_flatMap_le ih (t.data.flatMap components)
    rw [partsWithin, length_cons]
    omega

theorem self_mem_partsWithin (n : Nat) (t : Ty) : t ∈ partsWithin n t := by
  cases n <;> simp [partsWithin]

/-- The components of a part are parts. -/
theorem component_mem_partsWithin (ht : t.depth ≤ n) (hs : s ∈ partsWithin n t) (hp : p ∈ s.data)
    (hc : c ∈ p.components) : c ∈ partsWithin n t := by
  induction n generalizing t with
  | zero =>
    obtain rfl : s = t := mem_singleton.mp hs
    have := depth_lt_of_mem_components hp hc
    omega
  | succ n ih =>
    rw [partsWithin, mem_cons] at hs ⊢
    refine .inr (mem_flatMap.mpr ?_)
    rcases hs with rfl | hs
    · exact ⟨c, mem_flatMap.mpr ⟨p, hp, hc⟩, self_mem_partsWithin n c⟩
    · obtain ⟨c', hc', hs⟩ := mem_flatMap.mp hs
      obtain ⟨p', hp', hcp'⟩ := mem_flatMap.mp hc'
      exact ⟨c', hc', ih (depth_le_succ_iff.mp ht p' hp' c' hcp') hs⟩

/-- What holds of a type and passes to components holds of all parts. -/
theorem forall_partsWithin (hC : ∀ t, C t → ∀ p ∈ t.data, ∀ c ∈ p.components, C c) (ht : C t) :
    ∀ s ∈ partsWithin n t, C s := by
  induction n generalizing t with
  | zero => simpa [partsWithin] using ht
  | succ n ih =>
    rw [partsWithin, forall_mem_cons]
    refine ⟨ht, fun s hs => ?_⟩
    obtain ⟨c, hc, hs⟩ := mem_flatMap.mp hs
    obtain ⟨p, hp, hc⟩ := mem_flatMap.mp hc
    exact ih (hC t ht p hp c hc) s hs

/-! ### Unions of listed types -/

/-- The type is the union of some types of the list. -/
def Spanned (S : List Ty) (t : Ty) : Prop := ∃ ts, (∀ s ∈ ts, s ∈ S) ∧ t = unionAll ts

theorem Spanned.never : Spanned S never := ⟨[], by simp, rfl⟩

theorem Spanned.depth_le (hS : ∀ s ∈ S, s.depth ≤ n) (h : Spanned S t) : t.depth ≤ n := by
  obtain ⟨ts, hts, rfl⟩ := h
  exact foldl_invariant (P := fun t : Ty => t.depth ≤ n)
    (fun acc hacc u hu => depth_union_le hacc (hS u (hts u hu))) (zero_le n)

section

variable (hS : ∀ s ∈ S, s.WellFormed)

include hS

theorem Spanned.wellFormed (h : Spanned S t) : t.WellFormed := by
  obtain ⟨ts, hts, rfl⟩ := h
  exact .unionAll fun u hu => hS u (hts u hu)

theorem Spanned.of_mem (hs : s ∈ S) : Spanned S s :=
  ⟨[s], by simpa using hs, (never_below (hS s hs)).symm⟩

/-- Unions of listed types are closed under unions. -/
theorem Spanned.union (ha : Spanned S a) (hb : Spanned S b) : Spanned S (a.union b) := by
  obtain ⟨ts, hts, rfl⟩ := ha
  obtain ⟨us, hus, rfl⟩ := hb
  refine ⟨ts ++ us, forall_mem_append.mpr ⟨hts, hus⟩, ?_⟩
  exact (unionAll_append (fun u hu => hS u (hts u hu)) fun u hu => hS u (hus u hu)).symm

theorem Spanned.unionAll {ts : List Ty} (hts : ∀ u ∈ ts, Spanned S u) : Spanned S (unionAll ts) :=
  foldl_invariant (fun _ hacc u hu => hacc.union hS (hts u hu)) .never

/-- There are at most as many unions of listed types as there are sublists. -/
theorem Spanned.mem_unions (h : Spanned S t) : t ∈ S.sublists.map .unionAll := by
  obtain ⟨ts, hts, rfl⟩ := h
  refine List.mem_map.mpr ⟨S.filter (· ∈ ts), mem_sublists.mpr filter_sublist, ?_⟩
  refine unionAll_congr (fun u hu => hS u (mem_filter.mp hu).1) fun u => ?_
  rw [mem_filter, decide_eq_true_eq]
  exact ⟨And.right, fun hu => ⟨hts u hu, hu⟩⟩

/-- Dropping tags from a union of listed types leaves a union of such types. -/
theorem Spanned.without {tags : Tags} (htags : tags.LacksValues)
    (hwithout : ∀ s ∈ S, s.without tags ∈ S) (h : Spanned S t) : Spanned S (t.without tags) := by
  obtain ⟨ts, hts, rfl⟩ := h
  refine (foldl_invariant (P := fun t : Ty => t.WellFormed ∧ Spanned S (t.without tags)) ?_ ?_).2
  · rintro acc ⟨hacc, hspanned⟩ u hu
    have hu := hts u hu
    refine ⟨hacc.union (hS u hu), ?_⟩
    rw [without_union hacc (hS u hu) htags]
    exact hspanned.union hS (.of_mem hS (hwithout u hu))
  · refine ⟨.never, ?_⟩
    rw [WellFormed.never.without_of_disjoint fun tag _ => isEmpty_iff.mp rfl tag]
    exact .never

/-- The components of a union of listed types are such unions, too. -/
theorem Spanned.component (hcomponent : ∀ s ∈ S, ∀ p ∈ s.data, ∀ c ∈ p.components, c ∈ S)
    (h : Spanned S t) (hp : p ∈ t.data) (hc : c ∈ p.components) : Spanned S c := by
  obtain ⟨ts, hts, rfl⟩ := h
  refine foldl_invariant (P := fun t : Ty => ∀ p ∈ t.data, ∀ c ∈ p.components, Spanned S c)
    ?_ (by simp [Ty.never]) p hp c hc
  intro acc hacc u hu
  have hu : ∀ p ∈ u.data, ∀ c ∈ p.components, Spanned S c :=
    fun p hp c hc => .of_mem hS (hcomponent u (hts u hu) p hp c hc)
  rw [union_eq_unionStep]
  exact unionStep_components .never (fun _ _ ha hb => ha.union hS hb) hacc hu

end

/-! ### What comparisons reach -/

/-- The tags that comparisons drop: typedefs when they are expanded, and enumerations when their
values are compared with the rest of a type. -/
def droppedTags : List Tags := [.empty, .single .synonym, .single .enum, .ofList [.synonym, .enum]]

theorem union_mem_droppedTags :
    ∀ tags ∈ droppedTags, ∀ tags' ∈ droppedTags, tags ∪ tags' ∈ droppedTags := by decide

/-- The list has all types that a comparison reaches from its types, up to unions. -/
structure IsBasis (table : DeclTable) (S : List Ty) : Prop where
  wellFormed : ∀ s ∈ S, s.WellFormed
  component : ∀ s ∈ S, ∀ p ∈ s.data, ∀ c ∈ p.components, c ∈ S
  without : ∀ tags ∈ droppedTags, ∀ s ∈ S, s.without tags ∈ S
  expansion : ∀ e ∈ table.expansions, e.2 ∈ S
  any : any ∈ S
  enumValues : ofTags .enumValues ∈ S

namespace IsBasis

theorem spanned_any (hS : IsBasis table S) : Spanned S .any := .of_mem hS.wellFormed hS.any

theorem spanned_referred (hS : IsBasis table S) (s : Slot) : Spanned S (referred table s) := by
  unfold referred
  split
  · exact .never
  · refine .unionAll hS.wellFormed (List.forall_mem_map.mpr fun d _ => ?_)
    exact .of_mem hS.wellFormed (expansionOf_closed hS.any hS.expansion d)
  · exact hS.spanned_any

theorem table_wellFormed (hS : IsBasis table S) : table.WellFormed :=
  fun e he => hS.wellFormed e.2 (hS.expansion e he)

theorem spanned_without (hS : IsBasis table S) {tags : Tags} (htags : tags ∈ droppedTags)
    (ht : Spanned S t) : Spanned S (t.without tags) := by
  have hlacks : ∀ tags ∈ droppedTags, tags.LacksValues := by decide
  exact ht.without hS.wellFormed (hlacks tags htags) (hS.without tags htags)

/-- Expanding typedefs leads to unions of listed types. -/
theorem spanned_expand (hS : IsBasis table S) (ht : Spanned S t) : Spanned S (t.expand table) := by
  rw [expand_eq (ht.wellFormed hS.wellFormed) hS.table_wellFormed]
  exact (hS.spanned_without (by decide) ht).union hS.wellFormed (hS.spanned_referred _)

end IsBasis

/-- The types from which a comparison of `a` with `b` sets out. -/
def origins (table : DeclTable) (a b : Ty) : List Ty :=
  any :: ofTags .enumValues :: a :: b :: table.expansions.map Prod.snd

/-- All parts of the types from which a comparison sets out, with and without the tags that
comparisons drop. -/
def basis (table : DeclTable) (a b : Ty) : List Ty :=
  ((origins table a b).flatMap parts).flatMap fun t => droppedTags.map t.without

theorem mem_basis {u : Ty} : u ∈ basis table a b ↔ ∃ t ∈ origins table a b, ∃ s ∈ parts t,
    ∃ tags ∈ droppedTags, s.without tags = u := by
  simp only [basis, mem_flatMap, List.mem_map]
  constructor
  · rintro ⟨s, ⟨t, ht, hs⟩, hu⟩
    exact ⟨t, ht, s, hs, hu⟩
  · rintro ⟨t, ht, s, hs, hu⟩
    exact ⟨s, ⟨t, ht, hs⟩, hu⟩

theorem without_empty (t : Ty) : t.without .empty = t := by
  obtain ⟨tags, data⟩ := t
  have htags : tags \ empty = tags := ext_mem fun tag => by simp
  have hdata : (data.filter fun p => !empty.contains p.tag) = data :=
    filter_eq_self.mpr fun p _ => by cases p.tag <;> rfl
  simp only [without, htags, hdata]

theorem mem_basis_of_mem_parts (ht : t ∈ origins table a b) (hs : s ∈ parts t) :
    s ∈ basis table a b :=
  mem_basis.mpr ⟨t, ht, s, hs, .empty, by decide, without_empty s⟩

theorem mem_basis_of_mem_origins (ht : t ∈ origins table a b) : t ∈ basis table a b :=
  mem_basis_of_mem_parts ht (self_mem_partsWithin _ t)

theorem left_mem_basis (table : DeclTable) (a b : Ty) : a ∈ basis table a b :=
  mem_basis_of_mem_origins (by simp [origins])

theorem right_mem_basis (table : DeclTable) (a b : Ty) : b ∈ basis table a b :=
  mem_basis_of_mem_origins (by simp [origins])

theorem sizeList_origins (table : DeclTable) (a b : Ty) :
    sizeList (origins table a b) = a.size + b.size + table.weight + 2 := by
  have hweight (entries : List (DeclId × Ty)) :
      sizeList (entries.map Prod.snd) = entries.foldr (fun e n => e.2.size + n) 0 := by
    induction entries with
    | nil => rfl
    | cons e entries ih => simp [sizeList, ih]
  have hone (tags : Tags) : (ofTags tags).size = 1 := rfl
  simp only [origins, any, sizeList, hone, hweight, DeclTable.weight]
  omega

/-- The sizes of the types limit how many types are listed. -/
theorem length_basis_le (table : DeclTable) (a b : Ty) :
    (basis table a b).length ≤ 4 * (a.size + b.size + table.weight + 2) := by
  have hle : ((origins table a b).flatMap parts).length ≤ sizeList (origins table a b) :=
    length_flatMap_le (fun t => length_partsWithin_le t.depth t) _
  have hfour (ts : List Ty) :
      (ts.flatMap fun t => droppedTags.map t.without).length = 4 * ts.length := by
    simp [droppedTags, mul_comm]
  rw [sizeList_origins] at hle
  rw [basis, hfour]
  omega

/-- What passes to components and holds without some tags, too, holds of all listed types if it
holds of those from which a comparison sets out. -/
theorem forall_basis (hC : ∀ t, C t → ∀ p ∈ t.data, ∀ c ∈ p.components, C c)
    (hwithout : ∀ t tags, C t → C (t.without tags))
    (horigins : ∀ t ∈ origins table a b, C t) : ∀ s ∈ basis table a b, C s := by
  intro u hu
  obtain ⟨t, ht, s, hs, tags, -, rfl⟩ := mem_basis.mp hu
  exact hwithout s tags (forall_partsWithin hC (horigins t ht) s hs)

theorem mem_of_mem_without_data {tags : Tags} (h : p ∈ (t.without tags).data) : p ∈ t.data :=
  (mem_filter.mp h).1

theorem depth_without_le (t : Ty) (tags : Tags) : (t.without tags).depth ≤ t.depth := by
  obtain ⟨_, data⟩ := t
  refine depthData_le_iff.mpr fun p hp => ?_
  exact depthData_le_iff.mp le_rfl p (mem_of_mem_without_data hp)

theorem without_without (t : Ty) (tags tags' : Tags) :
    (t.without tags).without tags' = t.without (tags ∪ tags') := by
  have htags : (t.tags \ tags) \ tags' = t.tags \ (tags ∪ tags') :=
    ext_mem fun tag => by simp only [mem_sdiff, mem_union, not_or, and_assoc]
  have hunion (tag : Tag) :
      (tags ∪ tags').contains tag = (tags.contains tag || tags'.contains tag) :=
    Bool.eq_iff_iff.mpr (mem_union.trans (Bool.or_eq_true_iff ..).symm)
  have hdata : ((t.data.filter fun p => !tags.contains p.tag).filter fun p =>
      !tags'.contains p.tag) = t.data.filter fun p => !(tags ∪ tags').contains p.tag := by
    rw [List.filter_filter]
    refine filter_congr fun p _ => ?_
    rw [hunion, Bool.not_or, Bool.and_comm]
  simp only [without, htags, hdata]

theorem basis_wellFormed (htable : table.WellFormed) (ha : a.WellFormed) (hb : b.WellFormed) :
    ∀ s ∈ basis table a b, s.WellFormed := by
  refine forall_basis (fun t ht p hp => (ht.payload hp).nested) (fun t tags ht => ht.without _) ?_
  simp only [origins, forall_mem_cons]
  exact ⟨.any, .ofTags _, ha, hb, List.forall_mem_map.mpr htable⟩

/-- The nesting of the listed types is limited. -/
theorem depth_le_of_mem_basis :
    ∀ s ∈ basis table a b, s.depth ≤ a.size + b.size + table.weight + 2 := by
  refine forall_basis ?_ ?_ ?_
  · exact fun t ht p hp c hc => (depth_lt_of_mem_components hp hc).le.trans ht
  · exact fun t tags ht => (depth_without_le t tags).trans ht
  · intro t ht
    rw [← sizeList_origins]
    exact (depth_le_size t).trans (size_le_sizeList ht)

theorem isBasis_basis (htable : table.WellFormed) (ha : a.WellFormed) (hb : b.WellFormed) :
    IsBasis table (basis table a b) := by
  refine ⟨basis_wellFormed htable ha hb, ?_, ?_, ?_, ?_, ?_⟩
  · intro u hu p hp c hc
    obtain ⟨t, ht, s, hs, tags, -, rfl⟩ := mem_basis.mp hu
    have hcomponent := component_mem_partsWithin le_rfl hs (mem_of_mem_without_data hp) hc
    exact mem_basis_of_mem_parts ht hcomponent
  · intro tags' htags' u hu
    obtain ⟨t, ht, s, hs, tags, htags, rfl⟩ := mem_basis.mp hu
    rw [without_without]
    exact mem_basis.mpr ⟨t, ht, s, hs, _, union_mem_droppedTags tags htags tags' htags', rfl⟩
  · exact fun e he => mem_basis_of_mem_origins (by simp [origins, List.mem_map_of_mem he])
  · exact mem_basis_of_mem_origins (by simp [origins])
  · exact mem_basis_of_mem_origins (by simp [origins])

end TypeFlow.Ty
