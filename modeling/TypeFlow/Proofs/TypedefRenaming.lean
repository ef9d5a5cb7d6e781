import TypeFlow.Proofs.Bounds

/-!
# Renaming typedefs

Renaming replaces every reference to a typedef inside a type, at all levels. It commutes with the
union, whatever typedefs it takes to the same one, and keeps types well formed.
-/

namespace TypeFlow

open List Option Payload

/-- The images of the members of a set. -/
def DeclSet.image (f : DeclId → DeclId) (s : DeclSet) : DeclSet := ofList (s.ids.map f)

@[simp] theorem DeclSet.mem_image {f : DeclId → DeclId} {s : DeclSet} {d : DeclId} :
    d ∈ s.image f ↔ ∃ e ∈ s, f e = d := by
  rw [image, mem_ofList, List.mem_map]
  exact .rfl

theorem DeclSet.image_union (f : DeclId → DeclId) (s t : DeclSet) :
    (s.union t).image f = (s.image f).union (t.image f) :=
  ext_mem fun d => by simp only [mem_image, mem_union, or_and_right, exists_or]

namespace Ty

mutual

/-- Renames the typedefs that a type refers to. -/
def rename (f : DeclId → DeclId) : Ty → Ty
  | ⟨tags, data⟩ => ⟨tags, renameData f data⟩

def renameData (f : DeclId → DeclId) : List (Payload Ty) → List (Payload Ty)
  | [] => []
  | p :: ps => renamePayload f p :: renameData f ps

def renamePayload (f : DeclId → DeclId) : Payload Ty → Payload Ty
  | .synonym decls => .synonym (decls.image f)
  | .elements t => .elements (rename f t)
  | .tuple ts => .tuple (renameList f ts)
  | .dictionary k v => .dictionary (rename f k) (rename f v)
  | .method args r => .method (renameList f args) (rename f r)
  | .object classes (some fields) => .object classes (some (renameFields f fields))
  | .enum d (some v) => .enum d (some (rename f v))
  | p => p

def renameList (f : DeclId → DeclId) : List Ty → List Ty
  | [] => []
  | t :: ts => rename f t :: renameList f ts

def renameFields (f : DeclId → DeclId) : List (String × Ty) → List (String × Ty)
  | [] => []
  | (name, t) :: fields => (name, rename f t) :: renameFields f fields

end

variable {f : DeclId → DeclId} {join : Ty → Ty → Ty} {a b t : Ty} {p q : Payload Ty}

/-! ### Tags and payloads -/

theorem renameData_eq (f : DeclId → DeclId) (data : List (Payload Ty)) :
    renameData f data = data.map (renamePayload f) := by
  induction data with
  | nil => rfl
  | cons p ps ih => rw [renameData, ih, map_cons]

theorem renameList_eq (f : DeclId → DeclId) (ts : List Ty) :
    renameList f ts = ts.map (rename f) := by
  induction ts with
  | nil => rfl
  | cons t ts ih => rw [renameList, ih, map_cons]

theorem renameFields_eq (f : DeclId → DeclId) (fields : List (String × Ty)) :
    renameFields f fields = fields.map (Prod.map id (rename f)) := by
  induction fields with
  | nil => rfl
  | cons field fields ih => rw [renameFields, ih]; rfl

@[simp] theorem rename_tags (f : DeclId → DeclId) (t : Ty) : (t.rename f).tags = t.tags := by
  obtain ⟨tags, data⟩ := t
  rfl

@[simp] theorem rename_data (f : DeclId → DeclId) (t : Ty) :
    (t.rename f).data = t.data.map (renamePayload f) := by
  obtain ⟨tags, data⟩ := t
  exact renameData_eq f data

theorem renamePayload_object (classes : DeclSet) (shape : Option (List (String × Ty))) :
    renamePayload f (.object classes shape) = .object classes (shape.map (renameFields f)) := by
  cases shape <;> rfl

theorem renamePayload_enum (d : Option DeclId) (value : Option Ty) :
    renamePayload f (.enum d value) = .enum d (value.map (rename f)) := by
  cases value <;> rfl

@[simp] theorem renamePayload_tag (f : DeclId → DeclId) (p : Payload Ty) :
    (renamePayload f p).tag = p.tag := by
  cases p with
  | object classes shape => rw [renamePayload_object]; rfl
  | enum d value => rw [renamePayload_enum]; rfl
  | _ => rfl

@[simp] theorem renamePayload_isValue (f : DeclId → DeclId) (p : Payload Ty) :
    (renamePayload f p).isValue = p.isValue := by
  rw [isValue, renamePayload_tag, isValue]

/-- Literals refer to nothing. -/
theorem renamePayload_of_isValue (hp : p.isValue) : renamePayload f p = p := by
  cases p <;> first
    | rfl
    | simp [isValue, tag, Tags.contains_valueTypes] at hp

theorem components_renamePayload (f : DeclId → DeclId) (p : Payload Ty) :
    (renamePayload f p).components = p.components.map (rename f) := by
  cases p with
  | tuple ts => exact renameList_eq f ts
  | method args r => simp [renamePayload, renameList_eq]
  | object classes shape =>
    cases shape with
    | none => rfl
    | some fields => simp [renamePayload, components, renameFields_eq]
  | enum d value => cases value <;> rfl
  | _ => rfl

theorem payload?_rename (f : DeclId → DeclId) (t : Ty) (tag : Tag) :
    (t.rename f).payload? tag = (t.payload? tag).map (renamePayload f) := by
  rw [payload?, rename_data, find?_map, payload?]
  simp only [Function.comp_def, renamePayload_tag]

/-- What is selected by tags is renamed or not alike. -/
theorem filter_map_renamePayload {keep : Payload Ty → Bool}
    (hkeep : ∀ p, keep (renamePayload f p) = keep p) (data : List (Payload Ty)) :
    (data.map (renamePayload f)).filter keep = (data.filter keep).map (renamePayload f) := by
  simp only [List.filter_map, Function.comp_def, hkeep]

theorem rename_ofParts (f : DeclId → DeclId) (tags : Tags) (data : List (Payload Ty)) :
    (ofParts tags data).rename f = ofParts tags (data.map (renamePayload f)) := by
  simp only [ofParts, rename, renameData_eq]
  rw [filter_map_renamePayload (by simp)]
  split
  · rw [filter_map_renamePayload (by simp)]
  · rfl

theorem rename_without (f : DeclId → DeclId) (t : Ty) (tags : Tags) :
    (t.without tags).rename f = (t.rename f).without tags := by
  rw [without, without, rename_data, filter_map_renamePayload (by simp), rename, renameData_eq,
    rename_tags]

/-! ### Unions -/

/-- The join of components may be renamed before or after it. -/
def CommutesWith (f : DeclId → DeclId) (join : Ty → Ty → Ty) : Prop :=
  ∀ a b, (join a b).rename f = join (a.rename f) (b.rename f)

section

variable (hjoin : CommutesWith f join)
include hjoin

theorem CommutesWith.elementUnion (p : Payload Ty) :
    (elementUnionWith join p).rename f = elementUnionWith join (renamePayload f p) := by
  cases p with
  | tuple ts =>
    simp only [elementUnionWith, renamePayload, renameList_eq, foldl_map]
    exact (foldl_hom (rename f) fun acc t => (hjoin acc t).symm).symm
  | object classes shape => cases shape <;> rfl
  | enum d value => cases value <;> rfl
  | _ => rfl

theorem CommutesWith.zipWith (ts us : List Ty) : (zipWith join ts us).map (rename f) =
      zipWith join (ts.map (rename f)) (us.map (rename f)) := by
  simp only [map_zipWith, zipWith_map, hjoin _ _]

theorem CommutesWith.commonFields (fs gs : List (String × Ty)) :
    (commonFields join fs gs).map (renameFields f) =
      commonFields join (renameFields f fs) (renameFields f gs) := by
  have hlookup (name : String) :
      (renameFields f gs).lookup name = (gs.lookup name).map (rename f) := by
    induction gs with
    | nil => rfl
    | cons g gs ih =>
      rw [renameFields, lookup_cons_eq_ite, lookup_cons_eq_ite, ih]
      split <;> rfl
  have hfields : renameFields f
        (fs.filterMap fun e => (gs.lookup e.1).map fun u => (e.1, join e.2 u)) =
      (renameFields f fs).filterMap fun e =>
        ((renameFields f gs).lookup e.1).map fun u => (e.1, join e.2 u) := by
    simp only [renameFields_eq f (filterMap _ _), renameFields_eq f fs, map_filterMap,
      filterMap_map, Function.comp_def, Prod.map, hlookup, Option.map_map, id_eq, hjoin _ _]
  rw [commonFields_eq, commonFields_eq, ← hfields]
  simp only [renameFields_eq, isEmpty_map]
  split <;> simp [renameFields_eq]

theorem CommutesWith.mergeArray (hp : p.tag = .array) (hq : q.tag = .array) :
    renamePayload f (mergeArray join p q) =
      mergeArray join (renamePayload f p) (renamePayload f q) := by
  have helements : renamePayload f
        (.elements (join (elementUnionWith join p) (elementUnionWith join q))) =
      .elements (join (elementUnionWith join (renamePayload f p))
        (elementUnionWith join (renamePayload f q))) := by
    rw [renamePayload, hjoin, hjoin.elementUnion, hjoin.elementUnion]
  cases p <;> simp [tag] at hp <;> cases q <;> simp [tag] at hq
  case tuple.tuple ts us =>
    rw [renamePayload, renamePayload, renameList_eq, renameList_eq, Ty.mergeArray, Ty.mergeArray,
      length_map, length_map]
    split
    · rw [renamePayload, renameList_eq, hjoin.zipWith]
    · simpa only [renamePayload, renameList_eq] using helements
  all_goals exact helements

/-- Payloads of one tag may be renamed before or after they are merged. -/
theorem CommutesWith.mergePayload (htag : q.tag = p.tag) :
    (mergePayload join p q).map (renamePayload f) =
      mergePayload join (renamePayload f p) (renamePayload f q) := by
  cases alike htag with
  | value hp htag =>
    have hq : q.isValue := by rwa [isValue, htag]
    rw [renamePayload_of_isValue hp, renamePayload_of_isValue hq, mergePayload_value hp]
    split
    · exact congrArg some (renamePayload_of_isValue hp)
    · rfl
  | array hp hq =>
    rw [mergePayload_array hp hq,
      mergePayload_array ((renamePayload_tag f p).trans hp) ((renamePayload_tag f q).trans hq)]
    exact congrArg some (hjoin.mergeArray hp hq)
  | dictionary k v k' v' => simp only [Ty.mergePayload, renamePayload, map_some, hjoin _ _]
  | method args r args' r' =>
    simp only [Ty.mergePayload, renamePayload, renameList_eq, length_map]
    split
    · simp only [map_some, renamePayload, renameList_eq, hjoin.zipWith, hjoin _ _]
    · rfl
  | synonym d e => simp only [Ty.mergePayload, renamePayload, map_some, DeclSet.image_union]
  | object d s e s' =>
    rw [mergePayload_object, map_some, renamePayload_object]
    cases s <;> cases s' <;> first | rfl | exact congrArg _ (congrArg _ (hjoin.commonFields _ _))
  | enum d v e w =>
    rw [renamePayload_enum, renamePayload_enum, mergePayload_enum, mergePayload_enum]
    have hvalue : Option.map₂ join (v.map (rename f)) (w.map (rename f)) =
        (Option.map₂ join v w).map (rename f) := by
      cases v <;> cases w <;> simp [hjoin _ _]
    rw [hvalue, enumPayload?, enumPayload?, isNone_map]
    split
    · rfl
    · rw [map_some, renamePayload_enum]
  | _ => rfl

/-- The payload that a union chooses for a tag may be renamed before or after. -/
theorem CommutesWith.unionPayload (a b : Ty) (tag : Tag) :
    (unionPayload join a b tag).map (renamePayload f) =
      unionPayload join (a.rename f) (b.rename f) tag := by
  simp only [Ty.unionPayload, payload?_rename, rename_tags]
  cases hp : a.payload? tag <;> cases hq : b.payload? tag
  case some.some p q => exact hjoin.mergePayload ((payload?_tag hq).trans (payload?_tag hp).symm)
  case some.none p => dsimp only [map_some]; split <;> rfl
  case none.some q => dsimp only [map_some]; split <;> rfl
  case none.none => rfl

theorem CommutesWith.unionStep : CommutesWith f (unionStep join) := by
  intro a b
  have hnever (t : Ty) : (t.rename f).isNever = t.isNever := by rw [isNever, rename_tags, isNever]
  cases ha : a.isNever <;> cases hb : b.isNever
  case false.false =>
    have hpayload := funext (hjoin.unionPayload a b)
    rw [unionStep_of_inhabited ha hb,
      unionStep_of_inhabited ((hnever a).trans ha) ((hnever b).trans hb), rename_ofParts,
      map_filterMap, hpayload, rename_tags, rename_tags]
  all_goals simp [Ty.unionStep, hnever, ha, hb]

end

theorem commutesWith_unionWithin (f : DeclId → DeclId) (n : Nat) :
    CommutesWith f (unionWithin n) := by
  induction n with
  | zero => exact .unionStep fun _ _ => rfl
  | succ n ih => exact ih.unionStep

/-- Types may be renamed before or after they are united. -/
theorem rename_union (f : DeclId → DeclId) (a b : Ty) :
    (a.union b).rename f = (a.rename f).union (b.rename f) := by
  obtain ⟨n, ha, hb, ha', hb'⟩ : ∃ n, a.depth ≤ n ∧ b.depth ≤ n ∧ (a.rename f).depth ≤ n ∧
      (b.rename f).depth ≤ n :=
    ⟨a.depth + b.depth + (a.rename f).depth + (b.rename f).depth, by omega⟩
  rw [← unionWithin_eq_union ha hb, commutesWith_unionWithin, unionWithin_eq_union ha' hb']

theorem rename_unionAll (f : DeclId → DeclId) (ts : List Ty) :
    (unionAll ts).rename f = unionAll (ts.map (rename f)) := by
  rw [unionAll, unionAll, foldl_map]
  exact (foldl_hom (rename f) fun acc t => (rename_union f acc t).symm).symm

/-! ### Well-formed types -/

theorem renamePayload_proper (hp : p.Proper) : (renamePayload f p).Proper := by
  cases p with
  | object classes shape =>
    cases shape with
    | none => trivial
    | some fields =>
      rw [renamePayload, renameFields_eq]
      exact ⟨by simpa using hp.1, pairwise_map.mpr hp.2⟩
  | enum d value => cases d <;> cases value <;> exact hp
  | _ => trivial

/-- Renaming keeps types well formed. -/
theorem WellFormed.rename (ht : t.WellFormed) (f : DeclId → DeclId) : (t.rename f).WellFormed := by
  induction t using levelInduction with
  | step t ih =>
    have hcanonical := ht.canonical
    refine .of_payloads (fun _ => ⟨?_, ?_, ?_⟩) ?_
    · rw [rename_data]
      exact pairwise_map.mpr (by simpa [Ordered] using hcanonical.ordered)
    · simpa using hcanonical.tagged
    · simpa using hcanonical.literal
    · rw [rename_data, List.forall_mem_map]
      intro p hp
      refine ⟨fun _ => renamePayload_proper (hcanonical.proper p hp), False.elim,
        fun _ _ _ _ => trivial, ?_⟩
      rw [components_renamePayload, List.forall_mem_map]
      exact fun c hc => ih p hp c hc ((ht.payload hp).nested c hc)

end Ty

end TypeFlow
