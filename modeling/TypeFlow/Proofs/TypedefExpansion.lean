import TypeFlow.Proofs.Bounds
import TypeFlow.Proofs.ProgramDeclarations

/-!
# Expanding typedefs

The expansion of a type is the union of what it says apart from its typedefs with what the typedefs
stand for. Both parts of it are kept by unions, so the expansion of a union is the union of the
expansions, and a type that lies below another one does so after expansion, too.

The expansions of a program refer to no typedefs at the top level, except that an unknown typedef
stands for every value. So one expansion is enough.
-/

namespace TypeFlow

open List Tags

/-- No kind of literal is among the tags. -/
def Tags.LacksValues (s : Tags) : Prop := ∀ tag ∈ s, tag ∉ valueTypes

instance (s : Tags) : Decidable s.LacksValues :=
  decidable_of_iff (∀ tag ∈ s.toList, tag ∉ valueTypes) (by simp [LacksValues])

/-- Without other tags there are as many kinds of literals. -/
theorem Tags.manyValues_sdiff {s t : Tags} (hs : s.LacksValues) :
    (t \ s).ManyValues ↔ t.ManyValues := by
  have heq : (t \ s) ∩ valueTypes = t ∩ valueTypes := by
    apply ext_mem
    intro tag
    simp only [mem_inter, mem_sdiff]
    exact ⟨fun h => ⟨h.1.1, h.2⟩, fun h => ⟨⟨h.1, fun hmem => hs tag hmem h.2⟩, h.2⟩⟩
  rw [ManyValues, ManyValues, heq]

/-- All expansions of the table are well formed. -/
abbrev DeclTable.WellFormed (table : DeclTable) : Prop := table.Formed True

namespace Ty

variable {a b t : Ty} {tags : Tags} {table : DeclTable}

/-! ### Without some tags -/

@[simp] theorem without_tags (t : Ty) (tags : Tags) : (t.without tags).tags = t.tags \ tags := rfl

theorem WellFormed.payload?_eq_none (ht : t.WellFormed) {tag : Tag} (h : tag ∉ t.tags) :
    t.payload? tag = none := by
  refine Option.eq_none_iff_forall_not_mem.mpr fun p hp => h ?_
  exact payload?_tag hp ▸ ht.canonical.tagged p (payload?_mem hp)

theorem slot_without (t : Ty) (tags : Tags) (tag : Tag) :
    (t.without tags).slot tag = if tag ∈ tags then .absent else t.slot tag := by
  by_cases htag : tag ∈ tags
  · rw [if_pos htag, slot_eq_absent_iff]
    simp [htag]
  · have hfind : (t.without tags).payload? tag = t.payload? tag := by
      unfold payload? without
      rw [find?_filter]
      congr 1
      funext p
      by_cases hp : p.tag = tag
      · simp [hp, mt mem_iff.mpr htag]
      · simp [hp]
    rw [slot, slot, hfind]
    simp [htag]

/-- Removing tags that stand for no literals commutes with the union. -/
theorem without_union (ha : a.WellFormed) (hb : b.WellFormed) (htags : tags.LacksValues) :
    (a.union b).without tags = (a.without tags).union (b.without tags) := by
  have hunion := ha.union hb
  have ha' : (a.without tags).WellFormed := ha.without tags
  have hb' : (b.without tags).WellFormed := hb.without tags
  have hrest : ((a.without tags).union (b.without tags)).WellFormed := ha'.union hb'
  refine Canonical.ext_slot (WellFormed.canonical (hunion.without tags)) hrest.canonical ?_
  intro tag
  have hmany : (a.tags \ tags ∪ b.tags \ tags).ManyValues ↔ (a.tags ∪ b.tags).ManyValues := by
    have heq : a.tags \ tags ∪ b.tags \ tags = (a.tags ∪ b.tags) \ tags :=
      ext_mem fun tag => by simp only [mem_union, mem_sdiff, or_and_right]
    rw [heq, manyValues_sdiff htags]
  rw [slot_without, slot_union ha.canonical hb.canonical, slot_union ha'.canonical hb'.canonical,
    slot_without, slot_without]
  by_cases htag : tag ∈ tags
  · simp [htag, Slot.flattened]
  · simp [htag, hmany]

/-- Removing tags that a type lacks changes nothing. -/
theorem WellFormed.without_of_disjoint (ht : t.WellFormed) (h : ∀ tag ∈ tags, tag ∉ t.tags) :
    t.without tags = t := by
  refine Canonical.ext_slot (WellFormed.canonical (ht.without tags)) ht.canonical ?_
  intro tag
  rw [slot_without]
  split
  · next htag => exact (slot_eq_absent_iff.mpr (h tag htag)).symm
  · rfl

/-! ### What typedefs stand for -/

/-- What a typedef stands for; an unknown one stands for every value. -/
def expansionOf (table : DeclTable) (d : DeclId) : Ty := (table.expansions.lookup d).getD any

theorem expansionOf_closed {C : Ty → Prop} (hany : C any)
    (htable : ∀ e ∈ table.expansions, C e.2) (d : DeclId) : C (expansionOf table d) := by
  unfold expansionOf
  cases hd : table.expansions.lookup d with
  | none => exact hany
  | some u => exact htable (d, u) (mem_of_lookup hd)

/-- What the typedefs in a slot stand for. -/
def referred (table : DeclTable) : Slot → Ty
  | .absent => never
  | .holds (.synonym ds) => unionAll (ds.ids.map (expansionOf table))
  | _ => any

theorem referred_wellFormed (htable : table.WellFormed) (s : Slot) :
    (referred table s).WellFormed := by
  unfold referred
  split
  · exact .never
  · refine .unionAll (forall_mem_map.mpr ?_)
    intro d _
    exact expansionOf_closed WellFormed.any htable d
  · exact .any

/-- What typedefs of two types stand for is what those of either type stand for. -/
theorem referred_union (htable : table.WellFormed) {s u : Slot}
    (hs : ∀ p, s = .holds p → p.tag = .synonym) (hu : ∀ p, u = .holds p → p.tag = .synonym) :
    referred table (s.union union u) = (referred table s).union (referred table u) := by
  have hexpansions (ds : List DeclId) : ∀ t ∈ ds.map (expansionOf table), t.WellFormed :=
    forall_mem_map.mpr fun d _ => expansionOf_closed WellFormed.any htable d
  match s, u with
  | .absent, u => exact (never_below (referred_wellFormed htable u)).symm
  | s, .absent =>
    rw [Slot.union_absent]
    exact (union_never _).symm
  | .bare, .bare | .bare, .holds _ | .holds _, .bare => simp [referred]
  | .holds p, .holds q =>
    have hp := hs p rfl
    have hq := hu q rfl
    cases p <;> simp [Payload.tag] at hp
    cases q <;> simp [Payload.tag] at hq
    next ds es =>
    simp only [referred]
    rw [← unionAll_append (hexpansions _) (hexpansions _), ← map_append]
    refine unionAll_congr (hexpansions _) fun t => ?_
    have hmem (d : DeclId) : d ∈ (ds.union es).ids ↔ d ∈ ds.ids ++ es.ids :=
      DeclSet.mem_union.trans mem_append.symm
    simp only [mem_map, hmem]

/-! ### The expansion of a type -/

theorem hasSynonym_iff : t.hasSynonym ↔ .synonym ∈ t.tags := .rfl

/-- The expansion adds what the typedefs stand for to the rest of a type. -/
theorem expand_eq (ht : t.WellFormed) (htable : table.WellFormed) : t.expand table =
      (t.without (single .synonym)).union (referred table (t.slot .synonym)) := by
  unfold expand
  split
  · next hsynonym =>
    rw [slot, if_pos (hasSynonym_iff.mp hsynonym)]
    cases hp : t.payload? .synonym with
    | none => rfl
    | some p =>
      have htag := payload?_tag hp
      cases p <;> simp [Payload.tag] at htag
      next ds =>
      have hrest : (t.without (.single .synonym)).WellFormed := ht.without _
      have hexpansions : ∀ u ∈ ds.ids.map (expansionOf table), u.WellFormed :=
        forall_mem_map.mpr fun d _ => expansionOf_closed WellFormed.any htable d
      simp only [Option.elim_some, referred]
      rw [← foldl_union_eq hexpansions hrest, foldl_map]
      rfl
  · next hsynonym =>
    have habsent : Tag.synonym ∉ t.tags := hsynonym
    have hdisjoint : ∀ tag ∈ single .synonym, tag ∉ t.tags := by simpa using habsent
    rw [slot_eq_absent_iff.mpr habsent, referred, union_never, ht.without_of_disjoint hdisjoint]

section

variable (htable : table.WellFormed) (ha : a.WellFormed) (hb : b.WellFormed)

include htable ha hb

/-- The expansion of a union is the union of the expansions. -/
theorem expand_union : (a.union b).expand table = (a.expand table).union (b.expand table) := by
  have hsynonym {t : Ty} (p : Payload Ty) (hp : t.slot .synonym = .holds p) : p.tag = .synonym :=
    payload?_tag (slot_eq_holds_iff.mp hp).2
  have hslot : (a.union b).slot .synonym = (a.slot .synonym).union union (b.slot .synonym) := by
    rw [slot_union ha.canonical hb.canonical, if_neg fun h => absurd h.2 (by decide)]
  have hrest {t : Ty} (ht : t.WellFormed) : (t.without (.single .synonym)).WellFormed :=
    ht.without _
  have hreferred (t : Ty) := referred_wellFormed htable (t.slot .synonym)
  rw [expand_eq (ha.union hb) htable, expand_eq ha htable, expand_eq hb htable, hslot,
    referred_union htable hsynonym hsynonym, without_union ha hb (by decide)]
  exact (hrest ha).union_union_union_comm (hrest hb) (hreferred a) (hreferred b)

/-- A type lies below another one after expansion if it does before. -/
theorem Below.expand (h : a.Below b) : (a.expand table).Below (b.expand table) := by
  rw [Below, ← expand_union htable ha hb, h]

end

/-! ### One expansion is enough -/

/-- A type that refers to no typedef, unless it is the type of every value. -/
def Expanded (t : Ty) : Prop := t.hasSynonym → t = any

end Ty

/-- All expansions of the table are expanded. -/
abbrev DeclTable.Expanded (table : DeclTable) : Prop := ∀ e ∈ table.expansions, e.2.Expanded

namespace Ty

variable {table : DeclTable} {a b t : Ty}

/-- Unions of expanded types are expanded. -/
theorem Expanded.union (ha : a.Expanded) (hb : b.Expanded) : (a.union b).Expanded := by
  intro h
  rw [hasSynonym_iff, union_tags, mem_union] at h
  rcases h with h | h
  · rw [ha h, any_union]
  · rw [hb h, union_any]

theorem Expanded.without_synonym (t : Ty) : (t.without (.single .synonym)).Expanded := by
  intro h
  simp [hasSynonym_iff] at h

/-- What an expansion gives is expanded if the expansions of the table are. -/
theorem expand_expanded (htable : table.Expanded) (t : Ty) : (t.expand table).Expanded := by
  unfold expand
  split
  · split
    · exact foldl_invariant
        (fun acc hacc d _ => hacc.union (expansionOf_closed (fun _ => rfl) htable d))
        (.without_synonym t)
    · rw [union_any]
      exact fun _ => rfl
  · next h => exact fun h' => absurd h' h

theorem Expanded.expand_eq (h : t.Expanded) : t.expand table = t := by
  cases hsynonym : t.hasSynonym with
  | false => simp [expand, hsynonym]
  | true =>
    rw [h hsynonym]
    exact union_any (any.without (.single .synonym))

/-- What has been expanded once stays as it is. -/
theorem expand_expand (htable : table.Expanded) (t : Ty) :
    (t.expand table).expand table = t.expand table := (expand_expanded htable t).expand_eq

theorem expand_of_not_hasSynonym (h : t.hasSynonym = false) : t.expand table = t :=
  Expanded.expand_eq fun h' => absurd h' (by simp [h])

theorem expand_of_notMem (h : .synonym ∉ t.tags) : t.expand table = t :=
  expand_of_not_hasSynonym (Bool.eq_false_iff.mpr (mt hasSynonym_iff.mp h))

end Ty

namespace Source

/-- The expansions of a program are expanded. -/
theorem program_table_expanded (source : Source) : source.program.table.Expanded := by
  intro e he
  obtain ⟨e', he', rfl⟩ := mem_map.mp he
  exact Expansion.all_closed (fun _ => rfl) (fun _ _ => .union)
    (fun e _ => .without_synonym e.2) e' he'

theorem program_table_wellFormed (source : Source) : source.program.table.WellFormed :=
  source.program_table_formed fun _ _ _ => trivial

end Source

end TypeFlow
