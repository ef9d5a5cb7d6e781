import TypeFlow.Proofs.LeastExpansions

/-!
# Typedefs that refer to themselves

A typedef is marked as recursive when its expansion still mentions it, or when it comes back to
itself by references at the top level before it is finished. So a mark is always right, and of every
circle of references at the top level some typedef is marked. But those of the circle that are
finished later need not be, since the expansion of a finished one is used at once, and a circle
through containers of other typedefs leaves no mark at all.
-/

namespace TypeFlow

open List Option Relation

namespace Ty

variable {a b t : Ty} {d : DeclId}

theorem mentionsList_iff {ts : List Ty} : mentionsList d ts ↔ ∃ t ∈ ts, t.mentions d := by
  induction ts with
  | nil => simp [mentionsList]
  | cons t ts ih => simp [mentionsList, ih]

theorem mentionsFields_iff {fields : List (String × Ty)} :
    mentionsFields d fields ↔ ∃ t ∈ fields.map Prod.snd, t.mentions d := by
  induction fields with
  | nil => simp [mentionsFields]
  | cons e fields ih => simp [mentionsFields, ih]

theorem mentionsPayload_iff {p : Payload Ty} : mentionsPayload d p ↔
    (∃ ds, p = .synonym ds ∧ d ∈ ds) ∨ ∃ c ∈ p.components, c.mentions d := by
  cases p with
  | synonym ds =>
    have hmem : ds.contains d ↔ d ∈ ds := contains_iff_mem
    simp [mentionsPayload, Payload.components, hmem]
  | object _ shape =>
    cases shape <;> simp [mentionsPayload, Payload.components, mentionsFields_iff]
  | enum _ v => cases v <;> simp [mentionsPayload]
  | _ => simp [mentionsPayload, Payload.components, mentionsList_iff]

/-- A typedef is mentioned by a payload of the type or inside of its components. -/
theorem mentions_iff : t.mentions d ↔ ∃ p ∈ t.data,
    (∃ ds, p = .synonym ds ∧ d ∈ ds) ∨ ∃ c ∈ p.components, c.mentions d := by
  obtain ⟨tags, data⟩ := t
  simp only [mentions, ← mentionsPayload_iff]
  induction data with
  | nil => simp [mentionsData]
  | cons p data ih => simp [mentionsData, ih]

/-- What is mentioned in a type is mentioned by one of its payloads. -/
theorem forall_mentions_iff {P : Prop} : (t.mentions d → P) ↔ ∀ p ∈ t.data,
    (∀ ds, p = .synonym ds → d ∈ ds → P) ∧ ∀ c ∈ p.components, c.mentions d → P := by
  rw [mentions_iff]
  constructor
  · exact fun h p hp => ⟨fun ds hds hd => h ⟨p, hp, .inl ⟨ds, hds, hd⟩⟩,
      fun c hc hd => h ⟨p, hp, .inr ⟨c, hc, hd⟩⟩⟩
  · rintro h ⟨p, hp, ⟨ds, hds, hd⟩ | ⟨c, hc, hd⟩⟩
    · exact (h p hp).1 ds hds hd
    · exact (h p hp).2 c hc hd

/-- A union mentions nothing that its parts do not mention. -/
theorem mentions_union {P : Prop} (ha : a.mentions d → P) (hb : b.mentions d → P) :
    (a.union b).mentions d → P := by
  refine union_closed (C := fun t => t.mentions d → P) (fun hjoin a b ha hb => ?_) ha hb
  rw [forall_mentions_iff] at ha hb ⊢
  refine fun r hr => ⟨?_, unionStep_components (forall_mentions_iff.mpr (by simp [never])) hjoin
    (fun p hp => (ha p hp).2) (fun p hp => (hb p hp).2) r hr⟩
  rintro ds rfl hd
  rcases mem_unionStep_data hr with hr | hr | ⟨p, hp, q, hq, hr⟩
  · exact (ha _ hr).1 ds rfl hd
  · exact (hb _ hr).1 ds rfl hd
  · obtain ⟨htag, htag'⟩ := mergePayload_tag hr
    rcases mergePayload_decls hr rfl hd with ⟨es, hes, hd⟩ | ⟨es, hes, hd⟩
    · cases p <;> cases htag
      exact (ha _ hp).1 es (some.inj hes ▸ rfl) hd
    · cases q <;> cases htag'
      exact (hb _ hq).1 es (some.inj hes ▸ rfl) hd

end Ty

namespace Expansion

variable {raw : Definitions} {d : DeclId}

/-- The definition of a typedef refers to another one, at the top level or inside of containers. -/
def Mentions (raw : Definitions) (d e : DeclId) : Prop := ∃ t, raw.lookup d = some t ∧ t.mentions e

/-- What an expansion mentions is mentioned by the definition of a typedef that it reaches. -/
theorem Complete.mentions {t : Ty} {e : DeclId} (h : Complete raw d t) (he : t.mentions e) :
    ∃ u, Reaches raw d u ∧ Mentions raw u e := by
  obtain ⟨cs, hcs, rfl⟩ := h.eq_union
  refine foldl_invariant (P := fun t => Ty.mentions e t → ∃ u, Reaches raw d u ∧
    Mentions raw u e) (fun acc hacc c hc => Ty.mentions_union hacc fun hmentions => ?_)
    (Ty.forall_mentions_iff.mpr (by simp [Ty.never])) he
  cases (hcs c).mp hc with
  | own hu ht =>
    obtain ⟨p, hp, hmem⟩ := Ty.mentions_iff.mp hmentions
    exact ⟨_, hu, _, ht, Ty.mentions_iff.mpr ⟨p, (mem_filter.mp hp).1, hmem⟩⟩
  | unnamed | undefined => cases hmentions

theorem RefersTo.mentions {e : DeclId} (h : RefersTo raw d e) : Mentions raw d e := by
  obtain ⟨t, ds, ht, hds, he⟩ := h
  exact ⟨t, ht, Ty.mentions_iff.mpr ⟨_, Ty.payload?_mem hds, .inl ⟨ds, rfl, he⟩⟩⟩

/-- A typedef is marked as recursive only if it refers to itself by some chain of references. It is
marked if its expansion mentions it, and of every circle of references at the top level some typedef
is marked. -/
theorem recursive_marked (raw : Definitions) (hraw : ∀ e ∈ raw, e.2.WellFormed) :
    (∀ d x, (all raw).lookup d = some x → x.recursive = true → TransGen (Mentions raw) d d) ∧
      (∀ d x, (all raw).lookup d = some x → x.ty.mentions d = true → x.recursive = true) ∧
      ∀ d, TransGen (RefersTo raw) d d → ∃ e x, Reaches raw d e ∧ Reaches raw e d ∧
        (all raw).lookup e = some x ∧ x.recursive = true := by
  obtain ⟨hkeys, done, hkept, hdone⟩ := all_kept hraw
  have hright (d : DeclId) (x : Expansion) (hx : (all raw).lookup d = some x) : Right raw d x :=
    hkept.right d x (hdone d x hx)
  refine ⟨fun d x hx hrecursive => ?_, fun d x hx => (hright d x hx).mentions, ?_⟩
  · rcases (hright d x hx).marked hrecursive with hmentions | hcircle
    · obtain ⟨u, hu, hmentions⟩ := (hright d x hx).complete.mentions hmentions
      exact .tail' (hu.lift id fun _ _ => RefersTo.mentions) hmentions
    · exact TransGen.mono (fun _ _ => RefersTo.mentions) _ _ hcircle
  · intro d hcircle
    have hall {e : DeclId} (he : TransGen (RefersTo raw) e e) :
        ∃ x, (all raw).lookup e = some x := by
      obtain ⟨r, ⟨t, -, ht, -⟩, -⟩ := TransGen.head'_iff.mp he
      have hmem := hkeys ▸ List.mem_map_of_mem (mem_of_lookup ht)
      exact isSome_iff_exists.mp (isSome_lookup_of_mem hmem)
    obtain ⟨y, hy⟩ := hall hcircle
    obtain ⟨e, hde, hed, x, hx, hrecursive⟩ :=
      hkept.circles d (isSome_of_eq_some (hdone d y hy)) hcircle
    obtain ⟨z, hz⟩ := hall ((TransGen.trans_right hed hcircle).trans_left hde)
    obtain rfl := some.inj ((hdone e z hz).symm.trans hx)
    exact ⟨e, z, hde, hed, hz, hrecursive⟩

/-- Of three circles that overlap at least one typedef is marked. -/
theorem recursive_marked_circles :
    (∀ e ∈ circles, e.2.WellFormed) ∧ TransGen (RefersTo circles) 3 3 ∧
      ∃ e x, Reaches circles 3 e ∧ Reaches circles e 3 ∧ (all circles).lookup e = some x ∧
        x.recursive = true := by
  have hraw : ∀ e ∈ circles, e.2.WellFormed := by decide +kernel
  have hcircle : TransGen (RefersTo circles) 3 3 :=
    .head (b := 2) ⟨_, .one 2, rfl, rfl, by decide⟩
      (.single ⟨_, .ofList [1, 3], rfl, rfl, by decide⟩)
  exact ⟨hraw, hcircle, (recursive_marked circles hraw).2.2 3 hcircle⟩

/-- Lists of each other. -/
def mutualLists : Definitions :=
  [(0, .array (.exact (.synonym (.one 1)))), (1, .array (.exact (.synonym (.one 0))))]

/-- Two typedefs that refer to each other inside of lists are not marked, and of two that refer to
each other at the top level the second one is not. -/
theorem not_marked_mutual : (TransGen (Mentions mutualLists) 0 0 ∧
      ∃ x, (all mutualLists).lookup 0 = some x ∧ x.recursive = false) ∧
    TransGen (RefersTo circles) 1 1 ∧
      ∃ x, (all circles).lookup 1 = some x ∧ x.recursive = false := by
  refine ⟨⟨.head (b := 1) ⟨_, rfl, by decide⟩ (.single ⟨_, rfl, by decide⟩), _, rfl, by decide⟩,
    .head (b := 0) ⟨_, .one 0, rfl, rfl, by decide⟩
      (.single ⟨_, .ofList [1, 2], rfl, rfl, by decide⟩), _, rfl, by decide⟩

end Expansion

end TypeFlow
