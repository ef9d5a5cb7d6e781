import Mathlib.Data.List.Forall2
import TypeFlow.Proofs.Widening

/-!
# What merging and widening do to a payload

A payload without its components is its form. A merge or a widening either keeps the form, and then
only enlarges components, or goes to a form of lower rank. Ranks are numbers once the number of
declarations is bounded, so the form of a payload changes only finitely often.
-/

namespace TypeFlow

open List Option Payload

namespace Payload

/-- How often the form of a payload can still change, when at most `bound` declarations are
named. -/
def rank (bound : Nat) : Payload Unit → Nat
  | .tuple _ => 1
  | .module d | .function d | .cls d | .synonym d => bound - d.size
  | .object d shape => (bound - d.size) + shape.elim 0 fun fields => fields.length + 1
  | .enum d v => d.toList.length + v.toList.length
  | _ => 0

end Payload

namespace DeclSet

/-- A union that adds something has more members. -/
theorem union_eq_or_size_lt (d e : DeclSet) : d.union e = d ∨ d.size < (d.union e).size := by
  by_cases h : ∀ x ∈ e, x ∈ d
  · exact .inl (ext_mem fun x => by simpa using h x)
  · push Not at h
    obtain ⟨x, hx, hnew⟩ := h
    have hnodup := nodup_cons.mpr ⟨hnew, d.ascending.imp Nat.ne_of_lt⟩
    have hsubset : x :: d.ids ⊆ (d.union e).ids := by
      intro y hy
      rcases mem_cons.mp hy with rfl | hy
      · exact mem_union.mpr (.inr hx)
      · exact mem_union.mpr (.inl hy)
    exact .inr (subperm_of_subset hnodup hsubset).length_le

end DeclSet

namespace Ty

/-- A type is enlarged by a type that satisfies `C`. -/
def Joins (C : Ty → Prop) (t t' : Ty) : Prop := ∃ u, C u ∧ t' = t.union u

variable {C : Ty → Prop} {p q r : Payload Ty} {bound : Nat}

theorem forall₂_zipWith {ts us : List Ty} (hlength : ts.length = us.length) (hus : ∀ u ∈ us, C u) :
    Forall₂ (Joins C) ts (zipWith union ts us) := by
  induction ts generalizing us with
  | nil => simp
  | cons t ts ih =>
    cases us with
    | nil => simp at hlength
    | cons u us =>
      rw [forall_mem_cons] at hus
      exact .cons ⟨u, hus.1, rfl⟩ (ih (by simpa using hlength) hus.2)

private theorem map_unit_zipWith {ts us : List Ty} (hlength : ts.length = us.length) :
    (zipWith union ts us).map (fun _ => ()) = ts.map fun _ => () := by
  rw [map_const', map_const', length_zipWith, hlength, Nat.min_self]

/-- Two shapes have a common shape with the same fields, or one with fewer. -/
theorem commonFields_cases {fs gs fields : List (String × Ty)}
    (hgs : ∀ c ∈ gs.map Prod.snd, C c) (h : commonFields union fs gs = some fields) :
    (fields.map (fun e => (e.1, ())) = fs.map (fun e => (e.1, ())) ∧
      Forall₂ (Joins C) (fs.map Prod.snd) (fields.map Prod.snd)) ∨
    fields.length < fs.length := by
  have hfields : fields = fs.filterMap fun e =>
      (gs.lookup e.1).map fun u => (e.1, e.2.union u) := by
    simp only [commonFields] at h
    split at h
    · simp at h
    · exact (some.inj h).symm
  clear h
  induction fs generalizing fields with
  | nil => simp [hfields]
  | cons e fs ih =>
    obtain ⟨name, t⟩ := e
    have ih := ih rfl
    cases hlookup : gs.lookup name with
    | none =>
      have hlength := length_filterMap_le
        (fun e : String × Ty => (gs.lookup e.1).map fun u => (e.1, e.2.union u)) fs
      simp only [hfields, filterMap_cons, hlookup, map_none, length_cons]
      omega
    | some u =>
      have hu : C u := hgs u (mem_map.mpr ⟨(name, u), mem_of_lookup hlookup, rfl⟩)
      simp only [hfields, filterMap_cons, hlookup, map_some, map_cons, length_cons]
      rcases ih with ⟨hnames, htypes⟩ | hlt
      · exact .inl ⟨by rw [hnames], .cons ⟨u, hu, rfl⟩ htypes⟩
      · exact .inr (by omega)

theorem forall₂_joins_self (hnever : C never) (ts : List Ty) : Forall₂ (Joins C) ts ts :=
  forall₂_same.mpr fun _ _ => ⟨never, hnever, (union_of_isNever rfl).symm⟩

/-- The merge of objects. -/
theorem mergeShape_cases {d e : DeclSet} {s s' : Option (List (String × Ty))}
    (hq : ∀ c ∈ (Payload.object e s').components, C c) (hsize : (d.union e).size ≤ bound) :
    ((Payload.object (d.union e) (mergeShape union s s')).form = (Payload.object d s).form ∧
      Forall₂ (Joins C) (Payload.object d s).components
        (Payload.object (d.union e) (mergeShape union s s')).components) ∨
    (Payload.object (d.union e) (mergeShape union s s')).form.rank bound <
      (Payload.object d s).form.rank bound := by
  have hdecls : d.union e = d ∨ bound - (d.union e).size < bound - d.size :=
    (d.union_eq_or_size_lt e).imp_right fun hlt => by omega
  have hle : bound - (d.union e).size ≤ bound - d.size := by
    rcases hdecls with heq | hlt
    · rw [heq]
    · exact hlt.le
  -- A shape that is lost lowers the rank, whatever happens to the classes.
  have hlost (fs : List (String × Ty)) : (Payload.object (d.union e) none).form.rank bound <
      (Payload.object d (some fs)).form.rank bound := by
    simp only [Payload.form, Payload.map, Payload.rank, map_none, map_some, elim_none, elim_some]
    omega
  cases s with
  | none => exact hdecls.imp (fun heq => ⟨by rw [heq]; rfl, .nil⟩) id
  | some fs =>
    cases hshape : mergeShape union (some fs) s' with
    | none => exact .inr (hlost fs)
    | some fields =>
      obtain ⟨_, gs, hfs, rfl, hfields⟩ := exists_of_mergeShape hshape
      cases hfs
      simp only [Payload.form, Payload.map, Payload.rank, map_some, elim_some, length_map]
      rcases commonFields_cases hq hfields with ⟨hnames, htypes⟩ | hlt
      · have hlength : fields.length = fs.length := by simpa using congrArg length hnames
        refine hdecls.imp (fun heq => ⟨?_, htypes⟩) fun hlt => by omega
        rw [heq, hnames]
      · exact .inr (by omega)

/-- The merge of members of enums. -/
theorem mergeEnum_cases {d e : Option DeclId} {v w : Option Ty}
    (hq : ∀ c ∈ (Payload.enum e w).components, C c) :
    let r : Payload Ty := .enum (agreed d e) (Option.map₂ union v w)
    (r.form = (Payload.enum d v).form ∧
      Forall₂ (Joins C) (Payload.enum d v).components r.components) ∨
    r.form.rank bound < (Payload.enum d v).form.rank bound := by
  intro r
  subst r
  by_cases hd : agreed d e = d
  · rw [hd]
    cases v with
    | none => exact .inl ⟨rfl, .nil⟩
    | some v =>
      cases w with
      | none => exact .inr (by simp [Payload.form, Payload.map, Payload.rank])
      | some w => exact .inl ⟨rfl, .cons ⟨w, hq w mem_cons_self, rfl⟩ .nil⟩
  · have hnone : agreed d e = none := by
      unfold agreed at hd ⊢
      split <;> simp_all
    have hsome : d ≠ none := fun heq => hd (hnone.trans heq.symm)
    obtain ⟨x, rfl⟩ := ne_none_iff_exists'.mp hsome
    rw [hnone]
    cases v <;> cases w <;> simp [Payload.form, Payload.map, Payload.rank]

/-- A merge enlarges components or lowers the rank. -/
theorem mergePayload_cases (hnever : C never) (hjoin : ∀ a b, C a → C b → C (a.union b))
    (hq : ∀ c ∈ q.components, C c) (h : mergePayload union p q = some r)
    (hr : ∀ ds, r.decls? = some ds → ds.size ≤ bound) :
    (r.form = p.form ∧ Forall₂ (Joins C) p.components r.components) ∨
      r.form.rank bound < p.form.rank bound := by
  have hdecls {d e : DeclSet} (hsize : (d.union e).size ≤ bound) :
      d.union e = d ∨ bound - (d.union e).size < bound - d.size :=
    (d.union_eq_or_size_lt e).imp_right fun hlt => by omega
  cases merges_of_mergePayload h with
  | value => exact .inl ⟨rfl, forall₂_joins_self hnever _⟩
  | tuple hlength =>
    refine .inl ⟨?_, forall₂_zipWith hlength hq⟩
    rw [Payload.form, Payload.map, map_unit_zipWith hlength, Payload.form, Payload.map]
  | elements hp =>
    cases p <;> simp [Payload.tag] at hp
    case elements => exact .inl ⟨rfl, .cons ⟨_, elementUnionWith_closed hnever hjoin hq, rfl⟩ .nil⟩
    case tuple => exact .inr Nat.zero_lt_one
  | dictionary k v k' v' =>
    have hcomponents : C k' ∧ C v' := by simpa using hq
    exact .inl ⟨rfl, .cons ⟨k', hcomponents.1, rfl⟩ (.cons ⟨v', hcomponents.2, rfl⟩ .nil)⟩
  | @method args args' r r' hlength =>
    have hq : ∀ c ∈ args' ++ [r'], C c := hq
    rw [forall_mem_append, forall_mem_singleton] at hq
    have hresult : Forall₂ (Joins C) [r] [r.union r'] := .cons ⟨r', hq.2, rfl⟩ .nil
    refine .inl ⟨?_, rel_append (forall₂_zipWith hlength hq.1) hresult⟩
    rw [Payload.form, Payload.map, map_unit_zipWith hlength, Payload.form, Payload.map]
  | module d e | function d e | cls d e | synonym d e =>
    refine (hdecls (hr _ rfl)).imp ?_ id
    intro heq
    exact ⟨by rw [heq], .nil⟩
  | object => exact mergeShape_cases hq (hr _ rfl)
  | enum => exact mergeEnum_cases hq

/-- A type is enlarged by a type that satisfies `C`, and its nesting is limited. -/
def Climbs (C : Ty → Prop) (depth : Nat) (t t' : Ty) : Prop :=
  ∃ u, C u ∧ t' = (t.union u).widen depth

/-- A payload without components is kept; of any other payload the components may climb. -/
def KeptBy (C : Ty → Prop) : Nat → Payload Ty → Payload Ty → Prop
  | 0, p, p' => p' = p
  | depth + 1, p, p' => p'.form = p.form ∧ Forall₂ (Climbs C depth) p.components p'.components

variable {depth : Nat} {p' : Payload Ty}

theorem KeptBy.form (h : KeptBy C depth p p') : p'.form = p.form := by
  cases depth with
  | zero => exact congrArg form h
  | succ depth => exact h.1

/-- Dropping components keeps a payload or lowers its rank. -/
theorem flattenPayload_cases (h : flattenPayload p = some p') :
    (p' = p ∧ p.components = []) ∨ p'.form.rank bound < p.form.rank bound := by
  rcases flattenPayload_eq_some h with ⟨rfl, hnested⟩ | ⟨d, fields, rfl, rfl⟩ | ⟨d, v, rfl, rfl⟩
  · exact .inl ⟨rfl, components_of_not_isNested hnested⟩
  · exact .inr (by simp [Payload.form, Payload.map, Payload.rank])
  · exact .inr (by simp [Payload.form, Payload.map, Payload.rank])

theorem widenPayload_decls (h : widenPayload depth p = some p') : p'.decls? = p.decls? := by
  cases depth with
  | zero =>
    rcases flattenPayload_eq_some h with ⟨rfl, -⟩ | ⟨d, fields, rfl, rfl⟩ | ⟨d, v, rfl, rfl⟩ <;> rfl
  | succ depth =>
    cases h
    exact decls?_map _ p

/-- Enlarging and then widening a payload keeps it or lowers its rank. -/
theorem keptBy_or_rank_lt (hform : (r.form = p.form ∧ Forall₂ (Joins C) p.components r.components) ∨
      r.form.rank bound < p.form.rank bound) (h : widenPayload depth r = some p') :
    KeptBy C depth p p' ∨ p'.form.rank bound < p.form.rank bound := by
  cases depth with
  | zero =>
    have hcases : _ ∨ p'.form.rank bound < r.form.rank bound := flattenPayload_cases h
    rcases hcases with ⟨rfl, hcomponents⟩ | hlt
    · refine hform.imp ?_ id
      rintro ⟨hform, hjoins⟩
      rw [hcomponents, forall₂_nil_right_iff] at hjoins
      exact ext_form hform (hcomponents.trans hjoins.symm)
    · rcases hform with ⟨hform, -⟩ | hlt'
      · exact .inr (hform ▸ hlt)
      · exact .inr (hlt.trans hlt')
  | succ depth =>
    cases h
    rcases hform with ⟨hform, hjoins⟩ | hlt
    · refine .inl ⟨(form_map _ r).trans hform, ?_⟩
      rw [components_map, forall₂_map_right_iff]
      exact hjoins.imp fun t t' ⟨u, hu, htt'⟩ => ⟨u, hu, by rw [htt']⟩
    · exact .inr (form_map _ r ▸ hlt)

/-- What a climbing type makes of the payload of a tag: the payload is widened, perhaps after it has
been merged with another one. -/
inductive PayloadClimbs (C : Ty → Prop) (depth : Nat) (p p' : Payload Ty) : Prop
  | widened (h : widenPayload depth p = some p')
  | merged {q r : Payload Ty} (hq : ∀ c ∈ q.components, C c) (hr : mergePayload union p q = some r)
      (h : widenPayload depth r = some p')

/-- A payload that climbs is kept or loses rank. -/
theorem PayloadClimbs.keptBy_or_rank_lt (hnever : C never)
    (hjoin : ∀ a b, C a → C b → C (a.union b)) (h : PayloadClimbs C depth p p')
    (hsize : ∀ ds, p'.decls? = some ds → ds.size ≤ bound) :
    KeptBy C depth p p' ∨ p'.form.rank bound < p.form.rank bound := by
  cases h with
  | widened h => exact Ty.keptBy_or_rank_lt (.inl ⟨rfl, forall₂_joins_self hnever _⟩) h
  | merged hq hr h =>
    refine Ty.keptBy_or_rank_lt (mergePayload_cases hnever hjoin hq hr ?_) h
    rw [← widenPayload_decls h]
    exact hsize

section

variable {t u : Ty}

/-- The payloads of the union of two types that have values. -/
theorem payload?_union (ht : t.isNever = false) (hu : u.isNever = false) (tag : Tag) :
    (t.union u).payload? tag =
      if tag ∈ t.tags ∪ u.tags ∧ ¬((t.tags ∪ u.tags).ManyValues ∧ tag ∈ Tags.valueTypes) then
        unionPayload union t u tag
      else none := by
  rw [union_eq_unionStep, unionStep_of_inhabited ht hu]
  exact payload?_ofParts (unionPayload_tagged union t u) _ tag

theorem union_ordered (ht : t.isNever = false) (hu : u.isNever = false) :
    Ordered (t.union u).data := by
  rw [union_eq_unionStep, unionStep_of_inhabited ht hu]
  exact ofParts_ordered ((unionPayload_tagged union t u).ordered (Tags.toList_pairwise _))

section

variable (htags : (t.union u).tags = t.tags)

include htags

/-- When no tag is added by a type that has values, there were values before. -/
theorem isNever_eq_false_of_union (hu : u.isNever = false) : t.isNever = false := by
  apply Bool.eq_false_iff.mpr
  intro h
  refine absurd ?_ (Bool.eq_false_iff.mp hu)
  refine Tags.isEmpty_iff.mpr fun tag htag => Tags.isEmpty_iff.mp h tag ?_
  rw [← htags, union_tags, Tags.mem_union]
  exact .inr htag

theorem union_ordered_of_tags (hordered : Ordered t.data) : Ordered (t.union u).data := by
  cases hu : u.isNever with
  | true => rwa [union_of_isNever hu]
  | false => exact union_ordered (isNever_eq_false_of_union htags hu) hu

/-- When no tag is added, a payload of the union was there before. -/
theorem payload?_union_cases {tag : Tag} (hr : (t.union u).payload? tag = some r) :
    ∃ p, t.payload? tag = some p ∧
      (r = p ∨ ∃ q, u.payload? tag = some q ∧ mergePayload union p q = some r) := by
  cases hu : u.isNever with
  | true =>
    rw [union_of_isNever hu] at hr
    exact ⟨r, hr, .inl rfl⟩
  | false =>
    rw [payload?_union (isNever_eq_false_of_union htags hu) hu, ← union_tags, htags] at hr
    split at hr
    · next htag =>
        have hcontains : t.tags.contains tag := htag.1
        cases hp : t.payload? tag with
        | none => cases hq : u.payload? tag <;> simp [unionPayload, hp, hq, hcontains] at hr
        | some p =>
          refine ⟨p, rfl, ?_⟩
          cases hq : u.payload? tag with
          | none =>
            simp only [unionPayload, hp, hq] at hr
            split at hr
            · simp at hr
            · exact .inl (some.inj hr).symm
          | some q => exact .inr ⟨q, rfl, by simpa [unionPayload, hp, hq] using hr⟩
    · simp at hr

end

/-- A payload that a merge enlarges cannot come back by widening. -/
theorem mergePayload_eq_of_widenPayload
    (ih : ∀ k, depth = k + 1 → ∀ t u : Ty, (t.union u).widen k = t → t.union u = t)
    (hr : mergePayload union p q = some r) (h : widenPayload depth r = some p) : r = p := by
  have hcases : _ ∨ r.form.rank (r.decls?.elim 0 DeclSet.size) < _ :=
    mergePayload_cases trivial (fun _ _ _ _ => trivial) (fun _ _ => trivial) hr
      fun ds hds => by rw [hds, elim_some]
  cases depth with
  | zero =>
    have hback : _ ∨ p.form.rank (r.decls?.elim 0 DeclSet.size) < _ := flattenPayload_cases h
    rcases hback with ⟨heq, -⟩ | hback
    · exact heq.symm
    · rcases hcases with ⟨hform, -⟩ | hlt
      · exact absurd hback (by rw [hform]; exact lt_irrefl _)
      · exact absurd hback hlt.not_gt
  | succ depth =>
    have hp := (some.inj h).symm
    have hform := hp ▸ form_map _ r
    rcases hcases with ⟨-, hjoins⟩ | hlt
    · apply ext_form hform.symm
      have hcomponents := hp ▸ components_map _ r
      rw [hcomponents, forall₂_map_left_iff, forall₂_same] at hjoins
      have hfixed : ∀ c ∈ r.components, c.widen depth = c := fun c hc => by
        obtain ⟨w, -, hw⟩ := hjoins c hc
        exact (ih depth rfl (c.widen depth) w (by rw [← hw])).symm.trans hw.symm
      rw [hcomponents, map_congr_left hfixed, List.map_id']
    · exact absurd hlt (by rw [hform]; exact lt_irrefl _)

/-- A union that widening takes back added nothing. -/
theorem union_eq_of_widen (h : (t.union u).widen depth = t) : t.union u = t := by
  induction depth using Nat.strong_induction_on generalizing t u with
  | _ depth ih =>
  cases hu : u.isNever with
  | true => exact union_of_isNever hu
  | false =>
    have htags : (t.union u).tags = t.tags := by rw [← widen_tags depth, h]
    have ht := isNever_eq_false_of_union htags hu
    have hordered := union_ordered ht hu
    have hpayload (tag : Tag) : t.payload? tag =
        ((t.union u).payload? tag).bind (widenPayload depth) := by
      rw [← payload?_widen hordered, h]
    have hdata : (t.union u).data = t.data := by
      apply Ordered.ext hordered (h ▸ widen_ordered hordered)
      intro tag
      rw [hpayload]
      cases hr : (t.union u).payload? tag with
      | none => rfl
      | some r =>
        obtain ⟨p, hp, hcases⟩ := payload?_union_cases htags hr
        have hwiden : widenPayload depth r = some p := by rw [← hp, hpayload, hr]; rfl
        rw [bind_some, hwiden]
        rcases hcases with rfl | ⟨q, -, hmerge⟩
        · rfl
        · rw [mergePayload_eq_of_widenPayload (fun k hk t u => ih k (by omega)) hmerge hwiden]
    exact ext_parts htags hdata

end

end Ty

end TypeFlow
