import Mathlib.Order.Filter.EventuallyConst
import TypeFlow.Proofs.Rank
import TypeFlow.Proofs.Worklist

/-!
# Chains of unions settle

A type that is enlarged again and again, with limited nesting and by types over a bounded number of
declarations, changes only finitely often. The tags settle first, then the forms of the payloads,
and then, by induction on the depth, their components.
-/

namespace TypeFlow

open List Option Filter

section

variable {α β : Type} {f : ℕ → α} {R : α → α → Prop}

/-- A sequence settles when its part from some place on does. -/
theorem eventuallyConst_of_shift (k : ℕ) (h : EventuallyConst (fun i => f (k + i)) atTop) :
    EventuallyConst f atTop := by
  obtain ⟨n, hn⟩ := eventuallyConst_atTop.mp h
  refine eventuallyConst_atTop.mpr ⟨k + n, ?_⟩
  intro m hm
  obtain ⟨i, rfl⟩ := Nat.exists_eq_add_of_le ((Nat.le_add_right k n).trans hm)
  exact hn i (by omega)

/-- A sequence that only changes by going to a lower rank changes finitely often. -/
theorem eventuallyConst_of_rank (rank : α → ℕ)
    (h : ∀ i, f (i + 1) = f i ∨ rank (f (i + 1)) < rank (f i)) : EventuallyConst f atTop := by
  induction hn : rank (f 0) using Nat.strong_induction_on generalizing f with
  | _ n ih =>
  by_cases hconst : ∀ i, f (i + 1) = f i
  · exact eventuallyConst_atTop_nat.mpr ⟨0, fun i _ => hconst i⟩
  · push Not at hconst
    obtain ⟨k, hk⟩ := hconst
    have hle :=
      antitone_nat_of_succ_le (f := fun i => rank (f i))
        (fun i => (h i).elim (fun heq => (congrArg rank heq).le) le_of_lt) (Nat.zero_le k)
    have hlt := ((h k).resolve_left hk).trans_le (hle.trans_eq hn)
    exact eventuallyConst_of_shift (k + 1) (ih _ hlt (fun i => h (k + 1 + i)) rfl)

/-- Lists whose elements settle one by one settle. -/
theorem eventuallyConst_list
    (hR : ∀ f : ℕ → α, (∀ i, R (f i) (f (i + 1))) → EventuallyConst f atTop) {f : ℕ → List α}
    (hf : ∀ i, Forall₂ R (f i) (f (i + 1))) : EventuallyConst f atTop := by
  induction hn : (f 0).length generalizing f with
  | zero =>
    have hnil (i : ℕ) : f i = [] := by
      induction i with
      | zero => exact eq_nil_of_length_eq_zero hn
      | succ i ihi => simpa [ihi] using hf i
    exact eventuallyConst_atTop_nat.mpr ⟨0, fun i _ => by rw [hnil, hnil]⟩
  | succ n ih =>
    have hcons (i : ℕ) : ∃ x xs, f i = x :: xs := by
      induction i with
      | zero => exact exists_cons_of_length_eq_add_one hn
      | succ i ihi =>
        obtain ⟨x, xs, hi⟩ := ihi
        have hstep := hf i
        rw [hi, forall₂_cons_left_iff] at hstep
        obtain ⟨y, ys, -, -, hnext⟩ := hstep
        exact ⟨y, ys, hnext⟩
    choose head tail hparts using hcons
    have hsteps (i : ℕ) : R (head i) (head (i + 1)) ∧ Forall₂ R (tail i) (tail (i + 1)) := by
      simpa [hparts] using hf i
    have htail : (tail 0).length = n := by simpa [hparts] using hn
    have hboth := (hR head fun i => (hsteps i).1).comp₂ cons (ih (fun i => (hsteps i).2) htail)
    rwa [← funext hparts] at hboth

/-- An optional value that changes as values that settle do, or is lost, settles. -/
theorem eventuallyConst_option
    (hR : ∀ f : ℕ → α, (∀ i, R (f i) (f (i + 1))) → EventuallyConst f atTop) {f : ℕ → Option α}
    (hf : ∀ i y, f (i + 1) = some y → ∃ x, f i = some x ∧ R x y) : EventuallyConst f atTop := by
  by_cases hlost : ∃ k, f k = none
  · obtain ⟨k, hk⟩ := hlost
    have hnone (m : ℕ) (hm : k ≤ m) : f m = none := by
      induction m, hm using Nat.le_induction with
      | base => exact hk
      | succ m hm ihm =>
        apply eq_none_iff_forall_ne_some.mpr
        intro y hy
        obtain ⟨x, hx, -⟩ := hf m y hy
        exact absurd (ihm.symm.trans hx) (by simp)
    exact eventuallyConst_atTop.mpr ⟨k, fun m hm => (hnone m hm).trans hk.symm⟩
  · push Not at hlost
    choose g hg using fun i => ne_none_iff_exists'.mp (hlost i)
    have hsteps (i : ℕ) : R (g i) (g (i + 1)) := by
      obtain ⟨x, hx, hR⟩ := hf i (g (i + 1)) (hg (i + 1))
      obtain rfl := some.inj ((hg i).symm.trans hx)
      exact hR
    have hboth := (hR g hsteps).comp some
    rwa [show some ∘ g = f from funext fun i => (hg i).symm] at hboth

/-- Several sequences that settle settle together. -/
theorem eventuallyConst_forall_mem {f : ℕ → α → β} {xs : List α}
    (h : ∀ x ∈ xs, EventuallyConst (fun i => f i x) atTop) :
    ∃ n, ∀ m, n ≤ m → ∀ x ∈ xs, f m x = f n x := by
  induction xs with
  | nil => exact ⟨0, by simp⟩
  | cons x xs ih =>
    obtain ⟨n, hn⟩ := ih fun y hy => h y (mem_cons_of_mem x hy)
    obtain ⟨k, hk⟩ := eventuallyConst_atTop.mp (h x mem_cons_self)
    refine ⟨max n k, fun m hm => forall_mem_cons.mpr ⟨?_, ?_⟩⟩
    · exact (hk m (by omega)).trans (hk _ (by omega)).symm
    · intro y hy
      exact (hn m (by omega) y hy).trans (hn _ (by omega) y hy).symm

end

/-- A union that adds something has more tags. -/
theorem Tags.union_eq_or_size_lt (s t : Tags) : s ∪ t = s ∨ s.size < (s ∪ t).size := by
  by_cases h : ∀ tag ∈ t, tag ∈ s
  · exact .inl (ext_mem fun tag => by simpa using h tag)
  · push Not at h
    obtain ⟨tag, ht, hs⟩ := h
    have hnodup : (tag :: s.toList).Nodup := by
      refine nodup_cons.mpr ⟨by simpa using hs, (toList_pairwise s).imp fun hlt heq => ?_⟩
      exact absurd hlt (by rw [heq]; exact lt_irrefl _)
    have hsubset : tag :: s.toList ⊆ (s ∪ t).toList := by
      refine cons_subset.mpr ⟨by simp [ht], ?_⟩
      intro other hother
      exact mem_toList.mpr (mem_union.mpr (.inl (mem_toList.mp hother)))
    exact .inr (subperm_of_subset hnodup hsubset).length_le

/-- A set of small numbers is small. -/
theorem DeclSet.size_le {ds : DeclSet} {bound : Nat} (h : ∀ d ∈ ds.ids, d < bound) :
    ds.size ≤ bound := by
  have hsubset : ds.ids ⊆ range bound := fun d hd => mem_range.mpr (h d hd)
  simpa [size] using (subperm_of_subset (ds.ascending.imp Nat.ne_of_lt) hsubset).length_le

namespace Ty

/-- All declarations that a type names have numbers below a bound. -/
abbrev Bounded (bound : Nat) (t : Ty) : Prop := t.Formed (.below bound)

variable {bound depth : Nat}

/-- A type over a bounded number of declarations is enlarged by such a type. -/
def ClimbsWithin (bound depth : Nat) (t t' : Ty) : Prop :=
  t.Bounded bound ∧ Climbs (Bounded bound) depth t t'

def PayloadClimbsWithin (bound depth : Nat) (p p' : Payload Ty) : Prop :=
  p.Formed (.below bound) ∧ PayloadClimbs (Bounded bound) depth p p'

/-- Types that climb over a bounded number of declarations change only finitely often. -/
def Settles (bound depth : Nat) : Prop :=
  ∀ f : ℕ → Ty, (∀ i, ClimbsWithin bound depth (f i) (f (i + 1))) → EventuallyConst f atTop

theorem never_bounded : never.Bounded bound := .ofTags _

/-- A payload that climbs again and again settles, if the components of payloads do. -/
theorem eventuallyConst_payload (ih : ∀ k, depth = k + 1 → Settles bound k)
    (g : ℕ → Payload Ty) (hg : ∀ i, PayloadClimbsWithin bound depth (g i) (g (i + 1))) :
    EventuallyConst g atTop := by
  have hstep (i : ℕ) : KeptBy (Bounded bound) depth (g i) (g (i + 1)) ∨
      (g (i + 1)).form.rank bound < (g i).form.rank bound :=
    (hg i).2.keptBy_or_rank_lt never_bounded (fun _ _ ha hb => ha.union hb)
      fun ds hds => DeclSet.size_le ((hg (i + 1)).1.decls ds hds)
  have hforms : EventuallyConst (fun i => (g i).form) atTop :=
    eventuallyConst_of_rank (Payload.rank bound) fun i => (hstep i).imp_left KeptBy.form
  obtain ⟨n, hn⟩ := eventuallyConst_atTop_nat.mp hforms
  have hkept (i : ℕ) (hi : n ≤ i) : KeptBy (Bounded bound) depth (g i) (g (i + 1)) :=
    (hstep i).resolve_right fun hlt => absurd hlt (by rw [hn i hi]; exact lt_irrefl _)
  cases depth with
  | zero => exact eventuallyConst_atTop_nat.mpr ⟨n, hkept⟩
  | succ depth =>
    have hcomponents :=
      eventuallyConst_list (ih depth rfl) fun i =>
        (forall₂_and_left _ _).mpr ⟨(hg (n + i)).1.nested, (hkept (n + i) (Nat.le_add_right n i)).2⟩
    obtain ⟨k, hk⟩ := eventuallyConst_atTop_nat.mp hcomponents
    refine eventuallyConst_of_shift n (eventuallyConst_atTop_nat.mpr ⟨k, ?_⟩)
    intro m hm
    exact Payload.ext_form (hn (n + m) (Nat.le_add_right n m)) (hk m hm)

variable {t t' : Ty} {f : ℕ → Ty}

section

variable (h : Climbs (Bounded bound) depth t t') (htags : t'.tags = t.tags)
  (hordered : Ordered t.data)

include h htags hordered

theorem Climbs.ordered : Ordered t'.data := by
  obtain ⟨u, -, rfl⟩ := h
  exact widen_ordered (union_ordered_of_tags (widen_tags _ _ ▸ htags) hordered)

/-- When the tags do not change, the payload of each tag is dropped or climbs. -/
theorem Climbs.payload? {tag : Tag} {p' : Payload Ty} (hp' : t'.payload? tag = some p') :
    ∃ p, t.payload? tag = some p ∧ PayloadClimbs (Bounded bound) depth p p' := by
  obtain ⟨u, hu, rfl⟩ := h
  rw [widen_tags] at htags
  rw [payload?_widen (union_ordered_of_tags htags hordered)] at hp'
  obtain ⟨r, hr, hwiden⟩ := bind_eq_some_iff.mp hp'
  obtain ⟨p, hp, rfl | ⟨q, hq, hmerge⟩⟩ := payload?_union_cases htags hr
  · exact ⟨r, hp, .widened hwiden⟩
  · exact ⟨p, hp, .merged (hu.payload (payload?_mem hq)).nested hmerge hwiden⟩

end

/-- The tags of a type that climbs settle. -/
theorem eventuallyConst_tags (hf : ∀ i, Climbs (Bounded bound) depth (f i) (f (i + 1))) :
    EventuallyConst (fun i => (f i).tags) atTop := by
  apply eventuallyConst_of_rank (fun tags => Tag.all.length - tags.size)
  intro i
  obtain ⟨u, -, hu⟩ := hf i
  simp only [hu, widen_tags, union_tags]
  refine (Tags.union_eq_or_size_lt (f i).tags u.tags).imp_right ?_
  have hle : ((f i).tags ∪ u.tags).size ≤ Tag.all.length := length_filter_le _ _
  omega

/-- A type whose payloads are ordered and whose tags do not change settles. -/
theorem eventuallyConst_of_tags (ih : ∀ k, depth = k + 1 → Settles bound k)
    (hf : ∀ i, ClimbsWithin bound depth (f i) (f (i + 1)))
    (htags : ∀ i, (f (i + 1)).tags = (f i).tags) (hordered : Ordered (f 0).data) :
    EventuallyConst f atTop := by
  have hordered (i : ℕ) : Ordered (f i).data := by
    induction i with
    | zero => exact hordered
    | succ i ihi => exact (hf i).2.ordered (htags i) ihi
  have hpayloads : ∀ tag ∈ Tag.all, EventuallyConst (fun i => (f i).payload? tag) atTop :=
    fun tag _ => eventuallyConst_option (eventuallyConst_payload ih) fun i _ hp' => by
      obtain ⟨p, hp, hclimbs⟩ := (hf i).2.payload? (htags i) (hordered i) hp'
      exact ⟨p, hp, (hf i).1.payload (payload?_mem hp), hclimbs⟩
  obtain ⟨n, hn⟩ := eventuallyConst_forall_mem hpayloads
  have hconst (i : ℕ) : (f i).tags = (f 0).tags := by
    induction i with
    | zero => rfl
    | succ i ihi => exact (htags i).trans ihi
  refine eventuallyConst_atTop.mpr ⟨n, fun m hm => ext_parts ((hconst m).trans (hconst n).symm) ?_⟩
  exact Ordered.ext (hordered m) (hordered n) fun tag => hn m hm tag (Tag.mem_all tag)

/-- A type that climbs again and again changes only finitely often. -/
theorem settles (bound depth : Nat) : Settles bound depth := by
  induction depth using Nat.strong_induction_on with
  | _ depth ih =>
  intro f hf
  obtain ⟨n, hn⟩ := eventuallyConst_atTop_nat.mp (eventuallyConst_tags fun i => (hf i).2)
  choose u hu hnext using fun i => (hf i).2
  by_cases hnever : ∀ i, n ≤ i → (u i).isNever
  · -- Nothing is added any more, so from the second step on widening changes nothing.
    refine eventuallyConst_atTop_nat.mpr ⟨n + 1, ?_⟩
    intro i hi
    obtain ⟨k, rfl⟩ := Nat.exists_eq_add_of_le hi
    have hwiden (i : ℕ) (hi : n ≤ i) : f (i + 1) = (f i).widen depth := by
      rw [hnext i, union_of_isNever (hnever i hi)]
    rw [hwiden (n + 1 + k) (by omega), show n + 1 + k = n + k + 1 by omega,
      hwiden (n + k) (by omega), widen_eq_self_iff.mpr (depth_widen_le _ _)]
  · -- A type with values is added, which puts the payloads in order for all later steps.
    push Not at hnever
    obtain ⟨k, hk, hinhabited⟩ := hnever
    have htags : ((f k).union (u k)).tags = (f k).tags := by
      rw [← widen_tags depth, ← hnext k]
      exact hn k hk
    have huk : (u k).isNever = false := by simpa using hinhabited
    have hordered : Ordered (f (k + 1)).data := by
      rw [hnext k]
      exact widen_ordered (union_ordered (isNever_eq_false_of_union htags huk) huk)
    refine eventuallyConst_of_shift (k + 1) (eventuallyConst_of_tags ?_ (fun i => hf (k + 1 + i))
      (fun i => hn (k + 1 + i) (by omega)) hordered)
    exact fun j hj => ih j (by omega)

end Ty

namespace TypeState

/-- A state that others are merged into again and again changes only finitely often. -/
theorem eventuallyConst_of_merges {bound depth : Nat} {f : ℕ → TypeState}
    (hfirst : (f 0).Formed (.below bound))
    (hf : ∀ i, ∃ other : TypeState, other.Formed (.below bound) ∧
      f (i + 1) = (f i).merge depth other) : EventuallyConst f atTop := by
  have hformed (i : ℕ) : (f i).Formed (.below bound) := by
    induction i with
    | zero => exact hfirst
    | succ i ih =>
      obtain ⟨other, hother, hnext⟩ := hf i
      exact hnext ▸ ih.merge hother depth
  have hstep (k : Key) (i : ℕ) (t' : Ty) (ht' : (f (i + 1)).get? k = some t') :
      ∃ t, (f i).get? k = some t ∧ Ty.ClimbsWithin bound depth t t' := by
    obtain ⟨other, hother, hnext⟩ := hf i
    rw [hnext, get?_merge] at ht'
    obtain ⟨t, ht, ht'⟩ := bind_eq_some_iff.mp ht'
    obtain ⟨u, hu, rfl⟩ := map_eq_some_iff.mp ht'
    exact ⟨t, ht, hformed i k t ht, u, hother k u hu, rfl⟩
  have hkeys : ∀ k ∈ (f 0).keys, EventuallyConst (fun i => (f i).get? k) atTop :=
    fun k _ => eventuallyConst_option (Ty.settles bound depth) (hstep k)
  obtain ⟨n, hn⟩ := eventuallyConst_forall_mem hkeys
  -- A key that the first state lacks never appears.
  have habsent (k : Key) (hk : (f 0).get? k = none) (i : ℕ) : (f i).get? k = none := by
    induction i with
    | zero => exact hk
    | succ i ih =>
      apply eq_none_iff_forall_ne_some.mpr
      intro t' ht'
      obtain ⟨t, ht, -⟩ := hstep k i t' ht'
      exact absurd (ih.symm.trans ht) (by simp)
  refine eventuallyConst_atTop.mpr ⟨n, fun m hm => NumMap.ext_get? ?_⟩
  intro k
  cases hk : (f 0).get? k with
  | none => rw [habsent k hk, habsent k hk]
  | some t => exact hn m hm k (mem_map.mpr ⟨(k, t), NumMap.mem_entries.mpr hk, rfl⟩)

end TypeState

end TypeFlow
