import TypeFlow.Proofs.TypedefExpansion
import TypeFlow.Proofs.TypedefRenaming

/-!
# Expansions of typedefs are least solutions

The definition of a typedef contributes what it says apart from typedefs. The expansion of a typedef
is the union of the contributions of all typedefs that it reaches through references at the top
level, in whatever circles these refer to each other. An expansion that was begun inside of others
leaves these out; it is closed under references up to the typedefs that it has left out, which are
noted as pending. So an expansion with nothing pending has reached everything, and only such
expansions are kept. A typedef that was pending itself is marked as recursive. One that is kept
without a mark refers only to typedefs that have been kept before it, so of every circle of
references the typedef that is kept first is marked.
-/

namespace TypeFlow

open List Option Prod Relation Ty

variable {t : Ty}

theorem Ty.exists_of_payload?_synonym {p : Payload Ty} (h : t.payload? .synonym = some p) :
    ∃ ds, p = .synonym ds := by
  have htag := payload?_tag h
  cases p <;> simp [Payload.tag] at htag ⊢

namespace Expansion

variable {raw : Definitions} {stack rest met : List DeclId} {d : DeclId} {done : Finished}
  {acc out : Unfolding}

/-! ### What a typedef reaches -/

/-- The definition of a typedef names another one at the top level. -/
def RefersTo (raw : Definitions) (d e : DeclId) : Prop :=
  ∃ t ds, raw.lookup d = some t ∧ t.payload? .synonym = some (.synonym ds) ∧ e ∈ ds

/-- A typedef refers to another one, directly or through others. -/
abbrev Reaches (raw : Definitions) : DeclId → DeclId → Prop := ReflTransGen (RefersTo raw)

/-- What the definitions of all typedefs that a typedef reaches say apart from typedefs. A reference
to typedefs that are not named, or that have no definition, stands for every value. -/
inductive Contributes (raw : Definitions) (d : DeclId) : Ty → Prop
  | own {u : DeclId} {t : Ty} (hu : Reaches raw d u) (ht : raw.lookup u = some t) :
      Contributes raw d (t.without (.single .synonym))
  | unnamed {u : DeclId} {t : Ty} (hu : Reaches raw d u) (ht : raw.lookup u = some t)
      (htag : .synonym ∈ t.tags) (hnone : t.payload? .synonym = none) : Contributes raw d .any
  | undefined {u : DeclId} (hu : Reaches raw d u) (hnone : raw.lookup u = none) :
      Contributes raw d .any

variable {v : DeclId}

theorem refersTo_iff (ht : raw.lookup d = some t) :
    RefersTo raw d v ↔ ∃ ds, t.payload? .synonym = some (.synonym ds) ∧ v ∈ ds := by
  constructor
  · rintro ⟨t', ds, ht', hds⟩
    obtain rfl := some.inj (ht.symm.trans ht')
    exact ⟨ds, hds⟩
  · rintro ⟨ds, hds⟩
    exact ⟨t, ds, ht, hds⟩

theorem Contributes.wellFormed (hraw : ∀ e ∈ raw, e.2.WellFormed) {c : Ty}
    (hc : Contributes raw d c) : c.WellFormed := by
  cases hc with
  | own hu ht => exact (hraw _ (mem_of_lookup ht)).without _
  | unnamed | undefined => exact .any

/-- What the definition of a typedef alone contributes. -/
def parts (raw : Definitions) (d : DeclId) : List Ty :=
  match raw.lookup d with
  | none => [.any]
  | some t =>
    if t.hasSynonym && (t.payload? .synonym).isNone then
      [t.without (.single .synonym), .any]
    else [t.without (.single .synonym)]

theorem parts_wellFormed (hraw : ∀ e ∈ raw, e.2.WellFormed) (d : DeclId) :
    ∀ c ∈ parts raw d, c.WellFormed := by
  unfold parts
  split
  · simpa using WellFormed.any
  · next t ht =>
    have hrest : (t.without (.single .synonym)).WellFormed := (hraw _ (mem_of_lookup ht)).without _
    split
    · simpa using ⟨hrest, .any⟩
    · simpa using hrest

/-- What a typedef reaches contributes what the definitions of these typedefs do. -/
theorem mem_flatMap_parts (hmet : ∀ u, u ∈ met ↔ Reaches raw d u) (c : Ty) :
    c ∈ met.flatMap (parts raw) ↔ Contributes raw d c := by
  rw [mem_flatMap]
  constructor
  · rintro ⟨u, hu, hc⟩
    rw [hmet] at hu
    unfold parts at hc
    split at hc
    · next hnone => exact mem_singleton.mp hc ▸ .undefined hu hnone
    · next t ht =>
      split at hc
      · next hcond =>
        simp only [Bool.and_eq_true, isNone_iff_eq_none] at hcond
        rcases mem_pair.mp hc with rfl | rfl
        · exact .own hu ht
        · exact .unnamed hu ht hcond.1 hcond.2
      · exact mem_singleton.mp hc ▸ .own hu ht
  · intro hc
    cases hc with
    | @own u t hu ht =>
      refine ⟨u, (hmet u).mpr hu, ?_⟩
      simp only [parts, ht]
      split <;> exact mem_cons_self
    | @unnamed u t hu ht htag hnone =>
      have hsynonym : t.hasSynonym := htag
      exact ⟨u, (hmet u).mpr hu, by simp [parts, ht, hsynonym, hnone]⟩
    | @undefined u hu hnone => exact ⟨u, (hmet u).mpr hu, by simp [parts, hnone]⟩

/-! ### Gathering contributions -/

/-- What an expansion of `d` under the typedefs of `stack` has gathered when the references of
`rest` are left: it has met typedefs that `d` reaches, and whatever these refer to it has met, noted
as pending or left for later. -/
structure Gathers (raw : Definitions) (stack : List DeclId) (d : DeclId) (rest met : List DeclId)
    (out : Unfolding) : Prop where
  self : d ∈ met
  reached : ∀ u ∈ met, Reaches raw d u
  closed : ∀ u ∈ met, ∀ v, RefersTo raw u v → v ∈ met ∨ v ∈ out.pending ∨ (u = d ∧ v ∈ rest)
  pending : ∀ v ∈ out.pending, v ∈ stack ∧ TransGen (RefersTo raw) d v
  ty : out.ty = .unionAll (met.flatMap (parts raw))

/-- An expansion is complete: it has gathered everything, with nothing pending. -/
def Complete (raw : Definitions) (d : DeclId) (t : Ty) : Prop :=
  ∃ met, Gathers raw [] d [] met ⟨t, []⟩

/-- A complete expansion has met exactly what the typedef reaches. -/
theorem Complete.eq_union (h : Complete raw d t) :
    ∃ cs, (∀ c, c ∈ cs ↔ Contributes raw d c) ∧ t = .unionAll cs := by
  obtain ⟨met, hself, hreached, hclosed, -, hty⟩ := h
  have hmet (u : DeclId) : u ∈ met ↔ Reaches raw d u := by
    refine ⟨hreached u, fun hreach => ?_⟩
    induction hreach with
    | refl => exact hself
    | tail _ hrefers ih => simpa using hclosed _ ih _ hrefers
  exact ⟨_, mem_flatMap_parts hmet, hty⟩

/-- Two typedefs refer to each other, and one of them is marked as recursive. -/
def Marks (raw : Definitions) (done : Finished) (d e : DeclId) : Prop :=
  Reaches raw d e ∧ Reaches raw e d ∧ ∃ x, done.lookup e = some x ∧ x.recursive

/-- A complete expansion with a mark if it mentions its typedef. A typedef that is marked otherwise
is on a circle of references. -/
structure Right (raw : Definitions) (d : DeclId) (e : Expansion) : Prop where
  complete : Complete raw d e.ty
  mentions : e.ty.mentions d → e.recursive
  marked : e.recursive → e.ty.mentions d ∨ TransGen (RefersTo raw) d d

/-- What is kept while the typedefs of `stack` are under way: right expansions of others. Of every
circle of references some typedef is marked. -/
structure Kept (raw : Definitions) (stack : List DeclId) (done : Finished) : Prop where
  clear : ∀ v ∈ stack, done.lookup v = none
  right : ∀ d e, done.lookup d = some e → Right raw d e
  circles : ∀ d, (done.lookup d).isSome → TransGen (RefersTo raw) d d → ∃ e, Marks raw done d e

/-- What an expansion of `d` gives and keeps. -/
structure Unfolds (raw : Definitions) (stack : List DeclId) (d : DeclId) (done : Finished)
    (out : Unfolding × Finished) : Prop where
  gathers : ∃ met, Gathers raw stack d [] met out.1
  keeps : Kept raw stack out.2
  kept : ∀ k, (done.lookup k).isSome → (out.2.lookup k).isSome
  /-- An expansion with nothing pending is kept. -/
  finished : out.1.pending = [] → (raw.lookup d).isSome → (out.2.lookup d).isSome

/-- A reference to a typedef under way is noted as pending. -/
theorem Gathers.skip {t : DeclId} (h : Gathers raw stack d (t :: rest) met acc)
    (hd : RefersTo raw d t) (ht : t ∈ stack) :
    Gathers raw stack d rest met { acc with pending := acc.pending ++ [t] } where
  self := h.self
  reached := h.reached
  closed u hu v hv := by
    rcases h.closed u hu v hv with hmem | hmem | ⟨rfl, hmem⟩
    · exact .inl hmem
    · exact .inr (.inl (mem_append_left _ hmem))
    · rcases mem_cons.mp hmem with rfl | hmem
      · exact .inr (.inl (by simp))
      · exact .inr (.inr ⟨rfl, hmem⟩)
  pending v hv := by
    rcases mem_append.mp hv with hv | hv
    · exact h.pending v hv
    · exact mem_singleton.mp hv ▸ ⟨ht, .single hd⟩
  ty := h.ty

/-- The expansion of a reference is added. -/
theorem Gathers.add (hraw : ∀ e ∈ raw, e.2.WellFormed) {t : DeclId} {met' : List DeclId}
    {inner : Unfolding} (h : Gathers raw stack d (t :: rest) met acc) (ht : RefersTo raw d t)
    (hinner : Gathers raw stack t [] met' inner) :
    Gathers raw stack d rest (met ++ met')
      ⟨acc.ty.union inner.ty, acc.pending ++ inner.pending⟩ where
  self := mem_append_left _ h.self
  reached u hu := by
    rcases mem_append.mp hu with hu | hu
    · exact h.reached u hu
    · exact .head ht (hinner.reached u hu)
  closed u hu v hv := by
    rcases mem_append.mp hu with hu | hu
    · rcases h.closed u hu v hv with hmem | hmem | ⟨rfl, hmem⟩
      · exact .inl (mem_append_left _ hmem)
      · exact .inr (.inl (mem_append_left _ hmem))
      · rcases mem_cons.mp hmem with rfl | hmem
        · exact .inl (mem_append_right _ hinner.self)
        · exact .inr (.inr ⟨rfl, hmem⟩)
    · rcases hinner.closed u hu v hv with hmem | hmem | ⟨-, hmem⟩
      · exact .inl (mem_append_right _ hmem)
      · exact .inr (.inl (mem_append_right _ hmem))
      · exact absurd hmem not_mem_nil
  pending v hv := (mem_append.mp hv).elim (h.pending v) fun hv =>
    (hinner.pending v hv).imp_right (.head ht)
  ty := by
    have hparts (met : List DeclId) : ∀ c ∈ met.flatMap (parts raw), c.WellFormed := by
      intro c hc
      obtain ⟨u, -, hc⟩ := mem_flatMap.mp hc
      exact parts_wellFormed hraw u c hc
    rw [flatMap_append, unionAll_append (hparts met) (hparts met'), h.ty, hinner.ty]

/-- The expansions of all references are added one after the other. If nothing is pending in the
end all of them are kept. -/
theorem unfoldAll_gathers (hraw : ∀ e ∈ raw, e.2.WellFormed)
    {inner : DeclId → Finished → Unfolding × Finished}
    (hinner : ∀ t done, t ∉ stack → Kept raw stack done → Unfolds raw stack t done (inner t done))
    {refs : List DeclId} (hrefs : ∀ t ∈ refs, RefersTo raw d t)
    (hacc : Gathers raw stack d refs met acc) (hdone : Kept raw stack done) :
    let out := unfoldAll inner stack refs acc done
    (∃ met', Gathers raw stack d [] met' out.1) ∧ Kept raw stack out.2 ∧
      (∀ k, (done.lookup k).isSome → (out.2.lookup k).isSome) ∧
      (out.1.pending = [] → acc.pending = [] ∧
        ∀ r ∈ refs, (raw.lookup r).isSome → (out.2.lookup r).isSome) := by
  induction refs generalizing met acc done with
  | nil => exact ⟨⟨met, hacc⟩, hdone, fun k hk => hk, fun h => ⟨h, by simp⟩⟩
  | cons t refs ih =>
    rw [forall_mem_cons] at hrefs
    unfold unfoldAll
    split
    · next ht =>
      obtain ⟨hgathers, hkeeps, hkept, hpending⟩ :=
        ih hrefs.2 (hacc.skip hrefs.1 (contains_iff_mem.mp ht)) hdone
      exact ⟨hgathers, hkeeps, hkept, fun h => by simpa using (hpending h).1⟩
    · next ht =>
      obtain ⟨⟨met', hgathers'⟩, hkeeps, hkept, hfinished⟩ :=
        hinner t done (by simpa using ht) hdone
      obtain ⟨hgathers, hkeeps', hkept', hpending⟩ :=
        ih hrefs.2 (hacc.add hraw hrefs.1 hgathers') hkeeps
      refine ⟨hgathers, hkeeps', fun k hk => hkept' k (hkept k hk), fun h => ?_⟩
      obtain ⟨hnone, hothers⟩ := hpending h
      obtain ⟨hacc, hinner⟩ := append_eq_nil_iff.mp hnone
      exact ⟨hacc, forall_mem_cons.mpr ⟨fun ht => hkept' t (hfinished hinner ht), hothers⟩⟩

/-- After all references the typedef itself is no longer pending, and the expansion is kept if
nothing is. -/
def finish (d : DeclId) (out : Unfolding × Finished) : Unfolding × Finished :=
  let pending := out.1.pending.filter (· != d)
  (⟨out.1.ty, pending⟩,
    if pending.isEmpty then
      (d, ⟨out.1.ty, out.1.pending.contains d || out.1.ty.mentions d⟩) :: out.2
    else out.2)

/-- A mark stays when another typedef is kept. -/
theorem Marks.cons {k e : DeclId} (h : Marks raw done k e) (hd : done.lookup d = none)
    (x : Expansion) : Marks raw ((d, x) :: done) k e := by
  obtain ⟨hke, hek, y, hy, hrecursive⟩ := h
  have hne : e ≠ d := by
    rintro rfl
    simp [hd] at hy
  exact ⟨hke, hek, y, by rw [lookup_cons_eq_ite, if_neg hne, hy], hrecursive⟩

/-- The expansion of `d` is kept with its mark. -/
theorem Kept.cons (h : Kept raw (d :: stack) done)
    (hgathers : Gathers raw (d :: stack) d [] met out) (hcomplete : Complete raw d out.ty)
    (hd : d ∉ stack) (hnone : ∀ v ∈ out.pending, v = d)
    (hrefs : out.pending = [] → ∀ r, RefersTo raw d r → (raw.lookup r).isSome →
      (done.lookup r).isSome) :
    Kept raw stack ((d, ⟨out.ty, out.pending.contains d || out.ty.mentions d⟩) :: done) := by
  have hsame {e : DeclId} (he : e ≠ d) (x : Expansion) :
      lookup e ((d, x) :: done) = done.lookup e := by
    rw [lookup_cons_eq_ite, if_neg he]
  have hclear := h.clear d mem_cons_self
  refine ⟨fun v hv => ?_, fun k e he => ?_, fun k hk hcircle => ?_⟩
  · rw [hsame (fun heq => hd (heq ▸ hv))]
    exact h.clear v (mem_cons_of_mem d hv)
  · rw [lookup_cons_eq_ite] at he
    split at he
    · next hkd =>
      cases he
      subst hkd
      refine ⟨hcomplete, fun hmentions => by simp [hmentions], fun hrecursive => ?_⟩
      rw [Bool.or_eq_true, contains_iff_mem] at hrecursive
      exact hrecursive.symm.imp_right fun hmem => (hgathers.pending k hmem).2
    · exact h.right k e he
  · by_cases hkd : k = d
    · subst hkd
      by_cases hmem : k ∈ out.pending
      · exact ⟨k, .refl, .refl, _, lookup_cons_self, by simp [hmem]⟩
      · -- Nothing was pending, so the next typedef on the circle has been kept.
        have hempty := eq_nil_iff_forall_not_mem.mpr fun v hv => hmem (hnone v hv ▸ hv)
        obtain ⟨r, hstep, hback⟩ := TransGen.head'_iff.mp hcircle
        have hcircle' : TransGen (RefersTo raw) r r := .tail' hback hstep
        obtain ⟨_, ⟨t, -, ht, -⟩, -⟩ := TransGen.head'_iff.mp hcircle'
        obtain ⟨e, hre, her, hmarks⟩ :=
          h.circles r (hrefs hempty r hstep (isSome_of_eq_some ht)) hcircle'
        exact ⟨e, .cons ⟨.head hstep hre, her.trans hback, hmarks⟩ hclear _⟩
    · obtain ⟨e, hmarks⟩ := h.circles k (hsame hkd _ ▸ hk) hcircle
      exact ⟨e, hmarks.cons hclear _⟩

theorem Gathers.unfolds {done' : Finished} (h : Gathers raw (d :: stack) d [] met out)
    (hd : d ∉ stack) (hdone : Kept raw (d :: stack) done')
    (hkept : ∀ k, (done.lookup k).isSome → (done'.lookup k).isSome)
    (hrefs : out.pending = [] → ∀ r, RefersTo raw d r → (raw.lookup r).isSome →
      (done'.lookup r).isSome) :
    Unfolds raw stack d done (finish d (out, done')) := by
  have hgathers : Gathers raw stack d [] met ⟨out.ty, out.pending.filter (· != d)⟩ := by
    refine ⟨h.self, h.reached, fun u hu v hv => ?_, fun v hv => ?_, h.ty⟩
    · rcases h.closed u hu v hv with hmem | hmem | hmem
      · exact .inl hmem
      · by_cases hvd : v = d
        · exact .inl (hvd ▸ h.self)
        · exact .inr (.inl (mem_filter.mpr ⟨hmem, by simpa using hvd⟩))
      · exact .inr (.inr hmem)
    · obtain ⟨hmem, hvd⟩ := mem_filter.mp hv
      exact (h.pending v hmem).imp_left fun hv => (mem_cons.mp hv).resolve_left (by simpa using hvd)
  refine ⟨⟨met, hgathers⟩, ?_, fun k hk => ?_, fun hpending _ => ?_⟩
  · dsimp only [finish]
    split
    · next hempty =>
      rw [List.isEmpty_iff] at hempty
      refine hdone.cons h ?_ hd (fun v hv => by simpa using filter_eq_nil_iff.mp hempty v hv) hrefs
      exact ⟨met, hgathers.self, hgathers.reached, hempty ▸ hgathers.closed, by simp, hgathers.ty⟩
    · exact { hdone with clear := fun v hv => hdone.clear v (mem_cons_of_mem d hv) }
  · dsimp only [finish]
    split
    · rw [lookup_cons_eq_ite]
      split
      · rfl
      · exact hkept k hk
    · exact hkept k hk
  · have hpending : out.pending.filter (· != d) = [] := hpending
    simp [finish, hpending]

/-- The definition of a typedef alone has been gathered. -/
theorem Gathers.start (hpending : out.pending = []) (hrefers : ∀ v, RefersTo raw d v → v ∈ rest)
    (hty : out.ty = .unionAll (parts raw d)) :
    Gathers raw stack d rest [d] out where
  self := mem_singleton_self d
  reached u hu := mem_singleton.mp hu ▸ .refl
  closed u hu v hv := by
    obtain rfl := mem_singleton.mp hu
    exact .inr (.inr ⟨rfl, hrefers v hv⟩)
  pending := by simp [hpending]
  ty := by simpa using hty

/-- The expansion of a typedef with a definition goes through all of its references. -/
theorem unfoldStep_eq (htype : t.WellFormed) (hnone : done.lookup d = none)
    (ht : raw.lookup d = some t) (inner : List DeclId → DeclId → Finished → Unfolding × Finished) :
    ∃ refs, (∀ v, RefersTo raw d v ↔ v ∈ refs) ∧
      unfoldStep raw inner stack d done = finish d (unfoldAll (inner (d :: stack)) (d :: stack) refs
        ⟨.unionAll (parts raw d), []⟩ done) := by
  have hown : .unionAll [t.without (.single .synonym)] = t.without (.single .synonym) :=
    never_below (htype.without _)
  cases hsynonym : t.hasSynonym with
  | true =>
    cases hrefs : t.payload? .synonym with
    | some p =>
      obtain ⟨ds, rfl⟩ := exists_of_payload?_synonym hrefs
      refine ⟨ds.ids, fun v => by simp [refersTo_iff ht, hrefs, Membership.mem], ?_⟩
      rw [show .unionAll (parts raw d) = t.without (.single .synonym) by
        simp [parts, ht, hrefs, hown]]
      simp only [unfoldStep, hnone, ht, hsynonym, hrefs]
      rfl
    | none =>
      refine ⟨[], fun v => by simp [refersTo_iff ht, hrefs], ?_⟩
      rw [show unionAll (parts raw d) = (t.without (Tags.single .synonym)).union any by
        simp [parts, ht, hsynonym, hrefs, unionAll]]
      simp only [unfoldStep, hnone, ht, hsynonym, hrefs]
      rfl
  | false =>
    have hrefs := htype.payload?_eq_none (Bool.eq_false_iff.mp hsynonym)
    refine ⟨[], fun v => by simp [refersTo_iff ht, hrefs], ?_⟩
    rw [show .unionAll (parts raw d) = t.without (.single .synonym) by
      simp [parts, ht, hsynonym, hown]]
    simp only [unfoldStep, hnone, ht, hsynonym]
    rfl

/-- One expansion gathers what it should when the expansions inside of it do. -/
theorem unfoldStep_unfolds (hraw : ∀ e ∈ raw, e.2.WellFormed)
    {inner : List DeclId → DeclId → Finished → Unfolding × Finished} (hd : d ∉ stack)
    (hdone : Kept raw stack done)
    (hinner : (raw.lookup d).isSome → ∀ t done, t ∉ d :: stack → Kept raw (d :: stack) done →
      Unfolds raw (d :: stack) t done (inner (d :: stack) t done)) :
    Unfolds raw stack d done (unfoldStep raw inner stack d done) := by
  cases he : done.lookup d with
  | some e =>
    obtain ⟨met, hself, hreached, hclosed, -, hty⟩ := (hdone.right d e he).complete
    rw [unfoldStep, he]
    exact ⟨⟨met, hself, hreached, hclosed, by simp, hty⟩, hdone, fun k hk => hk,
      fun _ _ => by simp [he]⟩
  | none =>
    cases ht : raw.lookup d with
    | none =>
      rw [unfoldStep, he, ht]
      refine ⟨⟨[d], .start rfl ?_ ?_⟩, hdone, fun k hk => hk, by simp [ht]⟩
      · rintro v ⟨t, ds, ht', -⟩
        simp [ht] at ht'
      · simp [parts, ht, unionAll]
    | some t =>
      obtain ⟨refs, hrefs, hstep⟩ := unfoldStep_eq (hraw _ (mem_of_lookup ht)) he ht inner
      have hstart : Gathers raw (d :: stack) d refs [d] ⟨.unionAll (parts raw d), []⟩ :=
        .start rfl (fun v => (hrefs v).mp) rfl
      obtain ⟨⟨met, hgathers⟩, hkeeps, hkept, hpending⟩ := unfoldAll_gathers hraw
        (hinner (by simp [ht])) (fun v => (hrefs v).mpr) hstart
        { hdone with clear := forall_mem_cons.mpr ⟨he, hdone.clear⟩ }
      rw [hstep]
      exact hgathers.unfolds hd hkeeps hkept fun hnone r hr =>
        (hpending hnone).2 r ((hrefs r).mp hr)

/-! ### All typedefs -/

/-- The bound on the typedefs under way is never met, since these are different typedefs with a
definition. -/
theorem unfoldOne_unfolds (hraw : ∀ e ∈ raw, e.2.WellFormed) (n : Nat) (hstack : stack.Nodup)
    (hdefined : stack ⊆ raw.map fst) (hn : raw.length < n + stack.length) (hd : d ∉ stack)
    (hdone : Kept raw stack done) : Unfolds raw stack d done (unfoldOne raw n stack d done) := by
  induction n generalizing stack d done with
  | zero =>
    have hle : stack.length ≤ raw.length := by simpa using hstack.length_le_of_subset hdefined
    omega
  | succ n ih =>
    refine unfoldStep_unfolds hraw hd hdone fun hsome t done ht hdone => ?_
    obtain ⟨t', ht'⟩ := isSome_iff_exists.mp hsome
    have hmem : d ∈ raw.map fst := mem_map_of_mem (mem_of_lookup ht')
    refine ih (nodup_cons.mpr ⟨hd, hstack⟩) (cons_subset.mpr ⟨hmem, hdefined⟩) ?_ ht hdone
    rw [length_cons]
    omega

/-- A key has an entry. -/
theorem isSome_lookup_of_mem {α : Type} {entries : List (DeclId × α)} {k : DeclId}
    (h : k ∈ entries.map fst) : (entries.lookup k).isSome := by
  obtain ⟨e, he, rfl⟩ := mem_map.mp h
  exact lookup_isSome_iff.mpr ⟨e, he, beq_self_eq_true _⟩

section

variable (hraw : ∀ e ∈ raw, e.2.WellFormed)

include hraw

/-- What is kept when a list of typedefs has been expanded. -/
theorem foldl_unfoldOne (es : Definitions) (hes : es ⊆ raw) (hdone : Kept raw [] done) :
    Kept raw [] (es.foldl (fun done e => (unfoldOne raw (raw.length + 1) [] e.1 done).2) done) ∧
      ∀ k, (done.lookup k).isSome ∨ k ∈ es.map fst →
        ((es.foldl (fun done e => (unfoldOne raw (raw.length + 1) [] e.1 done).2) done).lookup
          k).isSome := by
  induction es generalizing done with
  | nil => exact ⟨hdone, by simp⟩
  | cons e es ih =>
    rw [cons_subset] at hes
    have hunfolds : Unfolds raw [] e.1 done (unfoldOne raw (raw.length + 1) [] e.1 done) :=
      unfoldOne_unfolds hraw _ nodup_nil (nil_subset _) (by simp) not_mem_nil hdone
    obtain ⟨hkeeps, hkept⟩ := ih hes.2 hunfolds.keeps
    refine ⟨hkeeps, fun k hk => hkept k ?_⟩
    rcases hk with hk | hk
    · exact .inl (hunfolds.kept k hk)
    · rcases mem_cons.mp hk with rfl | hk
      · obtain ⟨met, hgathers⟩ := hunfolds.gathers
        have hpending := eq_nil_iff_forall_not_mem.mpr fun v hv =>
          not_mem_nil (hgathers.pending v hv).1
        have hdefined := isSome_lookup_of_mem (mem_map_of_mem hes.1)
        exact .inl (hunfolds.finished hpending hdefined)
      · exact .inr hk

/-- Every typedef with a definition gets an expansion, and the expansions are those that are kept in
the end. -/
theorem all_kept : (all raw).map fst = raw.map fst ∧ ∃ done, Kept raw [] done ∧
      ∀ d x, (all raw).lookup d = some x → done.lookup d = some x := by
  have hnothing : Kept raw [] [] := ⟨by simp, by simp, by simp⟩
  obtain ⟨hkeeps, hkept⟩ := foldl_unfoldOne hraw raw (.refl raw) hnothing
  refine ⟨?_, _, hkeeps, fun d x hx => ?_⟩
  · rw [all, map_filterMap, ← filterMap_eq_map]
    refine filterMap_congr fun e he => ?_
    obtain ⟨x, hx⟩ := isSome_iff_exists.mp (hkept e.1 (.inr (mem_map_of_mem he)))
    simp [hx]
  · obtain ⟨e, -, he⟩ := mem_filterMap.mp (mem_of_lookup hx)
    obtain ⟨x', hx', heq⟩ := map_eq_some_iff.mp he
    cases heq
    exact hx'

/-- Every typedef with a definition gets a complete expansion. -/
theorem all_complete : (all raw).map fst = raw.map fst ∧
      ∀ d x, (all raw).lookup d = some x → Complete raw d x.ty := by
  obtain ⟨hkeys, done, hkeeps, hdone⟩ := all_kept hraw
  exact ⟨hkeys, fun d x hx => (hkeeps.right d x (hdone d x hx)).complete⟩

end

/-! ### Other numbers for the typedefs -/

section

variable {f : DeclId → DeclId} {raw' : Definitions}

theorem map_fst_renamed (raw : Definitions) :
    (raw.map (map f (rename f))).map fst = (raw.map fst).map f := by simp

theorem lookup_renamed (hkeys : (raw.map Prod.fst).Nodup) (hf : f.Injective)
    (hperm : raw'.Perm (raw.map (Prod.map f (rename f)))) (d : DeclId) :
    raw'.lookup (f d) = (raw.lookup d).map (rename f) := by
  have hkeys' : (raw'.map Prod.fst).Nodup := by
    rw [(hperm.map Prod.fst).nodup_iff, map_fst_renamed]
    exact hkeys.map hf
  ext t'
  rw [lookup_eq_some_iff_mem hkeys', hperm.mem_iff, List.mem_map, map_eq_some_iff]
  constructor
  · rintro ⟨⟨e, t⟩, hmem, heq⟩
    obtain ⟨he, rfl⟩ := Prod.mk.inj heq
    obtain rfl := hf he
    exact ⟨t, (lookup_eq_some_iff_mem hkeys).mpr hmem, rfl⟩
  · rintro ⟨t, ht, rfl⟩
    exact ⟨(d, t), mem_of_lookup ht, rfl⟩

variable (hlookup : ∀ d, raw'.lookup (f d) = (raw.lookup d).map (.rename f))
include hlookup

theorem refersTo_renamed_iff : RefersTo raw' (f d) v ↔ ∃ u, RefersTo raw d u ∧ f u = v := by
  constructor
  · rintro ⟨t', ds', ht', hds', hv⟩
    obtain ⟨t, ht, rfl⟩ := map_eq_some_iff.mp (hlookup d ▸ ht')
    rw [payload?_rename, map_eq_some_iff] at hds'
    obtain ⟨p, hp, hds'⟩ := hds'
    obtain ⟨ds, rfl⟩ := exists_of_payload?_synonym hp
    obtain rfl := Payload.synonym.inj hds'
    obtain ⟨u, hu, rfl⟩ := DeclSet.mem_image.mp hv
    exact ⟨u, ⟨t, ds, ht, hp, hu⟩, rfl⟩
  · rintro ⟨u, ⟨t, ds, ht, hds, hu⟩, rfl⟩
    have hds' : (t.rename f).payload? .synonym = some (.synonym (ds.image f)) := by
      rw [payload?_rename, hds]
      rfl
    exact ⟨t.rename f, ds.image f, by rw [hlookup, ht]; rfl, hds',
      DeclSet.mem_image.mpr ⟨u, hu, rfl⟩⟩

theorem reaches_renamed_iff : Reaches raw' (f d) v ↔ ∃ u, Reaches raw d u ∧ f u = v := by
  constructor
  · intro hreach
    induction hreach with
    | refl => exact ⟨d, .refl, rfl⟩
    | tail _ hrefers ih =>
      obtain ⟨u, hu, rfl⟩ := ih
      obtain ⟨w, hw, rfl⟩ := (refersTo_renamed_iff hlookup).mp hrefers
      exact ⟨w, hu.tail hw, rfl⟩
  · rintro ⟨u, hreach, rfl⟩
    exact hreach.lift f fun a b hab => (refersTo_renamed_iff hlookup).mpr ⟨b, hab, rfl⟩

/-- What a typedef contributes does not depend on the numbers of the typedefs. -/
theorem contributes_renamed_iff {c' : Ty} :
    Contributes raw' (f d) c' ↔ ∃ c, Contributes raw d c ∧ c.rename f = c' := by
  constructor
  · intro hc
    cases hc with
    | own hu' ht' =>
      obtain ⟨u, hu, rfl⟩ := (reaches_renamed_iff hlookup).mp hu'
      obtain ⟨t, ht, rfl⟩ := map_eq_some_iff.mp (hlookup u ▸ ht')
      exact ⟨_, .own hu ht, rename_without ..⟩
    | unnamed hu' ht' htag hnone =>
      obtain ⟨u, hu, rfl⟩ := (reaches_renamed_iff hlookup).mp hu'
      obtain ⟨t, ht, rfl⟩ := map_eq_some_iff.mp (hlookup u ▸ ht')
      rw [payload?_rename, map_eq_none_iff] at hnone
      exact ⟨_, .unnamed hu ht (rename_tags f t ▸ htag) hnone, rfl⟩
    | undefined hu' hnone =>
      obtain ⟨u, hu, rfl⟩ := (reaches_renamed_iff hlookup).mp hu'
      exact ⟨_, .undefined hu (map_eq_none_iff.mp (hlookup u ▸ hnone)), rfl⟩
  · rintro ⟨c, hc, rfl⟩
    cases hc with
    | @own u t hu ht =>
      rw [rename_without]
      exact .own ((reaches_renamed_iff hlookup).mpr ⟨u, hu, rfl⟩) (by rw [hlookup, ht]; rfl)
    | @unnamed u t hu ht htag hnone =>
      refine .unnamed ((reaches_renamed_iff hlookup).mpr ⟨u, hu, rfl⟩)
        (by rw [hlookup, ht]; rfl) (by rwa [rename_tags]) ?_
      rw [payload?_rename, hnone]
      rfl
    | @undefined u hu hnone =>
      exact .undefined ((reaches_renamed_iff hlookup).mpr ⟨u, hu, rfl⟩)
        (by rw [hlookup, hnone]; rfl)

/-- A complete expansion does not depend on the numbers of the typedefs. -/
theorem Complete.eq_rename (hraw' : ∀ e ∈ raw', e.2.WellFormed) {t' : Ty} (h : Complete raw d t)
    (h' : Complete raw' (f d) t') : t' = t.rename f := by
  obtain ⟨cs, hcs, rfl⟩ := h.eq_union
  obtain ⟨cs', hcs', rfl⟩ := h'.eq_union
  rw [rename_unionAll]
  refine unionAll_congr (fun c hc => ((hcs' c).mp hc).wellFormed hraw') fun c => ?_
  simp only [hcs', contributes_renamed_iff hlookup, List.mem_map, hcs]

end

/-- Every typedef with a definition, and no other, is given an expansion. This is the union of all
that the typedefs it reaches contribute, in whatever circles they refer to each other, and so
depends neither on their numbers nor on the order in which they are expanded. -/
theorem all_unites_reached (raw : Definitions) (hkeys : (raw.map fst).Nodup)
    (hraw : ∀ e ∈ raw, e.2.WellFormed) :
    (all raw).map fst = raw.map fst ∧ ∀ d x, (all raw).lookup d = some x →
        (∃ cs, (∀ c, c ∈ cs ↔ Contributes raw d c) ∧ x.ty = Ty.unionAll cs) ∧
        ∀ f : DeclId → DeclId, f.Injective →
          ∀ raw' : Definitions, raw'.Perm (raw.map (map f (Ty.rename f))) →
            ∃ x', (all raw').lookup (f d) = some x' ∧ x'.ty = x.ty.rename f := by
  obtain ⟨hall, hcomplete⟩ := all_complete hraw
  refine ⟨hall, fun d x hx => ⟨(hcomplete d x hx).eq_union, fun f hf raw' hperm => ?_⟩⟩
  have hraw' : ∀ e ∈ raw', e.2.WellFormed := by
    intro e' he'
    obtain ⟨e, he, rfl⟩ := List.mem_map.mp (hperm.mem_iff.mp he')
    exact (hraw e he).rename f
  obtain ⟨hall', hcomplete'⟩ := all_complete hraw'
  have hd := hall ▸ List.mem_map.mpr ⟨_, mem_of_lookup hx, rfl⟩
  have hmem : f d ∈ (all raw').map fst := by
    rw [hall', (hperm.map fst).mem_iff, map_fst_renamed]
    exact List.mem_map_of_mem hd
  obtain ⟨x', hx'⟩ := Option.isSome_iff_exists.mp (isSome_lookup_of_mem hmem)
  exact ⟨x', hx', (hcomplete d x hx).eq_rename (lookup_renamed hkeys hf hperm) hraw'
    (hcomplete' (f d) x' hx')⟩

/-- A definition that names kinds of values and typedefs. -/
def naming (tags : Tags) (ds : List DeclId) : Ty :=
  (exact (.synonym (.ofList ds))).union (.ofTags tags)

/-- The typedefs `0` to `3` form three circles that overlap; `4` refers into them and to a typedef
that has no definition, and `5` does not name what it refers to. -/
def circles : Definitions :=
  [(0, naming (.single .number) [1, 2]), (1, naming (.single .string) [0]),
    (2, naming (.single .null) [1, 3]), (3, naming (.single .long) [2]),
    (4, naming (.single .float) [0, 9]), (5, .ofTags (.single .synonym))]

/-- Numbers the typedefs of the circles the other way round. -/
def flipped (d : Nat) : Nat := if d ≤ 3 then 3 - d else d

theorem flipped_injective : flipped.Injective := by
  intro d e h
  unfold flipped at h
  split at h <;> split at h <;> omega

/-- Wherever circles that overlap are entered, every typedef gets the types of all of them. -/
theorem all_unites_reached_circles :
    (circles.map fst).Nodup ∧ (∀ e ∈ circles, e.2.WellFormed) ∧ flipped.Injective ∧
      ∃ x x' cs, (all circles).lookup 1 = some x ∧
        x.ty.tags.toList = [.null, .number, .long, .string] ∧
        (∀ c, c ∈ cs ↔ Contributes circles 1 c) ∧ x.ty = Ty.unionAll cs ∧
        (all (circles.map (map flipped (Ty.rename flipped))).reverse).lookup 2 = some x' ∧
        x'.ty = x.ty.rename flipped := by
  have hkeys : (circles.map fst).Nodup := by decide
  have hwellFormed : ∀ e ∈ circles, e.2.WellFormed := by decide +kernel
  obtain ⟨x, hx, htags⟩ : ∃ x, (all circles).lookup 1 = some x ∧
      x.ty.tags.toList = [.null, .number, .long, .string] := ⟨_, rfl, by decide⟩
  obtain ⟨⟨cs, hcs, hty⟩, hrenamed⟩ := (all_unites_reached circles hkeys hwellFormed).2 1 x hx
  obtain ⟨x', hx', hty'⟩ := hrenamed flipped flipped_injective _ (List.reverse_perm _)
  exact ⟨hkeys, hwellFormed, flipped_injective, x, x', cs, hx, htags, hcs, hty, hx', hty'⟩

end Expansion

end TypeFlow
