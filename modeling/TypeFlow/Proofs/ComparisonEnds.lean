import Mathlib.Data.Finset.Prod
import TypeFlow.Proofs.FiniteUnions
import TypeFlow.Proofs.Subtyping

/-!
# Comparisons end

A comparison of two types, for subtyping or for overlap, asks for the comparisons of types inside of
them. All types that are reached in this way are unions of listed types, so there are finitely many
pairs of them. Each step without typedefs leads further down, and each step that expands typedefs
adds a pair to those that are taken to hold. So the nesting of a comparison is limited, and the
bound that is used suffices.
-/

namespace TypeFlow

open List Option Ty

/-! ### Checks made of other checks -/

/-- A relation between answers that is kept when one answer decides which other one is taken. -/
structure Respected (R : Option Bool → Option Bool → Prop) : Prop where
  answer (r : Bool) : R (some r) (some r)
  choice {x x' y y' z z' : Option Bool} : R x x' → R y y' → R z z' →
    R (do if ← x then y else z) (do if ← x' then y' else z')

namespace Respected

theorem eq : Respected Eq where
  answer _ := rfl
  choice hx hy hz := by rw [hx, hy, hz]

theorem isSome : Respected fun x _ => x.isSome = true where
  answer _ := rfl
  choice {x _ _ _ _ _} hx hy hz := by
    obtain ⟨r, rfl⟩ := isSome_iff_exists.mp hx
    cases r with
    | false => exact hz
    | true => exact hy

/-- An answer that is given is kept, and one that is missing may be given. -/
theorem kept : Respected fun x x' => ∀ r, x = some r → x' = some r where
  answer _ _ h := h
  choice {x x' _ _ _ _} hx hy hz r h := by
    cases x with
    | none => cases h
    | some c =>
      rw [hx c rfl]
      cases c with
      | false => exact hz r h
      | true => exact hy r h

variable {R : Option Bool → Option Bool → Prop} {α : Type} {f g : α → Option Bool} {l : List α}

theorem allM (hR : Respected R) (h : ∀ x ∈ l, R (f x) (g x)) : R (l.allM f) (l.allM g) := by
  have hcons (f : α → Option Bool) (x : α) (l : List α) :
      (x :: l).allM f = (do if ← f x then l.allM f else pure false) := by
    rw [List.allM]
    congr 1
    funext r
    cases r <;> rfl
  induction l with
  | nil => exact hR.answer true
  | cons x l ih =>
    rw [forall_mem_cons] at h
    rw [hcons, hcons]
    exact hR.choice h.1 (ih h.2) (hR.answer false)

theorem anyM (hR : Respected R) (h : ∀ x ∈ l, R (f x) (g x)) : R (l.anyM f) (l.anyM g) := by
  have hcons (f : α → Option Bool) (x : α) (l : List α) :
      (x :: l).anyM f = (do if ← f x then pure true else l.anyM f) := by
    rw [List.anyM]
    congr 1
    funext r
    cases r <;> rfl
  induction l with
  | nil => exact hR.answer false
  | cons x l ih =>
    rw [forall_mem_cons] at h
    rw [hcons, hcons]
    exact hR.choice h.1 (hR.answer true) (ih h.2)

end Respected

namespace Ty

variable {table : DeclTable} {R : Option Bool → Option Bool → Prop} {f g : Ty → Ty → Option Bool}
  {S : List Ty} {a b t u : Ty} {p q : Payload Ty} {guard : List (Ty × Ty)} {k m n : Nat}
  {step : ComparisonStep}

/-! ### Going down -/

/-- Levels of a type that are left to compare, where the literals behind members of an enumeration
are half a level down. -/
def height (t : Ty) : Nat := 2 * t.depth + if .enum ∈ t.tags then 1 else 0

/-- The types inside of a type that a comparison looks at. -/
def Inner (t u : Ty) : Prop :=
  (∃ p ∈ t.data, u ∈ p.components) ∨ (.enum ∈ t.tags ∧ u = ofTags .enumValues)

/-- The pairs that a comparison of `a` with `b` leads to: a type inside of `a` together with one
inside of `b`, with `b` or with `b` apart from enumerations. -/
def Lower (a b t u : Ty) : Prop := Inner a t ∧ (Inner b u ∨ u = b ∨ u = b.without (.single .enum))

theorem height_le (h : t.depth ≤ k) : t.height ≤ 2 * k + 1 := by
  unfold height
  split <;> omega

theorem Inner.height_lt (h : Inner t u) : u.height < t.height := by
  rcases h with ⟨p, hp, hu⟩ | ⟨henum, rfl⟩
  · have hdepth := depth_lt_of_mem_components hp hu
    have hu : u.height ≤ 2 * u.depth + 1 := height_le le_rfl
    have ht : 2 * t.depth ≤ t.height := Nat.le_add_right ..
    omega
  · have hzero : (ofTags .enumValues).height = 0 := by decide
    have hone : t.height = 2 * t.depth + 1 := by rw [height, if_pos henum]
    omega

theorem height_without_le (t : Ty) (tags : Tags) : (t.without tags).height ≤ t.height := by
  have hdepth := depth_without_le t tags
  unfold height
  split
  · next henum =>
    rw [without_tags, Tags.mem_sdiff] at henum
    rw [if_pos henum.1]
    omega
  · omega

theorem Lower.height_lt (h : Lower a b t u) : t.height + u.height < a.height + b.height := by
  have ht := h.1.height_lt
  have hu : u.height ≤ b.height := by
    rcases h.2 with hu | rfl | rfl
    · exact hu.height_lt.le
    · exact le_rfl
    · exact height_without_le b _
  omega

theorem Inner.spanned (hS : IsBasis table S) (ht : Spanned S t) (h : Inner t u) : Spanned S u := by
  rcases h with ⟨p, hp, hu⟩ | ⟨-, rfl⟩
  · exact ht.component hS.wellFormed hS.component hp hu
  · exact .of_mem hS.wellFormed hS.enumValues

theorem Lower.spanned (hS : IsBasis table S) (ha : Spanned S a) (hb : Spanned S b)
    (h : Lower a b t u) : Spanned S t ∧ Spanned S u := by
  refine ⟨h.1.spanned hS ha, ?_⟩
  rcases h.2 with hu | rfl | rfl
  · exact hu.spanned hS hb
  · exact hb
  · exact hS.spanned_without (by decide) hb

theorem inner_enumValue (h : .enum ∈ t.tags) : Inner t t.enumValue := by
  unfold enumValue
  split
  · next hp => exact .inl ⟨_, payload?_mem hp, by simp⟩
  · exact .inr ⟨h, rfl⟩

/-! ### What a step asks for -/

/-- A step compares two types with the given answers about types inside of them, where some pairs
are taken to hold. -/
abbrev ComparisonStep := List (Ty × Ty) → (Ty → Ty → Option Bool) → Ty → Ty → Option Bool

/-- A step towards subtyping. -/
def subtypeStep (table : DeclTable) : ComparisonStep := fun guard le a b =>
  if a.isNever then some true
  else if b.isNever then some false
  else if (a.hasSynonym || b.hasSynonym) && guard.contains (a, b) then some true
  else subtypeExpanded? table le (a.expand table) (b.expand table)

/-- A step towards overlap. -/
def overlapStep (table : DeclTable) : ComparisonStep := fun guard meets a b =>
  if a.isNever || b.isNever then some false
  else if (a.hasSynonym || b.hasSynonym) && (guard.contains (a, b) || guard.contains (b, a)) then
    some true
  else overlapExpanded? table meets (a.expand table) (b.expand table)

/-- The answer within a number of nested steps. -/
def answerWithin (step : ComparisonStep) : Nat → List (Ty × Ty) → Ty → Ty → Option Bool
  | 0, _, _, _ => none
  | n + 1, guard, a, b => step guard (answerWithin step n (assumed guard a b)) a b

theorem subtype?_eq_answerWithin (table : DeclTable) (n : Nat) :
    subtype? table n = answerWithin (subtypeStep table) n := by
  induction n with
  | zero => rfl
  | succ n ih =>
    funext guard a b
    rw [subtype?_succ, ih]
    rfl

theorem overlap?_eq_answerWithin (table : DeclTable) (n : Nat) :
    overlap? table n = answerWithin (overlapStep table) n := by
  induction n with
  | zero => rfl
  | succ n ih =>
    funext guard a b
    rw [overlap?, answerWithin, overlapStep, ih]
    by_cases hsynonym : (a.hasSynonym || b.hasSynonym)
    · simp only [hsynonym, assumed, if_true, Bool.true_and]
    · have hnone : a.hasSynonym = false ∧ b.hasSynonym = false := by simpa using hsynonym
      simp only [hsynonym, assumed, expand_of_not_hasSynonym hnone.1,
        expand_of_not_hasSynonym hnone.2, Bool.false_and, Bool.false_eq_true, if_false]

/-- The comparisons inside of a comparison of `a` with `b`: if typedefs are expanded, the pair is
not taken to hold yet. -/
structure Nested (table : DeclTable) (guard : List (Ty × Ty)) (a b t u : Ty) : Prop where
  fresh : (a.hasSynonym || b.hasSynonym) → (a, b) ∉ guard
  lower : Lower (a.expand table) (b.expand table) t u ∨ Lower (b.expand table) (a.expand table) t u

/-- The answer of a step depends on nothing but the answers of the comparisons inside of it. -/
def AsksNested (table : DeclTable) (step : ComparisonStep) : Prop :=
  ∀ {R : Option Bool → Option Bool → Prop}, Respected R → ∀ {guard f g a b},
    (∀ t u, Nested table guard a b t u → R (f t u) (g t u)) →
      R (step guard f a b) (step guard g a b)

section

variable (hR : Respected R)

include hR

theorem subtypePayload?_respects
    (h : ∀ t u, (t ∈ p.components ∨ p.tag = .enum ∧ t = ofTags .enumValues) → u ∈ q.components → R
      (f t u) (g t u) ∧ R (f u t) (g u t)) :
    R (subtypePayload? table f p q) (subtypePayload? table g p q) := by
  have hzip {ts us : List Ty} {e : Ty × Ty} (he : e ∈ ts.zip us) : e.1 ∈ ts ∧ e.2 ∈ us :=
    of_mem_zip he
  unfold subtypePayload?
  split
  any_goals exact hR.answer _
  · next t u => exact (h t u (by simp) (by simp)).1
  · next ts u => exact hR.allM fun t ht => (h t u (.inl ht) (by simp)).1
  · split
    · exact hR.allM fun e he => (h e.1 e.2 (.inl (hzip he).1) (hzip he).2).1
    · exact hR.answer _
  · next k v k' v' =>
    exact hR.choice (h k k' (by simp) (by simp)).1 (h v v' (by simp) (by simp)).1 (hR.answer false)
  · next args r args' r' =>
    split
    · refine hR.choice (hR.allM fun e he => ?_) (h r r' (by simp) (by simp)).1 (hR.answer false)
      exact (h e.1 e.2 (by simp [(hzip he).1]) (by simp [(hzip he).2])).2
    · exact hR.answer _
  · split
    · split
      · exact hR.answer _
      · exact hR.answer _
      · next fs gs =>
        refine hR.allM ?_
        rintro ⟨name, u⟩ hu
        cases ht : fs.lookup name with
        | none => simpa [ht] using hR.answer false
        | some t =>
          simpa [ht] using (h t u (.inl (mem_map_of_mem (mem_of_lookup ht))) (mem_map_of_mem hu)).1
    · exact hR.answer _
  · split
    · split
      · exact hR.answer _
      · next t u => exact (h t u (by simp) (by simp)).1
      · next u => exact (h _ u (.inr ⟨rfl, rfl⟩) (by simp)).1
    · exact hR.answer _

theorem subtypeExpanded?_respects (h : ∀ t u, Lower a b t u ∨ Lower b a t u → R (f t u) (g t u)) :
    R (subtypeExpanded? table f a b) (subtypeExpanded? table g a b) := by
  refine hR.allM fun tag htag => ?_
  rw [Tags.mem_toList] at htag
  split
  · split
    · exact hR.answer _
    · exact hR.answer _
    · next p q hp hq =>
      refine subtypePayload?_respects hR fun t u ht hu => ?_
      have hinner : Inner a t := by
        rcases ht with ht | ⟨hptag, rfl⟩
        · exact .inl ⟨p, payload?_mem hp, ht⟩
        · rw [payload?_tag hp] at hptag
          exact .inr ⟨hptag ▸ htag, rfl⟩
      have hinner' : Inner b u := .inl ⟨q, payload?_mem hq, hu⟩
      exact ⟨h t u (.inl ⟨hinner, .inl hinner'⟩), h u t (.inr ⟨hinner', .inl hinner⟩)⟩
  · split
    · exact hR.answer _
    · split
      · next htag' => exact h _ _ (.inl ⟨inner_enumValue (htag' ▸ htag), .inr (.inl rfl)⟩)
      · exact hR.answer _

theorem overlapPayload?_respects
    (h : ∀ t u, t ∈ p.components → u ∈ q.components → R (f t u) (g t u) ∧ R (f u t) (g u t)) :
    R (overlapPayload? table f p q) (overlapPayload? table g p q) := by
  unfold overlapPayload?
  split
  any_goals exact hR.answer _
  · next t u => exact (h t u (by simp) (by simp)).1
  · next ts us =>
    split
    · refine hR.allM fun e he => ?_
      have hmem := of_mem_zip he
      exact (h e.1 e.2 hmem.1 hmem.2).1
    · exact hR.answer _
  · next ts u => exact hR.allM fun t ht => (h t u ht (by simp)).1
  · next u ts => exact hR.allM fun t ht => (h u t (by simp) ht).2
  · next k v k' v' =>
    exact hR.choice (h k k' (by simp) (by simp)).1 (h v v' (by simp) (by simp)).1 (hR.answer false)
  · split
    · split
      · next t u => exact (h t u (by simp) (by simp)).1
      · exact hR.answer _
    · exact hR.answer _

theorem enumOverlap?_respects (h : ∀ t u, Lower a b t u → R (f t u) (g t u)) :
    R (enumOverlap? f a b) (enumOverlap? g a b) := by
  unfold enumOverlap?
  dsimp only
  split
  · next hmeets =>
    have henum := (Bool.and_eq_true_iff.mp hmeets).1
    exact h _ _ ⟨inner_enumValue henum, .inr (.inr rfl)⟩
  · exact hR.answer _

end

/-- What the payloads of a common tag say about common values. -/
def tagOverlap? (table : DeclTable) (meets : Ty → Ty → Option Bool) (a b : Ty) (tag : Tag) :
    Option Bool :=
  match a.payload? tag, b.payload? tag with
  | some p, some q => overlapPayload? table meets p q
  | _, _ => some true

theorem overlapExpanded?_respects (hR : Respected R)
    (h : ∀ t u, Lower a b t u ∨ Lower b a t u → R (f t u) (g t u)) :
    R (overlapExpanded? table f a b) (overlapExpanded? table g a b) := by
  -- The parts that need no answers of other comparisons come between two that do.
  let apart := charOverlap a b || charOverlap b a || objectOverlap a b || objectOverlap b a
  have heq (f : Ty → Ty → Option Bool) : overlapExpanded? table f a b =
      (do if ← (a.tags ∩ b.tags).toList.anyM (tagOverlap? table f a b) then pure true
          else if ← some apart then pure true
          else if ← enumOverlap? f a b then pure true
          else enumOverlap? f b a) := by
    unfold overlapExpanded?
    congr 1
    funext r
    cases r with
    | true => rfl
    | false => simp [apart]
  rw [heq, heq]
  refine hR.choice (hR.anyM fun tag _ => ?_) (hR.answer true) ?_
  · unfold tagOverlap?
    split
    · next p q hp hq =>
      refine overlapPayload?_respects hR fun t u ht hu => ?_
      have hinner : Inner a t := .inl ⟨p, payload?_mem hp, ht⟩
      have hinner' : Inner b u := .inl ⟨q, payload?_mem hq, hu⟩
      exact ⟨h t u (.inl ⟨hinner, .inl hinner'⟩), h u t (.inr ⟨hinner', .inl hinner⟩)⟩
    · exact hR.answer _
  · refine hR.choice (hR.answer apart) (hR.answer true) (hR.choice ?_ (hR.answer true) ?_)
    · exact enumOverlap?_respects hR fun t u hlower => h t u (.inl hlower)
    · exact enumOverlap?_respects hR fun t u hlower => h t u (.inr hlower)

theorem subtypeStep_asksNested (table : DeclTable) : AsksNested table (subtypeStep table) := by
  intro R hR guard f g a b h
  unfold subtypeStep
  split
  · exact hR.answer _
  split
  · exact hR.answer _
  split
  · exact hR.answer _
  next hmet =>
  refine subtypeExpanded?_respects hR fun t u hlower => h t u ⟨fun hsynonym => ?_, hlower⟩
  simpa [hsynonym] using hmet

theorem overlapStep_asksNested (table : DeclTable) : AsksNested table (overlapStep table) := by
  intro R hR guard f g a b h
  unfold overlapStep
  split
  · exact hR.answer _
  split
  · exact hR.answer _
  next hmet =>
  refine overlapExpanded?_respects hR fun t u hlower => h t u ⟨fun hsynonym => ?_, hlower⟩
  simp only [hsynonym, Bool.true_and, Bool.or_eq_true, contains_iff_mem, not_or] at hmet
  exact hmet.1

/-! ### Pairs that are taken to hold -/

/-- The pairs of unions of listed types. -/
def unionPairs (S : List Ty) : Finset (Ty × Ty) :=
  let unions := (S.sublists.map unionAll).toFinset
  unions ×ˢ unions

theorem card_unionPairs_le (S : List Ty) : (unionPairs S).card ≤ 2 ^ S.length * 2 ^ S.length := by
  have hcard : (S.sublists.map unionAll).toFinset.card ≤ 2 ^ S.length :=
    (toFinset_card_le _).trans_eq (by rw [length_map, length_sublists])
  rw [unionPairs, Finset.card_product]
  exact Nat.mul_le_mul hcard hcard

theorem mem_unionPairs (hS : IsBasis table S) (ha : Spanned S a) (hb : Spanned S b) :
    (a, b) ∈ unionPairs S := by
  refine Finset.mem_product.mpr ⟨?_, ?_⟩
  · exact mem_toFinset.mpr (ha.mem_unions hS.wellFormed)
  · exact mem_toFinset.mpr (hb.mem_unions hS.wellFormed)

/-- The pairs of unions of listed types that are not taken to hold. -/
def openPairs (S : List Ty) (guard : List (Ty × Ty)) : Finset (Ty × Ty) :=
  unionPairs S \ guard.toFinset

theorem card_openPairs_cons_lt (hS : IsBasis table S) (ha : Spanned S a) (hb : Spanned S b)
    (h : (a, b) ∉ guard) : (openPairs S ((a, b) :: guard)).card < (openPairs S guard).card := by
  have hmem : (a, b) ∈ openPairs S guard :=
    Finset.mem_sdiff.mpr ⟨mem_unionPairs hS ha hb, by simpa using h⟩
  refine Finset.card_lt_card ((Finset.ssubset_iff_of_subset ?_).mpr ⟨(a, b), hmem, ?_⟩)
  · refine Finset.sdiff_subset_sdiff subset_rfl fun e he => ?_
    simp only [toFinset_cons, Finset.mem_insert]
    exact .inr he
  · simp [openPairs]

/-! ### The number of steps -/

/-- A bound on the nested steps that are left for a comparison of `a` with `b`, where no listed type
is nested more than `k` levels deep: before a pair is added to those that are taken to hold, there
are only steps that go down. -/
def stepsLeft (S : List Ty) (k : Nat) (guard : List (Ty × Ty)) (a b : Ty) : Nat :=
  (openPairs S guard).card * (4 * k + 3) + a.height + b.height

theorem Nested.spanned (hS : IsBasis table S) (ha : Spanned S a) (hb : Spanned S b)
    (h : Nested table guard a b t u) : Spanned S t ∧ Spanned S u := by
  have ha' := hS.spanned_expand ha
  have hb' := hS.spanned_expand hb
  exact h.lower.elim (·.spanned hS ha' hb') (·.spanned hS hb' ha')

/-- A comparison inside of another one leaves less to do: either a pair is added to those that are
taken to hold, or the types are those of a lower level. -/
theorem Nested.stepsLeft_lt (hS : IsBasis table S) (hdepth : ∀ s ∈ S, s.depth ≤ k)
    (ha : Spanned S a) (hb : Spanned S b) (h : Nested table guard a b t u) :
    stepsLeft S k (assumed guard a b) t u < stepsLeft S k guard a b := by
  obtain ⟨ht, hu⟩ := h.spanned hS ha hb
  have htheight := height_le (ht.depth_le hdepth)
  have huheight := height_le (hu.depth_le hdepth)
  unfold stepsLeft assumed
  cases hsynonym : a.hasSynonym || b.hasSynonym with
  | true =>
    have hless := Nat.mul_le_mul_right (4 * k + 3)
      (card_openPairs_cons_lt hS ha hb (h.fresh hsynonym))
    rw [Nat.succ_mul] at hless
    rw [if_pos rfl]
    omega
  | false =>
    obtain ⟨hanone, hbnone⟩ := Bool.or_eq_false_iff.mp hsynonym
    have hlower := h.lower
    rw [expand_of_not_hasSynonym hanone, expand_of_not_hasSynonym hbnone] at hlower
    have hlt : t.height + u.height < a.height + b.height := by
      rcases hlower with hlower | hlower
      · exact hlower.height_lt
      · rw [Nat.add_comm a.height]
        exact hlower.height_lt
    rw [if_neg Bool.false_ne_true]
    omega

section

variable {step : ComparisonStep} (hstep : AsksNested table step)

include hstep

/-- A comparison of unions of listed types gives an answer after as many steps as may be left. -/
theorem answerWithin_isSome (hS : IsBasis table S) (hdepth : ∀ s ∈ S, s.depth ≤ k)
    (ha : Spanned S a) (hb : Spanned S b) (hn : stepsLeft S k guard a b < n) :
    (answerWithin step n guard a b).isSome := by
  induction n generalizing guard a b with
  | zero => exact absurd hn (Nat.not_lt_zero _)
  | succ n ih =>
    refine hstep Respected.isSome (g := fun _ _ => none) fun t u hnested => ?_
    obtain ⟨ht, hu⟩ := hnested.spanned hS ha hb
    have hlt := hnested.stepsLeft_lt hS hdepth ha hb
    exact ih ht hu (by omega)

/-- An answer stays the same when more steps are allowed. -/
theorem answerWithin_mono (hnm : n ≤ m) {r : Bool} (h : answerWithin step n guard a b = some r) :
    answerWithin step m guard a b = some r := by
  induction n generalizing m guard a b r with
  | zero => cases h
  | succ n ih =>
    obtain ⟨m, rfl⟩ : ∃ m', m = m' + 1 := ⟨m - 1, by omega⟩
    exact hstep Respected.kept (fun t u _ r hr => ih (by omega) hr) r h

end

/-- The bound on the nesting of comparisons is more than the steps that are left at the start. -/
theorem stepsLeft_lt_comparisonBound (table : DeclTable) (a b : Ty) :
    stepsLeft (basis table a b) (a.size + b.size + table.weight + 2) [] a b <
      comparisonBound table a b := by
  have hcard := card_unionPairs_le (basis table a b)
  have hlength := length_basis_le table a b
  have haheight := height_le (depth_le_of_mem_basis a (left_mem_basis table a b))
  have hbheight := height_le (depth_le_of_mem_basis b (right_mem_basis table a b))
  have hopen : openPairs (basis table a b) [] = unionPairs (basis table a b) := by simp [openPairs]
  unfold stepsLeft comparisonBound
  rw [hopen]
  generalize hk : a.size + b.size + table.weight + 2 = k at *
  have hpow : 2 ^ (basis table a b).length * 2 ^ (basis table a b).length ≤ 2 ^ (8 * k) := by
    rw [← Nat.pow_add]
    exact Nat.pow_le_pow_right (by omega) (by omega)
  have hsize (t : Ty) : 0 < t.size := (Nat.zero_le _).trans_lt (sizeList_components_lt t)
  have hfour : 4 ≤ k := by
    have := hsize a
    have := hsize b
    omega
  have hlinear : 4 * k + 4 ≤ 2 ^ (k + 2) := by
    have := Nat.lt_two_pow_self (n := k)
    rw [Nat.pow_add]
    omega
  generalize (unionPairs (basis table a b)).card = card at *
  calc card * (4 * k + 3) + a.height + b.height < (card + 1) * (4 * k + 3) := by
        have : (card + 1) * (4 * k + 3) = card * (4 * k + 3) + (4 * k + 3) := Nat.succ_mul ..
        omega
    _ ≤ 2 ^ (8 * k + 1) * 2 ^ (k + 2) := by
        refine Nat.mul_le_mul ?_ (by omega)
        have := Nat.one_le_two_pow (n := 8 * k)
        omega
    _ = 2 ^ (9 * k + 3) := by
        rw [← Nat.pow_add]
        congr 1
        omega
    _ ≤ 2 ^ (10 * k) := Nat.pow_le_pow_right (by omega) (by omega)

section

variable (htable : table.WellFormed) (ha : a.WellFormed) (hb : b.WellFormed)

include htable ha hb

theorem left_spanned_basis : Spanned (basis table a b) a :=
  .of_mem (basis_wellFormed htable ha hb) (left_mem_basis table a b)

theorem right_spanned_basis : Spanned (basis table a b) b :=
  .of_mem (basis_wellFormed htable ha hb) (right_mem_basis table a b)

/-- A comparison gives an answer within the bound on nesting. -/
theorem answerWithin_comparisonBound_isSome (hstep : AsksNested table step) :
    (answerWithin step (comparisonBound table a b) [] a b).isSome :=
  answerWithin_isSome hstep (isBasis_basis htable ha hb) depth_le_of_mem_basis
    (left_spanned_basis htable ha hb) (right_spanned_basis htable ha hb)
    (stepsLeft_lt_comparisonBound table a b)

/-- Tests for subtyping end within the bound. -/
theorem subtype?_comparisonBound_isSome :
    (subtype? table (comparisonBound table a b) [] a b).isSome := by
  rw [subtype?_eq_answerWithin]
  exact answerWithin_comparisonBound_isSome htable ha hb (subtypeStep_asksNested table)

/-- Tests for overlap end within the bound. -/
theorem overlap?_comparisonBound_isSome :
    (overlap? table (comparisonBound table a b) [] a b).isSome := by
  rw [overlap?_eq_answerWithin]
  exact answerWithin_comparisonBound_isSome htable ha hb (overlapStep_asksNested table)

end

/-! ### The pairs that are collected -/

/-- A result needs the answer about `t` and `u`: with another one it would be different. -/
def Needs (result : (Ty → Ty → Option Bool) → Option Bool) (t u : Ty) : Prop :=
  ∃ f g, (∀ x y, (x, y) ≠ (t, u) → f x y = g x y) ∧ result f ≠ result g

/-- The comparisons that are made in the course of a comparison of `a` with `b`, each with the pairs
that are taken to hold in it. -/
inductive Reaches (step : ComparisonStep) (a b : Ty) : List (Ty × Ty) → Ty → Ty → Prop
  | start : Reaches step a b [] a b
  | nested {guard : List (Ty × Ty)} {t u x y : Ty} : Reaches step a b guard t u →
      Needs (fun answer => step guard answer t u) x y → Reaches step a b (assumed guard t u) x y

/-- What a step needs are comparisons inside of it. -/
theorem AsksNested.nested_of_needs (hstep : AsksNested table step)
    (h : Needs (fun answer => step guard answer a b) t u) : Nested table guard a b t u := by
  obtain ⟨f, g, hsame, hne⟩ := h
  by_contra hnested
  refine hne (hstep Respected.eq fun x y hxy => hsame x y ?_)
  rintro heq
  cases heq
  exact hnested hxy

/-- The pairs that are taken to hold are different pairs of unions of listed types. -/
structure Collected (S : List Ty) (guard : List (Ty × Ty)) : Prop where
  nodup : guard.Nodup
  mem : ∀ e ∈ guard, e ∈ unionPairs S

theorem Collected.length_le (h : Collected S guard) : guard.length ≤ (unionPairs S).card := by
  rw [← toFinset_card_of_nodup h.nodup]
  exact Finset.card_le_card fun e he => h.mem e (mem_toFinset.mp he)

theorem Collected.assumed (hS : IsBasis table S) (ha : Spanned S a) (hb : Spanned S b)
    (hnested : Nested table guard a b t u) (h : Collected S guard) :
    Collected S (assumed guard a b) := by
  unfold Ty.assumed
  split
  · next hsynonym =>
    refine ⟨nodup_cons.mpr ⟨hnested.fresh hsynonym, h.nodup⟩, ?_⟩
    exact forall_mem_cons.mpr ⟨mem_unionPairs hS ha hb, h.mem⟩
  · exact h

/-- In the course of a comparison only so many pairs are collected as there are pairs of unions of
listed types. -/
theorem Reaches.collected (hstep : AsksNested table step) (hS : IsBasis table S) (ha : Spanned S a)
    (hb : Spanned S b) (h : Reaches step a b guard t u) :
    Collected S guard ∧ Spanned S t ∧ Spanned S u := by
  induction h with
  | start => exact ⟨⟨nodup_nil, by simp⟩, ha, hb⟩
  | nested _ hneeds ih =>
    obtain ⟨hguard, ht, hu⟩ := ih
    have hnested := hstep.nested_of_needs hneeds
    exact ⟨hguard.assumed hS ht hu hnested, hnested.spanned hS ht hu⟩

/-- There are fewer pairs of unions than the bound on nesting says. -/
theorem card_unionPairs_lt (table : DeclTable) (a b : Ty) :
    (unionPairs (basis table a b)).card < comparisonBound table a b := by
  have hbound := stepsLeft_lt_comparisonBound table a b
  have hopen : openPairs (basis table a b) [] = unionPairs (basis table a b) := by simp [openPairs]
  rw [stepsLeft, hopen] at hbound
  have hle := Nat.le_mul_of_pos_right (unionPairs (basis table a b)).card
    (show 0 < 4 * (a.size + b.size + table.weight + 2) + 3 by omega)
  omega

/-- Fewer pairs are taken to hold than the bound says. -/
theorem Reaches.length_lt (htable : table.WellFormed) (ha : a.WellFormed) (hb : b.WellFormed)
    (hstep : AsksNested table step) (h : Reaches step a b guard t u) :
    guard.length < comparisonBound table a b := by
  have hcollected := (h.collected hstep (isBasis_basis htable ha hb)
    (left_spanned_basis htable ha hb) (right_spanned_basis htable ha hb)).1
  exact hcollected.length_le.trans_lt (card_unionPairs_lt table a b)

end Ty

/-- Comparisons end, whatever typedefs refer to themselves or to each other: in every program, the
tests for subtyping and for overlap of two well-formed types give their answers within the bound on
nesting, more steps change nothing, and fewer pairs than that are ever taken to hold at a time. -/
theorem comparisons_end (source : Source) {a b : Ty} (ha : a.WellFormed) (hb : b.WellFormed) :
    let table := source.program.table
    let bound := comparisonBound table a b
    (∀ n, bound ≤ n → subtype? table n [] a b = some (a.subtype table b) ∧
      overlap? table n [] a b = some (a.overlap table b)) ∧
    ∀ guard t u, Ty.Reaches (subtypeStep table) a b guard t u ∨
      Ty.Reaches (overlapStep table) a b guard t u → guard.length < bound := by
  intro table bound
  have htable := source.program_table_wellFormed
  refine ⟨fun n hn => ⟨?_, ?_⟩, ?_⟩
  · obtain ⟨r, hr⟩ := Option.isSome_iff_exists.mp (subtype?_comparisonBound_isSome htable ha hb)
    have hsubtype : a.subtype table b = r := by rw [subtype, hr, Option.getD_some]
    rw [subtype?_eq_answerWithin] at hr ⊢
    rw [hsubtype]
    exact answerWithin_mono (subtypeStep_asksNested table) hn hr
  · obtain ⟨r, hr⟩ := Option.isSome_iff_exists.mp (overlap?_comparisonBound_isSome htable ha hb)
    have hoverlap : a.overlap table b = r := by rw [overlap, hr, Option.getD_some]
    rw [overlap?_eq_answerWithin] at hr ⊢
    rw [hoverlap]
    exact answerWithin_mono (overlapStep_asksNested table) hn hr
  · rintro guard t u (h | h)
    · exact h.length_lt htable ha hb (subtypeStep_asksNested table)
    · exact h.length_lt htable ha hb (overlapStep_asksNested table)

/-- Trees are compared with forests, although both typedefs refer to themselves: inside of the
comparison, trees are compared with what the arrays of a forest hold. -/
theorem comparisons_end_nestedLists :
    let table := nestedLists.program.table
    let tree := exact (.synonym (.one 1))
    let forest := exact (.synonym (.one 2))
    let bound := comparisonBound table tree forest
    subtype? table bound [] tree forest = some true ∧
      overlap? table bound [] tree forest = some true ∧
      Ty.Reaches (subtypeStep table) tree forest [(tree, forest)] tree (tree.union forest) ∧
      [(tree, forest)].length < bound := by
  intro table tree forest bound
  obtain ⟨hanswers, hguard⟩ :=
    comparisons_end nestedLists (a := tree) (b := forest) .ofDecls .ofDecls
  obtain ⟨hsubtype, hoverlap⟩ := hanswers bound le_rfl
  have hreaches : Ty.Reaches (subtypeStep table) tree forest [(tree, forest)] tree
      (tree.union forest) := by
    have hassumed : [(tree, forest)] = assumed [] tree forest := by decide +kernel
    rw [hassumed]
    refine .nested .start ⟨fun _ _ => some true,
      fun x y => some (decide ((x, y) ≠ (tree, tree.union forest))), fun x y hne => ?_, ?_⟩
    · simp [hne]
    · decide +kernel
  refine ⟨hsubtype.trans ?_, hoverlap.trans ?_, hreaches, hguard _ _ _ (.inl hreaches)⟩
  · decide +kernel
  · decide +kernel

end TypeFlow
