import TypeFlow.Proofs.ComparisonEnds
import TypeFlow.Proofs.EqualityValues

/-!
# Steps of narrowing by equality

Narrowing by equality is not guarded against typedefs that refer to themselves, so it need not end.
Where it ends, it does so within the bound for comparisons. A step depends on nothing but the answer
that it asks for, so as long as more steps give more answers, they give them about new pairs of
types, and only finitely many pairs are reached. The intersections of the parts of a type keep to
bounds of their own.
-/

namespace TypeFlow

open List Option

variable {α β γ : Type}

/-- An answer that is given is given again. -/
def Kept (x y : Option β) : Prop := ∀ r, x = some r → y = some r

theorem Kept.refl (x : Option β) : Kept x x := fun _ => id

/-- Computations that go on in the same way keep their answers. -/
theorem Kept.bind {x x' : Option α} {f f' : α → Option β} (hx : Kept x x')
    (hf : ∀ a, Kept (f a) (f' a)) : Kept (x >>= f) (x' >>= f') := by
  intro r hr
  obtain ⟨a, ha, hr⟩ := bind_eq_some_iff.mp hr
  exact bind_eq_some_iff.mpr ⟨a, hx a ha, hf a r hr⟩

theorem Kept.foldlM {f f' : γ → α → Option γ} (h : ∀ acc x, Kept (f acc x) (f' acc x)) (l : List α)
    (acc : γ) : Kept (l.foldlM f acc) (l.foldlM f' acc) := by
  induction l generalizing acc with
  | nil => exact .refl _
  | cons x l ih => exact (h acc x).bind ih

/-- What is answered within any number of steps is answered within as many steps as there are
questions, if a step keeps its answer as long as the one that it asks for is kept. -/
theorem isSome_of_closed {f : ℕ → α → Option β} {next : α → α} {P : Finset α}
    (hzero : ∀ x, f 0 x = none)
    (hstep : ∀ m n x, Kept (f m (next x)) (f n (next x)) → Kept (f (m + 1) x) (f (n + 1) x))
    (hclosed : ∀ x ∈ P, next x ∈ P) {x : α} (hx : x ∈ P) {m bound : ℕ}
    (hbound : P.card ≤ bound) (h : (f m x).isSome) : (f bound x).isSome := by
  have hsucc (m : ℕ) : ∀ x, Kept (f m x) (f (m + 1) x) := by
    induction m with
    | zero => exact fun x r hr => absurd hr (by simp [hzero])
    | succ m ih => exact fun x => hstep _ _ x (ih _)
  let answered (m : ℕ) : Finset α := P.filter fun x => (f m x).isSome
  have hmem {m : ℕ} {x : α} : x ∈ answered m ↔ x ∈ P ∧ ∃ r, f m x = some r := by
    rw [Finset.mem_filter, isSome_iff_exists]
  have hmono : Monotone answered := monotone_nat_of_le_succ fun m x hx => by
    obtain ⟨hP, r, hr⟩ := hmem.mp hx
    exact hmem.mpr ⟨hP, r, hsucc m x r hr⟩
  have hcards : Monotone fun m => (answered m).card := Finset.card_mono.comp hmono
  have hstable (m : ℕ) (h : (answered m).card = (answered (m + 1)).card) :
      (answered (m + 1)).card = (answered (m + 2)).card := by
    have heq := Finset.eq_of_subset_of_card_le (hmono m.le_succ) h.ge
    refine le_antisymm (hcards (m + 1).le_succ) (Finset.card_le_card fun x hx => ?_)
    obtain ⟨hP, r, hr⟩ := hmem.mp hx
    refine hmem.mpr ⟨hP, r, hstep _ _ x (fun s hs => ?_) r hr⟩
    obtain ⟨-, s', hs'⟩ := hmem.mp (heq ▸ hmem.mpr ⟨hclosed x hP, s, hs⟩ : next x ∈ answered m)
    exact hs'.trans ((hsucc m _ s' hs').symm.trans hs)
  have hlast {m : ℕ} (hle : P.card ≤ m) : (answered P.card).card = (answered m).card :=
    (Nat.stabilises_of_monotone hcards (fun _ => Finset.card_filter_le _ _) hstable hle).symm
  have heq : answered bound = answered (max m bound) :=
    Finset.eq_of_subset_of_card_le (hmono (le_max_right ..))
      ((hlast (hbound.trans (le_max_right ..))).symm.trans (hlast hbound)).le
  have hm : x ∈ answered m := Finset.mem_filter.mpr ⟨hx, h⟩
  exact isSome_iff_exists.mpr (hmem.mp (heq ▸ hmono (le_max_left ..) hm)).2

namespace Ty

variable {table : DeclTable} {S : List Ty} {a b t : Ty}

/-- The pair that narrowing goes on with for the members of an enumeration. -/
def enumPair (table : DeclTable) (x : Ty × Ty) : Ty × Ty :=
  ((x.1.expand table).enumToValue, (x.2.expand table).enumValue)

/-- Narrowing keeps its answer as long as the one that it asks for is kept. -/
theorem narrowEq?_kept {m n : ℕ} {x : Ty × Ty}
    (h : Kept (narrowEq? table m (enumPair table x).1 (enumPair table x).2)
      (narrowEq? table n (enumPair table x).1 (enumPair table x).2)) :
    Kept (narrowEq? table (m + 1) x.1 x.2) (narrowEq? table (n + 1) x.1 x.2) := by
  rw [narrowEq?, narrowEq?]
  split
  · exact .refl _
  refine .bind (.foldlM (fun acc tag => ?_) _ _) fun _ => .refl _
  dsimp only
  split_ifs
  any_goals exact .refl _
  exact h.bind fun _ => .refl _

/-- The pairs of unions of listed types are closed under the steps of narrowing. -/
theorem enumPair_mem_unionPairs (hS : IsBasis table S) {x : Ty × Ty} (hx : x ∈ unionPairs S) :
    enumPair table x ∈ unionPairs S := by
  have hunion {t : Ty} (ht : t ∈ (S.sublists.map unionAll).toFinset) :
      Spanned S (t.expand table) := by
    obtain ⟨ts, hts, rfl⟩ := List.mem_map.mp (mem_toFinset.mp ht)
    exact hS.spanned_expand ⟨ts, fun s hs => (mem_sublists.mp hts).subset hs, rfl⟩
  have hvalue {t : Ty} (ht : Spanned S t) : Spanned S t.enumValue := by
    rcases t.enumValue_cases with ⟨p, hp, hmem⟩ | heq
    · exact ht.component hS.wellFormed hS.component hp hmem
    · exact heq ▸ .of_mem hS.wellFormed hS.enumValues
  obtain ⟨hfirst, hsecond⟩ := (Finset.mem_product.mp hx).imp hunion hunion
  refine mem_unionPairs hS ?_ (hvalue hsecond)
  unfold enumToValue
  split
  · exact (hS.spanned_without (by decide) hfirst).union hS.wellFormed (hvalue hfirst)
  · exact hfirst

/-- Narrowing ends after as many steps as there are pairs of unions of listed types, or never. -/
theorem narrowEq?_isSome (hS : IsBasis table S) (ha : Spanned S a) (hb : Spanned S b) {n bound : ℕ}
    (hbound : (unionPairs S).card ≤ bound) (h : (narrowEq? table n a b).isSome) :
    (narrowEq? table bound a b).isSome :=
  isSome_of_closed (f := fun n x => narrowEq? table n x.1 x.2) (fun _ => rfl)
    (fun _ _ _ => narrowEq?_kept) (fun _ => enumPair_mem_unionPairs hS) (mem_unionPairs hS ha hb)
    hbound h

/-- Narrowing ends within the bound for comparisons if it ends within any number of steps. -/
theorem narrowEqEnds_iff (htable : table.WellFormed) (ha : a.WellFormed) (hb : b.WellFormed) :
    NarrowEqEnds table a b ↔ ∃ n, (narrowEq? table n a b).isSome := by
  refine ⟨fun h => ⟨_, h⟩, ?_⟩
  rintro ⟨n, h⟩
  exact narrowEq?_isSome (isBasis_basis htable ha hb) (left_spanned_basis htable ha hb)
    (right_spanned_basis htable ha hb) (card_unionPairs_lt table a b).le h

end Ty

end TypeFlow
