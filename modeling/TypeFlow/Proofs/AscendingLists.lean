import Mathlib.Data.List.Sort
import Mathlib.Order.Basic
import TypeFlow.NumMap

/-!
# Look-ups in ascending lists

Finite maps and the shapes of objects are lists of entries with strictly ascending keys. Such a list
is determined by its look-ups, and so is a map.
-/

namespace TypeFlow

open List

/-- The keys of the entries ascend strictly. -/
def AscendingKeys {κ α : Type} [LT κ] (entries : List (κ × α)) : Prop :=
  entries.Pairwise fun a b => a.1 < b.1

variable {κ α : Type} {entries : List (κ × α)} {k : κ} {x : α}

/-- The look-up in a list tries the first entry first. -/
theorem lookup_cons_eq_ite [DecidableEq κ] [BEq κ] [LawfulBEq κ] (k j : κ) (y : α)
    (rest : List (κ × α)) :
    ((j, y) :: rest).lookup k = if k = j then some y else rest.lookup k := by
  rw [lookup_cons]
  by_cases hk : k = j
  · simp [hk]
  · simp [beq_eq_false_iff_ne.mpr hk, hk]

/-- What is found is an entry. -/
theorem mem_of_lookup [BEq κ] [LawfulBEq κ] (h : entries.lookup k = some x) : (k, x) ∈ entries := by
  obtain ⟨before, after, rfl, -⟩ := lookup_eq_some_iff.mp h
  simp

/-- Where no key occurs twice, an entry is found under its key and nothing else is. -/
theorem lookup_eq_some_iff_mem [DecidableEq κ] [BEq κ] [LawfulBEq κ]
    (h : (entries.map Prod.fst).Nodup) : entries.lookup k = some x ↔ (k, x) ∈ entries := by
  induction entries with
  | nil => simp
  | cons e rest ih =>
    obtain ⟨j, y⟩ := e
    obtain ⟨hj, hrest⟩ := nodup_cons.mp h
    rw [lookup_cons_eq_ite]
    by_cases hk : k = j
    · subst hk
      have hnot : (k, x) ∉ rest := fun hmem => hj (mem_map.mpr ⟨_, hmem, rfl⟩)
      simp [hnot, eq_comm]
    · simp [hk, ih hrest]

namespace AscendingKeys

variable {κ α : Type} [LinearOrder κ] [BEq κ] [LawfulBEq κ] {entries others : List (κ × α)}

/-- An entry is found under its key and nothing else is. -/
theorem lookup_eq_some_iff (h : AscendingKeys entries) {k : κ} {x : α} :
    entries.lookup k = some x ↔ (k, x) ∈ entries :=
  lookup_eq_some_iff_mem (pairwise_map.mpr (h.imp ne_of_lt))

/-- Two ascending lists with the same look-ups are the same list. -/
theorem ext (h : AscendingKeys entries) (h' : AscendingKeys others)
    (hlookup : ∀ k, entries.lookup k = others.lookup k) : entries = others := by
  apply Pairwise.eq_of_mem_iff h h'
  intro e
  rw [← h.lookup_eq_some_iff, ← h'.lookup_eq_some_iff, hlookup]

end AscendingKeys

namespace NumMap

variable {α β : Type}

/-- Two maps with the same values are the same map. -/
theorem ext_get? {m n : NumMap α} (h : ∀ k, m.get? k = n.get? k) : m = n := by
  obtain ⟨entries, hascending⟩ := m
  obtain ⟨others, hothers⟩ := n
  have heq := AscendingKeys.ext hascending hothers h
  subst heq
  rfl

/-- The entries of a map are its keys with their values. -/
theorem mem_entries {m : NumMap α} {k : Nat} {x : α} : (k, x) ∈ m.entries ↔ m.get? k = some x :=
  (AscendingKeys.lookup_eq_some_iff m.ascending).symm

instance (m : NumMap α) (P : Nat → α → Prop) [∀ k x, Decidable (P k x)] :
    Decidable (∀ k x, m.get? k = some x → P k x) :=
  decidable_of_iff (∀ e ∈ m.entries, P e.1 e.2) (by simp only [Prod.forall, mem_entries])

/-- A key has a value exactly when its look-up gives one. -/
theorem contains_eq_isSome (m : NumMap α) (k : Nat) : m.contains k = (m.get? k).isSome := by
  rw [Bool.eq_iff_iff, contains, get?, lookup_isSome_iff, any_eq_true]
  refine exists_congr fun e => and_congr_right ?_
  intro _
  rw [beq_iff_eq, beq_iff_eq, eq_comm]

@[simp] theorem get?_empty (k : Nat) : (empty : NumMap α).get? k = none := rfl

private theorem lookup_insertEntry (k j : Nat) (x : α) (entries : List (Nat × α)) :
    (insertEntry k x entries).lookup j = if j = k then some x else entries.lookup j := by
  induction entries with
  | nil => rw [insertEntry, lookup_cons_eq_ite]
  | cons e rest ih =>
    obtain ⟨i, y⟩ := e
    unfold insertEntry
    split
    · rw [lookup_cons_eq_ite]
    · split
      · next hk =>
          subst hk
          by_cases hj : j = k <;> simp [lookup_cons_eq_ite, hj]
      · next hk =>
          rw [lookup_cons_eq_ite, lookup_cons_eq_ite, ih]
          by_cases hj : j = i
          · simp [hj, Ne.symm hk]
          · simp [hj]

/-- Setting a value changes the look-up of its key only. -/
@[simp] theorem get?_insert (m : NumMap α) (k j : Nat) (x : α) :
    (m.insert k x).get? j = if j = k then some x else m.get? j :=
  lookup_insertEntry k j x m.entries

/-- A filter keeps the values that satisfy it. -/
@[simp] theorem get?_filter (keep : Nat → α → Bool) (m : NumMap α) (k : Nat) :
    (m.filter keep).get? k = (m.get? k).filter (keep k) := by
  apply Option.ext
  intro x
  rw [← mem_entries, Option.filter_eq_some_iff, ← mem_entries]
  exact mem_filter

/-- A change of all values changes what look-ups give. -/
@[simp] theorem get?_map (f : Nat → α → β) (m : NumMap α) (k : Nat) :
    (m.map f).get? k = (m.get? k).map (f k) := by
  apply Option.ext
  intro y
  rw [← mem_entries, Option.map_eq_some_iff]
  refine mem_map.trans ⟨?_, ?_⟩
  · rintro ⟨⟨j, x⟩, hmem, heq⟩
    cases heq
    exact ⟨x, mem_entries.mp hmem, rfl⟩
  · rintro ⟨x, hx, rfl⟩
    exact ⟨(k, x), mem_entries.mpr hx, rfl⟩

/-- Entering a value combines it with the value that is there. -/
@[simp] theorem get?_insertWith (combine : α → α → α) (m : NumMap α) (k j : Nat) (x : α) :
    (m.insertWith combine k x).get? j =
      if j = k then some ((m.get? k).elim x fun y => combine y x) else m.get? j := by
  unfold insertWith
  cases m.get? k <;> simp

end NumMap

end TypeFlow
