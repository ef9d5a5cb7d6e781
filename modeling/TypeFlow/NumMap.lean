/-!
# Finite maps keyed by numbers

Declarations, nodes, blocks and identities are all numbered, and the analysis keeps finite maps from
such numbers. The entries of a `NumMap` are held in strictly ascending order of their keys, so maps
with the same entries are equal values and listing a map needs no sorting.
-/

namespace TypeFlow

/-- A finite map from numbers. -/
structure NumMap (α : Type) where
  /-- The entries, with strictly ascending keys. -/
  entries : List (Nat × α)
  /-- The order that makes the representation canonical. -/
  ascending : entries.Pairwise fun a b => a.1 < b.1

namespace NumMap

variable {α β : Type}

instance [DecidableEq α] : DecidableEq (NumMap α) := fun a b =>
  decidable_of_iff (a.entries = b.entries)
    ⟨fun h => by cases a; cases b; simp_all, fun h => h ▸ rfl⟩

/-- Puts an entry into an ascending list, replacing the entry of the same key. -/
def insertEntry (k : Nat) (x : α) : List (Nat × α) → List (Nat × α)
  | [] => [(k, x)]
  | (j, y) :: rest =>
    if k < j then (k, x) :: (j, y) :: rest
    else if k = j then (k, x) :: rest
    else (j, y) :: insertEntry k x rest

/-- An entry of the result is the new one or an old one. -/
theorem mem_insertEntry {k : Nat} {x : α} {e : Nat × α} {entries : List (Nat × α)}
    (h : e ∈ insertEntry k x entries) : e = (k, x) ∨ e ∈ entries := by
  induction entries with
  | nil => simpa [insertEntry] using h
  | cons y ys ih =>
      unfold insertEntry at h
      split at h
      · simpa using h
      · split at h
        · rcases List.mem_cons.mp h with h | h
          · exact .inl h
          · exact .inr (List.mem_cons_of_mem _ h)
        · rcases List.mem_cons.mp h with h | h
          · exact .inr (h ▸ List.mem_cons_self)
          · exact (ih h).imp id (List.mem_cons_of_mem _)

/-- Insertion keeps the order of the keys. -/
theorem insertEntry_pairwise {k : Nat} {x : α} {entries : List (Nat × α)}
    (h : entries.Pairwise fun a b => a.1 < b.1) :
    (insertEntry k x entries).Pairwise fun a b => a.1 < b.1 := by
  induction entries with
  | nil => simp [insertEntry]
  | cons y ys ih =>
      have hy := List.pairwise_cons.mp h
      unfold insertEntry
      split
      · next hk =>
          refine List.pairwise_cons.mpr ⟨fun e he => ?_, h⟩
          rcases List.mem_cons.mp he with rfl | he
          · exact hk
          · exact Nat.lt_trans hk (hy.1 e he)
      · next hk =>
          split
          · next heq =>
              refine List.pairwise_cons.mpr ⟨fun e he => ?_, hy.2⟩
              exact heq ▸ hy.1 e he
          · next hne =>
              refine List.pairwise_cons.mpr ⟨fun e he => ?_, ih hy.2⟩
              rcases mem_insertEntry he with rfl | he
              · exact Nat.lt_of_le_of_ne (Nat.le_of_not_lt hk) (Ne.symm hne)
              · exact hy.1 e he

/-- The map without entries. -/
def empty : NumMap α := ⟨[], .nil⟩

instance : EmptyCollection (NumMap α) := ⟨empty⟩

instance : Inhabited (NumMap α) := ⟨empty⟩

variable (m : NumMap α)

/-- The value of a key. -/
def get? (k : Nat) : Option α := m.entries.lookup k

/-- Whether a key has a value. -/
def contains (k : Nat) : Bool := m.entries.any fun e => e.1 == k

/-- Sets the value of a key. -/
def insert (k : Nat) (x : α) : NumMap α :=
  ⟨insertEntry k x m.entries, insertEntry_pairwise m.ascending⟩

/-- Keeps the entries that satisfy a test. -/
def filter (keep : Nat → α → Bool) (m : NumMap α) : NumMap α :=
  ⟨m.entries.filter fun e => keep e.1 e.2, m.ascending.filter _⟩

/-- Removes the value of a key. -/
def erase (k : Nat) : NumMap α := m.filter fun j _ => j != k

/-- Changes every value. -/
def map (f : Nat → α → β) (m : NumMap α) : NumMap β :=
  ⟨m.entries.map fun e => (e.1, f e.1 e.2), by
    rw [List.pairwise_map]
    exact m.ascending⟩

/-- Number of entries. -/
def size : Nat := m.entries.length

/-- Whether there is no entry. -/
def isEmpty (m : NumMap α) : Bool := m.entries.isEmpty

/-- The keys, ascending. -/
def keys : List Nat := m.entries.map Prod.fst

/-- The map of listed entries; the last of two entries of one key counts. -/
def ofList (entries : List (Nat × α)) : NumMap α :=
  entries.foldl (fun m e => m.insert e.1 e.2) empty

/-- Enters a value, combining it with the one that is there. -/
def insertWith (combine : α → α → α) (m : NumMap α) (k : Nat) (x : α) : NumMap α :=
  match m.get? k with
  | some y => m.insert k (combine y x)
  | none => m.insert k x

end NumMap

end TypeFlow
