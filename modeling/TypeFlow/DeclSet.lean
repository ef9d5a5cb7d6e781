/-!
# Sets of declarations

Declarations are named by their number in the program's declaration table. A `DeclSet` is a finite
set of such numbers. Its members are held in strictly ascending order, so equal sets are equal
values.
-/

namespace TypeFlow

/-- Number of a declaration. -/
abbrev DeclId := Nat

/-- A finite set of declarations. -/
structure DeclSet where
  /-- The members, strictly ascending. -/
  ids : List DeclId
  /-- The order that makes the representation canonical. -/
  ascending : ids.Pairwise (· < ·)
  deriving DecidableEq

namespace DeclSet

/-- Inserts a number into an ascending list, keeping one copy. -/
def insertAscending (d : DeclId) : List DeclId → List DeclId
  | [] => [d]
  | e :: es =>
    if d < e then d :: e :: es
    else if d = e then e :: es
    else e :: insertAscending d es

/-- Insertion adds exactly the new number. -/
theorem mem_insertAscending {d e : DeclId} {ids : List DeclId} :
    e ∈ insertAscending d ids ↔ e = d ∨ e ∈ ids := by
  induction ids with
  | nil => simp [insertAscending]
  | cons x xs ih =>
      unfold insertAscending
      split
      · simp
      · split
        · next h => subst h; simp
        · simp only [List.mem_cons, ih]
          constructor
          · rintro (h | h | h) <;> simp [h]
          · rintro (h | h | h) <;> simp [h]

/-- Insertion keeps the order. -/
theorem insertAscending_pairwise {d : DeclId} {ids : List DeclId} (h : ids.Pairwise (· < ·)) :
    (insertAscending d ids).Pairwise (· < ·) := by
  induction ids with
  | nil => simp [insertAscending]
  | cons x xs ih =>
      have hx := List.pairwise_cons.mp h
      unfold insertAscending
      split
      · next hd =>
          refine List.pairwise_cons.mpr ⟨fun y hy => ?_, h⟩
          rcases List.mem_cons.mp hy with rfl | hy
          · exact hd
          · exact Nat.lt_trans hd (hx.1 y hy)
      · next hd =>
          split
          · exact h
          · next hne =>
              refine List.pairwise_cons.mpr ⟨fun y hy => ?_, ih hx.2⟩
              rcases mem_insertAscending.mp hy with rfl | hy
              · exact Nat.lt_of_le_of_ne (Nat.le_of_not_lt hd) (Ne.symm hne)
              · exact hx.1 y hy

/-- The set without members. -/
def empty : DeclSet := ⟨[], .nil⟩

/-- Adds one member. -/
def insert (s : DeclSet) (d : DeclId) : DeclSet :=
  ⟨insertAscending d s.ids, insertAscending_pairwise s.ascending⟩

/-- The set holding only `d`. -/
def one (d : DeclId) : DeclSet := ⟨[d], by simp⟩

/-- The set of the listed declarations. -/
def ofList : List DeclId → DeclSet
  | [] => empty
  | d :: ds => (ofList ds).insert d

/-- Number of members. -/
def size (s : DeclSet) : Nat := s.ids.length

/-- Whether the set has no members. -/
def isEmpty (s : DeclSet) : Bool := s.ids.isEmpty

/-- Membership as a Boolean. -/
def contains (s : DeclSet) (d : DeclId) : Bool := s.ids.contains d

/-- The smallest member. -/
def first? (s : DeclSet) : Option DeclId := s.ids.head?

/-- Members of either set. -/
def union (s t : DeclSet) : DeclSet := ofList (s.ids ++ t.ids)

/-- Members of both sets. -/
def inter (s t : DeclSet) : DeclSet := ⟨s.ids.filter t.contains, s.ascending.filter _⟩

/-- Whether every member of `s` is a member of `t`. -/
def subset (s t : DeclSet) : Bool := s.ids.all t.contains

/-- Whether the sets have a member in common. -/
def meets (s t : DeclSet) : Bool := !(s.inter t).isEmpty

instance : Membership DeclId DeclSet := ⟨fun s d => d ∈ s.ids⟩

instance (d : DeclId) (s : DeclSet) : Decidable (d ∈ s) := inferInstanceAs (Decidable (_ ∈ s.ids))

/-- Membership in the set of a list. -/
@[simp] theorem mem_ofList {d : DeclId} {ds : List DeclId} : d ∈ ofList ds ↔ d ∈ ds := by
  induction ds with
  | nil => exact Iff.rfl
  | cons e es ih =>
      change d ∈ insertAscending e (ofList es).ids ↔ _
      rw [mem_insertAscending, List.mem_cons]
      exact or_congr Iff.rfl ih

/-- Membership in a union. -/
@[simp] theorem mem_union {d : DeclId} {s t : DeclSet} : d ∈ s.union t ↔ d ∈ s ∨ d ∈ t := by
  rw [union, mem_ofList, List.mem_append]
  exact Iff.rfl

end DeclSet

end TypeFlow
