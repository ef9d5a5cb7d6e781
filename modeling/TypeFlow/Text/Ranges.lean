/-!
# Sets of characters given by ranges

A set of character numbers is given by the ascending bounds of its half-open ranges
`[b₀, b₁)`, `[b₂, b₃)`, …: a number belongs to the set when an odd number of bounds is at or
below it.
-/

namespace TypeFlow.Text

/-- The numbers that follow `last` at the given distances, one after the other. -/
def boundsAfter (last : Nat) : List Nat → List Nat
  | [] => []
  | gap :: gaps => (last + gap) :: boundsAfter (last + gap) gaps

/-- Numbers in base 26, one behind the other: the last digit of each is a capital letter, the digits
before it are small ones. The number `n` has been read already. -/
def readNumbers (n : Nat) : List Char → List Nat
  | [] => []
  | c :: cs =>
    if c.isUpper then (26 * n + (c.toNat - 'A'.toNat)) :: readNumbers 0 cs
    else if c.isLower then readNumbers (26 * n + (c.toNat - 'a'.toNat)) cs
    else readNumbers n cs

/-- Ascending bounds, given by the first of them and the distances between neighbours. -/
def boundsOf (gaps : String) : Array Nat := (boundsAfter 0 (readNumbers 0 gaps.toList)).toArray

/-- Numbers in groups of four, the first of which is given by its distance from the one before. -/
def groupsAfter (last : Nat) : List Nat → List (Nat × Nat × Nat × Nat)
  | gap :: a :: b :: c :: ns => (last + gap, a, b, c) :: groupsAfter (last + gap) ns
  | _ => []

/-- The groups that a text gives. -/
def readGroups (groups : String) : List (Nat × Nat × Nat × Nat) :=
  groupsAfter 0 (readNumbers 0 groups.toList)

/-- Number of entries at or below `x` among the ascending `bounds` in positions `lo` to `hi`,
counted from the start of the array. -/
def rankFrom (bounds : Array Nat) (x lo hi : Nat) : Nat :=
  if lo < hi then
    let mid := (lo + hi) / 2
    if bounds.getD mid 0 ≤ x then rankFrom bounds x (mid + 1) hi else rankFrom bounds x lo mid
  else lo
termination_by hi - lo

/-- Whether `x` lies in one of the ranges. -/
def inRanges (bounds : Array Nat) (x : Nat) : Bool := rankFrom bounds x 0 bounds.size % 2 == 1

end TypeFlow.Text
