/-!
# Walks over numbered things

Class hierarchies, call graphs and control-flow graphs are all given by a function that lists what
is next to a number. Searches through class hierarchies keep a stack of what is still to be visited.
The blocks of a graph and the functions that a function calls are listed by a depth-first walk from
left to right, on the way back.
-/

namespace TypeFlow

/-- Puts numbers on a stack one after the other. The top of a stack is its first entry. -/
def pushAll (stack ds : List Nat) : List Nat := ds.foldl (fun stack d => d :: stack) stack

/-- What a walk has met and what it has left behind, the latest first. -/
structure Retreat where
  met : List Nat := []
  left : List Nat := []

/-- Walks on from `d` and back, depth first and from left to right. -/
def retreatFrom (next : Nat → List Nat) : Nat → Retreat → Nat → Retreat
  | 0, r, _ => r
  | n + 1, r, d =>
    if r.met.contains d then r
    else
      let r := (next d).foldl (retreatFrom next n) { r with met := d :: r.met }
      { r with left := d :: r.left }

/-- Everything that can be reached from `d`, in the reverse of the order in which a depth-first walk
leaves it behind. At most `n` numbers have something next to them. -/
def reversePostorder (next : Nat → List Nat) (n : Nat) (d : Nat) : List Nat :=
  (retreatFrom next (n + 1) {} d).left

end TypeFlow
