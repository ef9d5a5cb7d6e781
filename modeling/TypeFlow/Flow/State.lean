import TypeFlow.NumMap
import TypeFlow.Ty.Union

/-!
# Types at a point of a graph

A state gives types to identities. An identity that it does not mention has its declared or inferred
type, so the merge of two states keeps only what both of them mention.
-/

namespace TypeFlow

/-- The types of identities at a point of a graph, by key. -/
abbrev TypeState := NumMap Ty

namespace TypeState

/-- The state after another one is merged into it, with nesting limited to `depth`. -/
def merge (depth : Nat) (into other : TypeState) : TypeState :=
  (into.filter fun k _ => other.contains k).map fun k t =>
    (t.union ((other.get? k).getD Ty.never)).widen depth

/-- Whether the merge of a state has something to change: an identity is lost, its type grows, or
its type is nested too deeply. -/
def mergeChanges (depth : Nat) (into other : TypeState) : Bool :=
  into.entries.any fun (k, t) =>
    match other.get? k with
    | none => true
    | some u =>
      let (joined, grown) := t.unionInto u
      grown || joined.widenDrops depth

/-- Limits the nesting of the type of an identity, if the state mentions it. -/
def widenAt (depth : Nat) (state : TypeState) (k : Nat) : TypeState :=
  match state.get? k with
  | some t => state.insert k (t.widen depth)
  | none => state

end TypeState

end TypeFlow
