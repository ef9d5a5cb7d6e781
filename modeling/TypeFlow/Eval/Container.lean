import TypeFlow.Ty.Subtype

/-!
# Reading and writing elements

`indexed` is the type of `object[index]`, `storeElement` the type of a container after an element is
assigned. Stores only widen a container: a tuple keeps its slots when the index is known and in
range, and becomes an array of unknown length otherwise.
-/

namespace TypeFlow

/-- The type of an expression and whether its evaluation may throw. -/
structure Access where
  ty : Ty
  mayThrow : Bool
  deriving DecidableEq

namespace Ty

/-- The position in a tuple that an index type denotes, when it is known and not negative. -/
def position? (index : Ty) : Option Nat :=
  match index.asInteger? with
  | some (Int.ofNat i) => some i
  | _ => none

/-- Reading an element of a part of one tag: the type read, if any, and whether it may throw. -/
def indexedPart (index : Ty) (tag : Tag) (part : Ty) : Option Ty × Bool :=
  match part.data.head? with
  | some (.tuple slots) =>
    match index.position? with
    | some i =>
      match slots[i]? with
      | some slot => (some slot, false)
      | none => (none, true)
    | none => (some (elementUnion (.tuple slots)), true)
  | some (.elements element) => (some element, true)
  | some (.dictionary _ value) => (some (value.union null), false)
  | _ =>
    if tag = .array || tag = .dictionary || tag = .object then (some any, true) else (none, true)

/-- The type of `object[index]`. When no part of the object has elements nothing is known about the
result. -/
def indexed (table : DeclTable) (object index : Ty) : Access :=
  let object := object.expand table
  let index := index.enumToValue
  let reads := object.tags.toList.map fun tag => indexedPart index tag (object.part tag)
  let result := unionAll (reads.filterMap Prod.fst)
  if result.isNever && !object.isNever then ⟨any, true⟩
  else ⟨result, reads.any Prod.snd⟩

/-- A container payload after the store of an element; `none` when it need not change. -/
def storedPayload? (table : DeclTable) (index value : Ty) : Payload Ty → Option (Payload Ty)
  | .elements element =>
    if value.subtype table element then none else some (.elements (element.union value))
  | .tuple slots =>
    match index.position? with
    | some i =>
      if i < slots.length then some (.tuple (slots.modify i fun slot => slot.union value))
      else some (.elements (slots.foldl union value))
    | none => some (.elements (slots.foldl union value))
  | .dictionary key current => some (.dictionary (key.union index) (current.union value))
  | _ => none

/-- The type of a container after `container[index] = value`. -/
def storeElement (table : DeclTable) (container index value : Ty) : Ty :=
  let stored := container.data.filterMap (storedPayload? table index.enumToValue value)
  stored.foldl setPayload container

end Ty

end TypeFlow
