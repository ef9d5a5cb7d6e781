import TypeFlow.DeclTable

/-!
# Overlap

Two types overlap when some value could belong to both. Besides a common tag with compatible
payloads, a character meets the integer that is its number, the unqualified object meets every
object-like value and an enum meets its underlying value. Typedefs are handled as in subtyping: a
pair met again inside its own comparison is taken to overlap.
-/

namespace TypeFlow.Ty

/-- Whether the payloads have a value in common, with `meets` comparing components. -/
def overlapPayload? (table : DeclTable) (meets : Ty → Ty → Option Bool) (p q : Payload Ty) :
    Option Bool :=
  match p, q with
  | .elements t, .elements u => meets t u
  | .tuple ts, .tuple us =>
    if ts.length = us.length then (ts.zip us).allM fun (t, u) => meets t u else some false
  | .tuple ts, .elements u | .elements u, .tuple ts => ts.allM fun t => meets t u
  | .dictionary k v, .dictionary k' v' => do if ← meets k k' then meets v v' else pure false
  | .method _ _, .method _ _ => some true
  | .module d, .module e | .function d, .function e | .cls d, .cls e | .synonym d, .synonym e =>
    some (d.meets e)
  | .object d _, .object e _ =>
    some <| d.ids.any fun x => e.ids.any fun y => table.isSubclass x y || table.isSubclass y x
  | .enum d v, .enum e w =>
    if d.isNone || e.isNone || d = e then
      match v, w with
      | some t, some u => meets t u
      | _, _ => some true
    else some false
  | p, q => some (p = q)

/-- Whether a character of `a` may equal an integer of `b`. -/
def charOverlap (a b : Ty) : Bool :=
  a.tags.contains .char && [Tag.number, Tag.long].any fun tag =>
      b.tags.contains tag &&
        match a.payload? .char, b.payload? tag with
        | some (.char c), some (.number n) => n.toInt == c.toNat
        | some (.char c), some (.long n) => n.toInt == c.toNat
        | _, _ => true

/-- Whether the unqualified object of `a` covers a value of `b`. -/
def objectOverlap (a b : Ty) : Bool := a.isPlainObject && b.tags.intersects Tags.objectLike

/-- Whether an enum member of `a` may equal a value of `b` that is not an enum member. -/
def enumOverlap? (meets : Ty → Ty → Option Bool) (a b : Ty) : Option Bool :=
  let rest := b.without (Tags.single .enum)
  if a.tags.contains .enum && !rest.isNever then meets a.enumValue rest else some false

/-- Whether the types have a value in common, with `meets` comparing components. Typedefs have been
expanded. -/
def overlapExpanded? (table : DeclTable) (meets : Ty → Ty → Option Bool) (a b : Ty) :
    Option Bool := do
  let shared ← (a.tags ∩ b.tags).toList.anyM fun tag =>
    match a.payload? tag, b.payload? tag with
    | some p, some q => overlapPayload? table meets p q
    | _, _ => some true
  if shared || charOverlap a b || charOverlap b a || objectOverlap a b || objectOverlap b a then
    pure true
  else if ← enumOverlap? meets a b then pure true
  else enumOverlap? meets b a

/-- Overlap within a number of nested steps. `guard` holds the pairs with typedefs whose comparison
is under way. -/
def overlap? (table : DeclTable) : Nat → List (Ty × Ty) → Ty → Ty → Option Bool
  | 0, _, _, _ => none
  | n + 1, guard, a, b =>
    if a.isNever || b.isNever then some false
    else if a.hasSynonym || b.hasSynonym then
      if guard.contains (a, b) || guard.contains (b, a) then some true
      else
        overlapExpanded? table (overlap? table n ((a, b) :: guard)) (a.expand table)
          (b.expand table)
    else overlapExpanded? table (overlap? table n guard) a b

/-- Whether some value may belong to both types. -/
def overlap (table : DeclTable) (a b : Ty) : Bool :=
  (overlap? table (comparisonBound table a b) [] a b).getD false

end TypeFlow.Ty
