import TypeFlow.DeclTable

/-!
# Subtyping

`a` is a subtype of `b` when each tag of `a` is covered by `b`: by the same tag with no payload or a
payload that contains that of `a`, by the unqualified object tag, or, for an enum, through its
underlying value. Typedefs are expanded on the way. A pair of types with typedefs that is met again
inside its own comparison is taken to hold, so recursive definitions are compared co-inductively.

The comparison is bounded by a number of nested steps; `subtype?` gives `none` when the bound does
not suffice.
-/

namespace TypeFlow.Ty

variable (table : DeclTable)

/-- Whether every class of `d` inherits from a class of `e`. -/
def classesBelow (d e : DeclSet) : Bool :=
  d.ids.all fun x => e.ids.any fun y => table.isSubclass x y

/-- Whether the payload `p` is contained in the payload `q`, with `le` comparing components. -/
def subtypePayload? (le : Ty → Ty → Option Bool) (p q : Payload Ty) :
    Option Bool :=
  match p, q with
  | .elements t, .elements u => le t u
  | .tuple ts, .elements u => ts.allM fun t => le t u
  | .tuple ts, .tuple us =>
    if ts.length = us.length then (ts.zip us).allM fun (t, u) => le t u else some false
  | .elements _, .tuple _ => some false
  | .dictionary k v, .dictionary k' v' => do if ← le k k' then le v v' else pure false
  | .method args r, .method args' r' =>
    if args.length = args'.length then do
      if ← (args.zip args').allM fun (t, u) => le u t then le r r' else pure false
    else some false
  | .module d, .module e | .function d, .function e | .cls d, .cls e | .synonym d, .synonym e =>
    some (d.subset e)
  | .object d shape, .object e shape' =>
    if classesBelow table d e then
      match shape, shape' with
      | _, none => some true
      | none, some _ => some false
      | some fs, some gs => gs.allM fun (name, u) =>
        match fs.lookup name with
        | some t => le t u
        | none => some false
    else some false
  | .enum d v, .enum e w =>
    if e.isNone || d = e then
      match v, w with
      | _, none => some true
      | some t, some u => le t u
      | none, some u => le (ofTags Tags.enumValues) u
    else some false
  | p, q => some (p = q)

/-- Whether each tag of `a` is covered by `b`, with `le` comparing components. Typedefs have been
expanded. -/
def subtypeExpanded? (le : Ty → Ty → Option Bool) (a b : Ty) : Option Bool :=
  a.tags.toList.allM fun tag =>
    if b.tags.contains tag then
      match a.payload? tag, b.payload? tag with
      | _, none => some true
      | none, some _ => some false
      | some p, some q => subtypePayload? table le p q
    else if b.isPlainObject && Tags.objectLike.contains tag then some true
    else if tag = .enum then le a.enumValue b
    else some false

/-- Subtyping within a number of nested steps. `guard` holds the pairs with typedefs whose
comparison is under way. -/
def subtype? (table : DeclTable) : Nat → List (Ty × Ty) → Ty → Ty → Option Bool
  | 0, _, _, _ => none
  | n + 1, guard, a, b =>
    if a.isNever then some true
    else if b.isNever then some false
    else if a.hasSynonym || b.hasSynonym then
      if guard.contains (a, b) then some true
      else
        subtypeExpanded? table (subtype? table n ((a, b) :: guard)) (a.expand table)
          (b.expand table)
    else subtypeExpanded? table (subtype? table n guard) a b

/-- Whether every value of `a` is a value of `b`. -/
def subtype (a b : Ty) : Bool := (subtype? table (comparisonBound table a b) [] a b).getD false

end TypeFlow.Ty
