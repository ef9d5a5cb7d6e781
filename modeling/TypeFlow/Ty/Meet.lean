import TypeFlow.DeclTable

/-!
# Intersection

The intersection of two types keeps the values that both allow. Payloads of a common tag are
intersected, a payload against a bare tag is kept, the unqualified object gives way to the
object-like values of the other side, and an enum against other values is kept with its underlying
value narrowed.

Two references to a typedef that contains itself have no finite intersection, so the operation is
bounded by a number of nested steps; `meet?` gives `none` when the bound does not suffice.
-/

namespace TypeFlow.Ty

/-- Sets or replaces a field among fields in ascending order of their names. -/
def insertField (name : String) (t : Ty) : List (String × Ty) → List (String × Ty)
  | [] => [(name, t)]
  | (m, u) :: fields =>
    if name = m then (name, t) :: fields
    else if name < m then (name, t) :: (m, u) :: fields
    else (m, u) :: insertField name t fields

/-- Keeps a type unless it is empty. -/
def nonempty? (t : Ty) : Option Ty := if t.isNever then none else some t

/-- Slot by slot intersection; no result when a slot is left empty. -/
def meetSlots? (meet : Ty → Ty → Option Ty) : List Ty → List Ty → Option (Option (List Ty))
  | [], _ => some (some [])
  | _, [] => some (some [])
  | t :: ts, u :: us => do
    match nonempty? (← meet t u) with
    | none => pure none
    | some m => return (← meetSlots? meet ts us).map (m :: ·)

/-- Fields of both shapes, with the types of common fields intersected; no result when a field of
`b` is left empty. -/
def meetFields? (meet : Ty → Ty → Option Ty) (a : List (String × Ty)) :
    List (String × Ty) → List (String × Ty) → Option (Option (List (String × Ty)))
  | acc, [] => some (some acc)
  | acc, (name, u) :: b => do
    let merged ← match a.lookup name with
      | some t => meet t u
      | none => some u
    match nonempty? merged with
    | none => pure none
    | some m => meetFields? meet a (insertField name m acc) b

variable (table : DeclTable)

/-- The more derived class of each related pair. -/
def meetClasses (d e : DeclSet) : DeclSet :=
  DeclSet.ofList <| d.ids.flatMap fun x => e.ids.filterMap fun y =>
    if table.isSubclass x y then some x
    else if table.isSubclass y x then some y
    else none

/-- Keeps a set of declarations unless it is empty. -/
def nonemptySet? (d : DeclSet) : Option DeclSet := if d.isEmpty then none else some d

/-- What two payloads have in common, with `meet` intersecting components. The inner `none` says
that they have nothing in common. -/
def meetPayload? (meet : Ty → Ty → Option Ty) (p q : Payload Ty) : Option (Option (Payload Ty)) :=
  match p, q with
  | .elements t, .elements u => do return (nonempty? (← meet t u)).map .elements
  | .tuple ts, .tuple us =>
    if ts.length = us.length then do return (← meetSlots? meet ts us).map .tuple else some none
  | .tuple ts, .elements u | .elements u, .tuple ts => do
    return (← meetSlots? meet ts (List.replicate ts.length u)).map .tuple
  | .dictionary k v, .dictionary k' v' => do
    match nonempty? (← meet k k') with
    | none => pure none
    | some key => return (nonempty? (← meet v v')).map (.dictionary key)
  | .method args r, .method _ _ => some (some (.method args r))
  | .module d, .module e => some ((nonemptySet? (d.inter e)).map .module)
  | .function d, .function e => some ((nonemptySet? (d.inter e)).map .function)
  | .cls d, .cls e => some ((nonemptySet? (d.inter e)).map .cls)
  | .synonym d, .synonym e => some ((nonemptySet? (d.inter e)).map .synonym)
  | .object d shape, .object e shape' =>
    match nonemptySet? (meetClasses table d e) with
    | none => some none
    | some classes =>
      match shape, shape' with
      | some fs, some gs => do
        return (← meetFields? meet fs fs gs).map fun fields => .object classes (some fields)
      | some fs, none => some (some (.object classes (some fs)))
      | none, other => some (some (.object classes other))
  | .enum d v, .enum e w =>
    if d.isSome && e.isSome && d ≠ e then some none
    else
      let decl := d.or e
      match v, w with
      | some t, some u => do
        return (nonempty? (← meet t u)).map fun m => .enum decl (some m)
      | some t, none => some (some (.enum decl (some t)))
      | none, other => some (some (.enum decl other))
  | p, q => some (if p = q then some p else none)

/-- The common tags of two types, with their payloads intersected. -/
def meetTags? (meet : Ty → Ty → Option Ty) (a b : Ty) : Option Ty := do
  let shared := a.tags ∩ b.tags
  let (tags, data) ← (shared ∩ Tags.data).toList.foldlM (fun (tags, data) tag =>
      match a.payload? tag, b.payload? tag with
      | some p, some q => do
        match ← meetPayload? table meet p q with
        | some r => pure (tags, data ++ [r])
        | none => pure (tags \ Tags.single tag, data)
      | some p, none => pure (tags, data ++ [p])
      | none, some q => pure (tags, data ++ [q])
      | none, none => pure (tags, data))
    (shared, [])
  return ofParts tags data

/-- Adds the enum members of `e` whose underlying value is one of the values of `other`. Kinds that
`e` holds directly are left out, and `meet` intersects the values. -/
def meetEnum? (meet : Ty → Ty → Option Ty) (e other result : Ty) : Option Ty :=
  let rest := other.without (e.tags ∪ Tags.single .enum)
  if !e.tags.contains .enum || other.tags.contains .enum || rest.isNever then some result
  else do
    match nonempty? (← meet e.enumValue rest) with
    | none => pure result
    | some value => return result.union (enumeration e.enumDecl? (some value))

/-- Intersection of expanded types within a number of nested steps. -/
def meetExpanded? (table : DeclTable) : Nat → Ty → Ty → Option Ty
  | 0, _, _ => none
  | n + 1, a, b => do
    let inner (x y : Ty) : Option Ty :=
      if x.isNever || y.isNever then some never
      else meetExpanded? table n (x.expand table) (y.expand table)
    let shared ← meetTags? table inner a b
    let left := if a.isPlainObject then shared.union (b.restrictedTo Tags.objectLike) else shared
    let both := if b.isPlainObject then left.union (a.restrictedTo Tags.objectLike) else left
    meetEnum? (meetExpanded? table n) b a (← meetEnum? (meetExpanded? table n) a b both)

/-- Intersection within a number of nested steps. -/
def meet? (n : Nat) (a b : Ty) : Option Ty :=
  if a.isNever || b.isNever then some never
  else meetExpanded? table n (a.expand table) (b.expand table)

/-- The values that belong to both types. -/
def meet (a b : Ty) : Ty := (meet? table (comparisonBound table a b) a b).getD never

end TypeFlow.Ty
