import TypeFlow.Ty.Basic

/-!
# Union and widening

The union of two types has the tags of both. Where both give a payload for a tag the payloads are
merged; where only one has the tag at all its payload is kept; a tag that one side holds without
payload is already general and stays so. `widen` drops container payloads below a given depth, so
that a chain of unions cannot nest without end.
-/

namespace TypeFlow.Ty

variable (join : Ty → Ty → Ty)

/-- Everything an array with this payload may hold. -/
def elementUnionWith : Payload Ty → Ty
  | .elements t => t
  | .tuple ts => ts.foldl join never
  | _ => never

/-- Fields that both shapes know, with their types joined; `none` when there are none. -/
def commonFields (a b : List (String × Ty)) : Option (List (String × Ty)) :=
  let fields := a.filterMap fun (name, t) => (b.lookup name).map fun u => (name, join t u)
  if fields.isEmpty then none else some fields

/-- Payload that covers both payloads of one tag, or `none` when only the bare tag does. Components
are joined by `join`. -/
def mergePayload (p q : Payload Ty) : Option (Payload Ty) :=
  match p, q with
  | .tuple ts, .tuple us =>
    if ts.length = us.length then some (.tuple (List.zipWith join ts us))
    else some (.elements (join (elementUnionWith join p) (elementUnionWith join q)))
  | .tuple _, .elements _ | .elements _, .tuple _ | .elements _, .elements _ =>
    some (.elements (join (elementUnionWith join p) (elementUnionWith join q)))
  | .dictionary k v, .dictionary k' v' => some (.dictionary (join k k') (join v v'))
  | .method args r, .method args' r' =>
    if args.length = args'.length then some (.method (List.zipWith join args args') (join r r'))
    else none
  | .module d, .module e => some (.module (d.union e))
  | .function d, .function e => some (.function (d.union e))
  | .cls d, .cls e => some (.cls (d.union e))
  | .synonym d, .synonym e => some (.synonym (d.union e))
  | .object d (some fs), .object e (some gs) => some (.object (d.union e) (commonFields join fs gs))
  | .object d _, .object e _ => some (.object (d.union e) none)
  | .enum d v, .enum e w =>
    let decl := if d = e then d else none
    let value := match v, w with
      | some v, some w => some (join v w)
      | _, _ => none
    if decl.isNone && value.isNone then none else some (.enum decl value)
  | p, q => if p = q then some p else none

/-- One level of the union; components are joined by `join`. -/
def unionStep (a b : Ty) : Ty :=
  if b.isNever then a
  else if a.isNever then b
  else
    let tags := a.tags ∪ b.tags
    ofParts tags <| (tags ∩ Tags.data).toList.filterMap fun tag =>
      match a.payload? tag, b.payload? tag with
      | some p, some q => mergePayload join p q
      | some p, none => if b.tags.contains tag then none else some p
      | none, some q => if a.tags.contains tag then none else some q
      | none, none => none

/-- The union of types nested at most `n` levels deep. -/
def unionWithin : Nat → Ty → Ty → Ty
  | 0 => unionStep fun a _ => a
  | n + 1 => unionStep (unionWithin n)

/-- Smallest type that contains both. -/
def union (a b : Ty) : Ty := unionWithin (max a.depth b.depth) a b

/-- Joins a type into another one and tells whether that has changed it. -/
def unionInto (into t : Ty) : Ty × Bool :=
  if t.isNever then (into, false)
  else if into.isNever then (t, true)
  else
    let joined := into.union t
    if joined = into then (into, false) else (joined, true)

/-- The union of a list of types. -/
def unionAll (ts : List Ty) : Ty := ts.foldl union never

/-- Everything an array with this payload may hold. -/
def elementUnion (p : Payload Ty) : Ty := elementUnionWith union p

/-- Element type when all values are arrays. -/
def arrayElements? (t : Ty) : Option Ty :=
  if t.tags = Tags.single .array then
    match t.payload? .array with
    | some p => some (elementUnion p)
    | none => some any
  else none

/-- Replaces enum members by their underlying values. -/
def enumToValue (t : Ty) : Ty :=
  if t.tags.contains .enum then (t.without (Tags.single .enum)).union t.enumValue else t

/-- What is left of a payload when its components are dropped: a shape or the value of a named enum
goes, any other container loses its payload. -/
def flattenPayload : Payload Ty → Option (Payload Ty)
  | .object d (some _) => some (.object d none)
  | .enum (some d) (some _) => some (.enum (some d) none)
  | p => if p.isNested then none else some p

/-- Drops container payloads nested deeper than `depth`. -/
def widen : Nat → Ty → Ty
  | 0, t => ⟨t.tags, t.data.filterMap flattenPayload⟩
  | depth + 1, t => ⟨t.tags, t.data.map (Payload.map (widen depth))⟩

/-- Whether `widen` drops anything: something is nested at the depth where it stops. -/
def widenDrops : Nat → Ty → Bool
  | 0, t => t.data.any Payload.isNested
  | depth + 1, t => t.data.any fun p => p.components.any (widenDrops depth)

end TypeFlow.Ty
