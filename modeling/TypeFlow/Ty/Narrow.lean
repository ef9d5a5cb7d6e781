import TypeFlow.Ty.Quantity
import TypeFlow.Ty.Meet

/-!
# Narrowing by tests

What a test says about the type of its operand. `narrowEq a b` is what is left of `b` when its value
equals one of `a`, `narrowNe a b` when it differs, and `narrowTruth` keeps the truthy or the falsy
values. `equalsCheck` and `truthiness` fold the tests themselves when the types decide them.

False, null and zero are falsy; every other value is truthy. Numbers compare across representations,
characters compare by number, and a boolean equals the numbers one and zero.
-/

namespace TypeFlow.Ty

/-! ### Equality -/

/-- The values of the numeric part `part` of tag `tag` that equal a number of `a`. A number of `a`
that is not known may equal anything. -/
def numericEqual (a part : Ty) (tag : Tag) : Ty :=
  let tags := (a.tags ∩ Tags.comparable).toList
  if tags.any fun t => (a.quantity? t).isNone then part
  else
    tags.foldl (fun acc t =>
      match (a.quantity? t).bind fun q => q.convert tag with
      | some candidate =>
        match part.payload? tag with
        | some p => if p = candidate then acc.union (exact candidate) else acc
        | none => acc.union (exact candidate)
      | none => acc) never

/-- The boolean `tag` when a value of `a` may equal it. -/
def booleanEqual (a : Ty) (tag : Tag) : Ty :=
  let wanted := Quantity.int (if tag = .true then 1 else 0)
  let survives := (a.tags ∩ Tags.numeric).toList.any fun t =>
    match a.quantity? t with
    | some q => q.same wanted
    | none => true
  if a.tags.contains tag || survives then ofTags (Tags.single tag) else never

/-- Narrowing by equality within a number of nested steps. -/
def narrowEq? (table : DeclTable) : Nat → Ty → Ty → Option Ty
  | 0, _, _ => none
  | n + 1, a, b =>
    if a.isNever || b.isNever then some never
    else do
      let a := a.expand table
      let b := b.expand table
      let values := a.enumToValue
      let kept ← b.tags.toList.foldlM (fun acc tag => do
          let part := b.part tag
          if tag = .enum then
            match nonempty? (← narrowEq? table n values b.enumValue) with
            | some v => pure (acc.union (enumeration b.enumDecl? (some v)))
            | none => pure acc
          else if Tags.comparable.contains tag then pure (acc.union (numericEqual values part tag))
          else if Tags.boolean.contains tag then pure (acc.union (booleanEqual values tag))
          else if values.tags.contains tag then
            let mine := values.part tag
            return acc.union (← meet? table (comparisonBound table mine part) mine part)
          else pure acc)
        never
      return if a.isPlainObject then kept.union (b.without (Tags.single .null)) else kept

variable (table : DeclTable)

/-- What is left of `b` when its value equals a value of `a`. -/
def narrowEq (a b : Ty) : Ty := (narrowEq? table (comparisonBound table a b) a b).getD never

/-- What is left of `b` when its value differs from one of `a`: only a single known value can be
excluded. -/
def narrowNe (a b : Ty) : Ty :=
  if a.hasValue then
    let b := b.expand table
    if a.tags.intersects Tags.singletons then b.without a.tags
    else
      match a.data.head? with
      | some p => if b.payload? p.tag = some p then b.without a.tags else b
      | none => b
  else b

/-- The result of comparing a value of `a` with one of `b` when the types decide it. An object that
is compared with null is left undecided. -/
def equalsCheck (a b : Ty) : Option Bool :=
  if a.isNever || b.isNever then none
  else
    let a := a.expand table
    let b := b.expand table
    let objectAgainstNull (x y : Ty) : Bool := x.tags.contains .object && y.tags.contains .null
    if objectAgainstNull a b || objectAgainstNull b a then none
    else if (narrowEq table a b).isNever then some false
    else if !(a.hasValue && b.hasValue) then none
    else if a.tags.intersects Tags.singletons || b.tags.intersects Tags.singletons then
      if a.tags = b.tags then some true else none
    else
      match a.data.head?, b.data.head? with
      | some p, some q =>
        match p.quantity?, q.quantity? with
        | some x, some y => if x.same y then some true else none
        | _, _ => if p = q then some true else none
      | _, _ => none

/-! ### Truth -/

/-- Whether the part of `t` with this tag can be truthy and whether it can be falsy; `ofEnum` is the
truth of the underlying value of its enum members. -/
def truthsOf (t : Ty) (ofEnum : Option Bool) (tag : Tag) : Bool × Bool :=
  let decided : Option Bool → Bool × Bool
    | some b => (b, !b)
    | none => (true, true)
  match tag with
  | .null | .false => decided (some false)
  | .true => decided (some true)
  | .number | .long | .float | .double | .char => decided ((t.quantity? tag).map fun q => !q.isZero)
  | .enum => decided ofEnum
  | .synonym => decided none
  | .object => if t.isPlainObject then decided none else decided (some true)
  | _ => decided (some true)

/-- The truth that all parts of `t` agree on. -/
def combinedTruth (t : Ty) (ofEnum : Option Bool) : Option Bool :=
  let truths := t.tags.toList.map (truthsOf t ofEnum)
  match truths.any Prod.fst, truths.any Prod.snd with
  | true, false => some true
  | false, true => some false
  | _, _ => none

mutual

/-- The truth of every value of a type, when they agree. -/
def truthiness : Ty → Option Bool
  | ⟨tags, data⟩ => combinedTruth ⟨tags, data⟩ (enumTruth data)

/-- The truth of the underlying value of the enum payload. -/
def enumTruth : List (Payload Ty) → Option Bool
  | [] => none
  | .enum _ (some v) :: _ => truthiness v
  | .enum _ none :: _ => none
  | _ :: ps => enumTruth ps

end

/-- Narrowing by truth within a number of nested steps. -/
def narrowTruth? (table : DeclTable) : Nat → Bool → Ty → Option Ty
  | 0, _, _ => none
  | n + 1, truth, t => do
    let t := t.expand table
    t.tags.toList.foldlM (fun acc tag => do
        let part := t.part tag
        let keepIf (b : Bool) : Ty := if b then acc.union part else acc
        match tag with
        | .null | .false => pure (keepIf (!truth))
        | .true => pure (keepIf truth)
        | .number | .long | .float | .double | .char =>
          match part.quantity? tag with
          | some q => pure (keepIf (q.isZero != truth))
          | none =>
            if truth then pure (acc.union part)
            else
              match (Quantity.int 0).convert tag with
              | some zero => pure (acc.union (exact zero))
              | none => pure acc
        | .enum =>
          match nonempty? (← narrowTruth? table n truth t.enumValue) with
          | some v => pure (acc.union (enumeration t.enumDecl? (some v)))
          | none => pure acc
        | .object => pure (keepIf (truth || t.isPlainObject))
        | _ => pure (keepIf truth))
      never

/-- The truthy or the falsy values of a type. -/
def narrowTruth (truth : Bool) (t : Ty) : Ty :=
  (narrowTruth? table (comparisonBound table t never) truth t).getD never

end TypeFlow.Ty
