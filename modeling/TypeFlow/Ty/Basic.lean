import TypeFlow.Tag
import TypeFlow.DeclSet
import TypeFlow.Binary.Basic

/-!
# Types of the lattice

A type is a set of tags together with at most one payload for each tag. A tag without payload stands
for all values of that kind; a payload narrows it to one literal, to containers of given contents or
to the named declarations. No tags at all is the empty type, all tags without payload is the type of
every value.

`Payload` is parametrised by the type of its components, so that an operation on types is written
as a function on one level of payloads and then closed by recursion. `Ty.same` decides structural
equality, under which floating-point payloads are compared by their bits.
-/

namespace TypeFlow

/-- What is known about the values of one tag, over components of type `α`. -/
inductive Payload (α : Type) where
  | number (n : Int32)
  | long (n : Int64)
  | float (x : Single)
  | double (x : Double)
  | char (c : Char)
  | string (s : String)
  | symbol (s : String)
  /-- Arrays of any length over one element type. -/
  | elements (element : α)
  /-- Arrays of fixed length with a type for each slot. -/
  | tuple (slots : List α)
  | dictionary (key value : α)
  | method (args : List α) (result : α)
  | module (decls : DeclSet)
  | function (decls : DeclSet)
  | cls (decls : DeclSet)
  | synonym (decls : DeclSet)
  /-- Instances of one of the classes, with the types of known fields in ascending order of their
  names. -/
  | object (classes : DeclSet) (shape : Option (List (String × α)))
  /-- Members of an enum, with the type of their underlying value. -/
  | enum (decl : Option DeclId) (value : Option α)

namespace Payload

variable {α β : Type}

/-- The tag a payload belongs to. -/
def tag : Payload α → Tag
  | number _ => .number
  | long _ => .long
  | float _ => .float
  | double _ => .double
  | char _ => .char
  | string _ => .string
  | symbol _ => .symbol
  | elements _ | tuple _ => .array
  | dictionary _ _ => .dictionary
  | method _ _ => .method
  | module _ => .module
  | function _ => .function
  | .cls _ => .cls
  | synonym _ => .synonym
  | object _ _ => .object
  | enum _ _ => .enum

/-- Whether the payload is a literal value rather than a structure. -/
def isValue (p : Payload α) : Bool := Tags.valueTypes.contains p.tag

/-- The declarations that a payload names. -/
def decls? : Payload α → Option DeclSet
  | module d | function d | .cls d | synonym d | object d _ => some d
  | _ => none

/-- Applies a function to every component. -/
def map (f : α → β) : Payload α → Payload β
  | number n => number n
  | long n => long n
  | float x => float x
  | double x => double x
  | char c => char c
  | string s => string s
  | symbol s => symbol s
  | elements t => elements (f t)
  | tuple ts => tuple (ts.map f)
  | dictionary k v => dictionary (f k) (f v)
  | method args r => method (args.map f) (f r)
  | module d => module d
  | function d => function d
  | .cls d => .cls d
  | synonym d => synonym d
  | object d shape => object d (shape.map fun fields => fields.map fun (n, t) => (n, f t))
  | enum d v => enum d (v.map f)

/-- The components, from left to right. -/
def components : Payload α → List α
  | elements t => [t]
  | tuple ts => ts
  | dictionary k v => [k, v]
  | method args r => args ++ [r]
  | object _ (some fields) => fields.map Prod.snd
  | enum _ (some v) => [v]
  | _ => []

/-- Whether the payload holds components. -/
def isNested : Payload α → Bool
  | elements _ | tuple _ | dictionary _ _ | method _ _ | object _ (some _) | enum _ (some _) => true
  | _ => false

/-- Mapping keeps the tag. -/
@[simp] theorem tag_map (f : α → β) (p : Payload α) : (p.map f).tag = p.tag := by
  cases p <;> rfl

end Payload

/-- A type: a set of tags with payloads for some of them. -/
structure Ty where
  /-- The kinds of values that belong to the type. -/
  tags : Tags
  /-- Payloads, in the order of their tags. -/
  data : List (Payload Ty)

namespace Ty

/-! ### Structural equality -/

mutual

/-- Whether two types are the same structure. -/
def same : Ty → Ty → Bool
  | ⟨s, d⟩, ⟨t, e⟩ => s == t && sameData d e
termination_by structural a => a

def sameData : List (Payload Ty) → List (Payload Ty) → Bool
  | [], [] => true
  | p :: ps, q :: qs => samePayload p q && sameData ps qs
  | _, _ => false
termination_by structural a => a

def samePayload : Payload Ty → Payload Ty → Bool
  | .number m, .number n | .long m, .long n => m == n
  | .float x, .float y | .double x, .double y => x == y
  | .char c, .char d => c == d
  | .string s, .string t | .symbol s, .symbol t => s == t
  | .elements t, .elements u => same t u
  | .tuple ts, .tuple us => sameList ts us
  | .dictionary k v, .dictionary k' v' => same k k' && same v v'
  | .method args r, .method args' r' => sameList args args' && same r r'
  | .module d, .module e | .function d, .function e | .cls d, .cls e | .synonym d, .synonym e
  | .object d none, .object e none => d == e
  | .object d (some fs), .object e (some gs) => d == e && sameFields fs gs
  | .enum d none, .enum e none => d == e
  | .enum d (some v), .enum e (some w) => d == e && same v w
  | _, _ => false
termination_by structural a => a

def sameList : List Ty → List Ty → Bool
  | [], [] => true
  | t :: ts, u :: us => same t u && sameList ts us
  | _, _ => false
termination_by structural a => a

def sameFields : List (String × Ty) → List (String × Ty) → Bool
  | [], [] => true
  | (n, t) :: ts, (m, u) :: us => n == m && same t u && sameFields ts us
  | _, _ => false
termination_by structural a => a

end

mutual

/-- `same` decides equality. -/
theorem same_iff : ∀ a b : Ty, same a b = true ↔ a = b
  | ⟨_, d⟩, ⟨_, e⟩ => by simp [same, sameData_iff d e]

theorem sameData_iff : ∀ a b : List (Payload Ty), sameData a b = true ↔ a = b
  | [], b => by cases b <;> simp [sameData]
  | p :: ps, b => by cases b <;> simp [sameData, samePayload_iff p, sameData_iff ps]

theorem samePayload_iff : ∀ a b : Payload Ty, samePayload a b = true ↔ a = b
  | .number _, b | .long _, b | .float _, b | .double _, b | .char _, b | .string _, b
  | .symbol _, b => by cases b <;> simp [samePayload]
  | .elements t, b => by cases b <;> simp [samePayload, same_iff t]
  | .tuple ts, b => by cases b <;> simp [samePayload, sameList_iff ts]
  | .dictionary k v, b => by cases b <;> simp [samePayload, same_iff k, same_iff v]
  | .method args r, b => by cases b <;> simp [samePayload, sameList_iff args, same_iff r]
  | .module _, b | .function _, b | .cls _, b | .synonym _, b => by cases b <;> simp [samePayload]
  | .object _ none, b => by
      cases b with
      | object _ shape => cases shape <;> simp [samePayload]
      | _ => simp [samePayload]
  | .object _ (some fs), b => by
      cases b with
      | object _ shape => cases shape <;> simp [samePayload, sameFields_iff fs]
      | _ => simp [samePayload]
  | .enum _ none, b => by
      cases b with
      | enum _ value => cases value <;> simp [samePayload]
      | _ => simp [samePayload]
  | .enum _ (some v), b => by
      cases b with
      | enum _ value => cases value <;> simp [samePayload, same_iff v]
      | _ => simp [samePayload]

theorem sameList_iff : ∀ a b : List Ty, sameList a b = true ↔ a = b
  | [], b => by cases b <;> simp [sameList]
  | t :: ts, b => by cases b <;> simp [sameList, same_iff t, sameList_iff ts]

theorem sameFields_iff : ∀ a b : List (String × Ty), sameFields a b = true ↔ a = b
  | [], b => by cases b <;> simp [sameFields]
  | (n, t) :: ts, b => by
      cases b with
      | nil => simp [sameFields]
      | cons f fs =>
          obtain ⟨m, u⟩ := f
          simp [sameFields, same_iff t, sameFields_iff ts, and_assoc]

end

instance : DecidableEq Ty := fun a b => decidable_of_iff _ (same_iff a b)

instance : DecidableEq (Payload Ty) := fun a b => decidable_of_iff _ (samePayload_iff a b)

/-! ### Measures -/

mutual

/-- Levels of nested payloads. -/
def depth : Ty → Nat
  | ⟨_, d⟩ => depthData d

def depthData : List (Payload Ty) → Nat
  | [] => 0
  | p :: ps => max (depthPayload p) (depthData ps)

def depthPayload : Payload Ty → Nat
  | .elements t => depth t + 1
  | .tuple ts => depthList ts + 1
  | .dictionary k v => max (depth k) (depth v) + 1
  | .method args r => max (depthList args) (depth r) + 1
  | .object _ (some fs) => depthFields fs + 1
  | .enum _ (some v) => depth v + 1
  | _ => 0

def depthList : List Ty → Nat
  | [] => 0
  | t :: ts => max (depth t) (depthList ts)

def depthFields : List (String × Ty) → Nat
  | [] => 0
  | (_, t) :: ts => max (depth t) (depthFields ts)

end

mutual

/-- Number of types and payloads inside a type, itself included. -/
def size : Ty → Nat
  | ⟨_, d⟩ => 1 + sizeData d

def sizeData : List (Payload Ty) → Nat
  | [] => 0
  | p :: ps => sizePayload p + sizeData ps

def sizePayload : Payload Ty → Nat
  | .elements t => 1 + size t
  | .tuple ts => 1 + sizeList ts
  | .dictionary k v => 1 + size k + size v
  | .method args r => 1 + sizeList args + size r
  | .object _ (some fs) => 1 + sizeFields fs
  | .enum _ (some v) => 1 + size v
  | _ => 1

def sizeList : List Ty → Nat
  | [] => 0
  | t :: ts => size t + sizeList ts

def sizeFields : List (String × Ty) → Nat
  | [] => 0
  | (_, t) :: ts => size t + sizeFields ts

end

/-! ### Building types -/

/-- The empty type. -/
def never : Ty := ⟨Tags.empty, []⟩

variable (tags : Tags)

/-- All values of the given kinds. -/
def ofTags : Ty := ⟨tags, []⟩

/-- The type of every value. -/
def any : Ty := ofTags Tags.any

/-- A single tag with a payload. -/
def exact (p : Payload Ty) : Ty := ⟨Tags.single p.tag, [p]⟩

/-- The type of `null`. -/
def null : Ty := ofTags (Tags.single .null)

/-- Both booleans. -/
def boolean : Ty := ofTags Tags.boolean

/-- Exactly one boolean. -/
def bool (b : Bool) : Ty := ofTags (Tags.single (if b then .true else .false))

/-- The boolean that a test gives, or both when it is undecided. -/
def ofVerdict : Option Bool → Ty
  | some b => bool b
  | none => boolean

/-- Exactly the 32-bit integer `n`. -/
def number (n : Int32) : Ty := exact (.number n)

/-- Exactly the 64-bit integer `n`. -/
def long (n : Int64) : Ty := exact (.long n)

/-- Exactly the 32-bit number `x`. -/
def float (x : Single) : Ty := exact (.float x)

/-- Exactly the 64-bit number `x`. -/
def double (x : Double) : Ty := exact (.double x)

/-- Exactly the character `c`. -/
def char (c : Char) : Ty := exact (.char c)

/-- Exactly the string `s`. -/
def string (s : String) : Ty := exact (.string s)

/-- Exactly the symbol `s`. -/
def symbol (s : String) : Ty := exact (.symbol s)

/-- Arrays over `element`. -/
def array (element : Ty) : Ty := exact (.elements element)

/-- Arrays with the given slots. -/
def tuple (slots : List Ty) : Ty := exact (.tuple slots)

/-- Dictionaries from `key` to `value`. -/
def dictionary (key value : Ty) : Ty := exact (.dictionary key value)

/-- Instances of the given classes. -/
def object (classes : DeclSet) : Ty := exact (.object classes none)

/-- Members of an enum. Without a declaration and a value it is the unqualified enum type. -/
def enumeration : Option DeclId → Option Ty → Ty
  | none, none => ofTags (Tags.single .enum)
  | decl, value => exact (.enum decl value)

/-! ### Reading types -/

variable (t : Ty)

/-- Whether the type has no values. -/
def isNever : Bool := t.tags.isEmpty

/-- Whether the type holds every value. -/
def isAny : Bool := t.tags == Tags.any && t.data.isEmpty

/-- Whether the type has exactly one tag. -/
def isExact : Bool := t.tags.isSingle

/-- Whether the type is a single known value such as `null` or an integer literal. -/
def hasValue : Bool :=
  t.isExact && (t.tags.intersects Tags.singletons || (t.data.head?.map Payload.isValue).getD false)

/-- Whether some payload is not a literal value. -/
def hasStructure : Bool := t.data.any fun p => !p.isValue

/-- The payload of a tag. -/
def payload? (tag : Tag) : Option (Payload Ty) := t.data.find? fun p => p.tag == tag

/-- Whether the type has the unqualified object tag, which stands for every object-like value. -/
def isPlainObject : Bool := t.tags.contains .object && (t.payload? .object).isNone

/-- Whether the type refers to typedefs at the top level. -/
def hasSynonym : Bool := t.tags.contains .synonym

/-- The enum that the enum payload belongs to. -/
def enumDecl? : Option DeclId :=
  match t.payload? .enum with
  | some (.enum decl _) => decl
  | _ => none

/-- The underlying value of the enum members; all possible ones when unknown. -/
def enumValue : Ty :=
  match t.payload? .enum with
  | some (.enum _ (some v)) => v
  | _ => ofTags Tags.enumValues

/-- The value of an exact integer or the number of an exact character. -/
def asInteger? : Option Int :=
  if t.isExact then
    match t.data.head? with
    | some (.number n) | some (.long n) => some n.toInt
    | some (.char c) => some c.toNat
    | _ => none
  else none

/-- The value of an exact number or character in the widest format. -/
def asDouble? : Option Double :=
  if t.isExact then
    match t.data.head? with
    | some (.number n) | some (.long n) => some (Double.ofInt n.toInt)
    | some (.float x) => some x.toDouble
    | some (.double x) => some x
    | some (.char c) => some (Double.ofInt c.toNat)
    | _ => none
  else none

/-! ### Changing tags and payloads -/

/-- A type from its parts. Payloads of absent tags are dropped, and literals are dropped when two
or more kinds of literals are present. The payloads must come in the order of their tags. -/
def ofParts (data : List (Payload Ty)) : Ty :=
  let present := data.filter fun p => tags.contains p.tag
  ⟨tags, if 2 ≤ (tags ∩ Tags.valueTypes).size then present.filter fun p => !p.isValue else present⟩

/-- Adds tags without payload, dropping payloads held for them. -/
def withTags : Ty := ofParts (t.tags ∪ tags) (t.data.filter fun p => !tags.contains p.tag)

/-- Removes tags together with their payloads. -/
def without : Ty := ⟨t.tags \ tags, t.data.filter fun p => !tags.contains p.tag⟩

/-- Keeps only the given tags and their payloads. -/
def restrictedTo : Ty := t.without (Tags.any \ tags)

/-- The part of a type that has one tag. -/
def part (tag : Tag) : Ty := t.restrictedTo (Tags.single tag)

/-- Puts a payload in its place among payloads ordered by tag, replacing one of the same tag. -/
def insertPayload (p : Payload Ty) : List (Payload Ty) → List (Payload Ty)
  | [] => [p]
  | q :: qs =>
    if p.tag = q.tag then p :: qs
    else if p.tag.bit < q.tag.bit then p :: q :: qs
    else q :: insertPayload p qs

/-- Replaces the payload of a tag, adding the tag if needed. -/
def setPayload (p : Payload Ty) : Ty :=
  ofParts (t.tags ∪ Tags.single p.tag) (insertPayload p t.data)

/-- Drops the payload of a tag and keeps the tag. A set of several tags names no payload. -/
def clearPayload : Ty := ⟨t.tags, t.data.filter fun p => Tags.single p.tag != tags⟩

end Ty

end TypeFlow
