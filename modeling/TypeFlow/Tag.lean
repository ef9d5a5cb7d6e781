/-!
# Kinds of runtime values

A runtime value has one of nineteen kinds, its *tag*. `Tags` is a set of tags, kept as a bit mask
whose bits follow the order of the constructors of `Tag`. That order is observable: it is the order
in which the parts of a type are visited and printed.
-/

namespace TypeFlow

/-- The kind of a runtime value. The two booleans are kinds of their own. -/
inductive Tag where
  | null | false | true
  | number | long | float | double
  | char | string
  | array | dictionary | method
  | module | function | cls
  | object | enum | symbol | synonym
  deriving DecidableEq, Repr

namespace Tag

/-- Position of a tag in the bit order. -/
def bit : Tag → Nat
  | null => 0
  | .false => 1
  | .true => 2
  | number => 3
  | long => 4
  | float => 5
  | double => 6
  | char => 7
  | string => 8
  | array => 9
  | dictionary => 10
  | method => 11
  | module => 12
  | function => 13
  | .cls => 14
  | object => 15
  | enum => 16
  | symbol => 17
  | synonym => 18

/-- Every tag, in bit order. -/
def all : List Tag :=
  [null, .false, .true, number, long, float, double, char, string, array, dictionary, method,
    module, function, .cls, object, enum, symbol, synonym]

/-- Every tag is listed by `Tag.all`. -/
theorem mem_all (t : Tag) : t ∈ all := by cases t <;> decide

/-- Tags are told apart by their position. -/
theorem bit_injective {s t : Tag} (h : s.bit = t.bit) : s = t := by
  cases s <;> cases t <;> first | rfl | simp [bit] at h

/-- Every position lies within the mask. -/
theorem bit_lt (t : Tag) : t.bit < 19 := by cases t <;> decide

/-- Name of a tag as it appears in a printed type. -/
def name : Tag → String
  | null => "Null"
  | .false => "false"
  | .true => "true"
  | number => "Number"
  | long => "Long"
  | float => "Float"
  | double => "Double"
  | char => "Char"
  | string => "String"
  | array => "Array"
  | dictionary => "Dictionary"
  | method => "Method"
  | module => "Module"
  | function => "Function"
  | .cls => "Class"
  | object => "Object"
  | enum => "Enum"
  | symbol => "Symbol"
  | synonym => "Typedef"

end Tag

/-- A set of tags. -/
structure Tags where
  /-- The mask; bit `t.bit` is set exactly when `t` belongs to the set. -/
  bits : BitVec 19
  deriving DecidableEq, Repr

namespace Tags

/-- The set without members. -/
def empty : Tags := ⟨0⟩

/-- The set holding only `t`. -/
def single (t : Tag) : Tags := ⟨BitVec.twoPow 19 t.bit⟩

variable (s : Tags)

/-- Membership as a Boolean. -/
def contains (t : Tag) : Bool := s.bits.getLsbD t.bit

instance : Membership Tag Tags := ⟨fun s t => s.contains t = true⟩

instance (t : Tag) (s : Tags) : Decidable (t ∈ s) := inferInstanceAs (Decidable (_ = _))

instance : Union Tags := ⟨fun s t => ⟨s.bits ||| t.bits⟩⟩

instance : Inter Tags := ⟨fun s t => ⟨s.bits &&& t.bits⟩⟩

instance : SDiff Tags := ⟨fun s t => ⟨s.bits &&& ~~~t.bits⟩⟩

instance : HasSubset Tags := ⟨fun s t => s.bits &&& t.bits = s.bits⟩

instance (s t : Tags) : Decidable (s ⊆ t) := inferInstanceAs (Decidable (_ = _))

/-- Whether the set has no members. -/
def isEmpty : Bool := s.bits == 0

/-- Whether the two sets have a member in common. -/
def intersects (s t : Tags) : Bool := !(s ∩ t).isEmpty

/-- The set of the listed tags. -/
def ofList : List Tag → Tags
  | [] => empty
  | t :: ts => single t ∪ ofList ts

/-- The members, in bit order. -/
def toList : List Tag := Tag.all.filter s.contains

/-- Number of members. -/
def size : Nat := s.toList.length

/-- Whether the set has exactly one member. -/
def isSingle : Bool := s.size == 1

/-- `true` and `false`. -/
def boolean : Tags := ofList [.false, .true]

/-- Integers of either width. -/
def integer : Tags := ofList [.number, .long]

/-- Binary floating-point numbers of either width. -/
def decimal : Tags := ofList [.float, .double]

/-- All numbers. -/
def numeric : Tags := integer ∪ decimal

/-- Kinds whose payload is a literal value. -/
def valueTypes : Tags := numeric ∪ ofList [.char, .string, .symbol]

/-- Kinds with a single value, which carry no payload. -/
def singletons : Tags := ofList [.null] ∪ boolean

/-- Kinds that an unqualified `Object` stands for besides class instances. -/
def objectLike : Tags := boolean ∪ valueTypes ∪ ofList [.array, .dictionary, .enum]

/-- Every tag. -/
def any : Tags := ofList Tag.all

/-- Kinds that may carry a payload. -/
def data : Tags := any \ singletons

/-- Kinds of the underlying value of an enum member. -/
def enumValues : Tags := numeric ∪ ofList [.char, .string]

/-- Kinds compared by numeric value. -/
def comparable : Tags := numeric ∪ ofList [.char]

/-- Membership unfolds to the Boolean test. -/
theorem mem_iff {t : Tag} {s : Tags} : t ∈ s ↔ s.contains t = true := Iff.rfl

/-- Membership in a union. -/
@[simp] theorem mem_union {t : Tag} {r s : Tags} : t ∈ r ∪ s ↔ t ∈ r ∨ t ∈ s := by
  change (r.bits ||| s.bits).getLsbD t.bit = true ↔ _
  simp [mem_iff, contains]

/-- Membership in an intersection. -/
@[simp] theorem mem_inter {t : Tag} {r s : Tags} : t ∈ r ∩ s ↔ t ∈ r ∧ t ∈ s := by
  change (r.bits &&& s.bits).getLsbD t.bit = true ↔ _
  simp [mem_iff, contains]

/-- Membership in a difference. -/
@[simp] theorem mem_sdiff {t : Tag} {r s : Tags} : t ∈ r \ s ↔ t ∈ r ∧ t ∉ s := by
  change (r.bits &&& ~~~s.bits).getLsbD t.bit = true ↔ _
  simp [mem_iff, contains, t.bit_lt]

/-- Membership in a singleton. -/
@[simp] theorem mem_single {s t : Tag} : s ∈ single t ↔ s = t := by
  change (BitVec.twoPow 19 t.bit).getLsbD s.bit = true ↔ _
  simp only [BitVec.getLsbD_twoPow, Bool.and_eq_true, decide_eq_true_eq]
  exact ⟨fun h => (Tag.bit_injective h.2).symm, fun h => ⟨t.bit_lt, by rw [h]⟩⟩

/-- The empty set has no member. -/
@[simp] theorem not_mem_empty {t : Tag} : t ∉ empty := by simp [mem_iff, contains, empty]

/-- `toList` lists exactly the members. -/
@[simp] theorem mem_toList {t : Tag} {s : Tags} : t ∈ s.toList ↔ t ∈ s := by
  simp [toList, Tag.mem_all, mem_iff]

end Tags

end TypeFlow
