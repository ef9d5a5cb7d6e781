import TypeFlow.Source.Operator
import TypeFlow.Ty.Narrow

/-!
# Operators on types

The operands are split into parts of one tag and every pair of parts is evaluated on its own; a pair
that the language rejects contributes nothing. A result is a known value only when both parts are.
Integers wrap around at their width, floating-point results that are not finite are not kept.
-/

namespace TypeFlow

/-- A number in one of the four representations. -/
inductive Num where
  | number (n : Int32)
  | long (n : Int64)
  | float (x : Single)
  | double (x : Double)
  deriving DecidableEq

namespace Num

/-- The number that a payload is. -/
def ofPayload? : Payload Ty → Option Num
  | .number n => some (number n)
  | .long n => some (long n)
  | .float x => some (float x)
  | .double x => some (double x)
  | _ => none

/-- The type holding exactly this number. -/
def toTy : Num → Ty
  | number n => Ty.number n
  | long n => Ty.long n
  | float x => Ty.float x
  | double x => Ty.double x

/-- The number in the widest format. -/
def toDouble : Num → Double
  | number n | long n => Double.ofInt n.toInt
  | float x => x.toDouble
  | double x => x

/-- The number as a 64-bit integer; a fraction is dropped. -/
def toLong : Num → Int64
  | number n => Int64.ofInt n.toInt
  | long n => n
  | float x => x.toDouble.toLong
  | double x => x.toLong

/-- The number as a 32-bit float. -/
def toFloat : Num → Single
  | number n | long n => Single.ofInt n.toInt
  | float x => x
  | double x => x.toSingle

/-- The number in the representation of a numeric tag. -/
def promote (x : Num) : Tag → Num
  | .number => number (Int32.ofInt x.toLong.toInt)
  | .long => long x.toLong
  | .float => float x.toFloat
  | _ => double x.toDouble

end Num

/-- Rank of a numeric tag; the wider representation has the higher rank. -/
def numericRank : Tag → Nat
  | .number => 0
  | .long => 1
  | .float => 2
  | _ => 3

/-- Representation in which two numeric kinds are combined: the wider one, except that a 64-bit
integer and a 32-bit float are combined as 64-bit floats. -/
def promoted (a b : Tag) : Tag :=
  if (a = .long && b = .float) || (a = .float && b = .long) then .double
  else if numericRank b ≤ numericRank a then a
  else b

/-- Arithmetic on 32-bit integers; no result when dividing by zero. -/
def numberArithmetic (op : BinaryOp) (x y : Int32) : Option Int32 :=
  match op with
  | .add => some (x + y)
  | .sub => some (x - y)
  | .mul => some (x * y)
  | .div => if y = 0 then none else some (x / y)
  | .mod => if y = 0 then none else some (x % y)
  | .shl => some (x <<< (y &&& 31))
  | .shr => some (x >>> (y &&& 31))
  | .bitAnd => some (x &&& y)
  | .bitOr => some (x ||| y)
  | .bitXor => some (x ^^^ y)
  | _ => none

/-- Arithmetic on 64-bit integers; no result when dividing by zero. -/
def longArithmetic (op : BinaryOp) (x y : Int64) : Option Int64 :=
  match op with
  | .add => some (x + y)
  | .sub => some (x - y)
  | .mul => some (x * y)
  | .div => if y = 0 then none else some (x / y)
  | .mod => if y = 0 then none else some (x % y)
  | .shl => some (x <<< (y &&& 63))
  | .shr => some (x >>> (y &&& 63))
  | .bitAnd => some (x &&& y)
  | .bitOr => some (x ||| y)
  | .bitXor => some (x ^^^ y)
  | _ => none

/-- Arithmetic on floating-point numbers of one format; no result when dividing by zero or when the
result is not finite. -/
def decimalArithmetic (f : Binary.Format) (op : BinaryOp) (x y : Binary.Datum) :
    Option Binary.Datum :=
  let result := match op with
    | .add => some (x.add f y)
    | .sub => some (x.sub f y)
    | .mul => some (x.mul f y)
    | .div => if y.same (.finite false 0) then none else some (x.div f y)
    | _ => none
  result.filter fun d => d.isFinite

/-- Arithmetic on two numbers of the same representation. -/
def Num.arithmetic (op : BinaryOp) : Num → Num → Option Num
  | number x, number y => (numberArithmetic op x y).map number
  | long x, long y => (longArithmetic op x y).map long
  | float x, float y =>
    (decimalArithmetic .single op x.datum y.datum).map fun d => float (Single.ofDatum d)
  | double x, double y =>
    (decimalArithmetic .double op x.datum y.datum).map fun d => double (Double.ofDatum d)
  | _, _ => none

namespace Ty

/-- The number that the first payload is. -/
def firstNum? (t : Ty) : Option Num := t.data.head?.bind Num.ofPayload?

variable (op : BinaryOp)

/-- An operator on two numeric parts. -/
def numericPair (lt : Tag) (l : Ty) (rt : Tag) (r : Ty) : Option Ty :=
  let tag := promoted lt rt
  if op.isBitwise && !Tags.integer.contains tag then none
  else if op = .mod && Tags.decimal.contains tag then some (ofTags (Tags.single tag))
  else
    let folded := match l.firstNum?, r.firstNum? with
      | some x, some y => Num.arithmetic op (x.promote tag) (y.promote tag)
      | _, _ => none
    match folded with
    | some z => some z.toTy
    | none => some (ofTags (Tags.single tag))

/-- An operator on two parts of which at least one is a character: characters are subtracted from
each other, and integers are added to and subtracted from them. -/
def charPair (lt : Tag) (l : Ty) (rt : Tag) (r : Ty) : Option Ty :=
  let shifted (add : Bool) : Ty :=
    match l.asInteger?, r.asInteger? with
    | some a, some b =>
      let c := (Int64.ofInt (if add then a + b else a - b)).toInt
      if 0 ≤ c && c.toNat.isValidChar then char (Char.ofNat c.toNat)
      else ofTags (Tags.single .char)
    | _, _ => ofTags (Tags.single .char)
  match op, decide (lt = .char), decide (rt = .char) with
  | .sub, true, true =>
    match l.asInteger?, r.asInteger? with
    | some a, some b => some (number (Int32.ofInt (a - b)))
    | _, _ => some (ofTags (Tags.single .number))
  | .add, true, false => if Tags.integer.contains rt then some (shifted true) else none
  | .sub, true, false => if Tags.integer.contains rt then some (shifted false) else none
  | .add, false, true => if Tags.integer.contains lt then some (shifted true) else none
  | _, _, _ => none

/-- Text of a value that is appended to a string. -/
def appended? (t : Ty) : Option String :=
  if t.tags = Tags.single .null then some "null"
  else if t.tags = Tags.single .true then some "true"
  else if t.tags = Tags.single .false then some "false"
  else
    match t.data.head? with
    | some (.string s) => some s
    | some (.number n) | some (.long n) => some (toString n.toInt)
    | some (.char c) => some c.toString
    | _ => none

/-- Concatenation of two parts. -/
def concat (l r : Ty) : Ty :=
  match l.appended?, r.appended? with
  | some a, some b => string (a ++ b)
  | _, _ => ofTags (Tags.single .string)

/-- A bitwise operator on two booleans. -/
def booleanPair (lt rt : Tag) : Option Ty :=
  let a := lt = Tag.true
  let b := rt = Tag.true
  match op with
  | .bitAnd => some (bool (a && b))
  | .bitOr => some (bool (a || b))
  | .bitXor => some (bool (a != b))
  | _ => none

/-- An operator on two parts of one tag each; `none` when the language rejects them. -/
def binaryPair (lt : Tag) (l : Ty) (rt : Tag) (r : Ty) : Option Ty :=
  if (lt = .object && l.data.isEmpty) || (rt = .object && r.data.isEmpty) then some any
  else if op = .add && (lt = .string || rt = .string) then some (concat l r)
  else if Tags.numeric.contains lt && Tags.numeric.contains rt then numericPair op lt l rt r
  else if lt = .char || rt = .char then charPair op lt l rt r
  else if Tags.boolean.contains lt && Tags.boolean.contains rt then booleanPair op lt rt
  else none

/-- The number compared by an ordering operator. -/
def ordered? (t : Ty) : Option Double :=
  match t.data.head? with
  | some p =>
    match Num.ofPayload? p with
    | some x => some x.toDouble
    | none => t.asDouble?
  | none => none

/-- The result of an ordering operator when both numbers are known. -/
def ordering? (l r : Ty) : Option Bool :=
  match l.ordered?, r.ordered? with
  | some a, some b =>
    match op with
    | .lt => some (a.lt b)
    | .le => some (a.le b)
    | .gt => some (b.lt a)
    | .ge => some (b.le a)
    | _ => none
  | _, _ => none

/-- The type of a comparison. -/
def comparison (table : DeclTable) (op : BinaryOp) (l r : Ty) : Ty :=
  ofVerdict <| match op with
    | .eq => equalsCheck table l r
    | .ne => (equalsCheck table l r).map fun b => !b
    | _ => ordering? op l r

/-- The type of `l op r`. When the language rejects every pair nothing is known about the result. -/
def binary (table : DeclTable) (op : BinaryOp) (l r : Ty) : Ty :=
  if l.isNever || r.isNever then never
  else
    let l := (l.expand table).enumToValue
    let r := (r.expand table).enumToValue
    if op.isComparison then comparison table op l r
    else
      let results := l.tags.toList.flatMap fun lt => r.tags.toList.filterMap fun rt =>
        binaryPair op lt (l.part lt) rt (r.part rt)
      let result := unionAll results
      if result.isNever then any else result

/-- An operator with one operand on a part of one tag; `none` when the language rejects it. -/
def unaryPart (op : UnaryOp) (tag : Tag) (part : Ty) : Option Ty :=
  let plainObject := if tag = .object && part.data.isEmpty then some any else none
  let complement : Ty := match part.firstNum? with
    | some (.number n) => number (~~~n)
    | some (.long n) => long (~~~n)
    | _ => ofTags (Tags.single tag)
  match op with
  | .plus => if Tags.numeric.contains tag then some part else plainObject
  | .neg =>
    if Tags.numeric.contains tag then
      some <| match part.firstNum? with
        | some (.number n) => number (-n)
        | some (.long n) => long (-n)
        | some (.float x) => float x.neg
        | some (.double x) => double x.neg
        | none => ofTags (Tags.single tag)
    else plainObject
  | .not =>
    if Tags.boolean.contains tag then some (bool (tag = .false))
    else if Tags.integer.contains tag then some complement
    else plainObject
  | .bitNot => if Tags.integer.contains tag then some complement else plainObject

/-- The type of `op t`. When the language rejects every part nothing is known about the result. -/
def unary (table : DeclTable) (op : UnaryOp) (t : Ty) : Ty :=
  if t.isNever then never
  else
    let t := (t.expand table).enumToValue
    let result := unionAll (t.tags.toList.filterMap fun tag => unaryPart op tag (t.part tag))
    if result.isNever then any else result

end Ty

end TypeFlow
