import TypeFlow.Binary.Format

/-!
# Floating-point numbers of two widths

`Single` and `Double` are bit patterns of the 32-bit and the 64-bit format. Two of them are equal
values when their bits agree; `same` compares the numbers they stand for.
-/

namespace TypeFlow

open Binary

/-- A 32-bit floating-point number. -/
structure Single where
  bits : UInt32
  deriving DecidableEq

/-- A 64-bit floating-point number. -/
structure Double where
  bits : UInt64
  deriving DecidableEq

namespace Double

variable (x : Double)

/-- What the bits stand for. -/
def datum : Datum := Format.double.decode x.bits.toNat

/-- The number with the given datum. -/
def ofDatum (d : Datum) : Double := ⟨(Format.double.encode d).toUInt64⟩

/-- The nearest number to an integer. -/
def ofInt (n : Int) : Double := ofDatum (Format.double.ofInt n)

/-- Numeric equality. -/
def same (x y : Double) : Bool := x.datum.same y.datum

/-- Numeric order. -/
def lt (x y : Double) : Bool := x.datum.lt y.datum

/-- Numeric order, equality included. -/
def le (x y : Double) : Bool := x.datum.le y.datum

/-- Whether the number is neither infinite nor a NaN. -/
def isFinite (x : Double) : Bool := x.datum.isFinite

/-- The number with the sign bit flipped. -/
def neg : Double := ⟨x.bits ^^^ 0x8000000000000000⟩

/-- The number with the sign bit cleared. -/
def abs : Double := ⟨x.bits &&& 0x7fffffffffffffff⟩

/-- The value of a whole number below `9.2 * 10 ^ 18` in size. -/
def whole? (x : Double) : Option Int :=
  (x.datum.whole? Format.double).filter fun n => n.natAbs < 9200000000000000000

/-- The whole part as a 32-bit integer, clamped to its range. -/
def toNumber : Int32 := Int32.ofInt (x.datum.clamp Format.double (-2147483648) 2147483647)

/-- The whole part as a 64-bit integer, clamped to its range. -/
def toLong : Int64 :=
  Int64.ofInt (x.datum.clamp Format.double (-9223372036854775808) 9223372036854775807)

end Double

namespace Single

/-- What the bits stand for. -/
def datum (x : Single) : Datum := Format.single.decode x.bits.toNat

/-- The number with the given datum. -/
def ofDatum (d : Datum) : Single := ⟨(Format.single.encode d).toUInt32⟩

/-- The nearest number to an integer. -/
def ofInt (n : Int) : Single := ofDatum (Format.single.ofInt n)

/-- The same number in the wider format. -/
def toDouble (x : Single) : Double := Double.ofDatum (x.datum.convert Format.single Format.double)

/-- Whether the number is neither infinite nor a NaN. -/
def isFinite (x : Single) : Bool := x.datum.isFinite

/-- The number with the sign bit flipped. -/
def neg (x : Single) : Single := ⟨x.bits ^^^ 0x80000000⟩

/-- The number with the sign bit cleared. -/
def abs (x : Single) : Single := ⟨x.bits &&& 0x7fffffff⟩

end Single

/-- The nearest number in the narrower format. -/
def Double.toSingle (x : Double) : Single :=
  Single.ofDatum (x.datum.convert Format.double Format.single)

end TypeFlow
