/-!
# Binary floating-point formats

A binary interchange format is fixed by the number of bits of its significand and of its exponent
field. Every finite number of a format is a whole multiple of its smallest positive number, so
`decode` gives a finite number as a sign and a natural number counted in that unit. Exact results
are then ratios of naturals, and `roundRatio` is the only place where anything is rounded.
-/

namespace TypeFlow.Binary

/-- A power of two. -/
def twoPow (n : Nat) : Nat := Nat.pow 2 n

/-- A binary interchange format. -/
structure Format where
  /-- Bits of the significand, the implicit leading bit included. -/
  precision : Nat
  /-- Bits of the exponent field. -/
  exponentBits : Nat
  deriving DecidableEq

/-- The 32-bit format. -/
def Format.single : Format := ⟨24, 8⟩

/-- The 64-bit format. -/
def Format.double : Format := ⟨53, 11⟩

namespace Format

/-- Bits of the fraction field. -/
def fractionBits (f : Format) : Nat := f.precision - 1

/-- Largest value of the exponent field, reserved for infinities and NaNs. -/
def topExponent (f : Format) : Nat := twoPow f.exponentBits - 1

/-- The number one is `twoPow f.oneBits` units. -/
def oneBits (f : Format) : Nat := twoPow (f.exponentBits - 1) + f.precision - 3

/-- First magnitude that is too large for a finite number, in units. -/
def overflow (f : Format) : Nat := twoPow (f.precision + f.topExponent - 2)

end Format

/-- What a bit pattern of a format stands for. -/
inductive Datum where
  /-- Not a number, with the contents of its fraction field. -/
  | nan (negative : Bool) (fraction : Nat)
  | infinite (negative : Bool)
  /-- A finite number: its sign and its magnitude in units of the format. -/
  | finite (negative : Bool) (magnitude : Nat)
  deriving DecidableEq

/-- Reads a bit pattern. -/
def Format.decode (f : Format) (bits : Nat) : Datum :=
  let fraction := bits % twoPow f.fractionBits
  let exponent := bits / twoPow f.fractionBits % twoPow f.exponentBits
  let negative := bits / twoPow (f.fractionBits + f.exponentBits) % 2 == 1
  if exponent = f.topExponent then
    if fraction = 0 then .infinite negative else .nan negative fraction
  else if exponent = 0 then .finite negative fraction
  else .finite negative ((twoPow f.fractionBits + fraction) * twoPow (exponent - 1))

/-- Assembles a bit pattern from its three fields. -/
def Format.pack (f : Format) (negative : Bool) (exponent fraction : Nat) : Nat :=
  let sign := if negative then 1 else 0
  (sign * twoPow f.exponentBits + exponent) * twoPow f.fractionBits + fraction

/-- Bit pattern of a datum. A magnitude must have at most `f.precision` significant bits; one that
is too large becomes an infinity. -/
def Format.encode (f : Format) : Datum → Nat
  | .nan negative fraction => f.pack negative f.topExponent fraction
  | .infinite negative => f.pack negative f.topExponent 0
  | .finite negative magnitude =>
    if f.overflow ≤ magnitude then f.pack negative f.topExponent 0
    else if magnitude < twoPow f.fractionBits then f.pack negative 0 magnitude
    else
      let shift := magnitude.log2 - f.fractionBits
      f.pack negative (shift + 1) (magnitude / twoPow shift - twoPow f.fractionBits)

/-- The whole number nearest to `num / den`; halfway, the even one. -/
def nearestEven (num den : Nat) : Nat :=
  let q := num / den
  let r := num % den
  if 2 * r < den then q
  else if den < 2 * r then q + 1
  else q + q % 2

/-- The magnitude with at most `f.precision` significant bits nearest to `num / den` units, ties
going to an even significand. -/
def Format.roundRatio (f : Format) (num den : Nat) : Nat :=
  let q := num / den
  if q < twoPow f.precision then nearestEven num den
  else
    let step := twoPow (q.log2 + 1 - f.precision)
    nearestEven num (den * step) * step

/-- The datum nearest to `num / den` units of the given sign. -/
def Format.rounded (f : Format) (negative : Bool) (num den : Nat) : Datum :=
  let magnitude := f.roundRatio num den
  if f.overflow ≤ magnitude then .infinite negative else .finite negative magnitude

/-- The datum nearest to a whole number. -/
def Format.ofInt (f : Format) (n : Int) : Datum := f.rounded (n < 0) (n.natAbs * twoPow f.oneBits) 1

namespace Datum

/-- Whether the datum is a number other than an infinity. -/
def isFinite : Datum → Bool
  | finite .. => true
  | _ => false

/-- The signed magnitude of a finite number. -/
def signed (negative : Bool) (magnitude : Nat) : Int :=
  if negative then -(magnitude : Int) else magnitude

/-- Numeric equality: a NaN equals nothing and the two zeros are equal. -/
def same : Datum → Datum → Bool
  | finite s m, finite t n => signed s m == signed t n
  | infinite s, infinite t => s == t
  | _, _ => false

/-- Numeric order; nothing is below or above a NaN. -/
def lt : Datum → Datum → Bool
  | nan .., _ | _, nan .. => false
  | finite s m, finite t n => signed s m < signed t n
  | infinite s, infinite t => s && !t
  | infinite s, finite .. => s
  | finite .., infinite t => !t

/-- `lt` or numerically equal. -/
def le (x y : Datum) : Bool := x.lt y || x.same y

variable (f : Format)

/-- Correctly rounded sum. The sum of a number and its opposite is the positive zero. -/
def add : Datum → Datum → Datum
  | nan s p, _ => nan s p
  | _, nan t p => nan t p
  | infinite s, infinite t => if s = t then infinite s else nan false 0
  | infinite s, finite .. => infinite s
  | finite .., infinite t => infinite t
  | finite s m, finite t n =>
    let sum := signed s m + signed t n
    if sum = 0 then finite (s && t) 0 else f.rounded (sum < 0) sum.natAbs 1

/-- The datum with the opposite sign. -/
def neg : Datum → Datum
  | nan s p => nan (!s) p
  | infinite s => infinite (!s)
  | finite s m => finite (!s) m

/-- Correctly rounded difference. -/
def sub (x y : Datum) : Datum := add f x y.neg

/-- Correctly rounded product. -/
def mul : Datum → Datum → Datum
  | nan s p, _ => nan s p
  | _, nan t p => nan t p
  | infinite s, infinite t => infinite (s != t)
  | infinite s, finite t n => if n = 0 then nan false 0 else infinite (s != t)
  | finite s m, infinite t => if m = 0 then nan false 0 else infinite (s != t)
  | finite s m, finite t n => f.rounded (s != t) (m * n) (twoPow f.oneBits)

/-- Correctly rounded quotient. -/
def div : Datum → Datum → Datum
  | nan s p, _ => nan s p
  | _, nan t p => nan t p
  | infinite _, infinite _ => nan false 0
  | infinite s, finite t _ => infinite (s != t)
  | finite s _, infinite t => finite (s != t) 0
  | finite s m, finite t n =>
    if n = 0 then if m = 0 then nan false 0 else infinite (s != t)
    else f.rounded (s != t) (m * twoPow f.oneBits) n

/-- The same number in another format, rounded if need be. A NaN keeps its sign and the leading
bits of its fraction, the first of which is set. -/
def convert (source target : Format) : Datum → Datum
  | nan s p =>
    let aligned := p * twoPow target.fractionBits / twoPow source.fractionBits
    nan s (aligned ||| twoPow (target.fractionBits - 1))
  | infinite s => infinite s
  | finite s m => target.rounded s (m * twoPow target.oneBits) (twoPow source.oneBits)

/-- The whole part, dropping the fraction; `none` for infinities and NaNs. -/
def truncate? : Datum → Option Int
  | finite s m => some (signed s (m / twoPow f.oneBits))
  | _ => none

/-- The value of a whole number; `none` when there is a fraction. -/
def whole? : Datum → Option Int
  | finite s m => if m % twoPow f.oneBits = 0 then some (signed s (m / twoPow f.oneBits)) else none
  | _ => none

/-- The whole part clamped to a range; a NaN gives zero. -/
def clamp (lo hi : Int) : Datum → Int
  | nan .. => 0
  | infinite s => if s then lo else hi
  | finite s m => max lo (min hi (signed s (m / twoPow f.oneBits)))

end Datum

end TypeFlow.Binary
