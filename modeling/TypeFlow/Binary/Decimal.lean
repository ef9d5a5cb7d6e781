import TypeFlow.Binary.Basic

/-!
# Decimal text of floating-point numbers

A number is written with the fewest decimal digits that read back as the same number in its format;
among decimals of that length the nearest is taken. `shortest` finds the digits by trying one
digit, two digits and so on: on each decimal grid only the two neighbours of the number can lie in
the interval of reals that round to it. `Style` holds the layout decisions.
-/

namespace TypeFlow.Binary

/-- The reals that round to a magnitude, as fractions over a common denominator. -/
structure Interval where
  /-- Numerator of the lower end. -/
  low : Nat
  /-- Numerator of the number itself. -/
  value : Nat
  /-- Numerator of the upper end. -/
  high : Nat
  /-- The common denominator. -/
  den : Nat
  /-- Whether the ends belong to the interval. -/
  closed : Bool

/-- The rounding interval of a positive magnitude. Below a power of two the neighbouring numbers
are half as far apart. -/
def Format.interval (f : Format) (magnitude : Nat) : Interval :=
  let step :=
    if magnitude < twoPow f.precision then 1 else twoPow (magnitude.log2 + 1 - f.precision)
  let significand := magnitude / step
  let below := if significand = twoPow f.fractionBits then step else 2 * step
  { low := 4 * magnitude - below
    value := 4 * magnitude
    high := 4 * magnitude + 2 * step
    den := 4 * twoPow f.oneBits
    closed := significand % 2 == 0 }

/-- Whether `num / den` lies in the interval. -/
def Interval.contains (i : Interval) (num den : Nat) : Bool :=
  if i.closed then i.low * den ≤ num * i.den && num * i.den ≤ i.high * den
  else i.low * den < num * i.den && num * i.den < i.high * den

/-- A positive decimal `digits * 10 ^ exponent`. -/
structure Decimal where
  digits : Nat
  exponent : Int
  deriving DecidableEq

/-- A power of ten. -/
def tenPow (n : Nat) : Nat := Nat.pow 10 n

/-- Ten to a power, as a numerator and a denominator. -/
def tenRatio (e : Int) : Nat × Nat :=
  if 0 ≤ e then (tenPow e.toNat, 1) else (1, tenPow (-e).toNat)

/-- The nearer of the two multiples of `10 ^ e` around the number among those in the interval;
halfway, the larger one. -/
def Interval.onGrid? (i : Interval) (e : Int) : Option Decimal :=
  let (gn, gd) := tenRatio e
  let scaled := i.value * gd
  let unit := i.den * gn
  let down := scaled / unit
  let rest := scaled % unit
  let fits (k : Nat) : Bool := i.contains (k * gn) gd
  if fits (down + 1) && (unit ≤ 2 * rest || !fits down) then some ⟨down + 1, e⟩
  else if fits down then some ⟨down, e⟩
  else none

/-- Number of decimal digits before the point of a positive `num / den`; below one, the number of
zeros after the point, negated. -/
def magnitude10 (num den : Nat) : Int :=
  if den ≤ num then ((toString (num / den)).length : Int)
  else 1 - ((toString (den / num)).length : Int)

/-- Searches the grids of `count`, `count + 1`, … digits, `fuel` of them. -/
def Interval.search (i : Interval) (top : Int) : Nat → Nat → Decimal
  | 0, count => ⟨i.value * tenPow count / i.den, -(count : Int)⟩
  | fuel + 1, count =>
    match i.onGrid? (top - count) with
    | some d => d
    | none => i.search top fuel (count + 1)

/-- Fewest digits that read back, for a positive magnitude. Seventeen digits always suffice for
the formats in use. -/
def Format.shortest (f : Format) (magnitude : Nat) : Decimal :=
  let i := f.interval magnitude
  i.search (magnitude10 i.value i.den) 17 1

/-- How a decimal is laid out. -/
structure Style where
  /-- Scientific exponents from here up are written with an exponent mark. -/
  wideFrom : Int
  /-- Scientific exponents below this are written with an exponent mark. -/
  narrowBelow : Int
  /-- The exponent mark. -/
  mark : String

/-- Digits of a decimal without trailing zeros, with the scientific exponent. -/
def Decimal.scientific (d : Decimal) : List Char × Int :=
  let text := (toString d.digits).toList
  let trimmed := (text.reverse.dropWhile (· == '0')).reverse
  (trimmed, d.exponent + (text.length : Int) - 1)

/-- Lays out a positive decimal. Positional text has at least one digit after the point; text with
an exponent mark has a point only when a digit follows. -/
def Style.layout (style : Style) (d : Decimal) : String :=
  let (digits, e) := d.scientific
  if style.wideFrom ≤ e || e < style.narrowBelow then
    let tail := digits.drop 1
    let fraction := if tail.isEmpty then "" else "." ++ String.ofList tail
    String.ofList (digits.take 1) ++ fraction ++ style.mark ++ toString e
  else if e < 0 then
    "0." ++ String.ofList (List.replicate (-e - 1).toNat '0' ++ digits)
  else
    let before := e.toNat + 1
    let padded := digits ++ List.replicate (before - digits.length) '0'
    let after := padded.drop before
    String.ofList (padded.take before) ++ "." ++
      (if after.isEmpty then "0" else String.ofList after)

/-- Layout of a number in a printed type: positional from `0.0001` up to below `10 ^ 16`. -/
def Style.printed : Style := ⟨16, -4, "e"⟩

/-- Text of a datum. -/
def Style.render (style : Style) (f : Format) : Datum → String
  | .nan .. => "NaN"
  | .infinite negative => if negative then "-inf" else "inf"
  | .finite negative magnitude =>
    let sign := if negative then "-" else ""
    if magnitude = 0 then sign ++ "0.0" else sign ++ style.layout (f.shortest magnitude)

end TypeFlow.Binary

namespace TypeFlow

open Binary

/-- Text of a 32-bit number. -/
def Single.text (x : Single) : String := Style.printed.render Format.single x.datum

/-- Text of a 64-bit number. -/
def Double.text (x : Double) : String := Style.printed.render Format.double x.datum

end TypeFlow
