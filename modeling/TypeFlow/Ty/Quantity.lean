import TypeFlow.Ty.Basic

/-!
# Numbers independent of their representation

Numbers compare by value across their representations, and a character compares by its number. A
`Quantity` is such a value: an integer, or a floating-point number in the widest format.
-/

namespace TypeFlow

/-- A numeric value without its representation. -/
inductive Quantity where
  | int (n : Int)
  | real (x : Double)
  deriving DecidableEq

/-- The numeric value of a literal. -/
def Payload.quantity? {α : Type} : Payload α → Option Quantity
  | .number n | .long n => some (.int n.toInt)
  | .char c => some (.int c.toNat)
  | .float x => some (.real x.toDouble)
  | .double x => some (.real x)
  | _ => none

namespace Quantity

/-- Whether two values compare equal. An integer is compared with a floating-point number after
conversion to the widest format. -/
def same : Quantity → Quantity → Bool
  | int m, int n => m == n
  | int n, real x | real x, int n => (Double.ofInt n).same x
  | real x, real y => x.same y

/-- The integer that a value is, if it is one. -/
def whole? : Quantity → Option Int
  | int n => some n
  | real x => x.whole?

/-- Whether the value is zero. -/
def isZero (q : Quantity) : Bool := q.same (int 0)

/-- The value in the representation of a tag, if it can be represented exactly. Only an integer
stands for a character. -/
def convert (q : Quantity) : Tag → Option (Payload Ty)
  | .number =>
    match q.whole? with
    | some n => if -2147483648 ≤ n && n ≤ 2147483647 then some (.number (Int32.ofInt n)) else none
    | none => none
  | .long => q.whole?.map fun n => .long (Int64.ofInt n)
  | .char =>
    match q with
    | int n =>
      if 0 ≤ n && n.toNat.isValidChar then some (.char (Char.ofNat n.toNat)) else none
    | real _ => none
  | .float =>
    let x := match q with
      | int n => Single.ofInt n
      | real x => x.toSingle
    if (real x.toDouble).same q then some (.float x) else none
  | .double =>
    let x := match q with
      | int n => Double.ofInt n
      | real x => x
    if (real x).same q then some (.double x) else none
  | _ => none

end Quantity

/-- The numeric value of the payload of a tag. -/
def Ty.quantity? (t : Ty) (tag : Tag) : Option Quantity := (t.payload? tag).bind Payload.quantity?

end TypeFlow
