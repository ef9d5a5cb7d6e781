import TypeFlow.Builtin.Call
import TypeFlow.Eval.Operator

/-!
# Mathematical functions and methods of numbers

A mathematical function is evaluated in the 64-bit format. Its result keeps the precision of the
argument: 32-bit numbers give 32-bit floats, 64-bit numbers give 64-bit floats.
-/

namespace TypeFlow

/-- A real function evaluated on 64-bit floats. -/
def Double.lift (f : Float → Float) (x : Double) : Double := ⟨(f (Float.ofBits x.bits)).toBits⟩

/-- A real function of two arguments evaluated on 64-bit floats. -/
def Double.liftPair (f : Float → Float → Float) (x y : Double) : Double :=
  ⟨(f (Float.ofBits x.bits) (Float.ofBits y.bits)).toBits⟩

/-- The product of a number with a constant factor. -/
def Double.scale (factor x : Double) : Double := Double.ofDatum (x.datum.mul .double factor.datum)

namespace Builtin

/-- The number of radians in a degree. -/
def radiansPerDegree : Double := ⟨0x3f91df46a2529d39⟩

/-- The number of degrees in a radian. -/
def degreesPerRadian : Double := ⟨0x404ca5dc1a63c1f8⟩

/-- The functions of one argument, by name. -/
def realFunctions : List (String × (Double → Double)) :=
  [("sqrt", Double.lift Float.sqrt), ("sin", Double.lift Float.sin), ("cos", Double.lift Float.cos),
    ("tan", Double.lift Float.tan),
    ("asin", Double.lift Float.asin),
    ("acos", Double.lift Float.acos),
    ("atan", Double.lift Float.atan),
    ("ln", Double.lift Float.log),
    ("floor", Double.lift Float.floor),
    ("ceil", Double.lift Float.ceil),
    ("round", Double.lift Float.round),
    ("toRadians", Double.scale radiansPerDegree),
    ("toDegrees", Double.scale degreesPerRadian)]

/-- The decimal kinds in which a function of arguments of the given kinds is computed. -/
def precision (tags : Tags) : Tags :=
  (if tags.intersects (Tags.ofList [.number, .float]) then Tags.single .float else Tags.empty) ∪
    (if tags.intersects (Tags.ofList [.long, .double]) then Tags.single .double else Tags.empty)

/-- The type of a result of the given kinds. A value that is not finite is not kept. -/
def decimal (tags : Tags) (value : Option Double) : Ty :=
  match value.filter Double.isFinite with
  | some x =>
    if tags = Tags.single .float then Ty.float x.toSingle
    else if tags = Tags.single .double then Ty.double x
    else Ty.ofTags tags
  | none => Ty.ofTags tags

/-- A mathematical function of one argument. -/
def realFunction (name : String) (f : Double → Double) : Builtin where
  name := "Toybox.Math." ++ name
  effect? call := do
    let arg ← call.argValue? 0
    let tags := precision arg.tags
    if tags.isEmpty then none
    else
      let folded := if tags.isSingle then arg.asDouble?.map f else none
      return ⟨decimal tags folded, none⟩

/-- The angle of the point `(x, y)`. -/
def atan2 : Builtin where
  name := "Toybox.Math.atan2"
  effect? call := do
    let y ← call.argValue? 0
    let x ← call.argValue? 1
    let tags := precision (y.tags ∪ x.tags)
    if tags.isEmpty then none
    else
      let folded := match y.asDouble?, x.asDouble? with
        | some a, some b => if tags.isSingle then some (Double.liftPair Float.atan2 a b) else none
        | _, _ => none
      return ⟨decimal tags folded, none⟩

/-- The numeric parts of an operand, if it has any. -/
def numericPart? (t : Ty) : Option Ty := (t.enumToValue.restrictedTo Tags.numeric).nonempty?

/-- The absolute value of an operand, in its own representation. -/
def absOf? (t : Ty) : Option BuiltinEffect := do
  let numeric ← numericPart? t
  let result := match numeric.firstNum? with
    | some (.number n) => Ty.number (if n < 0 then -n else n)
    | some (.long n) => Ty.long (if n < 0 then -n else n)
    | some (.float x) => Ty.float x.abs
    | some (.double x) => Ty.double x.abs
    | none => Ty.ofTags numeric.tags
  return ⟨result, none⟩

/-- `abs` as a function of one argument. -/
def absFunction : Builtin where
  name := "Toybox.Math.abs"
  effect? call := do absOf? (← call.args[0]?)

/-- `abs` as a method of a class of numbers. -/
def absMethod (className : String) : Builtin where
  name := "Toybox.Lang." ++ className ++ ".abs"
  effect? call := do absOf? (← call.receiver?)

/-- The value of an exact number in another representation. -/
def converted? (target : Tag) (t : Ty) : Option Ty := do
  let real ← t.asDouble?
  match target with
  | .number =>
    match t.asInteger? with
    | some n => return Ty.number (Int32.ofInt n)
    | none => return Ty.number real.toNumber
  | .long =>
    match t.asInteger? with
    | some n => return Ty.long (Int64.ofInt n)
    | none => return Ty.long real.toLong
  | .float =>
    match t.asInteger? with
    | some n => return Ty.float (Single.ofInt n)
    | none => return Ty.float real.toSingle
  | _ => return Ty.double real

/-- A conversion method of a class of numbers. -/
def conversion (className method : String) (target : Tag) : Builtin where
  name := "Toybox.Lang." ++ className ++ "." ++ method
  effect? call := do
    let numeric ← numericPart? (← call.receiver?)
    return ⟨(converted? target numeric).getD (Ty.ofTags (Tags.single target)), none⟩

/-- The mathematical functions. -/
def mathematical : List Builtin :=
  realFunctions.map (fun (name, f) => realFunction name f) ++ [absFunction, atan2]

end Builtin

end TypeFlow
