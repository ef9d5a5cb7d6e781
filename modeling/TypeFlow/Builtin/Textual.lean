import TypeFlow.Builtin.Call
import TypeFlow.Text.Casing

/-!
# Methods of strings and characters, and the text of values
-/

namespace TypeFlow.Builtin

/-- The text of an exact integer, character or string. -/
def textOf? (t : Ty) : Option String :=
  if t.isExact then
    match t.data.head? with
    | some (.number n) | some (.long n) => some (toString n.toInt)
    | some (.char c) => some c.toString
    | some (.string s) => some s
    | _ => none
  else none

/-- `toString` of a class of values. -/
def toText (className : String) : Builtin where
  name := "Toybox.Lang." ++ className ++ ".toString"
  effect? call := do
    let receiver ← call.receiver?
    match textOf? receiver.enumToValue with
    | some s => return ⟨Ty.string s, none⟩
    | none => return ⟨Ty.ofTags (Tags.single .string), none⟩

/-- The known string that a receiver is when it is a string. -/
def stringValue? (call : BuiltinCall) : Option String := do
  match (← call.receiver?).payload? .string with
  | some (.string s) => some s
  | _ => none

/-- `string.length()`: the number of characters. -/
def stringLength : Builtin where
  name := "Toybox.Lang.String.length"
  effect? call := do
    let s ← stringValue? call
    if s.length ≤ 2147483647 then return ⟨Ty.number (Int32.ofNat s.length), none⟩ else none

/-- `string.toUpper()`. -/
def stringUpper : Builtin where
  name := "Toybox.Lang.String.toUpper"
  effect? call := do return ⟨Ty.string (Text.toUpper (← stringValue? call)), none⟩

/-- `string.toLower()`. -/
def stringLower : Builtin where
  name := "Toybox.Lang.String.toLower"
  effect? call := do return ⟨Ty.string (Text.toLower (← stringValue? call)), none⟩

/-- `char.toNumber()`: the number of a character. -/
def charNumber : Builtin where
  name := "Toybox.Lang.Char.toNumber"
  effect? call := do
    match (← call.receiver?).payload? .char with
    | some (.char c) => return ⟨Ty.number (Int32.ofNat c.toNat), none⟩
    | _ => none

/-- The methods of strings and characters. -/
def textual : List Builtin :=
  [toText "String", toText "Char", stringLength, stringUpper, stringLower, charNumber]

end TypeFlow.Builtin
