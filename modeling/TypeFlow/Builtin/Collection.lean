import TypeFlow.Builtin.Call

/-!
# Methods of arrays and dictionaries

Additions widen the element, key and value types of the receiver; an addition that is already
covered leaves the receiver as it is.
-/

namespace TypeFlow.Builtin

/-- The receiver and the result after `added` is appended to an array. A tuple always becomes an
array of unknown length, and an array that may hold anything stays as it is. -/
def growElements (table : DeclTable) (receiver added : Ty) : BuiltinEffect :=
  match receiver.payload? .array with
  | none => ⟨receiver, none⟩
  | some p =>
    let elements := Ty.elementUnion p
    let covered := match p with
      | .elements _ => added.subtype table elements
      | _ => false
    if covered then ⟨receiver, none⟩
    else
      let grown := Ty.array (elements.union added)
      ⟨grown, some grown⟩

/-- `array.add(value)`. -/
def arrayAdd : Builtin where
  name := "Toybox.Lang.Array.add"
  effect? call := do
    let receiver ← call.only? .array
    let added ← call.args[0]?
    return growElements call.table receiver added

/-- `array.addAll(values)`. -/
def arrayAddAll : Builtin where
  name := "Toybox.Lang.Array.addAll"
  effect? call := do
    let receiver ← call.only? .array
    let added ← call.args[0]?
    return growElements call.table receiver (added.arrayElements?.getD Ty.any)

/-- `array.slice(start, end)`: the same elements, an unknown number of them. -/
def arraySlice : Builtin where
  name := "Toybox.Lang.Array.slice"
  effect? call := do
    let receiver ← call.only? .array
    let p ← receiver.payload? .array
    return ⟨Ty.array (Ty.elementUnion p), none⟩

/-- `array.reverse()`. -/
def arrayReverse : Builtin where
  name := "Toybox.Lang.Array.reverse"
  effect? call := do
    let receiver ← call.only? .array
    match receiver.payload? .array with
    | some (.tuple slots) => return ⟨Ty.tuple slots.reverse, none⟩
    | some (.elements element) => return ⟨Ty.array element, none⟩
    | _ => none

/-- Key and value types of a receiver that is a dictionary. -/
def entryTypes? (call : BuiltinCall) : Option (Ty × Ty) := do
  let receiver ← call.only? .dictionary
  match receiver.payload? .dictionary with
  | some (.dictionary key value) => some (key, value)
  | _ => none

/-- `dictionary.put(key, value)`. -/
def dictionaryPut : Builtin where
  name := "Toybox.Lang.Dictionary.put"
  effect? call := do
    let (key, value) ← entryTypes? call
    let newKey ← call.args[0]?
    let newValue ← call.args[1]?
    if newKey.subtype call.table key && newValue.subtype call.table value then
      return ⟨Ty.null, none⟩
    else return ⟨Ty.null, some (Ty.dictionary (key.union newKey) (value.union newValue))⟩

/-- `dictionary.get(key)`: a value or null; only null when no key can be the one asked for. -/
def dictionaryGet : Builtin where
  name := "Toybox.Lang.Dictionary.get"
  effect? call := do
    let (key, value) ← entryTypes? call
    let found := match call.args[0]? with
      | some k => k.overlap call.table key
      | none => true
    return ⟨if found then value.union Ty.null else Ty.null, none⟩

/-- `dictionary.keys()`. -/
def dictionaryKeys : Builtin where
  name := "Toybox.Lang.Dictionary.keys"
  effect? call := do
    let (key, _) ← entryTypes? call
    return ⟨Ty.array key, none⟩

/-- `dictionary.values()`. -/
def dictionaryValues : Builtin where
  name := "Toybox.Lang.Dictionary.values"
  effect? call := do
    let (_, value) ← entryTypes? call
    return ⟨Ty.array value, none⟩

/-- The modelled methods of arrays and dictionaries. -/
def collections : List Builtin :=
  [arrayAdd, arrayAddAll, arraySlice, arrayReverse,
    dictionaryPut, dictionaryGet, dictionaryKeys, dictionaryValues]

end TypeFlow.Builtin
