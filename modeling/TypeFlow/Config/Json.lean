import TypeFlow.Config.Basic
import TypeFlow.Document.Json

/-!
# Settings in JSON documents

Settings are an object, or an array that gives the first of them in their fixed order.
-/

namespace TypeFlow

/-- How values of settings are written in JSON. A choice is its name, or an object with its name as
the only key and null as the value. A limit is a natural number of at most 64 bits. -/
def Json.settingFormat : Setting.Format Json where
  bool?
    | .bool b => some b
    | _ => none
  choice?
    | .string s | .object [(s, .null)] => some s
    | _ => none
  natural?
    | .number text =>
      match Json.whole?.natural? text.toList with
      | some n => if n ≤ 18446744073709551615 then some n else none
      | none => none
    | _ => none

namespace Config

/-- The settings of a JSON value. -/
def ofJson? : Json → Option Config
  | .object entries => ofEntries? Json.settingFormat entries {}
  | .array values =>
    if values.length ≤ Setting.all.length then
      ofEntries? Json.settingFormat ((Setting.all.map Prod.fst).zip values) {}
    else none
  | _ => none

end Config

end TypeFlow
