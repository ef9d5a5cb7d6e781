import TypeFlow.Config.Basic
import TypeFlow.Document.Toml.Read

/-!
# Settings in TOML documents
-/

namespace TypeFlow

/-- Whether a value is an array or table without contents. -/
def Toml.isHollow : Toml → Bool
  | .array elements => elements.isEmpty
  | .table _ entries => entries.isEmpty
  | .tables elements => elements.isEmpty
  | _ => false

/-- How values of settings are written in TOML. A choice is its name, or a table with its name as
the only key and nothing in it. -/
def Toml.settingFormat : Setting.Format Toml where
  bool?
    | .boolean b => some b
    | _ => none
  choice?
    | .text s => some s
    | .table _ [(s, value)] => if value.isHollow then some s else none
    | _ => none
  natural?
    | .integer (Int.ofNat n) => some n
    | _ => none

/-- The settings of the entries of a TOML document. -/
def Config.ofToml? (entries : List (String × Toml)) : Option Config :=
  ofEntries? Toml.settingFormat entries {}

end TypeFlow
