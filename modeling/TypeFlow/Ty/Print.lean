import TypeFlow.DeclTable
import TypeFlow.Binary.Decimal
import TypeFlow.Text.Quoted

/-!
# Printed types

The parts of a type are printed in the order of their tags and joined by `or`. A tag without payload
prints as its name, a payload prints in angle brackets after it. The two booleans together print as
one part.
-/

namespace TypeFlow.Ty

/-- Names of declarations, joined by `or`. -/
def declText (table : DeclTable) (d : DeclSet) : String := " or ".intercalate (d.ids.map table.name)

/-- Joins the parts of a type, given its tags and the texts of its payloads. -/
def joinParts (tags : Tags) (payloads : List (Tag × String)) : String :=
  if tags.isEmpty then "Never"
  else if tags = Tags.any && payloads.isEmpty then "Any"
  else
    " or ".intercalate <| tags.toList.filterMap fun tag =>
      if tag = .false && tags.contains .true then some "Boolean"
      else if tag = .true && tags.contains .false then none
      else some ((payloads.lookup tag).getD tag.name)

mutual

/-- Text of a type. -/
def text (table : DeclTable) : Ty → String
  | ⟨tags, data⟩ => joinParts tags (dataText table data)

/-- Texts of payloads, each with its tag. -/
def dataText (table : DeclTable) : List (Payload Ty) → List (Tag × String)
  | [] => []
  | p :: ps => (p.tag, payloadText table p) :: dataText table ps

def payloadText (table : DeclTable) : Payload Ty → String
  | .number n => "Number<" ++ toString n.toInt ++ ">"
  | .long n => "Long<" ++ toString n.toInt ++ ">"
  | .float x => "Float<" ++ x.text ++ ">"
  | .double x => "Double<" ++ x.text ++ ">"
  | .char c => "Char<" ++ Text.quotedChar c ++ ">"
  | .string s => "String<" ++ Text.quotedString s ++ ">"
  | .symbol s => "Symbol<:" ++ s ++ ">"
  | .elements t => "Array<" ++ text table t ++ ">"
  | .tuple ts => "[" ++ ", ".intercalate (listText table ts) ++ "]"
  | .dictionary k v => "Dictionary<" ++ text table k ++ ", " ++ text table v ++ ">"
  | .method args r => "Method(" ++ ", ".intercalate (listText table args) ++ ") as " ++ text table r
  | .module d => "Module<" ++ declText table d ++ ">"
  | .function d => "Function<" ++ declText table d ++ ">"
  | .cls d => "Class<" ++ declText table d ++ ">"
  | .synonym d => declText table d
  | .object d none => "Object<" ++ declText table d ++ ">"
  | .object d (some fields) =>
    "Object<" ++ declText table d ++ "> \x7b " ++
      ", ".intercalate (fieldText table fields) ++ " \x7d"
  | .enum none none => "Enum<>"
  | .enum none (some v) => "Enum<" ++ text table v ++ ">"
  | .enum (some d) none => "Enum<" ++ table.name d ++ ">"
  | .enum (some d) (some v) => "Enum<" ++ table.name d ++ ": " ++ text table v ++ ">"

def listText (table : DeclTable) : List Ty → List String
  | [] => []
  | t :: ts => text table t :: listText table ts

def fieldText (table : DeclTable) : List (String × Ty) → List String
  | [] => []
  | (name, t) :: fields => (name ++ " as " ++ text table t) :: fieldText table fields

end

end TypeFlow.Ty
