import TypeFlow.Text.Printable

/-!
# Quoted text

Characters and strings in printed types stand between quotes. A backslash, the enclosing quote and
the common control characters are written with a backslash; any other hidden character is written
as its number in braces.
-/

namespace TypeFlow.Text

/-- A character as it stands between the quotes `quote`. -/
def escape (quote c : Char) : String :=
  if c == '\x00' then "\\0"
  else if c == '\t' then "\\t"
  else if c == '\r' then "\\r"
  else if c == '\n' then "\\n"
  else if c == '\\' then "\\\\"
  else if c == quote then String.ofList ['\\', c]
  else if isHidden c then
    "\\u\x7b" ++ String.ofList (Nat.toDigits 16 c.toNat) ++ "\x7d"
  else c.toString

/-- A character between single quotes. -/
def quotedChar (c : Char) : String := "'" ++ escape '\'' c ++ "'"

/-- A string between double quotes. -/
def quotedString (s : String) : String := "\"" ++ String.join (s.toList.map (escape '"')) ++ "\""

end TypeFlow.Text
