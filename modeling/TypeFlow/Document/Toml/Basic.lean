/-!
# TOML documents

The tree of a TOML document, as far as settings need it: the values of booleans, integers and
strings, and the structure of arrays and tables. Floating-point numbers and dates are checked while
they are read but their values are not kept.
-/

namespace TypeFlow

/-- How a table came into being, which decides how it may be extended. -/
inductive Toml.Origin where
  /-- By a header of its own. -/
  | header
  /-- By a header of a table inside it. -/
  | implied
  /-- By a dotted key. -/
  | dotted
  /-- Between braces. -/
  | inline
  deriving DecidableEq

/-- A TOML value. -/
inductive Toml where
  | boolean (b : Bool)
  | integer (n : Int)
  | text (s : String)
  /-- A floating-point number, a date or a time. -/
  | other
  | array (elements : List Toml)
  | table (origin : Toml.Origin) (entries : List (String × Toml))
  /-- An array of tables, each given by a header. -/
  | tables (elements : List (List (String × Toml)))

namespace Toml

/-- A reader of the beginning of a text. -/
abbrev Reader (α : Type) := List Char → Option (α × List Char)

/-- How deep values may be nested and how many parts a dotted key may have, plus one. -/
def depthLimit : Nat := 80

/-- Skips blanks within a line. -/
def skipBlanks (cs : List Char) : List Char := cs.dropWhile fun c => c = ' ' || c = '\t'

/-- Whether a character may stand in a comment; strings exclude further ones. -/
def isPlain (c : Char) : Bool := c = '\t' || (0x20 ≤ c.toNat && c.toNat ≠ 0x7f)

/-- Reads the end of a line. -/
def newline : Reader Unit
  | '\n' :: rest | '\r' :: '\n' :: rest => some ((), rest)
  | _ => none

/-- Skips a comment, if there is one. -/
def skipComment : List Char → List Char
  | '#' :: rest => rest.dropWhile isPlain
  | cs => cs

/-- Reads what may follow a statement: blanks, a comment and the end of the line or text. -/
def lineEnd : Reader Unit := fun cs =>
  match skipComment (skipBlanks cs) with
  | [] => some ((), [])
  | rest => newline rest

/-- Skips blanks, comments and line ends inside an array; the first argument bounds the number of
lines. -/
def skipLines : Nat → List Char → List Char
  | 0, cs => cs
  | n + 1, cs =>
    let rest := skipBlanks cs
    match skipComment rest with
    | '\n' :: rest | '\r' :: '\n' :: rest => skipLines n rest
    | _ => rest

end Toml

end TypeFlow
