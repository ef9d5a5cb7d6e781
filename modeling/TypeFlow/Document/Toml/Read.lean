import TypeFlow.Document.Toml.Scalar
import TypeFlow.Document.Toml.Tree

/-!
# Reading TOML texts
-/

namespace TypeFlow.Toml

/-- Whether a character may stand in a key without quotes. -/
def isBare (c : Char) : Bool := c.isAlphanum || c = '_' || c = '-'

/-- Reads one part of a key. -/
def keyPart : Reader String
  | '\x22' :: rest => basicString (rest.length + 1) [] rest
  | '\x27' :: rest => literalString [] rest
  | cs =>
    match cs.span isBare with
    | ([], _) => none
    | (name, rest) => some (String.ofList name, rest)

/-- Reads the parts of a dotted key; the first argument bounds their number. -/
def keyParts : Nat → Reader (List String)
  | 0, _ => none
  | n + 1, cs => do
    let (part, rest) ← keyPart (skipBlanks cs)
    let rest := skipBlanks rest
    match rest with
    | '.' :: rest => do
      let (parts, rest) ← keyParts n rest
      return (part :: parts, rest)
    | _ => return ([part], rest)

/-- Reads a key and the blanks around it. -/
def key : Reader (List String) := keyParts (depthLimit - 1)

mutual

/-- Reads a value. The first argument bounds the number of steps, the second is the number of arrays
and tables around the value. -/
def readValue : Nat → Nat → Reader Toml
  | 0, _, _ => none
  | n + 1, depth, cs =>
    match cs with
    | '\x22' :: _ | '\x27' :: _ => do
      let (s, rest) ← stringValue cs
      return (.text s, rest)
    | '[' :: rest =>
      if depth + 1 < depthLimit then do
        let (elements, rest) ← readElements n (depth + 1) rest
        return (.array elements, rest)
      else none
    | '\x7b' :: rest =>
      if depth + 1 < depthLimit then
        match skipBlanks rest with
        | '\x7d' :: rest => some (.table .inline [], rest)
        | rest => do
          let (pairs, rest) ← readPairs n (depth + 1) rest
          return (← inlineTable pairs, rest)
      else none
    | 't' :: 'r' :: 'u' :: 'e' :: rest => some (.boolean true, rest)
    | 'f' :: 'a' :: 'l' :: 's' :: 'e' :: rest => some (.boolean false, rest)
    | _ => numericValue cs

/-- Reads the elements of an array up to its end. -/
def readElements : Nat → Nat → Reader (List Toml)
  | 0, _, _ => none
  | n + 1, depth, cs =>
    match skipLines cs.length cs with
    | ']' :: rest => some ([], rest)
    | cs => do
      let (element, cs) ← readValue n depth cs
      match skipLines cs.length cs with
      | ',' :: rest => do
        let (elements, rest) ← readElements n depth rest
        return (element :: elements, rest)
      | ']' :: rest => return ([element], rest)
      | _ => none

/-- Reads the entries of a table between braces up to its end. -/
def readPairs : Nat → Nat → Reader (List (List String × Toml))
  | 0, _, _ => none
  | n + 1, depth, cs => do
    let (key, cs) ← key cs
    let (_, cs) ← expect '=' cs
    let (value, cs) ← readValue n depth (skipBlanks cs)
    match skipBlanks cs with
    | ',' :: rest => do
      let (pairs, rest) ← readPairs n depth rest
      return ((key, value) :: pairs, rest)
    | '\x7d' :: rest => return ([(key, value)], rest)
    | _ => none

end

/-- Reads a statement up to the end of its line. -/
def statement : Reader Statement
  | '[' :: '[' :: rest => do
    let (path, rest) ← key rest
    let (_, rest) ← expect ']' rest
    let (_, rest) ← expect ']' rest
    let (_, rest) ← lineEnd rest
    return (.element path, rest)
  | '[' :: rest => do
    let (path, rest) ← key rest
    let (_, rest) ← expect ']' rest
    let (_, rest) ← lineEnd rest
    return (.header path, rest)
  | cs => do
    let (key, rest) ← key cs
    let (_, rest) ← expect '=' rest
    let rest := skipBlanks rest
    let (value, rest) ← readValue (2 * rest.length + 2) 0 rest
    let (_, rest) ← lineEnd rest
    return (.entry key value, rest)

/-- Reads the statements of a text; the first argument bounds the number of lines. -/
def statements : Nat → List Char → Option (List Statement)
  | 0, _ => none
  | n + 1, cs =>
    match skipBlanks cs with
    | [] => some []
    | cs =>
      match lineEnd cs with
      | some (_, rest) => statements n rest
      | none => do
        let (s, rest) ← statement cs
        return s :: (← statements n rest)

/-- Reads a text: the entries of its outermost table. A mark of the byte order at the beginning does
not count. -/
def read? (text : String) : Option Entries :=
  let cs := match text.toList with
    | '\ufeff' :: rest => rest
    | cs => cs
  (statements (cs.length + 1) cs).bind assemble

end TypeFlow.Toml
