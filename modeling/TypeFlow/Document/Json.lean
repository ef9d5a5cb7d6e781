/-!
# JSON documents

A strict reader for JSON texts. Numbers are kept as they are written and objects keep all their
entries in order, so that a reader of settings can decide what to do about the form of a number and
about repeated keys. A string with an unpaired surrogate escape is well formed but has no value, and
an object with such a key has no entries that could be looked up.
-/

namespace TypeFlow

/-- A JSON value. -/
inductive Json where
  | null
  | bool (b : Bool)
  /-- A number as it is written. -/
  | number (text : String)
  | string (s : String)
  /-- A string with an unpaired surrogate. -/
  | brokenString
  | array (elements : List Json)
  | object (entries : List (String × Json))
  /-- An object with a key that has an unpaired surrogate. -/
  | brokenObject

namespace Json

/-- A reader of the beginning of a text. -/
abbrev Reader (α : Type) := List Char → Option (α × List Char)

/-- Skips blanks. -/
def skipBlanks (cs : List Char) : List Char :=
  cs.dropWhile fun c => c = ' ' || c = '\t' || c = '\n' || c = '\r'

/-- Value of a hexadecimal digit. -/
def hexDigit? (c : Char) : Option Nat :=
  if '0' ≤ c && c ≤ '9' then some (c.toNat - 48)
  else if 'a' ≤ c && c ≤ 'f' then some (c.toNat - 87)
  else if 'A' ≤ c && c ≤ 'F' then some (c.toNat - 55)
  else none

/-- Value of hexadecimal digits. -/
def hexValue? (cs : List Char) : Option Nat :=
  cs.foldlM (fun n c => do return 16 * n + (← hexDigit? c)) 0

/-- The character of a one-letter escape. -/
def escaped? : Char → Option Char
  | '\x22' => some '\x22'
  | '\x5c' => some '\x5c'
  | '/' => some '/'
  | 'b' => some '\x08'
  | 'f' => some '\x0c'
  | 'n' => some '\n'
  | 'r' => some '\r'
  | 't' => some '\t'
  | _ => none

/-- What has been read of a string: its characters, latest first, or nothing if a surrogate was
unpaired, and the leading surrogate that waits for its partner. -/
structure Unfinished where
  chars? : Option (List Char) := some []
  leading? : Option Nat := none

namespace Unfinished

/-- Adds a character. -/
def push (p : Unfinished) (c : Char) : Unfinished :=
  match p.leading? with
  | some _ => { chars? := none }
  | none => { p with chars? := p.chars?.map fun cs => c :: cs }

/-- Adds a code unit given by an escape. -/
def pushUnit (p : Unfinished) (u : Nat) : Unfinished :=
  match p.leading? with
  | some h =>
    if 0xdc00 ≤ u && u < 0xe000 then
      { chars? := p.chars?.map fun cs =>
          Char.ofNat (0x10000 + (h - 0xd800) * 0x400 + (u - 0xdc00)) :: cs }
    else { chars? := none }
  | none =>
    if 0xd800 ≤ u && u < 0xdc00 then { p with leading? := some u }
    else if 0xdc00 ≤ u && u < 0xe000 then { chars? := none }
    else p.push (Char.ofNat u)

/-- The string, unless a surrogate was unpaired. -/
def finish (p : Unfinished) : Option String :=
  match p.leading? with
  | some _ => none
  | none => p.chars?.map fun cs => String.ofList cs.reverse

end Unfinished

/-- Reads a string after its opening quote. -/
def stringBody (p : Unfinished) : Reader (Option String)
  | [] => none
  | '\x22' :: rest => some (p.finish, rest)
  | '\x5c' :: 'u' :: a :: b :: c :: d :: rest => do
    stringBody (p.pushUnit (← hexValue? [a, b, c, d])) rest
  | '\x5c' :: c :: rest => do stringBody (p.push (← escaped? c)) rest
  | c :: rest => if c.toNat < 0x20 then none else stringBody (p.push c) rest

/-- Splits off the leading digits. -/
def digits (cs : List Char) : List Char × List Char := cs.span Char.isDigit

/-- Reads at least one digit. -/
def someDigits : Reader (List Char) := fun cs =>
  match digits cs with
  | ([], _) => none
  | found => some found

/-- Reads the whole part of a number, which has no superfluous zeros. -/
def wholePart : Reader (List Char)
  | '0' :: c :: rest => if c.isDigit then none else some (['0'], c :: rest)
  | cs => someDigits cs

/-- Reads the fraction of a number, if there is one. -/
def fractionPart : Reader (List Char)
  | '.' :: rest => do
    let (ds, rest) ← someDigits rest
    return ('.' :: ds, rest)
  | cs => some ([], cs)

/-- Reads the sign of an exponent, if there is one. -/
def signPart : List Char → List Char × List Char
  | '+' :: rest => (['+'], rest)
  | '-' :: rest => (['-'], rest)
  | cs => ([], cs)

/-- Reads the exponent of a number, if there is one. -/
def exponentPart : Reader (List Char)
  | c :: rest =>
    if c = 'e' || c = 'E' then do
      let (sign, rest) := signPart rest
      let (ds, rest) ← someDigits rest
      return (c :: sign ++ ds, rest)
    else some ([], c :: rest)
  | [] => some ([], [])

/-- Reads a number. -/
def numberText : Reader String := fun cs => do
  let (sign, cs) := match cs with
    | '-' :: rest => (['-'], rest)
    | _ => ([], cs)
  let (whole, cs) ← wholePart cs
  let (fraction, cs) ← fractionPart cs
  let (exponent, cs) ← exponentPart cs
  return (String.ofList (sign ++ whole ++ fraction ++ exponent), cs)

/-- Reads a given word. -/
def word (text : List Char) (value : Json) : Reader Json := fun cs =>
  if text.isPrefixOf cs then some (value, cs.drop text.length) else none

/-- Puts an entry in front of others, unless one of the keys is broken. -/
def addFirst (key? : Option String) (value : Json) (entries? : Option (List (String × Json))) :
    Option (List (String × Json)) := do
  return (← key?, value) :: (← entries?)

mutual

/-- Reads a value; the first argument bounds the number of steps. -/
def readValue : Nat → Reader Json
  | 0, _ => none
  | n + 1, cs =>
    match skipBlanks cs with
    | '\x22' :: rest => do
      let (s?, rest) ← stringBody {} rest
      return (match s? with
        | some s => .string s
        | none => .brokenString, rest)
    | '[' :: rest =>
      match skipBlanks rest with
      | ']' :: rest => some (.array [], rest)
      | rest => do
        let (elements, rest) ← readElements n rest
        return (.array elements, rest)
    | '\x7b' :: rest =>
      match skipBlanks rest with
      | '\x7d' :: rest => some (.object [], rest)
      | rest => do
        let (entries?, rest) ← readEntries n rest
        return (match entries? with
          | some entries => .object entries
          | none => .brokenObject, rest)
    | 't' :: rest => word ['r', 'u', 'e'] (.bool true) rest
    | 'f' :: rest => word ['a', 'l', 's', 'e'] (.bool false) rest
    | 'n' :: rest => word ['u', 'l', 'l'] .null rest
    | rest => do
      let (text, rest) ← numberText rest
      return (.number text, rest)

/-- Reads the elements of an array that is not empty. -/
def readElements : Nat → Reader (List Json)
  | 0, _ => none
  | n + 1, cs => do
    let (element, cs) ← readValue n cs
    match skipBlanks cs with
    | ',' :: rest => do
      let (elements, rest) ← readElements n rest
      return (element :: elements, rest)
    | ']' :: rest => return ([element], rest)
    | _ => none

/-- Reads the entries of an object that is not empty; there are none if a key is broken. -/
def readEntries : Nat → Reader (Option (List (String × Json)))
  | 0, _ => none
  | n + 1, cs =>
    match skipBlanks cs with
    | '\x22' :: cs => do
      let (key?, cs) ← stringBody {} cs
      match skipBlanks cs with
      | ':' :: cs => do
        let (value, cs) ← readValue n cs
        match skipBlanks cs with
        | ',' :: rest => do
          let (entries?, rest) ← readEntries n rest
          return (addFirst key? value entries?, rest)
        | '\x7d' :: rest => return (addFirst key? value (some []), rest)
        | _ => none
      | _ => none
    | _ => none

end

/-- Reads a text that is one value. -/
def read? (text : String) : Option Json :=
  let cs := text.toList
  match readValue (2 * cs.length + 2) cs with
  | some (value, rest) => if (skipBlanks rest).isEmpty then some value else none
  | none => none

/-- Enters an entry into an object unless its key is there. -/
def addEntry (key : String) (value : Json) (entries : List (String × Json)) :
    List (String × Json) :=
  if entries.any fun e => e.1 == key then entries else (key, value) :: entries

mutual

/-- The value in which only the last entry of every key is left. -/
def merged : Json → Json
  | array elements => array (mergedList elements)
  | object entries => object (mergedEntries entries)
  | value => value

/-- The values in which only the last entry of every key is left. -/
def mergedList : List Json → List Json
  | [] => []
  | j :: js => j.merged :: mergedList js

/-- The last entry of every key. -/
def mergedEntries : List (String × Json) → List (String × Json)
  | [] => []
  | (key, value) :: entries => addEntry key value.merged (mergedEntries entries)

end

/-- The value of a key of an object; of repeated keys the last counts. -/
def get? (j : Json) (key : String) : Option Json :=
  match j with
  | object entries => entries.reverse.lookup key
  | _ => none

/-- The value of a whole number written without fraction and exponent. -/
def whole? (text : String) : Option Int :=
  match text.toList with
  | '-' :: ds => (natural? ds).map fun n => -(n : Int)
  | ds => (natural? ds).map fun n => (n : Int)
where
  /-- The value of decimal digits. -/
  natural? (ds : List Char) : Option Nat :=
    if ds.isEmpty || !ds.all Char.isDigit then none
    else some (ds.foldl (fun n c => 10 * n + (c.toNat - 48)) 0)

end Json

end TypeFlow
