import TypeFlow.Binary.Decimal
import TypeFlow.Document.Toml.Basic
import TypeFlow.Document.Json

/-!
# Strings, numbers and dates in TOML
-/

namespace TypeFlow.Toml

/-! ### Strings -/

/-- Reads the rest of an escape after its backslash. -/
def escape : Reader Char
  | 'b' :: rest => some ('\x08', rest)
  | 't' :: rest => some ('\t', rest)
  | 'n' :: rest => some ('\n', rest)
  | 'f' :: rest => some ('\x0c', rest)
  | 'r' :: rest => some ('\r', rest)
  | '\x22' :: rest => some ('\x22', rest)
  | '\x5c' :: rest => some ('\x5c', rest)
  | 'u' :: rest => unicode 4 rest
  | 'U' :: rest => unicode 8 rest
  | _ => none
where
  /-- Reads the hexadecimal number of a character. -/
  unicode (n : Nat) : Reader Char := fun cs => do
    let ds := cs.take n
    if ds.length = n then
      let u ← Json.hexValue? ds
      if u.isValidChar then return (Char.ofNat u, cs.drop n) else none
    else none

/-- Reads a string between double quotes after the first one; the first argument bounds the number
of characters. -/
def basicString : Nat → List Char → Reader String
  | 0, _, _ => none
  | n + 1, acc, cs =>
    match cs with
    | '\x22' :: rest => some (String.ofList acc.reverse, rest)
    | '\x5c' :: rest => do
      let (c, rest) ← escape rest
      basicString n (c :: acc) rest
    | c :: rest => if isPlain c then basicString n (c :: acc) rest else none
    | [] => none

/-- Reads a string between single quotes after the first one. -/
def literalString (acc : List Char) : Reader String
  | '\x27' :: rest => some (String.ofList acc.reverse, rest)
  | c :: rest => if isPlain c then literalString (c :: acc) rest else none
  | [] => none

/-- Skips blanks and line ends. -/
def skipBlankLines : List Char → List Char
  | ' ' :: rest | '\t' :: rest | '\n' :: rest | '\r' :: '\n' :: rest => skipBlankLines rest
  | cs => cs

/-- Reads a string of several lines after its opening quotes. In a string between double quotes a
backslash at the end of a line joins it to the next text. Up to two quotes may precede the closing
ones. The first argument bounds the number of steps. -/
def longString (quote : Char) (escapes : Bool) : Nat → List Char → Reader String
  | 0, _, _ => none
  | n + 1, acc, cs =>
    let run := cs.takeWhile fun c => c = quote
    if 3 ≤ run.length then
      let extra := min (run.length - 3) 2
      some (String.ofList (List.replicate extra quote ++ acc).reverse, cs.drop (extra + 3))
    else
      match cs with
      | '\n' :: rest | '\r' :: '\n' :: rest => longString quote escapes n ('\n' :: acc) rest
      | c :: rest =>
        if c = '\x5c' && escapes then
          match newline (skipBlanks rest) with
          | some (_, rest) => longString quote escapes n acc (skipBlankLines rest)
          | none => do
            let (e, rest) ← escape rest
            longString quote escapes n (e :: acc) rest
        else if isPlain c then longString quote escapes n (c :: acc) rest
        else none
      | [] => none

/-- Reads a string of any of the four kinds. -/
def stringValue : Reader String
  | '\x22' :: '\x22' :: '\x22' :: rest => long '\x22' true rest
  | '\x27' :: '\x27' :: '\x27' :: rest => long '\x27' false rest
  | '\x22' :: rest => basicString (rest.length + 1) [] rest
  | '\x27' :: rest => literalString [] rest
  | _ => none
where
  /-- Reads a string of several lines; a line end right after the quotes does not count. -/
  long (quote : Char) (escapes : Bool) (cs : List Char) : Option (String × List Char) :=
    let cs := match newline cs with
      | some (_, rest) => rest
      | none => cs
    longString quote escapes (cs.length + 1) [] cs

/-! ### Numbers -/

/-- Reads digits with single underscores between them. -/
def digitRun (isDigit : Char → Bool) : Reader (List Char)
  | [] => none
  | c :: rest => if isDigit c then some (more [c] rest) else none
where
  /-- Reads further digits. -/
  more (acc : List Char) : List Char → List Char × List Char
    | '_' :: c :: rest =>
      if isDigit c then more (c :: acc) rest else (acc.reverse, '_' :: c :: rest)
    | c :: rest => if isDigit c then more (c :: acc) rest else (acc.reverse, c :: rest)
    | [] => (acc.reverse, [])

/-- Reads a sign, if there is one; whether it is a minus. -/
def sign : List Char → Bool × List Char
  | '+' :: rest => (false, rest)
  | '-' :: rest => (true, rest)
  | cs => (false, cs)

/-- Value of digits in a base. -/
def digitsValue (base : Nat) (ds : List Char) : Nat :=
  ds.foldl (fun n c => base * n + (Json.hexDigit? c).getD 0) 0

/-- Reads the digits of a decimal number without superfluous zeros. -/
def decimalDigits : Reader (List Char)
  | '0' :: rest => some (['0'], rest)
  | cs => digitRun Char.isDigit cs

/-- A 64-bit integer. -/
def bounded (n : Int) (rest : List Char) : Option (Toml × List Char) :=
  if -9223372036854775808 ≤ n && n ≤ 9223372036854775807 then some (.integer n, rest) else none

/-- Reads the digits of an integer in a base. -/
def baseInteger (base : Nat) : Reader Toml := fun cs => do
  let (ds, rest) ← digitRun (fun c => match Json.hexDigit? c with
    | some d => d < base
    | none => false) cs
  bounded (digitsValue base ds) rest

/-- Reads an integer. -/
def integerValue : Reader Toml
  | '0' :: 'x' :: rest => baseInteger 16 rest
  | '0' :: 'o' :: rest => baseInteger 8 rest
  | '0' :: 'b' :: rest => baseInteger 2 rest
  | cs => do
    let (negative, cs) := sign cs
    let (ds, rest) ← decimalDigits cs
    let n : Int := digitsValue 10 ds
    bounded (if negative then -n else n) rest

/-- Reads an exponent: its value. -/
def exponent : Reader Int
  | c :: rest =>
    if c = 'e' || c = 'E' then do
      let (negative, rest) := sign rest
      let (ds, rest) ← digitRun Char.isDigit rest
      let n : Int := digitsValue 10 ds
      return (if negative then -n else n, rest)
    else none
  | [] => none

/-- Whether `digits * 10 ^ e` is too large for a 64-bit floating-point number. -/
def overflows (digits : Nat) (e : Int) : Bool :=
  let size : Int := (Nat.toDigits 10 digits).length + e
  if digits = 0 || size < 300 then false
  else if 320 < size then true
  else
    let limit := Binary.twoPow 1024 - Binary.twoPow 970
    let (num, den) := Binary.tenRatio e
    limit * den ≤ digits * num

/-- Reads a floating-point number. One that is too large is refused, unless it is negative. -/
def floatValue : Reader Toml := fun cs => do
  let (negative, cs) := sign cs
  match cs with
  | 'i' :: 'n' :: 'f' :: rest | 'n' :: 'a' :: 'n' :: rest => return (.other, rest)
  | _ =>
    let (whole, cs) ← decimalDigits cs
    let (fraction, cs, e) ← match cs with
      | '.' :: rest => do
        let (ds, rest) ← digitRun Char.isDigit rest
        match exponent rest with
        | some (e, rest) => pure (ds, rest, e)
        | none => pure (ds, rest, 0)
      | _ => do
        let (e, rest) ← exponent cs
        pure ([], rest, e)
    let digits := digitsValue 10 (whole ++ fraction)
    if !negative && overflows digits (e - fraction.length) then none
    else return (.other, cs)

/-! ### Dates and times -/

/-- Reads exactly `n` digits: a number from `lo` to `hi`. -/
def fixedDigits (n lo hi : Nat) : Reader Nat := fun cs =>
  let ds := cs.take n
  let value := digitsValue 10 ds
  if ds.length = n && ds.all Char.isDigit && lo ≤ value && value ≤ hi then
    some (value, cs.drop n)
  else none

/-- Reads one character. -/
def expect (c : Char) : Reader Unit
  | d :: rest => if c = d then some ((), rest) else none
  | [] => none

/-- Number of days of a month. -/
def monthDays (year month : Nat) : Nat :=
  match month with
  | 2 => if year % 4 = 0 && (year % 100 ≠ 0 || year % 400 = 0) then 29 else 28
  | 4 | 6 | 9 | 11 => 30
  | _ => 31

/-- Reads a date. -/
def date : Reader Unit := fun cs => do
  let (year, cs) ← fixedDigits 4 0 9999 cs
  let (_, cs) ← expect '-' cs
  let (month, cs) ← fixedDigits 2 1 12 cs
  let (_, cs) ← expect '-' cs
  let (_, cs) ← fixedDigits 2 1 (monthDays year month) cs
  return ((), cs)

/-- Reads a time of the day. -/
def time : Reader Unit := fun cs => do
  let (_, cs) ← fixedDigits 2 0 23 cs
  let (_, cs) ← expect ':' cs
  let (_, cs) ← fixedDigits 2 0 59 cs
  let (_, cs) ← expect ':' cs
  let (_, cs) ← fixedDigits 2 0 60 cs
  match cs with
  | '.' :: rest =>
    match rest.span Char.isDigit with
    | ([], _) => return ((), cs)
    | (_, rest) => return ((), rest)
  | _ => return ((), cs)

/-- Reads the distance from universal time. -/
def offset : Reader Unit
  | 'Z' :: rest | 'z' :: rest => some ((), rest)
  | c :: rest =>
    if c = '+' || c = '-' then do
      let (_, cs) ← fixedDigits 2 0 23 rest
      let (_, cs) ← expect ':' cs
      let (_, cs) ← fixedDigits 2 0 59 cs
      return ((), cs)
    else none
  | [] => none

/-- Reads a date, a time or both. -/
def dateTimeValue : Reader Toml := fun cs =>
  match date cs with
  | some (_, rest) =>
    match rest with
    | c :: after =>
      if c = 'T' || c = 't' || c = ' ' then
        match time after with
        | some (_, after) =>
          match offset after with
          | some (_, after) => some (.other, after)
          | none => some (.other, after)
        | none => some (.other, rest)
      else some (.other, rest)
    | [] => some (.other, rest)
  | none => do
    let (_, rest) ← time cs
    return (.other, rest)

/-- Reads a number, a date or a time. -/
def numericValue : Reader Toml := fun cs =>
  (dateTimeValue cs).or ((floatValue cs).or (integerValue cs))

end TypeFlow.Toml
