import TypeFlow.Document.Toml.Basic

/-!
# Assembling TOML tables

A document is a sequence of headers and entries. No key may be given twice, and a table may be
extended only in the way in which it came into being.
-/

namespace TypeFlow.Toml

/-- The entries of a table. -/
abbrev Entries := List (String × Toml)

/-- Replaces the value of a key. -/
def replaceEntry (key : String) (value : Toml) : Entries → Entries
  | [] => []
  | (k, v) :: rest => if k = key then (k, value) :: rest else (k, v) :: replaceEntry key value rest

/-- Changes the table at the end of a path of keys and gives back what the change gives. Missing
tables are created. With `dotted` the path is part of a dotted key, which must not enter a table
that has its own header; otherwise it is part of a header. -/
def descend {α : Type} (dotted : Bool) (change : Origin → Entries → Option (α × Entries)) :
    List String → Origin → Entries → Option (α × Entries)
  | [], origin, entries => change origin entries
  | key :: path, _, entries =>
    match entries.lookup key with
    | none => do
      let origin := if dotted then Origin.dotted else Origin.implied
      let (a, inner) ← descend dotted change path origin []
      return (a, entries ++ [(key, .table origin inner)])
    | some (.table .inline _) => none
    | some (.table origin inner) =>
      if dotted && origin = .header then none
      else do
        let (a, inner) ← descend dotted change path origin inner
        return (a, replaceEntry key (.table origin inner) entries)
    | some (.tables elements) =>
      match elements.getLast? with
      | none => none
      | some last => do
        let (a, last) ← descend dotted change path .header last
        return (a, replaceEntry key (.tables (elements.dropLast ++ [last])) entries)
    | some _ => none

/-- Enters a value under a key into a table; `plain` says that the key has no dots. -/
def enter (plain : Bool) (key : String) (value : Toml) (origin : Origin) (entries : Entries) :
    Option (Unit × Entries) :=
  if decide (origin = .dotted) == plain then none
  else if entries.any fun e => e.1 == key then none
  else some ((), entries ++ [(key, value)])

/-- Enters a value under a dotted key. -/
def insert (key : List String) (value : Toml) (origin : Origin) (entries : Entries) :
    Option Entries :=
  match key.getLast? with
  | none => none
  | some last =>
    (descend true (enter (key.length = 1) last value) key.dropLast origin entries).map Prod.snd

/-- The value of a table between braces. -/
def inlineTable (pairs : List (List String × Toml)) : Option Toml := do
  return .table .inline (← pairs.foldlM (fun es p => insert p.1 p.2 .inline es) [])

/-- One statement of a document. -/
inductive Statement where
  | entry (key : List String) (value : Toml)
  | header (path : List String)
  /-- The header of one more table of an array. -/
  | element (path : List String)

/-- A document under construction: the finished tables and the one whose entries follow. -/
structure Assembly where
  root : Entries := []
  current : Entries := []
  path : List String := []
  isElement : Bool := false

namespace Assembly

variable (a : Assembly)

/-- Puts the current table in its place. -/
def close : Option Entries :=
  match a.path.getLast? with
  | none => some a.current
  | some key =>
    let place (_ : Origin) (entries : Entries) : Option (Unit × Entries) :=
      match entries.lookup key with
      | none =>
        some ((), entries ++
          [(key, if a.isElement then .tables [a.current] else .table .header a.current)])
      | some (.tables elements) =>
        if a.isElement then some ((), replaceEntry key (.tables (elements ++ [a.current])) entries)
        else none
      | some _ => none
    (descend false place a.path.dropLast .header a.root).map Prod.snd

/-- Starts the table of a header. Its place must be free, or hold a table that only the headers of
inner tables have created. -/
def openTable (path : List String) : Option Assembly := do
  let root ← a.close
  let key ← path.getLast?
  let take (_ : Origin) (entries : Entries) : Option (Entries × Entries) :=
    match entries.lookup key with
    | none => some ([], entries)
    | some (.table .implied inner) => some (inner, entries.filter fun e => e.1 != key)
    | some _ => none
  let (current, root) ← descend false take path.dropLast .header root
  return { root, current, path }

/-- Starts one more table of an array of tables. -/
def openElement (path : List String) : Option Assembly := do
  let root ← a.close
  let key ← path.getLast?
  let prepare (_ : Origin) (entries : Entries) : Option (Unit × Entries) :=
    match entries.lookup key with
    | none => some ((), entries ++ [(key, .tables [])])
    | some (.tables _) => some ((), entries)
    | some _ => none
  let (_, root) ← descend false prepare path.dropLast .header root
  return { root, path, isElement := true }

/-- Adds a statement. -/
def add : Statement → Option Assembly
  | .entry key value => do return { a with current := ← insert key value .header a.current }
  | .header path => a.openTable path
  | .element path => a.openElement path

end Assembly

/-- The entries of a document. -/
def assemble (statements : List Statement) : Option Entries := do
  (← statements.foldlM Assembly.add {}).close

end TypeFlow.Toml
