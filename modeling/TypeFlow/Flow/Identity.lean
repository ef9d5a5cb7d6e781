import TypeFlow.Flow.Error
import TypeFlow.Program.Decl

/-!
# Identities of tracked values

The analysis of a function keeps types for variables, for members of variables and for the result.
Each of these is named by an `Identity`. The identities of one function are collected in an
`Identities`, where equal identities share a number, their key.
-/

namespace TypeFlow

/-- What a key names. -/
inductive Identity where
  | decl (d : DeclId)
  /-- Two or more declarations that one name means. -/
  | set (ds : DeclSet)
  /-- A literal, by its kind and its value as text. -/
  | literal (kind raw : String)
  /-- A member of a member and so on of the value of `base`, which is not itself a member. -/
  | member (base : Key) (path : List String)
  /-- The result of the function. -/
  | result
  | unknown
  deriving DecidableEq

/-- The collected identities, each at its key, with an index by which keys are found. -/
structure Identities where
  keys : Array Identity
  index : List (Identity × Key)
  /-- An identity is found where it is. -/
  inStep : ∀ i key, index.lookup i = some key ↔ keys[key]? = some i

namespace Identities

/-- No identities. -/
def empty : Identities := ⟨#[], [], by simp⟩

variable (ids : Identities)

/-- The identity of a key. -/
def get (k : Key) : Identity := ids.keys.getD k .unknown

/-- Number of identities. -/
def size (ids : Identities) : Nat := ids.keys.size

/-- What is wrong with an identity. Sets have at least two members, paths of members are not empty
and start at a known identity that is not a path itself. -/
def fault? : Identity → Option IdentityError
  | .set ds => if ds.size < 2 then some (.smallSet ds.size) else none
  | .member base path =>
    if path.isEmpty then some .emptyPath
    else
      match ids.keys[base]? with
      | some (.member ..) => some (.nestedPath path)
      | some _ => none
      | none => some (.unknownBase base)
  | _ => none

/-- Adds an identity that is not in the index, which takes the next key. -/
def add (i : Identity) (h : ids.index.lookup i = none) : Identities where
  keys := ids.keys.push i
  index := (i, ids.keys.size) :: ids.index
  inStep j key := by
    have hkeys := ids.inStep j key
    have hnew := ids.inStep i key
    rw [List.lookup_cons, Array.getElem?_push]
    grind

/-- The key of an identity, which is new if the identity is. -/
def intern (i : Identity) : Except IdentityError (Key × Identities) :=
  match ids.fault? i with
  | some e => .error e
  | none =>
    match h : ids.index.lookup i with
    | some key => .ok (key, ids)
    | none => .ok (ids.keys.size, ids.add i h)

/-- The identity of a name that means the given declarations. -/
def ofDecls : List DeclId → Identity
  | [] => .unknown
  | [d] => .decl d
  | ds => .set (DeclSet.ofList ds)

/-- The identity of a literal. -/
def ofLiteral (value : Literal) : Identity := .literal value.raw.1 value.raw.2

/-- The identity of a member of the value of `base`. -/
def memberOf (base : Key) (property : String) : Identity :=
  match ids.get base with
  | .member root path => .member root (path ++ [property])
  | _ => .member base [property]

/-- Whether types are kept for a key. -/
def isTracked (k : Key) : Bool :=
  match ids.get k with
  | .literal .. | .unknown => false
  | _ => true

/-- Whether a key names a member. -/
def isMember (k : Key) : Bool :=
  match ids.get k with
  | .member .. => true
  | _ => false

/-- The key at which a path of members starts; any other key itself. -/
def rootOf (k : Key) : Key :=
  match ids.get k with
  | .member base _ => base
  | _ => k

/-- Whether a write to `written` makes the type kept for `k` obsolete: `k` is a member of what was
written. -/
def isObsolete (k written : Key) : Bool :=
  match ids.get k with
  | .member base path =>
    match ids.get written with
    | .member base' path' => base = base' && path'.length < path.length && path'.isPrefixOf path
    | _ => base = written
  | _ => false

/-- The variables of modules and classes that a key names. -/
def nonlocalVars (ds : Declarations) (k : Key) : List DeclId :=
  let named := match ids.get k with
    | .decl d => [d]
    | .set s => s.ids
    | _ => []
  named.filter fun d => (ds.decl d).kind = .var

/-- Whether a key names a variable of a module or class. -/
def isNonlocal (ds : Declarations) (k : Key) : Bool := !(ids.nonlocalVars ds k).isEmpty

end Identities

end TypeFlow
