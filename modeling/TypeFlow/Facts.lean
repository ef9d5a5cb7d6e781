import TypeFlow.NumMap
import TypeFlow.Ty.Subtype

/-!
# Program-wide facts

The types of variables without a declared type and of functions without a declared return type are
inferred. Such a fact is absent at first and only grows. A run of the analysis on one part of the
program notes which facts it read and how much of them it used, so that it is repeated only when one
of those facts has grown in a way that it can see.
-/

namespace TypeFlow

/-- How much of a fact a reader used. -/
inductive ReadKind where
  /-- Only the tags. -/
  | type
  /-- A payload as well. -/
  | value
  deriving DecidableEq

/-- The stronger of two kinds. -/
def ReadKind.max : ReadKind → ReadKind → ReadKind
  | .type, .type => .type
  | _, _ => .value

/-- Name of a kind. -/
def ReadKind.name : ReadKind → String
  | .type => "Type"
  | .value => "Value"

/-- How a fact changed after a write. -/
inductive Growth where
  | unchanged
  /-- The same tags with a wider payload. -/
  | value
  /-- New tags. -/
  | type
  deriving DecidableEq

namespace Growth

/-- Name of a growth. -/
def name : Growth → String
  | unchanged => "Unchanged"
  | value => "Value"
  | type => "Type"

/-- Whether a reader must run again. -/
def affects : Growth → ReadKind → Bool
  | unchanged, _ => false
  | value, kind => kind = .value
  | type, _ => true

end Growth

/-- The facts that a run has read, by declaration, each with the strongest kind of use. -/
abbrev Reads := NumMap ReadKind

namespace Reads

/-- The kind of use that reading a type amounts to. -/
def kindOf (t : Ty) : ReadKind := if t.data.isEmpty then .type else .value

/-- Records that the fact of a declaration was read as the given type. -/
def note (reads : Reads) (d : DeclId) (t : Ty) : Reads := reads.insertWith ReadKind.max d (kindOf t)

/-- Adds all reads of another run. -/
def merge (reads other : Reads) : Reads :=
  other.entries.foldl (fun acc e => acc.insertWith ReadKind.max e.1 e.2) reads

end Reads

/-- The inferred types of variables and of function results. -/
structure Facts where
  vars : NumMap Ty := {}
  returns : NumMap Ty := {}
  deriving DecidableEq

namespace Facts

/-- A fact after it is enlarged by a type, with nesting limited to `depth`, and how it grew. -/
def grown (table : DeclTable) (depth : Nat) (old : Option Ty) (t : Ty) : Ty × Growth :=
  match old with
  | none => ((Ty.never.union t).widen depth, .type)
  | some u =>
    if t.subtype table u then (u, .unchanged)
    else
      let w := (u.union t).widen depth
      (w, if w.tags = u.tags then .value else .type)

/-- Enlarges the type of a variable. -/
def growVar (table : DeclTable) (depth : Nat) (facts : Facts) (d : DeclId) (t : Ty) :
    Facts × Growth :=
  let (u, growth) := grown table depth (facts.vars.get? d) t
  ({ facts with vars := facts.vars.insert d u }, growth)

/-- Enlarges the type of a function's result. -/
def growReturn (table : DeclTable) (depth : Nat) (facts : Facts) (d : DeclId) (t : Ty) :
    Facts × Growth :=
  let (u, growth) := grown table depth (facts.returns.get? d) t
  ({ facts with returns := facts.returns.insert d u }, growth)

end Facts

end TypeFlow
