import TypeFlow.Ty.Union
import TypeFlow.Walk

/-!
# What types know about declarations

The algebra of types looks at declarations through a `DeclTable`: the expansions of typedefs, the
direct superclasses of classes and the names used in printed types. All three are finite data, and
what is missing has a default: an unknown typedef is expanded to the type of every value, an unknown
class has no superclass.
-/

namespace TypeFlow

/-- Facts about declarations that types refer to. -/
structure DeclTable where
  /-- Expansions of typedefs. -/
  expansions : List (DeclId × Ty) := []
  /-- Direct superclasses, by number of the class. -/
  superclasses : Array (List DeclId) := #[]
  /-- Printed names, by number of the declaration. -/
  names : Array String := #[]

namespace DeclTable

/-- A table that knows nothing. -/
def empty : DeclTable := {}

variable (table : DeclTable)

/-- Direct superclasses of a class. -/
def parents (c : DeclId) : List DeclId := table.superclasses.getD c []

/-- Printed name of a declaration. -/
def name (d : DeclId) : String := table.names.getD d ("decl" ++ toString d)

/-- Total size of the expansions. -/
def weight : Nat := table.expansions.foldr (fun e n => e.2.size + n) 0

/-- A bound on the steps of a search through superclasses: every class on the stack is the first one
or has been put there by a class below it, and each class puts its superclasses there once. -/
def searchBound (superclasses : Array (List DeclId)) : Nat :=
  superclasses.foldl (fun n parents => n + parents.length) 1

/-- Searches the classes on a stack and what they inherit from for `sup`. Superclasses are put on
the stack from left to right, unless the class has been seen. -/
def search (table : DeclTable) (sup : DeclId) : Nat → List DeclId → List DeclId → Bool
  | n + 1, c :: stack, seen =>
    if c = sup then true
    else if seen.contains c then table.search sup n stack seen
    else table.search sup n (pushAll stack (table.parents c)) (seen ++ [c])
  | _, _, _ => false

/-- Whether `sub` is `sup` or inherits from it. -/
def isSubclass (sub sup : DeclId) : Bool :=
  table.search sup (searchBound table.superclasses) [sub] []

end DeclTable

namespace Ty

/-- Replaces references to typedefs at the top level by their expansions. -/
def expand (table : DeclTable) (t : Ty) : Ty :=
  if t.hasSynonym then
    let rest := t.without (Tags.single .synonym)
    match t.payload? .synonym with
    | some (.synonym decls) =>
      decls.ids.foldl (fun acc d => acc.union ((table.expansions.lookup d).getD any)) rest
    | _ => rest.union any
  else t

/-- A bound on the nesting of comparisons of `a` with `b`. Every type met on the way is a union of
parts of `a`, `b` and the expansions, possibly without the typedef or the enum tag, so the number of
pairs of such types is at most exponential in the sizes. -/
def comparisonBound (table : DeclTable) (a b : Ty) : Nat :=
  Nat.pow 2 (10 * (a.size + b.size + table.weight + 2))

end Ty

end TypeFlow
