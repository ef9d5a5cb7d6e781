import TypeFlow.Source.Tree
import TypeFlow.Text.Dotted

/-!
# Building source trees

Shorthands for trees whose nodes are not numbered yet. A dotted name is split at its dots; a name
without dots, even an empty one, is a single segment.
-/

namespace TypeFlow

variable (name : String)

/-- The path of a dotted name. -/
def Path.ofDotted : Path Unit := ⟨(), dottedSegments name⟩

/-- The identifier, or the chain of members of an identifier, of a dotted name. -/
def Expr.ofDotted : Expr Unit :=
  match dottedSegments name with
  | [] => .ident () ""
  | first :: rest => rest.foldl (.member ()) (.ident () first)

/-- A name as one alternative of a written type. -/
def TypeRef.ofName : TypeRef Unit := .named (Path.ofDotted name) []

/-- The written type with the named alternatives. -/
def TypeSpec.ofNames (names : List String) : TypeSpec Unit := ⟨(), names.map TypeRef.ofName⟩

/-- A name with arguments as one alternative of a written type. -/
def TypeRef.ofArgs (args : List (List String)) : TypeRef Unit :=
  .named (Path.ofDotted name) (args.map TypeSpec.ofNames)

/-- The assignment of a literal to a variable. -/
def Stmt.set (value : Literal) : Stmt Unit := .assign () (.ident () name) none (.literal () value)

/-- A variable. -/
def Item.ofVar (spec? : Option (TypeSpec Unit) := none)
    (init? : Option (Expr Unit) := none) : Item Unit :=
  .var { id := (), name, spec?, init? }

/-- A function with a body. -/
def Item.ofBody (body : List (Stmt Unit)) (params : List (Param Unit) := [])
    (returns? : Option (TypeSpec Unit) := none) : Item Unit :=
  .function { id := (), name, params, returns?, body? := some ⟨(), body⟩ }

end TypeFlow
