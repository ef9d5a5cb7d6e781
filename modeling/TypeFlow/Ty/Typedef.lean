import TypeFlow.DeclTable

/-!
# Expanding typedef definitions

A typedef may refer to other typedefs, also in a circle. Its expansion is the union of its own
definition with the expansions of the typedefs it refers to at the top level; a typedef whose
expansion is under way contributes nothing new. References inside containers stay as they are and
are expanded when a comparison reaches them.
-/

namespace TypeFlow.Ty

mutual

/-- Whether a typedef is referred to anywhere inside a type. -/
def mentions (d : DeclId) : Ty → Bool
  | ⟨_, data⟩ => mentionsData d data

def mentionsData (d : DeclId) : List (Payload Ty) → Bool
  | [] => false
  | p :: ps => mentionsPayload d p || mentionsData d ps

def mentionsPayload (d : DeclId) : Payload Ty → Bool
  | .synonym decls => decls.contains d
  | .elements t => mentions d t
  | .tuple ts => mentionsList d ts
  | .dictionary k v => mentions d k || mentions d v
  | .method args r => mentionsList d args || mentions d r
  | .object _ (some fields) => mentionsFields d fields
  | .enum _ (some v) => mentions d v
  | _ => false

def mentionsList (d : DeclId) : List Ty → Bool
  | [] => false
  | t :: ts => mentions d t || mentionsList d ts

def mentionsFields (d : DeclId) : List (String × Ty) → Bool
  | [] => false
  | (_, t) :: ts => mentions d t || mentionsFields d ts

end

end TypeFlow.Ty

namespace TypeFlow

/-- The expansion of a typedef. -/
structure Expansion where
  ty : Ty
  /-- Whether the definition refers to itself. -/
  recursive : Bool
  deriving DecidableEq

namespace Expansion

/-- Definitions of typedefs as written. -/
abbrev Definitions := List (DeclId × Ty)

/-- Finished expansions. -/
abbrev Finished := List (DeclId × Expansion)

/-- What one expansion gives: a type and the typedefs under way whose contribution is missing. -/
structure Unfolding where
  ty : Ty
  pending : List DeclId

/-- Adds the expansions of the referenced typedefs to `start`, leaving out those on the stack. -/
def unfoldAll (unfoldOne : DeclId → Finished → Unfolding × Finished) (stack : List DeclId) :
    List DeclId → Unfolding → Finished → Unfolding × Finished
  | [], acc, done => (acc, done)
  | d :: ds, acc, done =>
    if stack.contains d then
      unfoldAll unfoldOne stack ds { acc with pending := acc.pending ++ [d] } done
    else
      let (inner, done) := unfoldOne d done
      unfoldAll unfoldOne stack ds ⟨acc.ty.union inner.ty, acc.pending ++ inner.pending⟩ done

/-- Expands one typedef, where `inner` expands those that it refers to and `stack` holds the
typedefs under way. An expansion with nothing missing is finished and is not computed again. -/
def unfoldStep (raw : Definitions)
    (inner : List DeclId → DeclId → Finished → Unfolding × Finished) (stack : List DeclId)
    (d : DeclId) (done : Finished) : Unfolding × Finished :=
  match done.lookup d with
  | some e => (⟨e.ty, []⟩, done)
  | none =>
    match raw.lookup d with
    | none => (⟨Ty.any, []⟩, done)
    | some t =>
      let start : Unfolding := ⟨t.without (Tags.single .synonym), []⟩
      let (out, done) :=
        if t.hasSynonym then
          match t.payload? .synonym with
          | some (.synonym refs) => unfoldAll (inner (d :: stack)) (d :: stack) refs.ids start done
          | _ => (⟨start.ty.union Ty.any, []⟩, done)
        else (start, done)
      let recursive := out.pending.contains d || out.ty.mentions d
      let pending := out.pending.filter (· != d)
      let done := if pending.isEmpty then (d, ⟨out.ty, recursive⟩) :: done else done
      (⟨out.ty, pending⟩, done)

/-- Expands one typedef; the first argument bounds the number of those under way. -/
def unfoldOne (raw : Definitions) : Nat → List DeclId → DeclId → Finished → Unfolding × Finished
  | 0, _, _, done => (⟨Ty.any, []⟩, done)
  | n + 1, stack, d, done => unfoldStep raw (unfoldOne raw n) stack d done

/-- Expands every typedef. -/
def all (raw : Definitions) : Finished :=
  let done := raw.foldl (fun done e => (unfoldOne raw (raw.length + 1) [] e.1 done).2) []
  raw.filterMap fun e => (done.lookup e.1).map fun x => (e.1, x)

end Expansion

end TypeFlow
