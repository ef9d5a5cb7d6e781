import TypeFlow.DeclSet

/-!
# Why an analysis stops

Three more checks have no error here, since they cannot fail. Expressions are evaluated by
recursion, without a stack of operands that could be out of balance. Blocks are ordered by a walk
from the entry, so each block to which control may go has a place. Roots have different nodes, so no
node is given types by two of them.
-/

namespace TypeFlow

/-- Number of an identity within one graph. -/
abbrev Key := Nat

/-- Why an identity is refused. -/
inductive IdentityError where
  /-- A set of fewer than two declarations. -/
  | smallSet (size : Nat)
  | emptyPath
  /-- A path of members below another one. -/
  | nestedPath (path : List String)
  | unknownBase (base : Key)
  deriving DecidableEq

/-- Wording of an error. -/
def IdentityError.message : IdentityError → String
  | smallSet size => "declaration set of " ++ toString size ++ " elements"
  | emptyPath => "empty member path"
  | nestedPath path => "member path " ++ ".".intercalate path ++ " is rooted at another member path"
  | unknownBase base => "unknown base k" ++ toString base

/-- Why an analysis stops without a result. -/
inductive AnalysisError where
  | identity (cause : IdentityError)
  /-- The blocks of a root were visited too often. -/
  | blockVisitLimit (root : DeclId) (visits : Nat)
  /-- Roots were run too often. -/
  | rootRunLimit (runs : Nat)
  deriving DecidableEq

/-- Wording of an error. -/
def AnalysisError.message : AnalysisError → String
  | identity cause => "identity key is not canonical: " ++ cause.message
  | blockVisitLimit root visits =>
    "decl" ++ toString root ++ " did not converge after " ++ toString visits ++ " block visits"
  | rootRunLimit runs =>
    "whole-program analysis did not converge after " ++ toString runs ++ " root runs"

end TypeFlow
