import TypeFlow.Flow.Error
import TypeFlow.Source.Tree

/-!
# Events of control-flow graphs

A block of a graph is a list of events in the order of evaluation.
-/

namespace TypeFlow

/-- Number of a block within one graph. -/
abbrev BlockId := Nat

/-- Where a written value comes from. -/
inductive Written where
  | value (e : Expr NodeId)
  /-- The result of an operator on the old value and another one. -/
  | compound (op : BinaryOp) (target value : Expr NodeId)
  /-- A variable that is declared without a value. -/
  | absent
  /-- The caught exception, of one class or of any. -/
  | caught (cls? : Option (Path NodeId))
  /-- The container after one of its elements is assigned. -/
  | element (container position value : Expr NodeId)
  /-- The result of the function, null when there is none. -/
  | returned (value? : Option (Expr NodeId))

/-- A branch condition, as far as something can be learned from it. -/
inductive Condition where
  /-- The equality, or the inequality, of two values. `whole?` is the comparison itself, which a
  case of a switch does not have. -/
  | equals (whole? : Option (Expr NodeId)) (left right : Expr NodeId) (equal : Bool)
      (leftKey? rightKey? : Option Key)
  | truthy (e : Expr NodeId) (key? : Option Key)
  | instanceOf (whole e : Expr NodeId) (classes : List DeclId) (key? : Option Key)
  /-- The choice whether a handler takes an exception, from which nothing is learned. -/
  | dispatch

/-- One step of a block. -/
inductive Event where
  | read (node : NodeId) (key : Key)
  | write (node : NodeId) (key : Key) (source : Written)
  /-- An expression that is evaluated for what its calls do. -/
  | run (node : NodeId) (e : Expr NodeId)
  /-- A variable goes out of scope. -/
  | forget (key : Key)
  /-- The condition of the branch at the end of a block. -/
  | test (node : NodeId) (condition : Condition)
  /-- A point from which control may go to a handler of exceptions. -/
  | mayThrow (node : NodeId)

/-- The functions that a call may reach. -/
inductive Callees where
  | known (functions : DeclSet)
  /-- Only functions of the library. -/
  | library
  | unknown
  deriving DecidableEq

/-- A call and the tracked identities that it is given. -/
structure CallSite where
  callees : Callees
  args : List Key
  deriving DecidableEq

end TypeFlow
