import TypeFlow.Proofs.Executions
import TypeFlow.Proofs.DeclaredVariables

/-!
# How control leaves statements

The ways in which control may leave a statement are read off the statement: conditions may come out
either way, every call may throw, and all cases of a switch may be chosen. When the statements of an
attempt and those of its handlers all leave it for good, its finalizer is never come to.
-/

namespace TypeFlow

/-- The ways in which control may leave a statement, except for returns. -/
structure Exits where
  /-- Control goes on to what follows. -/
  done : Bool := false
  /-- The innermost loop or switch is left. -/
  left : Bool := false
  /-- The innermost loop goes on with its next round. -/
  next : Bool := false
  /-- An exception goes to the handlers around. -/
  thrown : Bool := false
  deriving DecidableEq

namespace Exits

/-- The evaluation of expressions, which may throw if there is a call. -/
def evaluated (calls : Bool) : Exits := { done := true, thrown := calls }

/-- All ways of two statements, of which either may be chosen. -/
def or (x y : Exits) : Exits :=
  ⟨x.done || y.done, x.left || y.left, x.next || y.next, x.thrown || y.thrown⟩

/-- The ways of one statement after another. -/
def andThen (x y : Exits) : Exits :=
  if x.done then { x.or y with done := y.done } else x

/-- Whether a loop with this body may come to its next round. -/
def repeats (x : Exits) : Bool := x.done || x.next

/-- The ways of statements whose exceptions go to handlers. -/
def caughtBy (x handlers : Exits) : Exits :=
  if x.thrown then { x with thrown := false }.or handlers else x

end Exits

section

variable (p : Program)

mutual

/-- The ways in which control may leave a statement. -/
def Stmt.exits : Stmt NodeId → Exits
  | .var _ v => .evaluated ((p.declaredAt? v.id).isSome && v.init?.any Expr.calls)
  | .expr _ value => .evaluated value.calls
  | .assign _ target _ value => .evaluated (target.partsCall || value.calls)
  | .ret _ value? => { thrown := value?.any Expr.calls }
  | .branch _ test yes no? =>
    (Exits.evaluated test.calls).andThen ((exitsOfBlock yes).or (exitsOfBlock? no?))
  | .whileLoop _ test body => .evaluated (test.calls || (exitsOfBlock body).thrown)
  | .doLoop _ body test =>
    let x := exitsOfBlock body
    { done := x.left || x.repeats
      thrown := x.thrown || x.repeats && test.calls }
  | .forLoop _ init test? update body =>
    let x := exitsOfBlock body
    let y := exitsOfStmts update
    (exitsOfStmts init).andThen
      { done := test?.isSome || x.left
        left := x.repeats && y.left
        next := x.repeats && y.next
        thrown := test?.any Expr.calls || x.thrown || x.repeats && y.thrown }
  | .switch _ subject cases =>
    let x := exitsOfCases cases false false
    (Exits.evaluated (subject.calls || cases.any fun c => c.test?.any Expr.calls)).andThen
      { x with done := x.done || x.left || cases.all fun c => c.test?.isSome, left := false }
  | .leave _ => { left := true }
  | .next _ => { next := true }
  | .raise .. => { thrown := true }
  | .attempt _ body handlers finalizer? =>
    ((exitsOfBlock body).caughtBy (exitsOfHandlers handlers)).andThen (exitsOfBlock? finalizer?)
  | .block _ body => exitsOfBlock body

/-- The ways in which control may leave a list of statements. -/
def exitsOfStmts : List (Stmt NodeId) → Exits
  | [] => { done := true }
  | s :: ss => s.exits.andThen (exitsOfStmts ss)

/-- The ways in which control may leave a block. -/
def exitsOfBlock : Braced NodeId (Stmt NodeId) → Exits
  | ⟨_, stmts⟩ => exitsOfStmts stmts

def exitsOfBlock? : Option (Braced NodeId (Stmt NodeId)) → Exits
  | none => { done := true }
  | some b => exitsOfBlock b

/-- The ways in which control may leave the bodies of cases. A body is come to from the one before,
by its test, or as the first one without a test. -/
def exitsOfCases : List (Case NodeId (Stmt NodeId)) → (fallen otherwise : Bool) → Exits
  | [], fallen, _ => { done := fallen }
  | ⟨_, test?, body⟩ :: cases, fallen, otherwise =>
    let x := if fallen || test?.isSome || !otherwise then exitsOfStmts body else {}
    { x with done := false }.or (exitsOfCases cases x.done (otherwise || test?.isNone))

/-- The ways in which control may leave handlers when an exception arrives. What no handler takes
goes to the handlers around. -/
def exitsOfHandlers : List (Handler NodeId (Stmt NodeId)) → Exits
  | [] => { thrown := true }
  | ⟨_, _, cls?, body⟩ :: handlers =>
    if cls?.isSome then (exitsOfBlock body).or (exitsOfHandlers handlers) else exitsOfBlock body

end

mutual

/-- Whether control may come to all parts of a statement. -/
def Stmt.live : Stmt NodeId → Bool
  | .branch _ _ yes no? => liveBlock yes && liveBlock? no?
  | .whileLoop _ _ body => liveBlock body
  | .doLoop _ body _ => liveBlock body && (exitsOfBlock p body).repeats
  | .forLoop _ init _ update body =>
    liveStmts init && (exitsOfStmts p init).done && liveBlock body && liveStmts update &&
      (update.isEmpty || (exitsOfBlock p body).repeats)
  | .switch _ _ cases => liveCases cases false false
  | .attempt _ body handlers finalizer? =>
    liveBlock body && liveHandlers handlers &&
      (handlers.isEmpty || (exitsOfBlock p body).thrown) && liveBlock? finalizer? &&
      (finalizer?.isNone || ((exitsOfBlock p body).caughtBy (exitsOfHandlers p handlers)).done)
  | .block _ body => liveBlock body
  | _ => true

/-- Whether control may come to all parts of a list of statements. -/
def liveStmts : List (Stmt NodeId) → Bool
  | [] => true
  | s :: ss => s.live && liveStmts ss && (ss.isEmpty || (s.exits p).done)

/-- Whether control may come to all parts of a block. -/
def liveBlock : Braced NodeId (Stmt NodeId) → Bool
  | ⟨_, stmts⟩ => liveStmts stmts

def liveBlock? : Option (Braced NodeId (Stmt NodeId)) → Bool
  | none => true
  | some b => liveBlock b

def liveCases : List (Case NodeId (Stmt NodeId)) → (fallen otherwise : Bool) → Bool
  | [], _, _ => true
  | ⟨_, test?, body⟩ :: cases, fallen, otherwise =>
    (fallen || test?.isSome || !otherwise) && liveStmts body &&
      liveCases cases (exitsOfStmts p body).done (otherwise || test?.isNone)

/-- Whether control may come to all parts of handlers when an exception arrives, except for those
after a handler for all exceptions. -/
def liveHandlers : List (Handler NodeId (Stmt NodeId)) → Bool
  | [] => true
  | ⟨_, _, cls?, body⟩ :: handlers => liveBlock body && (cls?.isNone || liveHandlers handlers)

end

end

end TypeFlow
