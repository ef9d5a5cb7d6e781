import TypeFlow.Flow.Build

/-!
# Executions of functions

What the statements of a function do, as far as it can be seen: which variables, members, elements
and results are written, which expressions are evaluated for what their calls do, and how each
condition comes out. Nothing is known about values, so a condition may come out either way.

`Runs α` are the executions of a piece of program that ends with an `α`. Statements are read one by
one in the monad of these executions. Only executions that end are described, and none that end with
an exception.
-/

namespace TypeFlow

/-- What can be seen of an execution. -/
inductive Step where
  /-- Something is given a value by the node. -/
  | write (node : NodeId)
  /-- An expression is evaluated for what its calls do. -/
  | run (node : NodeId)
  /-- A condition comes out true or false. -/
  | test (node : NodeId) (outcome : Bool)
  deriving DecidableEq

/-- The executions of a piece of program, each with its steps and its result. -/
def Runs (α : Type) := List Step → α → Prop

namespace Runs

variable {α : Type}

instance : Monad Runs where
  pure a := fun steps b => steps = [] ∧ b = a
  bind runs rest := fun steps b =>
    ∃ first a last, runs first a ∧ rest a last b ∧ steps = first ++ last

/-- Exactly the given steps. -/
def perform (steps : List Step) : Runs Unit := fun done _ => done = steps

theorem perform_nil_bind (rest : Unit → Runs α) : (perform [] >>= rest) = rest () := by
  funext steps a
  apply propext
  constructor
  · rintro ⟨_, ⟨⟩, last, rfl, hrest, rfl⟩
    exact hrest
  · exact fun hrest => ⟨[], (), steps, rfl, hrest, rfl⟩

/-- A condition that may come out either way. -/
def test (node : NodeId) : Runs Bool := fun done outcome => done = [.test node outcome]

/-- No execution. -/
def stuck : Runs α := fun _ _ => False

/-- Rounds until one of them gives a result. -/
inductive Loop (round : Runs (Option α)) : List Step → α → Prop
  | ends {steps : List Step} {a : α} (h : round steps (some a)) : Loop round steps a
  | again {first rest : List Step} {a : α} (h : round first none) (hrest : Loop round rest a) :
      Loop round (first ++ rest) a

/-- Rounds until one of them gives a result. -/
def loop (round : Runs (Option α)) : Runs α := Loop round

end Runs

open Runs

/-! ### Expressions -/

mutual

/-- Whether the evaluation of an expression calls a function. The class of an `instanceof` is left
out, as it is where graphs are built. -/
def Expr.calls {ι : Type} : Expr ι → Bool
  | .literal .. | .symbol .. | .self _ | .ident .. => false
  | .member _ object _ => object.calls
  | .index _ object position => object.calls || position.calls
  | .call .. | .create .. => true
  | .unary _ _ operand => operand.calls
  | .binary _ _ left right | .logical _ _ left right => left.calls || right.calls
  | .conditional _ test yes no => test.calls || yes.calls || no.calls
  | .array _ elements => callsAny elements
  | .dictionary _ entries => callsAnyEntry entries
  | .cast _ operand _ | .instanceOf _ operand _ => operand.calls
  | .has _ object _ => object.calls

/-- Whether the evaluation of one of several expressions calls a function. -/
def callsAny {ι : Type} : List (Expr ι) → Bool
  | [] => false
  | e :: es => e.calls || callsAny es

def callsAnyEntry {ι : Type} : List (Expr ι × Expr ι) → Bool
  | [] => false
  | (k, v) :: entries => k.calls || v.calls || callsAnyEntry entries

end

/-- Whether the evaluation of the parts of an assignment's target calls a function. -/
def Expr.partsCall {ι : Type} : Expr ι → Bool
  | .index _ object position => object.calls || position.calls
  | .member _ object _ => object.calls
  | _ => false

namespace Program

/-- Whether a name means variables and parameters only. -/
def namesVariable (p : Program) (node : NodeId) : Bool :=
  !(p.lookup node).isEmpty && (p.lookup node).all fun d =>
    (p.decl d).kind = .var || (p.decl d).kind.isLocal

/-- Whether an expression is a variable, or a member of a member and so on of one. -/
def tracks (p : Program) : Expr NodeId → Bool
  | .ident id _ => p.namesVariable id
  | .member id object _ => if (p.lookup id).isEmpty then p.tracks object else p.namesVariable id
  | _ => false

/-- Whether an assignment gives a new value to something that is tracked. The assignment of an
element gives one to the container. If the old element is an operand, too, it is left out, as it is
where graphs are built. -/
def assigns (p : Program) (target : Expr NodeId) (op? : Option BinaryOp) : Bool :=
  match target with
  | .index _ object _ => op?.isNone && p.tracks object
  | target => p.tracks target

end Program

/-- How a condition comes out. The right operands of `&&` and `||` are evaluated when they are
needed, and `!` exchanges the outcomes of an operand that is a boolean in any case. -/
def Expr.decides : Expr NodeId → Runs Bool
  | .logical _ .and left right => do
    if ← left.decides then right.decides else return false
  | .logical _ .or left right => do
    if ← left.decides then return true else right.decides
  | .unary id .not operand =>
    if isBoolean operand then do return !(← operand.decides) else test id
  | e => test e.id

/-! ### Statements -/

/-- How a statement ends. -/
inductive Ending where
  /-- Control goes on to the next statement. -/
  | done
  | returned
  /-- The innermost loop or switch is left. -/
  | left
  /-- The innermost loop goes on with its next round. -/
  | next
  deriving DecidableEq

namespace Ending

/-- What a loop makes of the end of its body: the way in which the loop ends, or `none` when it goes
on. -/
def ofRound : Ending → Option Ending
  | .done | .next => none
  | .left => some .done
  | .returned => some .returned

/-- What a switch makes of the end of its cases. -/
def ofSwitch : Ending → Ending
  | .left => .done
  | ending => ending

end Ending

/-- Statements one after the other. -/
def Runs.andThen (runs rest : Runs Ending) : Runs Ending := do
  match ← runs with
  | .done => rest
  | ending => return ending

/-- The position of the first case that matches, which are tested in order. -/
def firstMatch : List (Case NodeId (Stmt NodeId)) → Runs (Option Nat)
  | [] => return none
  | case :: cases => do
    if case.test?.isSome then
      if ← test case.id then return some 0
      else return (← firstMatch cases).map (· + 1)
    else return (← firstMatch cases).map (· + 1)

/-- The position of the case where a switch starts: the first that matches, and otherwise the first
default. -/
def startingCase (cases : List (Case NodeId (Stmt NodeId))) : Runs Nat := do
  return (← firstMatch cases).getD (cases.findIdx fun case => case.test?.isNone)

mutual

/-- The executions of a statement. -/
def runStmt (p : Program) : Stmt NodeId → Runs Ending
  | .var _ v => do
    perform [.write v.id]
    return .done
  | .expr id value => do
    perform (if value.calls then [.run id] else [])
    return .done
  | .assign id target op? value => do
    perform (if p.assigns target op? then [.write id]
      else if target.partsCall || value.calls then [.run id] else [])
    return .done
  | .ret id _ => do
    perform [.write id]
    return .returned
  | .branch _ test yes no? => do
    if ← test.decides then runBlock p yes else runBlock? p no?
  | .whileLoop _ test body => loop do
    if ← test.decides then return (← runBlock p body).ofRound
    else return some .done
  | .doLoop _ body test => loop do
    match (← runBlock p body).ofRound with
    | none => return if ← test.decides then none else some .done
    | ending => return ending
  | .forLoop _ init test? update body =>
    (runStmts p init).andThen <| loop do
      if ← (test?.elim (pure true) Expr.decides) then
        match (← runBlock p body).ofRound with
        | none =>
          match ← runStmts p update with
          | .done => return none
          | ending => return some ending
        | ending => return ending
      else return some .done
  | .switch _ subject cases => do
    perform (if subject.calls then [.run subject.id] else [])
    return (← runCases p cases (← startingCase cases)).ofSwitch
  | .leave _ => return .left
  | .next _ => return .next
  | .raise .. | .attempt .. => stuck
  | .block _ body => runBlock p body

def runStmts (p : Program) : List (Stmt NodeId) → Runs Ending
  | [] => return .done
  | s :: ss => (runStmt p s).andThen (runStmts p ss)

def runBlock (p : Program) : Braced NodeId (Stmt NodeId) → Runs Ending
  | ⟨_, stmts⟩ => runStmts p stmts

def runBlock? (p : Program) : Option (Braced NodeId (Stmt NodeId)) → Runs Ending
  | none => return .done
  | some b => runBlock p b

/-- The executions of the bodies of cases from a position on, each of which goes on with the next
one. -/
def runCases (p : Program) : List (Case NodeId (Stmt NodeId)) → Nat → Runs Ending
  | [], _ => return .done
  | ⟨_, _, body⟩ :: cases, 0 => (runStmts p body).andThen (runCases p cases 0)
  | _ :: cases, i + 1 => runCases p cases i

end

mutual

/-- Whether a statement handles exceptions, or one inside it does. -/
def Stmt.attempts {ι : Type} : Stmt ι → Bool
  | .branch _ _ yes no? => attemptsInBlock yes || attemptsInBlock? no?
  | .whileLoop _ _ body | .doLoop _ body _ => attemptsInBlock body
  | .forLoop _ init _ update body =>
    attemptsInStmts init || attemptsInStmts update || attemptsInBlock body
  | .switch _ _ cases => attemptsInCases cases
  | .attempt .. => true
  | .block _ body => attemptsInBlock body
  | _ => false

def attemptsInStmts {ι : Type} : List (Stmt ι) → Bool
  | [] => false
  | s :: ss => s.attempts || attemptsInStmts ss

def attemptsInBlock {ι : Type} : Braced ι (Stmt ι) → Bool
  | ⟨_, stmts⟩ => attemptsInStmts stmts

def attemptsInBlock? {ι : Type} : Option (Braced ι (Stmt ι)) → Bool
  | none => false
  | some b => attemptsInBlock b

def attemptsInCases {ι : Type} : List (Case ι (Stmt ι)) → Bool
  | [] => false
  | ⟨_, _, body⟩ :: cases => attemptsInStmts body || attemptsInCases cases

end

/-- Whether a function handles exceptions. -/
def Function.attempts {ι : Type} (f : Function ι) : Bool := attemptsInBlock? f.body?

/-- The executions of a function that end with a return or at the end of the body, where null is
returned. -/
def Function.runs (p : Program) (f : Function NodeId) : Runs Unit := do
  match ← runBlock? p f.body? with
  | .done => perform [.write f.id]
  | .returned => return
  | .left | .next => stuck

end TypeFlow
