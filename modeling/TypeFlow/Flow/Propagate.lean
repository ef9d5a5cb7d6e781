import TypeFlow.Flow.Build
import TypeFlow.Flow.Replay

/-!
# Propagation of types through a graph

Blocks are replayed, always the first pending one in the order of the graph, and the states that
they send are merged into the states of their successors, which become pending when their state
changes. When no block is pending every block is replayed once more from its final state, and this
time what is found out is recorded.
-/

namespace TypeFlow

/-- A change of the state at the beginning of a block. -/
structure StateChange where
  block : BlockId
  /-- The state before, if the block had been reached. -/
  before? : Option TypeState
  after : TypeState

/-- What is known while blocks are pending. -/
structure Solving where
  /-- The states at the beginnings of the blocks that have been reached. -/
  states : NumMap TypeState := {}
  pending : List BlockId := []
  visits : Nat := 0
  /-- The changes so far, the latest first. -/
  changes : List StateChange := []
  replay : Replay

/-- What is found out about one root. -/
structure Propagation where
  /-- All that is returned; nothing when control never reaches the end. -/
  returned : Ty := Ty.never
  /-- What is written to variables of modules and classes. -/
  writes : NumMap Ty := {}
  nodeTypes : NumMap Ty := {}
  diagnostics : List Diagnostic := []
  reads : Reads := {}
  changes : List StateChange := []
  visits : Nat := 0
  /-- Whether the root is exempt from propagation. -/
  skipped : Bool := false

namespace Solving

/-- Sets the state of a block, which has to be replayed. -/
def change (s : Solving) (block : BlockId) (before? : Option TypeState) (after : TypeState) :
    Solving :=
  { s with
    states := s.states.insert block after
    pending := if s.pending.contains block then s.pending else block :: s.pending
    changes := ⟨block, before?, after⟩ :: s.changes }

/-- Merges a state into that of a block, with nesting limited to `depth`. -/
def send (depth : Nat) (s : Solving) (edge : BlockId × TypeState) : Solving :=
  match s.states.get? edge.1 with
  | none => s.change edge.1 none edge.2
  | some state =>
    if state.mergeChanges depth edge.2 then
      s.change edge.1 (some state) (state.merge depth edge.2)
    else s

end Solving

namespace Pass

variable (pass : Pass)

/-- Whether nothing is propagated through the root. -/
def isSkipped : Bool := !pass.config.propagateTypes || (pass.program.decl pass.graph.root).isExempt

/-- What is assumed of a root that is exempt: it returns and writes anything. -/
def skipped (pass : Pass) : Propagation :=
  let vars := pass.graph.writtenNonlocals pass.program.toDeclarations
  { returned := Ty.any
    writes := NumMap.ofList (vars.ids.map fun d => (d, Ty.any))
    skipped := true }

/-- The start: the first block is pending. -/
def start : Solving :=
  let (state, s) := pass.seed.run { record := Record.ofConfig pass.config false }
  { states := NumMap.ofList [(Graph.entry, state)]
    pending := [Graph.entry]
    replay := { record := s.record } }

/-- Replays a pending block. -/
def visit (s : Solving) (b : BlockId) : Solving :=
  let s := { s with pending := s.pending.filter fun c => c != b, visits := s.visits + 1 }
  match s.states.get? b with
  | none => s
  | some state =>
    let (edges, replay) := (pass.replay b state).run s.replay
    edges.foldl (Solving.send pass.config.wideningDepth) { s with replay }

/-- Replays pending blocks in the given order until none is left, at most `n` times. -/
def solveWithin (pass : Pass) (order : List BlockId) : Nat → Solving → Except AnalysisError Solving
  | n, s =>
    match order.find? s.pending.contains with
    | none => .ok s
    | some b =>
      match n with
      | 0 => .error (.blockVisitLimit pass.graph.root (s.visits + 1))
      | n + 1 => pass.solveWithin order n (pass.visit s b)

/-- The final states of all blocks. -/
def solve : Except AnalysisError Solving :=
  pass.solveWithin pass.graph.order pass.config.maxBlockVisits pass.start

/-- Replays a block from its final state. -/
def recordBlock (states : NumMap TypeState) (b : BlockId) : Replaying Unit :=
  match states.get? b with
  | some state => do
    let _ ← pass.replay b state
  | none => pure ()

/-- Replays all blocks from their final states and records what is found out. -/
def recorded (s : Solving) : Replay :=
  let opening := { s.replay with record := { s.replay.record with recording := true } }
  ((pass.graph.order.forM (pass.recordBlock s.states)).run opening).2

/-- Propagates types through the graph of a root. -/
def propagate : Except AnalysisError Propagation := do
  if pass.isSkipped then return pass.skipped
  else
    let s ← pass.solve
    let replay := pass.recorded s
    return { returned := replay.returned
             writes := replay.writes
             nodeTypes := replay.record.nodeTypes
             diagnostics := replay.record.diagnostics
             reads := replay.record.reads
             changes := s.changes.reverse
             visits := s.visits }

end Pass

end TypeFlow
