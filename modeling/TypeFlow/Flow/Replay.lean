import TypeFlow.Eval.Expr
import TypeFlow.Flow.Effects
import TypeFlow.Flow.State

/-!
# Replaying the events of a block

A replay starts from the state at the beginning of a block, goes through its events, and ends with
the states that the block sends to its successors. Conditions narrow the types of what they test,
and an edge that no value can take is left out.
-/

namespace TypeFlow

/-- What a pass over the graph of one root depends on. -/
structure Pass where
  program : Program
  config : Config
  facts : Facts
  effects : Effects
  graph : Graph

/-- What replays leave behind. -/
structure Replay where
  record : Record
  /-- The results that are returned, while recording. -/
  returned : Ty := Ty.never
  /-- The values written to variables of modules and classes, while recording. -/
  writes : NumMap Ty := {}

/-- A step of a replay. -/
abbrev Replaying := StateM Replay

/-- The states that a block sends to its successors. -/
abbrev Edges := List (BlockId × TypeState)

namespace Replaying

/-- A step of an evaluation as a step of a replay, of which only the record matters. -/
def ofEvaluating {α : Type} (work : Evaluating α) : Replaying α := do
  let r ← get
  let (a, s) := work.run { record := r.record }
  set { r with record := s.record }
  return a

/-- Whether types and findings are kept. -/
def isRecording : Replaying Bool := do return (← get).record.recording

end Replaying

namespace Pass

variable (pass : Pass)

/-- What the evaluations of the pass share. -/
def context : Context :=
  { program := pass.program, config := pass.config, facts := pass.facts, root := pass.graph.root }

/-- What types know about the declarations. -/
def table (pass : Pass) : DeclTable := pass.program.table

/-- The declared or inferred type of an identity. -/
def initialType (key : Key) : Evaluating (Option Ty) :=
  match pass.graph.identities.get key with
  | .decl d => do return some (← pass.context.valueType d)
  | .set ds => do return some (← pass.context.valueTypes ds.ids)
  | _ => pure none

variable (state : TypeState)

/-- Adds the declared or inferred type of an identity to a state. -/
def addInitial (key : Key) : Evaluating TypeState := do
  match ← pass.initialType key with
  | some t => return state.insert key t
  | none => return state

/-- The state at the beginning of the graph. -/
def seed : Evaluating TypeState :=
  let params := pass.graph.params.foldl (fun (state : TypeState) (key, d) =>
    state.insert key ((pass.program.declaredType? d).getD Ty.any)) {}
  pass.graph.nonlocals.foldlM pass.addInitial params

/-! ### Evaluation -/

/-- The types that a state gives to expressions. -/
def env : TypeEnv := fun node => (pass.graph.nodeKeys.get? node).bind state.get?

/-- Evaluates an expression. -/
def evaluate (pass : Pass) (state : TypeState) (e : Expr NodeId) : Replaying Evaluated := do
  let r ← get
  let (out, record) := pass.context.evaluate (pass.env state) r.record e
  set { r with record }
  return out

/-- Evaluates an expression that is also recorded elsewhere: only what it reads is kept. -/
def peek (e : Expr NodeId) : Replaying Evaluated := do
  let r ← get
  let scratch := Record.ofConfig pass.config false
  let (out, scratch) := pass.context.evaluate (pass.env state) scratch e
  set { r with record := { r.record with reads := r.record.reads.merge scratch.reads } }
  return out

variable (node : NodeId)

/-- The functions of the program that a call may reach, by what is known about the called value or
else about the call itself; `none` when it may reach anything. -/
def callTargets? (callees? : Option DeclSet) : Option (List DeclId) :=
  let ofSet (functions : DeclSet) := functions.ids.filter fun d => !pass.program.isLibrary d
  match callees? with
  | some functions => some (ofSet functions)
  | none =>
    match (pass.graph.calls.get? node).map CallSite.callees with
    | some (.known functions) => some (ofSet functions)
    | some .library => some []
    | _ => none

/-- Whether a call of one of the functions, or of anything, may write a variable. -/
def mayWrite (pass : Pass) (targets? : Option (List DeclId)) (var : DeclId) : Bool :=
  match targets? with
  | none => true
  | some targets => targets.any fun f => pass.effects.mayWrite f var

/-- Whether the type of an identity still holds after a call. Every member may have been written. -/
def survives (targets? : Option (List DeclId)) (key : Key) : Bool :=
  let ids := pass.graph.identities
  !ids.isMember key &&
    !(ids.nonlocalVars pass.program.toDeclarations key).any (pass.mayWrite targets?)

/-- The state after a call: what it may write is forgotten, and what it is given may have got other
elements. Calls that reach the library only change nothing. -/
def afterCall (call : NodeId × Option DeclSet) : TypeState :=
  match pass.callTargets? call.1 call.2 with
  | some [] => state
  | targets? =>
    let kept := state.filter fun key _ => pass.survives targets? key
    match pass.graph.calls.get? call.1 with
    | some site => site.args.foldl (TypeState.widenAt 0) kept
    | none => kept

/-- The state after a refinement. -/
def refined (refinement : NodeId × Ty) : TypeState :=
  match pass.graph.nodeKeys.get? refinement.1 with
  | some key => state.insert key refinement.2
  | none => state

/-- The state after an evaluation: first its refinements, then its calls. -/
def after (out : Evaluated) : TypeState :=
  out.calls.foldl pass.afterCall (out.refinements.foldl pass.refined state)

/-- The type of an expression, and the state after it. -/
def run (e : Expr NodeId) : Replaying (Ty × TypeState) := do
  let out ← pass.evaluate state e
  return (out.ty, pass.after state out)

/-! ### Writes -/

/-- The type of an exception that a handler takes. -/
def caughtType (cls? : Option (Path NodeId)) : Ty :=
  let found := (cls?.map fun path => pass.program.lookup path.id).getD []
  match found.filter fun d => (pass.program.decl d).kind = .cls with
  | [] => Ty.any
  | classes => Ty.unionAll (classes.map pass.program.instanceType)

/-- The type of a written value, and the state after its evaluation. -/
def writtenType : Written → Replaying (Ty × TypeState)
  | .value e => pass.run state e
  | .compound op target value => do
    let (t, state) ← pass.run state target
    let (v, state) ← pass.run state value
    return (Ty.binary pass.table op t v, state)
  | .absent => return (Ty.null, state)
  | .caught cls? => do
    let t := pass.caughtType cls?
    Replaying.ofEvaluating (Evaluating.node node t)
    return (t, state)
  | .element container position value => do
    let (c, state) ← pass.run state container
    let (i, state) ← pass.run state position
    let (v, state) ← pass.run state value
    return (Ty.storeElement pass.table c i v, state)
  | .returned (some e) => pass.run state e
  | .returned none => return (Ty.null, state)

/-- The type that is declared for an identity, and the finding about a value that does not suit
it. -/
def expectation? (key : Key) (value : Ty) : Option (Ty × String) :=
  let ctx := pass.context
  match pass.graph.identities.get key with
  | .result => do
    let declared ← pass.program.declaredType? pass.graph.root
    return (declared, "Expected " ++ pass.program.displayName pass.graph.root ++ " to return " ++
      ctx.printed declared ++ " but got " ++ ctx.printed value)
  | .decl d => do
    let declared ← pass.program.declaredType? d
    return (declared, "Invalid assignment of " ++ ctx.printed value ++ " to " ++
      (pass.program.decl d).name ++ " declared as " ++ ctx.printed declared)
  | _ => none

/-- Checks a written value against the declared type, and gives the type that is kept. -/
def checkedType (key : Key) (value : Ty) : Evaluating Ty := do
  match pass.expectation? key value with
  | none => return value
  | some (declared, message) =>
    if pass.context.accepts value declared then
      let narrowed := value.meet pass.table declared
      return if narrowed.isNever && !value.isNever then declared else narrowed
    else
      Evaluating.diagnose node message
      return declared

/-- The type that a write leaves behind. Variables without a first value are written later, so they
are not checked. -/
def keptType (key : Key) (source : Written) (value : Ty) :
    Replaying Ty :=
  match source with
  | .absent => pure value
  | _ => Replaying.ofEvaluating (pass.checkedType node key value)

/-- Notes the value of a write while recording. -/
def noteWrite (key : Key) (t : Ty) : Replaying Unit := do
  if ← Replaying.isRecording then
    if key = Graph.resultKey then
      modify fun r => { r with returned := r.returned.union t }
    else
      let vars := pass.graph.identities.nonlocalVars pass.program.toDeclarations key
      modify fun r => { r with writes := vars.foldl (fun writes d =>
        writes.insert d (((writes.get? d).getD Ty.never).union t)) r.writes }

/-- The state after a write, which makes the types of members of what is written obsolete. -/
def write (key : Key) (source : Written) :
    Replaying TypeState := do
  let (value, state) ← pass.writtenType state node source
  let t ← pass.keptType node key source value
  let kept := state.filter fun k _ => !pass.graph.identities.isObsolete k key
  pass.noteWrite key t
  return if key = Graph.resultKey then kept else kept.insert key t

/-! ### Conditions -/

/-- The state in which an identity has a narrowed type; `none` when no value is left. -/
def narrow (key? : Option Key) (current narrowed : Ty) (state : TypeState) :
    Option TypeState :=
  match key?.filter pass.graph.identities.isTracked with
  | none => some state
  | some key =>
    if current.isNever then some state
    else if narrowed.isNever then none
    else some (state.insert key narrowed)

/-- The states of the two outcomes of a condition, the true one first; `none` for an outcome that is
impossible. -/
def outcomes (test : Ty) (edge : Bool → Option TypeState) : Option TypeState × Option TypeState :=
  let possible (outcome : Bool) : Option TypeState :=
    if test.truthiness = some (!outcome) then none else edge outcome
  (possible true, possible false)

/-- The state after two values have been found equal or different. -/
def equalsEdge (leftKey? rightKey? : Option Key) (l r : Ty) (same : Bool) : Option TypeState :=
  let restrict := if same then Ty.narrowEq pass.table else Ty.narrowNe pass.table
  (pass.narrow leftKey? l (restrict r l) state).bind (pass.narrow rightKey? r (restrict l r))

/-- The parts of a type that are not below another one. -/
def partsNotBelow (value target : Ty) : Ty :=
  Ty.unionAll <| (value.tags.toList.map value.part).filter fun part =>
    !part.subtype pass.table target

/-- The state after a value has been found to be, or not to be, an instance. -/
def instanceEdge (key? : Option Key) (value target : Ty) (outcome : Bool) : Option TypeState :=
  if target.isNever then some state
  else
    let narrowed :=
      if outcome then value.meet pass.table target else pass.partsNotBelow value target
    pass.narrow key? value narrowed state

/-- The states of the two outcomes of a condition. -/
def branch : Condition → Replaying (Option TypeState × Option TypeState)
  | .equals (some whole) left right equal leftKey? rightKey? => do
    let out ← pass.evaluate state whole
    let l ← pass.peek state left
    let r ← pass.peek state right
    let state := pass.after state out
    return outcomes out.ty fun outcome =>
      pass.equalsEdge state leftKey? rightKey? l.ty r.ty (outcome == equal)
  | .equals none left right equal leftKey? rightKey? => do
    let l ← pass.peek state left
    let (r, state) ← pass.run (pass.after state l) right
    let test := Ty.binary pass.table (if equal then .eq else .ne) l.ty r
    return outcomes test fun outcome =>
      pass.equalsEdge state leftKey? rightKey? l.ty r (outcome == equal)
  | .truthy e key? => do
    let (t, state) ← pass.run state e
    return outcomes t fun outcome => pass.narrow key? t (Ty.narrowTruth pass.table outcome t) state
  | .instanceOf whole e classes key? => do
    let out ← pass.evaluate state whole
    let value ← pass.peek state e
    let state := pass.after state out
    let target := Ty.unionAll (classes.map pass.program.instanceType)
    return outcomes out.ty (pass.instanceEdge state key? value.ty target)
  | .dispatch => return (some state, some state)

/-! ### Blocks -/

/-- The edge to a block, if there is one that can be taken. -/
def edge (target? : Option BlockId) (state? : Option TypeState) : Edges :=
  match target?, state? with
  | some target, some state => [(target, state)]
  | _, _ => []

/-- The state after a read, which records the type of its node. -/
def read (key : Key) : Evaluating TypeState := do
  let state ← if state.contains key then pure state else pass.addInitial state key
  match state.get? key with
  | some t => Evaluating.node node t
  | none => pure ()
  return state

/-- Replays events of a block. -/
def replayEvents (pass : Pass) (b : FlowBlock) : TypeState → List Event → Replaying Edges
  | state, [] => return edge b.next? (some state)
  | state, .read node key :: events => do
    let state ← Replaying.ofEvaluating (pass.read state node key)
    pass.replayEvents b state events
  | state, .write node key source :: events => do
    let state ← pass.write state node key source
    pass.replayEvents b state events
  | state, .run _ e :: events => do
    let (_, state) ← pass.run state e
    pass.replayEvents b state events
  | state, .forget key :: events => pass.replayEvents b (state.erase key) events
  | state, .mayThrow _ :: events => do
    return edge b.exception? (some state) ++ (← pass.replayEvents b state events)
  | state, .test _ condition :: _ => do
    let (taken?, next?) ← pass.branch state condition
    return edge b.taken? taken? ++ edge b.next? next?

/-- Replays a block from the state at its beginning. -/
def replay (b : BlockId) (state : TypeState) : Replaying Edges :=
  pass.replayEvents (pass.graph.block b) state (pass.graph.block b).events

end Pass

end TypeFlow
