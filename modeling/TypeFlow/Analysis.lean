import TypeFlow.Flow.Propagate

/-!
# Analysis of whole programs

Every module, class and function with a body is a root of its own. Roots publish facts that other
roots read: the types of variables without a declared type, and the types of results of functions
without one. When a fact grows, the roots that have read it run again, until nothing grows any more.
-/

namespace TypeFlow

/-- The roots that have read a fact and what they have read of it. They are the edges of a graph
from facts to roots, and those of one fact are assumed to be kept in the order in which they are
added: that of the first reads. -/
abbrev Readers := List (DeclId × ReadKind)

/-- Adds a reader, or adds to what it has read. -/
def Readers.add (reader : DeclId) (kind : ReadKind) : Readers → Readers
  | [] => [(reader, kind)]
  | (r, k) :: readers =>
    if r = reader then (r, k.max kind) :: readers else (r, k) :: Readers.add reader kind readers

/-- What an analysis finds out about a program. -/
structure Analysis where
  nodeTypes : NumMap Ty := {}
  diagnostics : List Diagnostic := []
  /-- The declared or inferred types of the results of functions with a body. -/
  returns : NumMap Ty := {}
  /-- The inferred types of variables of modules and classes. -/
  vars : NumMap Ty := {}
  /-- The roots that have read each fact. -/
  readers : NumMap Readers := {}
  rootRuns : Nat := 0
  /-- Whether declared types are not trusted, so that nothing is found out. -/
  disabled : Bool := false

/-- The type of a node, which is anything when nothing is found out. -/
def Analysis.typeOf? (a : Analysis) (node : NodeId) : Option Ty :=
  if a.disabled then some Ty.any else a.nodeTypes.get? node

/-- What stays the same while roots run. -/
structure Analyzer where
  program : Program
  config : Config
  /-- The graphs of all roots in the order of their first runs. -/
  graphs : List Graph
  effects : Effects

/-- What is known while roots are waiting to run. -/
structure Progress where
  facts : Facts := {}
  readers : NumMap Readers := {}
  waiting : List DeclId
  runs : Nat := 0
  /-- The result of the last run of each root. -/
  results : NumMap Propagation := {}

namespace Program

/-- The roots of a program in the order of their first runs: modules, then classes, then functions,
and outer ones before inner ones. -/
def schedule (p : Program) : List DeclId :=
  [DeclKind.module, .cls, .function].flatMap fun kind =>
    p.roots.filter fun d => (p.decl d).kind = kind

/-- Whether the type of a variable is inferred. -/
def isInferred (p : Program) (d : DeclId) : Bool := (p.decl d).spec?.isNone || (p.decl d).isConst

end Program

namespace Progress

/-- Notes what a run of a root has read. -/
def noteReads (s : Progress) (root : DeclId) (reads : Reads) : Progress :=
  let note (readers : NumMap Readers) (read : DeclId × ReadKind) : NumMap Readers :=
    readers.insert read.1 (Readers.add root read.2 ((readers.get? read.1).getD []))
  { s with readers := reads.entries.foldl note s.readers }

/-- Lets the readers of a fact that has grown wait, those that do not yet wait at the end. -/
def requeue (s : Progress) (fact : DeclId) (growth : Growth) : Progress :=
  let affected := ((s.readers.get? fact).getD []).filter fun r => growth.affects r.2
  let enqueue (waiting : List DeclId) (reader : DeclId × ReadKind) : List DeclId :=
    if waiting.contains reader.1 then waiting else waiting ++ [reader.1]
  { s with waiting := affected.foldl enqueue s.waiting }

end Progress

namespace Analyzer

/-- The analysis of a program with its graphs. -/
def ofProgram (p : Program) (config : Config) : Except IdentityError Analyzer := do
  let graphs ← p.schedule.mapM p.graph
  return { program := p, config, graphs, effects := Effects.ofGraphs p.toDeclarations graphs }

variable (a : Analyzer) (facts : Facts)

/-- The run of a root with the present facts. -/
def pass (graph : Graph) : Pass :=
  { program := a.program, config := a.config, facts, effects := a.effects, graph }

/-- The facts with what a run has written, and which of them have grown, the latest first. -/
def publishWrites (writes : List (DeclId × Ty)) : Facts × List (DeclId × Growth) :=
  (writes.filter fun w => a.program.isInferred w.1).foldl (fun (facts, grown) (d, t) =>
    let (facts, growth) := facts.growVar a.program.table a.config.wideningDepth d t
    (facts, (d, growth) :: grown)) (facts, [])

/-- The facts with what a run of a root has found out, and how they have grown. -/
def publish (root : DeclId) (result : Propagation) : Facts × List (DeclId × Growth) :=
  let (facts, grown) := a.publishWrites facts result.writes.entries
  let decl := a.program.decl root
  if decl.kind = .function && decl.spec?.isNone then
    let (facts, growth) :=
      facts.growReturn a.program.table a.config.wideningDepth root result.returned
    (facts, ((root, growth) :: grown).reverse)
  else (facts, grown.reverse)

/-- Notes the result of a run of a root and lets the readers of what has grown wait. -/
def finishRun (s : Progress) (root : DeclId) (result : Propagation) : Progress :=
  let s := s.noteReads root result.reads
  let (facts, grown) := a.publish s.facts root result
  let s := { s with facts, results := s.results.insert root result }
  grown.foldl (fun s (fact, growth) => s.requeue fact growth) s

/-- Runs the root that has waited longest. -/
def step (s : Progress) (root : DeclId) (rest : List DeclId) :
    Except AnalysisError Progress := do
  let s := { s with waiting := rest, runs := s.runs + 1 }
  match a.graphs.find? fun g => g.root = root with
  | none => return s
  | some graph => return a.finishRun s root (← (a.pass s.facts graph).propagate)

/-- Runs waiting roots until none is left, at most `n` times. -/
def runWithin (a : Analyzer) : Nat → Progress → Except AnalysisError Progress
  | n, s =>
    match s.waiting with
    | [] => .ok s
    | root :: rest =>
      match n with
      | 0 => .error (.rootRunLimit (s.runs + 1))
      | n + 1 => do a.runWithin n (← a.step s root rest)

/-- Runs all roots until no fact grows any more. -/
def run : Except AnalysisError Progress :=
  a.runWithin a.config.maxRootRuns { waiting := a.graphs.map Graph.root }

/-- The declared or inferred type of the result of a function. -/
def resultType (d : DeclId) : Ty :=
  ((a.program.declaredType? d).or (facts.returns.get? d)).getD Ty.never

/-- Puts the results of all roots together. -/
def collect (s : Progress) : Analysis :=
  let roots := a.graphs.map Graph.root
  let results := roots.filterMap s.results.get?
  let functions := roots.filter fun d => (a.program.decl d).kind = .function
  { nodeTypes := NumMap.ofList (results.flatMap fun r => r.nodeTypes.entries)
    diagnostics := results.flatMap Propagation.diagnostics
    returns := NumMap.ofList (functions.map fun d => (d, a.resultType s.facts d))
    vars := s.facts.vars
    readers := s.readers
    rootRuns := s.runs }

end Analyzer

/-- Analyses a program. When declared types are not trusted nothing is found out. -/
def Program.analyze (p : Program) (config : Config) : Except AnalysisError Analysis :=
  if config.trustDeclaredTypes then do
    let a ← (Analyzer.ofProgram p config).mapError AnalysisError.identity
    return a.collect (← a.run)
  else .ok { disabled := true }

end TypeFlow
