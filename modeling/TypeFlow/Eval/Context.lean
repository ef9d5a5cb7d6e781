import TypeFlow.Diagnostic
import TypeFlow.Facts
import TypeFlow.Program.Basic
import TypeFlow.Ty.Overlap
import TypeFlow.Ty.Print

/-!
# What evaluation depends on and what it leaves behind

An evaluation sees the program, the settings, the program-wide facts and the root that is analysed.
It leaves behind the types of nodes and the findings, both only while it records, and the facts that
it has read.
-/

namespace TypeFlow

/-- What all evaluations of one run share. -/
structure Context where
  program : Program
  config : Config
  facts : Facts
  /-- The module, class or function that is analysed. -/
  root : DeclId

/-- What evaluations leave behind. -/
structure Record where
  /-- Whether types of nodes and findings are kept. -/
  recording : Bool := false
  severity? : Option Severity := none
  nodeTypes : NumMap Ty := {}
  diagnostics : List Diagnostic := []
  reads : Reads := {}

namespace Record

/-- An empty record that reports as the settings say. -/
def ofConfig (config : Config) (recording : Bool) : Record :=
  { recording, severity? := Severity.ofLevel? config.checkTypes }

/-- Adds to the type of a node. -/
def node (r : Record) (n : NodeId) (t : Ty) : Record :=
  if r.recording then
    { r with nodeTypes := r.nodeTypes.insert n (((r.nodeTypes.get? n).getD Ty.never).union t) }
  else r

/-- Adds a finding. -/
def diagnose (r : Record) (node : NodeId) (message : String) : Record :=
  match r.severity? with
  | some severity =>
    if r.recording then { r with diagnostics := r.diagnostics ++ [⟨node, message, severity⟩] }
    else r
  | none => r

/-- Notes that a fact was read. -/
def note (r : Record) (d : DeclId) (t : Ty) : Record := { r with reads := r.reads.note d t }

end Record

/-- A state of evaluation: what is left behind so far, and what the expression at hand has done. -/
structure Evaluation where
  record : Record
  sideEffects : Bool := false
  mayThrow : Bool := false
  /-- Narrower or wider types of parts of the expression that hold after it. -/
  refinements : List (NodeId × Ty) := []
  /-- The functions that each call may reach, unless that is unknown. -/
  calls : List (NodeId × Option DeclSet) := []

/-- A step of an evaluation. -/
abbrev Evaluating := StateM Evaluation

namespace Evaluating

/-- Adds to the type of a node. -/
def node (n : NodeId) (t : Ty) : Evaluating Unit :=
  modify fun s => { s with record := s.record.node n t }

/-- Adds a finding. -/
def diagnose (n : NodeId) (message : String) : Evaluating Unit :=
  modify fun s => { s with record := s.record.diagnose n message }

/-- Notes that a fact was read. -/
def note (d : DeclId) (t : Ty) : Evaluating Unit :=
  modify fun s => { s with record := s.record.note d t }

/-- Notes that the evaluation may throw. -/
def mayThrowIf (b : Bool) : Evaluating Unit :=
  modify fun s => { s with mayThrow := s.mayThrow || b }

/-- Adds a refinement. -/
def refine (n : NodeId) (t : Ty) : Evaluating Unit :=
  modify fun s => { s with refinements := s.refinements ++ [(n, t)] }

/-- Adds a call. -/
def addCall (n : NodeId) (callees? : Option DeclSet) : Evaluating Unit :=
  modify fun s =>
    { s with sideEffects := true, mayThrow := true, calls := s.calls ++ [(n, callees?)] }

end Evaluating

/-- The type of a written value. -/
def Literal.ty : Literal → Ty
  | null => Ty.null
  | bool b => Ty.bool b
  | number n => Ty.number n
  | long n => Ty.long n
  | float x => Ty.float x
  | double x => Ty.double x
  | char c => Ty.char c
  | string s => Ty.string s

namespace Context

/-- What types know about the declarations. -/
def table (ctx : Context) : DeclTable := ctx.program.table

variable (ctx : Context)

/-- Printed form of a type. -/
def printed (t : Ty) : String := t.text ctx.table

/-- The type of a variable of a module or class. A variable without a declared type, and a constant,
has the type that was inferred for it, and none at all as long as there is no such fact. -/
def varType (d : DeclId) : Evaluating Ty := do
  let decl := ctx.program.decl d
  let inferred? := if decl.isConst || decl.spec?.isNone then ctx.facts.vars.get? d else none
  match inferred? with
  | some t =>
    Evaluating.note d t
    return t
  | none =>
    match ctx.program.declaredType? d with
    | some t => return t
    | none =>
      Evaluating.note d Ty.never
      return Ty.never

/-- The type of an enumeration member. -/
def enumMemberType (d : DeclId) : Ty :=
  let value := (ctx.program.enumValues.get? d).getD (Ty.ofTags (Tags.single .number))
  match (ctx.program.decl d).parent? with
  | some owner =>
    if (ctx.program.decl owner).kind = .enum then Ty.enumeration (some owner) (some value)
    else value
  | none => value

/-- The type of a reference to a declaration about which nothing is tracked. -/
def valueType (d : DeclId) : Evaluating Ty :=
  match (ctx.program.decl d).kind with
  | .var => ctx.varType d
  | .param | .localVar => pure ((ctx.program.declaredType? d).getD Ty.any)
  | .function => pure (Ty.exact (.function (DeclSet.one d)))
  | .cls => pure (Ty.exact (.cls (DeclSet.one d)))
  | .module => pure (Ty.exact (.module (DeclSet.one d)))
  | .enumMember => pure (ctx.enumMemberType d)
  | .enum | .synonym => pure Ty.any

/-- The union of the types of references to declarations. -/
def valueTypes : List DeclId → Evaluating Ty
  | ds => ds.foldlM (fun acc d => do return acc.union (← ctx.valueType d)) Ty.never

/-- The type of a function's result: the declared one, or else the inferred one, which is empty
before the body has been analysed. Nothing is known about a function without a body. -/
def returnType (d : DeclId) : Evaluating Ty := do
  match ctx.program.declaredType? d with
  | some t => return t
  | none =>
    if ctx.program.hasBody d then
      let t := (ctx.facts.returns.get? d).getD Ty.never
      Evaluating.note d t
      return t
    else return Ty.any

/-- The type of `self` in the root. -/
def selfType : Ty :=
  match ctx.program.enclosingClass? ctx.root with
  | some c => Ty.object (DeclSet.one c)
  | none => Ty.exact (.module (DeclSet.one (ctx.program.enclosingScope ctx.root)))

/-- Whether a value may go where a type is declared. -/
def accepts (value declared : Ty) : Bool :=
  value.isNever || (if ctx.config.strict then value.subtype ctx.table declared
     else value.overlap ctx.table declared)

end Context

end TypeFlow
