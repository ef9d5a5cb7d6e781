import TypeFlow.Flow.Graph

/-!
# What functions may write

The effect of a function is the set of variables of modules and classes that it may write, itself or
through the functions that it calls. A call that cannot be resolved may write anything. Functions
that call each other have the same effect, so effects are found for one strongly connected component
of the call graph after the other.
-/

namespace TypeFlow

/-- What a function may write. -/
inductive Effect where
  | anything
  | only (vars : DeclSet)
  deriving DecidableEq

/-- Two effects together. What may write anything absorbs the other one. -/
def Effect.join : Effect → Effect → Effect
  | only vars, only vars' => only (vars.union vars')
  | _, _ => anything

/-- Whether a variable may be written. -/
def Effect.mayWrite : Effect → DeclId → Bool
  | anything, _ => true
  | only vars, d => vars.contains d

/-- The effects of functions; those without an entry write nothing. -/
abbrev Effects := NumMap Effect

namespace Effects

/-- The functions of the program that a graph calls. -/
def calleesIn (ds : Declarations) (g : Graph) : List DeclId :=
  g.calls.entries.flatMap fun (_, site) =>
    match site.callees with
    | .known functions => functions.ids.filter fun d => !ds.isLibrary d
    | _ => []

/-- Whether a graph has a call that cannot be resolved. -/
def hasUnknownCall (g : Graph) : Bool :=
  g.calls.entries.any fun (_, site) => site.callees = .unknown

/-- The call graph of some functions, with what each of them does itself. -/
structure CallGraph where
  /-- The functions with graphs and those that they call. -/
  functions : DeclSet
  calls : NumMap (List DeclId)
  /-- What the graph of a function writes. -/
  direct : NumMap DeclSet
  /-- The functions with a call that cannot be resolved. -/
  unresolved : List DeclId

namespace CallGraph

/-- The call graph that is spanned by the graphs of some functions. -/
def ofGraphs (ds : Declarations) (graphs : List Graph) : CallGraph where
  functions := .ofList (graphs.flatMap fun g => g.root :: calleesIn ds g)
  calls := graphs.foldl (fun m g => m.insertWith (· ++ ·) g.root (calleesIn ds g)) {}
  direct := .ofList (graphs.map fun g => (g.root, g.writtenNonlocals ds))
  unresolved := (graphs.filter hasUnknownCall).map Graph.root

variable (calls : CallGraph)

/-- What a function does itself. -/
def own (f : DeclId) : Effect :=
  if calls.unresolved.contains f then .anything
  else .only ((calls.direct.get? f).getD .empty)

/-- The functions that a function calls. -/
def callees (f : DeclId) : List DeclId := (calls.calls.get? f).getD []

/-- The functions that each function reaches by calls. -/
def reached : NumMap (List DeclId) :=
  .ofList (calls.functions.ids.map fun f => (f, reversePostorder calls.callees calls.calls.size f))

/-- The functions of `functions` that a function reaches and that reach it. -/
def componentOf (functions : List DeclId) (reach : DeclId → List DeclId) (f : DeclId) :
    List DeclId :=
  functions.filter fun g => (reach f).contains g && (reach g).contains f

/-- The strongly connected components of some functions, callees first. A function reaches more
functions than one that it calls does, unless that one calls it back. So components are listed by
the number of functions that are reached, each of them at its first function. -/
def componentsBy (functions : List DeclId) (reach : DeclId → List DeclId) : List (List DeclId) :=
  (List.range (functions.length + 1)).flatMap fun n =>
    (functions.filter fun f =>
      (reach f).length = n && (componentOf functions reach f).head? = some f).map
        (componentOf functions reach)

/-- The strongly connected components of a call graph. -/
def components : List (List DeclId) :=
  let reached := calls.reached
  componentsBy calls.functions.ids fun f => (reached.get? f).getD []

end CallGraph

/-- Adds to an effect that of a function, if it has one. -/
def joinEffectOf (effects : Effects) (effect : Effect) (f : DeclId) : Effect :=
  match effects.get? f with
  | some e => effect.join e
  | none => effect

/-- Adds to an effect what a function of a component does and what those functions do that it calls
outside of the component. -/
def joinFunction (calls : CallGraph) (effects : Effects) (component : List DeclId)
    (effect : Effect) (f : DeclId) : Effect :=
  (calls.callees f).foldl (fun effect g =>
    if component.contains g then effect else effects.joinEffectOf effect g)
    (effect.join (calls.own f))

/-- Enters the common effect of the functions of a component. -/
def addComponent (calls : CallGraph) (effects : Effects) (component : List DeclId) : Effects :=
  let effect := component.foldl (joinFunction calls effects component) (.only .empty)
  component.foldl (fun effects f => effects.insert f effect) effects

/-- The effects of all functions, component by component. -/
def ofComponents (calls : CallGraph) (components : List (List DeclId)) : Effects :=
  components.foldl (addComponent calls) {}

/-- The effects of the functions with the given graphs and of those that they call. -/
def ofGraphs (ds : Declarations) (graphs : List Graph) : Effects :=
  let calls := CallGraph.ofGraphs ds graphs
  ofComponents calls calls.components

/-- Whether a call of a function may write a variable. -/
def mayWrite (effects : Effects) (function var : DeclId) : Bool :=
  match effects.get? function with
  | some effect => effect.mayWrite var
  | none => false

/-- Whether a call of a function may write anything. -/
def isUnbounded (effects : Effects) (function : DeclId) : Bool :=
  effects.get? function = some .anything

end Effects

end TypeFlow
