import TypeFlow.Flow.Event
import TypeFlow.Flow.Identity
import TypeFlow.NumMap

/-!
# Control-flow graphs

One graph belongs to each module, class and function that is analysed. The graph of a function holds
its parameters and its body, the graph of a module or class the first values of its variables.
-/

namespace TypeFlow

/-- A run of events without branches inside. -/
structure FlowBlock where
  events : List Event := []
  /-- Where control goes at the end, or when the condition at the end is false. -/
  next? : Option BlockId := none
  /-- Where control goes when the condition at the end is true. -/
  taken? : Option BlockId := none
  /-- Where exceptions go. -/
  exception? : Option BlockId := none
  predecessors : List BlockId := []

instance : Inhabited FlowBlock := ⟨{}⟩

namespace FlowBlock

/-- The blocks to which control may go. -/
def successors (b : FlowBlock) : List BlockId :=
  b.taken?.toList ++ b.next?.toList ++ b.exception?.toList

/-- The node of the condition at the end. -/
def testNode? (b : FlowBlock) : Option NodeId :=
  match b.events.getLast? with
  | some (.test node _) => some node
  | _ => none

end FlowBlock

/-- The control-flow graph of one root. -/
structure Graph where
  root : DeclId
  blocks : Array FlowBlock
  identities : Identities
  /-- The identities of tracked expressions and declarations, by node. -/
  nodeKeys : NumMap Key
  calls : NumMap CallSite
  params : List (Key × DeclId)
  /-- The identities of variables of modules and classes that occur, in order of appearance. -/
  nonlocals : List Key

namespace Graph

/-- The block where control starts. -/
def entry : BlockId := 0

/-- The block to which every return leads. -/
def exit : BlockId := 1

/-- The key of the result. -/
def resultKey : Key := 0

/-- The block with a number. -/
def block (g : Graph) (b : BlockId) : FlowBlock := g.blocks.getD b default

/-- The blocks that can be reached, each before those that come after it unless they form a loop. -/
def order (g : Graph) : List BlockId :=
  reversePostorder (fun b => (g.block b).successors) g.blocks.size entry

/-- The variables of modules and classes that the graph writes. -/
def writtenNonlocals (g : Graph) (ds : Declarations) : DeclSet :=
  DeclSet.ofList <| g.blocks.toList.flatMap fun b => b.events.flatMap fun
    | .write _ key _ => g.identities.nonlocalVars ds key
    | _ => []

end Graph

end TypeFlow
