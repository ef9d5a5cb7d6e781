import TypeFlow.Flow.Graph
import TypeFlow.Program.Basic

/-!
# Building control-flow graphs

Statements are laid out from left to right. Every jump leaves the current block for good; statements
after it go into a new block that nothing leads to. Conditions are split at `&&`, `||` and at `!` of
an operand that is a boolean in any case.
-/

namespace TypeFlow

/-- A graph under construction. -/
structure Building where
  graph : Graph
  /-- The block to which events are added. -/
  current : BlockId := Graph.entry
  /-- The block to which exceptions in a block go. -/
  handlerOf : Array (Option BlockId) := #[none, none]
  /-- The variables declared in the innermost scope. -/
  scope : List Key := []

/-- A step of the construction. -/
abbrev Build := StateT Building (Except IdentityError)

/-- Where control goes from inside a loop or switch. -/
structure Jump where
  leave : BlockId
  /-- Absent for a switch, which has no next round. -/
  next? : Option BlockId

/-- What surrounds a statement. -/
structure Surroundings where
  program : Program
  /-- Loops and switches, innermost first. -/
  jumps : List Jump := []
  /-- The block that receives exceptions. -/
  handler? : Option BlockId := none

namespace Build

/-- Changes the graph. -/
def modifyGraph (f : Graph → Graph) : Build Unit := modify fun s => { s with graph := f s.graph }

/-- Changes a block. -/
def modifyBlock (b : BlockId) (f : FlowBlock → FlowBlock) : Build Unit :=
  modifyGraph fun g => { g with blocks := g.blocks.modify b f }

/-- A new block, whose exceptions go to the surrounding handler. -/
def newBlock (around : Surroundings) : Build BlockId := do
  let s ← get
  set { s with
    graph := { s.graph with blocks := s.graph.blocks.push {} }
    handlerOf := s.handlerOf.push around.handler? }
  return s.graph.blocks.size

/-- Continues in a block. -/
def enter (b : BlockId) : Build Unit := modify fun s => { s with current := b }

/-- Adds an event to the current block. -/
def emit (e : Event) : Build Unit := do
  modifyBlock (← get).current fun b => { b with events := b.events ++ [e] }

/-- Notes that control may go from one block to another. -/
def link (source target : BlockId) : Build Unit :=
  modifyBlock target fun b =>
    if b.predecessors.contains source then b
    else { b with predecessors := b.predecessors ++ [source] }

/-- Lets control go on to a block, unless the current block already leads somewhere. -/
def goto (target : BlockId) : Build Unit := do
  let s ← get
  let b := s.graph.block s.current
  if b.next?.isNone && b.taken?.isNone then
    modifyBlock s.current fun b => { b with next? := some target }
    link s.current target

/-- Goes on in a block that nothing leads to. -/
def abandon (around : Surroundings) : Build Unit := do enter (← newBlock around)

/-- Ends the current block with a condition. -/
def branch (node : NodeId) (condition : Condition) (taken next : BlockId) : Build Unit := do
  emit (.test node condition)
  let current := (← get).current
  modifyBlock current fun b => { b with taken? := some taken, next? := some next }
  link current taken
  link current next

/-- Notes that control may go to the handler of the current block, if it has one. -/
def mayThrow (node : NodeId) : Build Unit := do
  let s ← get
  match s.handlerOf.getD s.current none with
  | none => pure ()
  | some handler =>
    emit (.mayThrow node)
    modifyBlock s.current fun b => { b with exception? := some handler }
    link s.current handler

/-- The key of an identity. -/
def intern (i : Identity) : Build Key := do
  let (key, identities) ← (← get).graph.identities.intern i
  modifyGraph fun g => { g with identities }
  return key

/-- Notes the identity of a node. -/
def setNodeKey (node : NodeId) (key : Key) : Build Unit :=
  modifyGraph fun g => { g with nodeKeys := g.nodeKeys.insert node key }

/-- Notes that an identity names variables of modules or classes. -/
def addNonlocal (key : Key) : Build Unit :=
  modifyGraph fun g =>
    if g.nonlocals.contains key then g else { g with nonlocals := g.nonlocals ++ [key] }

/-- Adds a variable to the innermost scope. -/
def declare (key : Key) : Build Unit := modify fun s => { s with scope := s.scope ++ [key] }

/-- Works in a new scope, whose variables are forgotten at its end. -/
def inScope (work : Build Unit) : Build Unit := do
  let outer := (← get).scope
  modify fun s => { s with scope := [] }
  work
  (← get).scope.forM fun key => emit (.forget key)
  modify fun s => { s with scope := outer }

end Build

open Build

/-! ### Names and calls -/

variable (p : Program)

/-- The key of a name that means only variables and parameters. -/
def variableKey? (node : NodeId) : Build (Option Key) := do
  let found := p.lookup node
  let isVariable := found.all fun d =>
    let kind := (p.decl d).kind
    kind = .var || kind.isLocal
  if found.isEmpty || !isVariable then return none
  else return some (← intern (Identities.ofDecls found))

/-- The key of a name, a path of members or a literal. -/
def keyOf? (p : Program) : Expr NodeId → Build (Option Key)
  | .ident id _ => variableKey? p id
  | .member id object property => do
    if !(p.lookup id).isEmpty then variableKey? p id
    else
      match ← keyOf? p object with
      | some base =>
        let identities := (← get).graph.identities
        if identities.isTracked base then
          return some (← intern (identities.memberOf base property))
        else return none
      | none => return none
  | .literal _ value => do return some (← intern (Identities.ofLiteral value))
  | _ => pure none

/-- The key of an expression whose type is tracked, which is noted for its node. -/
def trackedKey? (e : Expr NodeId) : Build (Option Key) := do
  match ← keyOf? p e with
  | none => return none
  | some key =>
    let identities := (← get).graph.identities
    if identities.isTracked key then
      setNodeKey e.id key
      if identities.isNonlocal p.toDeclarations key then addNonlocal key
      return some key
    else return none

/-- Adds the reading of a tracked expression. -/
def readOf (e : Expr NodeId) : Build (Option Key) := do
  let key? ← trackedKey? p e
  match key? with
  | some key => emit (.read e.id key)
  | none => pure ()
  return key?

/-- The functions that a call of a name may reach. -/
def calleesOf (found : List DeclId) : Callees :=
  if found.isEmpty || !found.all fun d => (p.decl d).kind = .function then .unknown
  else if found.all fun d => p.isLibrary d then .library
  else .known (DeclSet.ofList found)

/-- The functions that the construction of an object may reach. -/
def initializersOf (found : List DeclId) : Callees :=
  if found.isEmpty || !found.all fun d => (p.decl d).kind = .cls then .unknown
  else if found.all fun d => p.isLibrary d then .library
  else
    let constructors := found.flatMap fun c => p.scopeMember c "initialize"
    .known (DeclSet.ofList (constructors.filter fun d => (p.decl d).kind = .function))

/-- Notes a call. -/
def addCall (id : NodeId) (callees : Callees) (args : List (Expr NodeId)) : Build Unit :=
  modifyGraph fun g =>
    { g with calls := g.calls.insert id ⟨callees, args.filterMap fun a => g.nodeKeys.get? a.id⟩ }

/-! ### Expressions -/

mutual

/-- Adds the readings and calls of an expression; whether there is a call. -/
def buildExpr (p : Program) : Expr NodeId → Build Bool
  | .literal .. | .symbol .. | .self _ => pure false
  | .ident id name => do
    discard <| readOf p (.ident id name)
    return false
  | .member id object property => do
    let calls ← buildExpr p object
    discard <| readOf p (.member id object property)
    return calls
  | .index _ object position => do
    let first ← buildExpr p object
    let second ← buildExpr p position
    return first || second
  | .call id callee args => do
    match callee with
    | .member _ object _ => discard <| buildExpr p object
    | _ => pure ()
    discard <| buildExprs p args
    addCall id (calleesOf p (p.lookup callee.id)) args
    return true
  | .create id cls args => do
    discard <| buildExprs p args
    addCall id (initializersOf p (p.lookup cls.id)) args
    return true
  | .unary _ _ operand => buildExpr p operand
  | .binary _ _ left right | .logical _ _ left right => do
    let first ← buildExpr p left
    let second ← buildExpr p right
    return first || second
  | .conditional _ test yes no => do
    let first ← buildExpr p test
    let second ← buildExpr p yes
    let third ← buildExpr p no
    return first || second || third
  | .array _ elements => buildExprs p elements
  | .dictionary _ entries => buildEntries p entries
  | .cast _ operand _ | .instanceOf _ operand _ => buildExpr p operand
  | .has _ object _ => buildExpr p object

def buildExprs (p : Program) : List (Expr NodeId) → Build Bool
  | [] => pure false
  | e :: es => do
    let first ← buildExpr p e
    let second ← buildExprs p es
    return first || second

def buildEntries (p : Program) : List (Expr NodeId × Expr NodeId) → Build Bool
  | [] => pure false
  | (k, v) :: entries => do
    let first ← buildExpr p k
    let second ← buildExpr p v
    let third ← buildEntries p entries
    return first || second || third

end

/-! ### Conditions -/

/-- Whether an expression is a boolean in any case, so that its negation exchanges the branches
instead of complementing bits. -/
def isBoolean : Expr NodeId → Bool
  | .binary _ op _ _ => op.isComparison
  | .instanceOf .. | .has .. | .logical .. => true
  | .unary _ .not operand => isBoolean operand
  | .literal _ (.bool _) => true
  | _ => false

/-- The equality or inequality of two values as a condition. -/
def equalsCondition (whole? : Option (Expr NodeId)) (left right : Expr NodeId)
    (equal : Bool) : Build Condition := do
  let leftKey? ← keyOf? p left
  let rightKey? ← keyOf? p right
  return .equals whole? left right equal leftKey? rightKey?

/-- What can be learned from a condition that is not split. -/
def conditionOf (test : Expr NodeId) : Build Condition :=
  match test with
  | .binary _ .eq left right => equalsCondition p (some test) left right true
  | .binary _ .ne left right => equalsCondition p (some test) left right false
  | .instanceOf _ operand cls => do
    let classes := (p.lookup cls.id).filter fun d => (p.decl d).kind = .cls
    return .instanceOf test operand classes (← keyOf? p operand)
  | _ => do return .truthy test (← keyOf? p test)

/-- Ends the current block with a condition that is not split. -/
def buildLeaf (test : Expr NodeId) (taken next : BlockId) : Build Unit := do
  if ← buildExpr p test then mayThrow test.id
  branch test.id (← conditionOf p test) taken next

/-- Ends the current block with branches on a condition. -/
def buildCondition (around : Surroundings) : Expr NodeId → BlockId → BlockId → Build Unit
  | .logical _ .and left right, taken, next => do
    let rest ← newBlock around
    buildCondition around left rest next
    enter rest
    buildCondition around right taken next
  | .logical _ .or left right, taken, next => do
    let rest ← newBlock around
    buildCondition around left taken rest
    enter rest
    buildCondition around right taken next
  | .unary id .not operand, taken, next =>
    if isBoolean operand then buildCondition around operand next taken
    else buildLeaf around.program (.unary id .not operand) taken next
  | test, taken, next => buildLeaf around.program test taken next

/-! ### Statements -/

/-- Adds the first value of a variable. -/
def buildVar (v : VarDecl NodeId) (key : Key) : Build Unit := do
  match v.init? with
  | some init =>
    if ← buildExpr p init then mayThrow v.id
    emit (.write v.id key (.value init))
  | none => emit (.write v.id key .absent)

/-- The key of the variable that a node declares. -/
def declaredKey? (node : NodeId) : Build (Option Key) := do
  match p.declaredAt? node with
  | none => return none
  | some d =>
    let key ← intern (.decl d)
    return some key

/-- Adds the readings and calls of the parts of an assignment's target. -/
def buildTarget : Expr NodeId → Build Bool
  | .index _ object position => do
    let first ← buildExpr p object
    let second ← buildExpr p position
    return first || second
  | .member _ object _ => buildExpr p object
  | _ => pure false

/-- The write of an assignment, if its target is tracked. -/
def assignedEvent? (nodeKeys : NumMap Key) (id : NodeId) (target : Expr NodeId)
    (op? : Option BinaryOp) (value : Expr NodeId) (key? : Option Key) : Option Event :=
  let source := match op? with
    | some op => Written.compound op target value
    | none => Written.value value
  match target with
  | .index _ object position =>
    if op?.isSome then none
    else (nodeKeys.get? object.id).map fun key => .write id key (.element object position value)
  | .ident .. | .member .. => key?.map fun key => .write id key source
  | _ => none

/-- Adds an assignment. -/
def buildAssign (id : NodeId) (target : Expr NodeId) (op? : Option BinaryOp)
    (value : Expr NodeId) : Build Unit := do
  let targetCalls ← buildTarget p target
  let key? ← if op?.isSome then readOf p target else trackedKey? p target
  let valueCalls ← buildExpr p value
  let calls := targetCalls || valueCalls
  if calls then mayThrow id
  match assignedEvent? (← get).graph.nodeKeys id target op? value key? with
  | some event => emit event
  | none => if calls then emit (.run id value)

/-- Adds the tests of a switch, each paired with the block of its case. -/
def buildTests (around : Surroundings) (subject : Expr NodeId) :
    List (Case NodeId (Stmt NodeId) × BlockId) → Build Unit
  | [] => pure ()
  | (case, body) :: rest => do
    match case.test? with
    | none => pure ()
    | some test =>
      if ← buildExpr around.program test then mayThrow test.id
      let condition ← equalsCondition around.program none subject test true
      let fail ← newBlock around
      branch case.id condition body fail
      enter fail
    buildTests around subject rest

/-- A new block for each of several things. -/
def newBlocks (around : Surroundings) : Nat → Build (List BlockId)
  | 0 => pure []
  | n + 1 => do
    let b ← newBlock around
    return b :: (← newBlocks around n)

mutual

/-- Adds a statement. -/
def buildStmt (around : Surroundings) : Stmt NodeId → Build Unit
  | .var _ v => do
    match ← declaredKey? around.program v.id with
    | none => pure ()
    | some key =>
      setNodeKey v.id key
      declare key
      buildVar around.program v key
  | .expr id value => do
    if ← buildExpr around.program value then
      mayThrow id
      emit (.run id value)
  | .assign id target op? value => buildAssign around.program id target op? value
  | .ret id value? => do
    match value? with
    | some value => if ← buildExpr around.program value then mayThrow id
    | none => pure ()
    emit (.write id Graph.resultKey (.returned value?))
    goto Graph.exit
    abandon around
  | .branch _ test yes no? => do
    let thenBlock ← newBlock around
    let merge ← newBlock around
    let elseBlock ← if no?.isSome then newBlock around else pure merge
    buildCondition around test thenBlock elseBlock
    enter thenBlock
    buildBlock around yes
    goto merge
    if no?.isSome then
      enter elseBlock
      buildBlock? around no?
      goto merge
    enter merge
  | .whileLoop _ test body => do
    let header ← newBlock around
    let inside ← newBlock around
    let after ← newBlock around
    goto header
    enter header
    buildCondition around test inside after
    enter inside
    buildBlock { around with jumps := ⟨after, some header⟩ :: around.jumps } body
    goto header
    enter after
  | .doLoop _ body test => do
    let inside ← newBlock around
    let testing ← newBlock around
    let after ← newBlock around
    goto inside
    enter inside
    buildBlock { around with jumps := ⟨after, some testing⟩ :: around.jumps } body
    goto testing
    enter testing
    buildCondition around test inside after
    enter after
  | .forLoop _ init test? update body =>
    inScope do
      buildStmts around init
      let header ← newBlock around
      let inside ← newBlock around
      let updating ← newBlock around
      let after ← newBlock around
      goto header
      enter header
      match test? with
      | some test => buildCondition around test inside after
      | none => goto inside
      enter inside
      buildBlock { around with jumps := ⟨after, some updating⟩ :: around.jumps } body
      goto updating
      enter updating
      buildStmts around update
      goto header
      enter after
  | .switch _ subject cases => do
    if ← buildExpr around.program subject then
      mayThrow subject.id
      emit (.run subject.id subject)
    let after ← newBlock around
    let bodies ← newBlocks around cases.length
    buildTests around subject (cases.zip bodies)
    let otherwise := ((cases.zip bodies).find? fun c => c.1.test?.isNone).map Prod.snd
    goto (otherwise.getD after)
    buildCases { around with jumps := ⟨after, none⟩ :: around.jumps } after cases bodies
    enter after
  | .leave _ => do
    match around.jumps.head? with
    | some jump => goto jump.leave
    | none => pure ()
    abandon around
  | .next _ => do
    match around.jumps.findSome? Jump.next? with
    | some target => goto target
    | none => pure ()
    abandon around
  | .raise id value => do
    discard <| buildExpr around.program value
    mayThrow id
    abandon around
  | .attempt _ body handlers finalizer? => do
    let dispatch ← newBlock around
    let after ← newBlock around
    let inner := { around with handler? := some dispatch }
    let inside ← newBlock inner
    goto inside
    enter inside
    buildBlock inner body
    goto after
    buildHandlers around after dispatch handlers
    enter after
    buildBlock? around finalizer?
  | .block _ body => buildBlock around body

def buildStmts (around : Surroundings) : List (Stmt NodeId) → Build Unit
  | [] => pure ()
  | s :: ss => do
    buildStmt around s
    buildStmts around ss

def buildBlock (around : Surroundings) : Braced NodeId (Stmt NodeId) → Build Unit
  | ⟨_, stmts⟩ => inScope (buildStmts around stmts)

def buildBlock? (around : Surroundings) : Option (Braced NodeId (Stmt NodeId)) → Build Unit
  | none => pure ()
  | some b => buildBlock around b

/-- Adds the bodies of the cases of a switch, each of which goes on to the next one. -/
def buildCases (around : Surroundings) (after : BlockId) :
    List (Case NodeId (Stmt NodeId)) → List BlockId → Build Unit
  | ⟨_, _, body⟩ :: cases, block :: blocks => do
    enter block
    inScope (buildStmts around body)
    goto (blocks.head?.getD after)
    buildCases around after cases blocks
  | _, _ => pure ()

/-- Adds the handlers of an attempt, where exceptions that none of the previous ones takes arrive at
`unmatched`. A handler for all exceptions is the last one; without it the rest goes to the handlers
around. -/
def buildHandlers (around : Surroundings) (after unmatched : BlockId) :
    List (Handler NodeId (Stmt NodeId)) → Build Unit
  | [] =>
    match around.handler? with
    | some outer => do
      enter unmatched
      goto outer
    | none => pure ()
  | ⟨id, _, cls?, body⟩ :: handlers => do
    enter unmatched
    let inside ← newBlock around
    let fail? ← if cls?.isSome then
        let fail ← newBlock around
        branch id .dispatch inside fail
        pure (some fail)
      else
        goto inside
        pure none
    enter inside
    inScope do
      match ← declaredKey? around.program id with
      | some key =>
        declare key
        emit (.write id key (.caught cls?))
      | none => pure ()
      buildBlock around body
    goto after
    match fail? with
    | some fail => buildHandlers around after fail handlers
    | none => pure ()

end

/-! ### Roots -/

/-- Adds the parameters of a function. -/
def buildParams (p : Program) : List (Param NodeId) → Build Unit
  | [] => pure ()
  | param :: params => do
    match p.declaredAt? param.id with
    | some d =>
      let key ← intern (.decl d)
      setNodeKey param.id key
      modifyGraph fun g => { g with params := g.params ++ [(key, d)] }
    | none => pure ()
    buildParams p params

/-- Adds a function. A function that ends without a return gives null. -/
def buildFunction (f : Function NodeId) : Build Unit := do
  buildParams p f.params
  buildBlock? { program := p } f.body?
  emit (.write f.id Graph.resultKey (.returned none))
  goto Graph.exit

/-- Adds the first values of the variables among the items of a module or class. -/
def buildInitializers (p : Program) : List (Item NodeId) → Build Unit
  | [] => goto Graph.exit
  | .var v :: items => do
    match ← declaredKey? p v.id with
    | some key =>
      setNodeKey v.id key
      addNonlocal key
      buildVar p v key
    | none => pure ()
    buildInitializers p items
  | _ :: items => buildInitializers p items

/-- The graph with which a construction starts. -/
def Graph.start (root : DeclId) : Graph :=
  { root, blocks := #[{}, {}], identities := .add .empty .result rfl, nodeKeys := {}, calls := {}
    params := [], nonlocals := [] }

/-- The construction of the graph of a root. -/
def Program.building (root : DeclId) : Build Unit :=
  if (p.decl root).kind = .function then (p.function? root).elim (goto Graph.exit) (buildFunction p)
  else buildInitializers p (p.scopeItems root)

/-- The graph of a module, class or function. -/
def Program.graph (p : Program) (root : DeclId) : Except IdentityError Graph := do
  let out ← p.building root { graph := .start root }
  return out.2.graph

/-- The graphs of all roots of a program. -/
def Program.graphs : Except IdentityError (List Graph) := p.roots.mapM p.graph

end TypeFlow
