import TypeFlow.Builtin.Table
import TypeFlow.Eval.Container
import TypeFlow.Eval.Member

/-!
# Types of expressions

`evalExpr` computes the type of an expression, which is a single value where all operands are known.
Tracked expressions have the types that `env` gives them; everything else comes from declarations
and from the program-wide facts. An operation that is not understood may give anything. Both
operands of `&&` and `||` and both alternatives of a conditional are evaluated in any case.
-/

namespace TypeFlow

/-- The tracked types of expressions, by node. -/
abbrev TypeEnv := NodeId → Option Ty

namespace Context

variable (ctx : Context)

/-- Whether a value is taken as true. -/
def truth (t : Ty) : Option Bool := (t.expand ctx.table).truthiness

/-- The result of `&&` and `||`. -/
def logicalResult (op : LogicalOp) (l r : Option Bool) : Option Bool :=
  match op with
  | .and =>
    if l = some false || r = some false then some false
    else if l = some true then r
    else none
  | .or =>
    if l = some true || r = some true then some true
    else if l = some false then r
    else none

/-- The classes that a type of classes holds, when it holds nothing else. -/
def classesOf? (t : Ty) : Option DeclSet :=
  match t.payload? .cls with
  | some (.cls classes) => if t.tags = Tags.single .cls then some classes else none
  | _ => none

/-- The type of the test whether a value is an instance of a class. -/
def instanceOf (value cls : Ty) : Ty :=
  match classesOf? cls with
  | none => Ty.boolean
  | some classes =>
    let target := Ty.unionAll (classes.ids.map ctx.program.instanceType)
    if value.isNever then Ty.boolean
    else if value.subtype ctx.table target then Ty.bool true
    else if !value.overlap ctx.table target then Ty.bool false
    else Ty.boolean

/-- Whether the values of a payload have a member, as far as that is known. The library may provide
more than is declared. -/
def payloadHas (property : String) (tag : Tag) (p? : Option (Payload Ty)) :
    Option Bool :=
  let provides (d : DeclId) : Bool := !(ctx.program.scopeMember d property).isEmpty
  let ofScopes (scopes : DeclSet) : Option Bool :=
    if scopes.ids.any provides then some true
    else if scopes.ids.any ctx.program.isLibrary then none
    else some false
  match p? with
  | some (.module scopes) | some (.cls scopes) => ofScopes scopes
  | some (.object classes shape) =>
    let inShape := match shape with
      | some fields => (fields.lookup property).isSome
      | none => false
    if inShape || classes.ids.any provides then some true else none
  | _ => if tag = .null then some false else none

/-- The type of the test whether a value has a member. -/
def hasMember (object : Ty) (property : String) : Ty :=
  let object := object.expand ctx.table
  let verdicts := object.tags.toList.map fun tag =>
    ctx.payloadHas property tag (object.payload? tag)
  if verdicts.contains none then Ty.boolean
  else
    match verdicts.contains (some true), verdicts.contains (some false) with
    | true, false => Ty.bool true
    | false, true => Ty.bool false
    | _, _ => Ty.boolean

variable (id : NodeId)

/-- Reports a comparison with null of a value that is never null. -/
def checkNullComparison (l r : Ty) : Evaluating Unit := do
  let other? := if l = Ty.null then some r else if r = Ty.null then some l else none
  match other? with
  | none => pure ()
  | some other =>
    let other := other.expand ctx.table
    let mayBeNull := other.tags.intersects (Tags.ofList [.null, .object, .synonym])
    if !other.isNever && !mayBeNull then
      Evaluating.diagnose id
        ("This comparison is redundant because " ++ ctx.printed other ++ " can never be null")

/-- Reports the arguments of a call that do not suit the parameters, of which the first has the
given number. -/
def checkArgumentList (ctx : Context) (id : NodeId) (name : String) (i : Nat) :
    List (DeclId × Ty) → Evaluating Unit
  | [] => pure ()
  | (param, arg) :: rest => do
    match ctx.program.declaredType? param with
    | some declared =>
      if !ctx.accepts arg declared then
        Evaluating.diagnose id ("Argument " ++ toString i ++ " to " ++ name ++ " expected to be " ++
            ctx.printed declared ++ " but got " ++ ctx.printed arg)
    | none => pure ()
    checkArgumentList ctx id name (i + 1) rest

/-- Reports what is wrong with the arguments of a call. -/
def checkArguments (function : DeclId) (args : List Ty) :
    Evaluating Unit := do
  if (← get).record.recording then
    let params := (ctx.program.decl function).params
    let name := ctx.program.displayName function
    if params.length ≠ args.length then
      Evaluating.diagnose id
        (name ++ " expects " ++ toString params.length ++ " arguments but got " ++
          toString args.length)
    else ctx.checkArgumentList id name 1 (params.zip args)

variable (receiver? : Option (NodeId × Ty)) (args : List Ty)

/-- The type of a call of a function. A library function that is modelled may change the type of its
receiver, which stands at a node. -/
def callFunction (function : DeclId) : Evaluating Ty := do
  ctx.checkArguments id function args
  let call : BuiltinCall :=
    { table := ctx.table
      receiver? := receiver?.map fun r => ctx.receiverFor function r.2
      args }
  match Builtin.refine? (ctx.program.decl function).qualified call with
  | some effect =>
    match effect.receiver?, receiver? with
    | some grown, some (node, _) => Evaluating.refine node grown
    | _, _ => pure ()
    return effect.result
  | none => ctx.returnType function

/-- The types of calls of functions, added up. -/
def callFunctions (functions : DeclSet) (acc : Ty) : Evaluating Ty :=
  functions.ids.foldlM
    (fun acc d => do return acc.union (← ctx.callFunction id receiver? args d)) acc

/-- Adds the part of one tag of the called value to the type of a call and to the functions that it
may reach. To call null throws. -/
def callPart (callee : Ty) (acc : Ty × Option (List DeclId)) (tag : Tag) :
    Evaluating (Ty × Option (List DeclId)) := do
  match callee.payload? tag with
  | some (.function functions) =>
    let t ← ctx.callFunctions id receiver? args functions acc.1
    return (t, acc.2.map fun known => known ++ functions.ids)
  | some (.method _ result) => return (acc.1.union result, none)
  | _ => if tag = .null then return acc else return (acc.1.union Ty.any, none)

/-- The type of a call of a value. -/
def callValue (callee : Ty) : Evaluating Ty := do
  let callee := callee.expand ctx.table
  let (result, functions?) ←
    callee.tags.toList.foldlM (ctx.callPart id receiver? args callee) (Ty.never, some [])
  Evaluating.addCall id (functions?.map DeclSet.ofList)
  return result

/-- The type of the construction of an object. -/
def createObject (cls : Ty) (args : List Ty) : Evaluating Ty := do
  match classesOf? cls with
  | none =>
    Evaluating.addCall id none
    return Ty.ofTags (Tags.single .object)
  | some classes =>
    let initializers := (classes.ids.flatMap fun c => ctx.program.scopeMember c "initialize").filter
      fun d => (ctx.program.decl d).kind = .function
    initializers.forM fun d => ctx.checkArguments id d args
    Evaluating.addCall id (some (DeclSet.ofList initializers))
    return Ty.object classes

/-- The type of an identifier. -/
def identType (env : TypeEnv) (id : NodeId) : Evaluating Ty :=
  match env id with
  | some t => pure t
  | none =>
    match ctx.program.lookup id with
    | [] => pure Ty.any
    | found => ctx.valueTypes found

/-- The type of a member of an object at a node, and the parts of the object that provide it, if
these are not all of it. -/
def memberType (env : TypeEnv) (id objectId : NodeId) (object : Ty)
    (property : String) : Evaluating (Ty × Option Ty) := do
  match env id with
  | some t => return (t, none)
  | none =>
    match ctx.program.lookup id with
    | [] =>
      let access ← ctx.memberAccess object property
      Evaluating.mayThrowIf access.mayThrow
      match access.receiver? with
      | some receiver => Evaluating.refine objectId receiver
      | none => pure ()
      return (access.ty, access.receiver?)
    | found => return (← ctx.valueTypes found, none)

/-- The type of a value that is taken as another type. When they have nothing in common the written
type counts. -/
def castType (value target : Ty) : Evaluating Ty := do
  let narrowed := value.meet ctx.table target
  if narrowed.isNever && !value.isNever then
    Evaluating.diagnose id
      ("Cast of " ++ ctx.printed value ++ " to " ++ ctx.printed target ++ " has nothing in common")
    return target
  else return narrowed

/-- The type of an operator with two operands. -/
def binaryType (op : BinaryOp) (l r : Ty) : Evaluating Ty := do
  if op = .eq || op = .ne then ctx.checkNullComparison id l r
  let t := Ty.binary ctx.table op l r
  if !op.isComparison && t.isAny then Evaluating.mayThrowIf true
  return t

/-- Records the type that an evaluation gives to a node. -/
def recorded (work : Evaluating Ty) : Evaluating Ty := do
  let t ← work
  Evaluating.node id t
  return t

mutual

/-- The type of an expression, which is recorded for its node. -/
def evalExpr (ctx : Context) (env : TypeEnv) : Expr NodeId → Evaluating Ty
  | .literal id value => recorded id (pure value.ty)
  | .symbol id name => recorded id (pure (Ty.symbol name))
  | .self id => recorded id (pure ctx.selfType)
  | .ident id _ => recorded id (ctx.identType env id)
  | .member id object property => recorded id do
    let t ← ctx.evalExpr env object
    return (← ctx.memberType env id object.id t property).1
  | .index id object position => recorded id do
    let t ← ctx.evalExpr env object
    let i ← ctx.evalExpr env position
    let access := Ty.indexed ctx.table t i
    Evaluating.mayThrowIf access.mayThrow
    return access.ty
  | .call id (.member calleeId object property) args => recorded id do
    let t ← ctx.evalExpr env object
    let (callee, narrowed?) ← ctx.memberType env calleeId object.id t property
    Evaluating.node calleeId callee
    let types ← ctx.evalExprs env args
    ctx.callValue id (some (object.id, narrowed?.getD t)) types callee
  | .call id callee args => recorded id do
    let t ← ctx.evalExpr env callee
    let types ← ctx.evalExprs env args
    ctx.callValue id none types t
  | .create id cls args => recorded id do
    let t ← ctx.evalExpr env cls
    let types ← ctx.evalExprs env args
    ctx.createObject id t types
  | .unary id op operand => recorded id do
    return Ty.unary ctx.table op (← ctx.evalExpr env operand)
  | .binary id op left right => recorded id do
    let l ← ctx.evalExpr env left
    let r ← ctx.evalExpr env right
    ctx.binaryType id op l r
  | .logical id op left right => recorded id do
    let l ← ctx.evalExpr env left
    let r ← ctx.evalExpr env right
    return Ty.ofVerdict (logicalResult op (ctx.truth l) (ctx.truth r))
  | .conditional id test yes no => recorded id do
    let t ← ctx.evalExpr env test
    let y ← ctx.evalExpr env yes
    let n ← ctx.evalExpr env no
    match ctx.truth t with
    | some true => return y
    | some false => return n
    | none => return y.union n
  | .array id elements => recorded id do return Ty.tuple (← ctx.evalExprs env elements)
  | .dictionary id entries => recorded id do
    let (k, v) ← ctx.evalEntries env Ty.never Ty.never entries
    return Ty.dictionary k v
  | .cast id operand spec => recorded id do
    ctx.castType id (← ctx.evalExpr env operand) (ctx.program.typeOfSpec spec)
  | .instanceOf id operand cls => recorded id do
    let t ← ctx.evalExpr env operand
    let c ← ctx.evalExpr env cls
    return ctx.instanceOf t c
  | .has id object property => recorded id do
    return ctx.hasMember (← ctx.evalExpr env object) property

def evalExprs (ctx : Context) (env : TypeEnv) : List (Expr NodeId) → Evaluating (List Ty)
  | [] => pure []
  | e :: es => do
    let t ← ctx.evalExpr env e
    return t :: (← ctx.evalExprs env es)

/-- Adds the types of the entries of a dictionary to those of its keys and values. -/
def evalEntries (ctx : Context) (env : TypeEnv) (key value : Ty) :
    List (Expr NodeId × Expr NodeId) → Evaluating (Ty × Ty)
  | [] => pure (key, value)
  | (k, v) :: entries => do
    let kt ← ctx.evalExpr env k
    let vt ← ctx.evalExpr env v
    ctx.evalEntries env (key.union kt) (value.union vt) entries

end

end Context

/-- What the evaluation of one expression gives. -/
structure Evaluated where
  ty : Ty
  sideEffects : Bool
  mayThrow : Bool
  refinements : List (NodeId × Ty)
  calls : List (NodeId × Option DeclSet)

/-- Evaluates an expression and adds to a record. -/
def Context.evaluate (ctx : Context) (env : TypeEnv) (record : Record) (e : Expr NodeId) :
    Evaluated × Record :=
  let (ty, s) := (ctx.evalExpr env e).run { record }
  (⟨ty, s.sideEffects, s.mayThrow, s.refinements, s.calls⟩, s.record)

end TypeFlow
