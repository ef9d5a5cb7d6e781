import TypeFlow.Source.Tree

/-!
# Relabelling source trees

`traverse` visits every label of a tree once, each node before its parts and the parts from left to
right, and puts the results of the visits in place of the labels. Only the test of a `doLoop` is
visited before its body. Numbering a tree is the traversal that counts its visits.
-/

namespace TypeFlow

variable {ι κ : Type} {m : Type → Type} [Monad m]

/-- Relabels what is there. -/
def traverseOption {α β : Type} (f : α → m β) : Option α → m (Option β)
  | none => pure none
  | some a => do return some (← f a)

variable (f : ι → m κ)

/-- Relabels a dotted name. -/
def Path.traverse (p : Path ι) : m (Path κ) := do
  return { id := ← f p.id, segments := p.segments }

mutual

/-- Relabels one alternative of a written type. -/
def TypeRef.traverse (f : ι → m κ) : TypeRef ι → m (TypeRef κ)
  | .named path args => do
    let path ← path.traverse f
    return .named path (← traverseSpecs f args)
  | .tuple id slots => do
    let id ← f id
    return .tuple id (← traverseSpecs f slots)

def traverseSpec (f : ι → m κ) : Alternatives ι (TypeRef ι) → m (Alternatives κ (TypeRef κ))
  | ⟨id, parts⟩ => do
    let id ← f id
    return ⟨id, ← traverseRefs f parts⟩

def traverseSpecs (f : ι → m κ) :
    List (Alternatives ι (TypeRef ι)) → m (List (Alternatives κ (TypeRef κ)))
  | [] => pure []
  | s :: ss => do
    let s ← traverseSpec f s
    return s :: (← traverseSpecs f ss)

def traverseRefs (f : ι → m κ) : List (TypeRef ι) → m (List (TypeRef κ))
  | [] => pure []
  | r :: rs => do
    let r ← r.traverse f
    return r :: (← traverseRefs f rs)

end

mutual

/-- Relabels an expression. -/
def Expr.traverse (f : ι → m κ) : Expr ι → m (Expr κ)
  | .literal id value => do return .literal (← f id) value
  | .symbol id name => do return .symbol (← f id) name
  | .ident id name => do return .ident (← f id) name
  | .self id => do return .self (← f id)
  | .member id object property => do
    let id ← f id
    return .member id (← object.traverse f) property
  | .index id object position => do
    let id ← f id
    let object ← object.traverse f
    return .index id object (← position.traverse f)
  | .call id callee args => do
    let id ← f id
    let callee ← callee.traverse f
    return .call id callee (← traverseExprs f args)
  | .create id cls args => do
    let id ← f id
    let cls ← cls.traverse f
    return .create id cls (← traverseExprs f args)
  | .unary id op operand => do
    let id ← f id
    return .unary id op (← operand.traverse f)
  | .binary id op left right => do
    let id ← f id
    let left ← left.traverse f
    return .binary id op left (← right.traverse f)
  | .logical id op left right => do
    let id ← f id
    let left ← left.traverse f
    return .logical id op left (← right.traverse f)
  | .conditional id test yes no => do
    let id ← f id
    let test ← test.traverse f
    let yes ← yes.traverse f
    return .conditional id test yes (← no.traverse f)
  | .array id elements => do
    let id ← f id
    return .array id (← traverseExprs f elements)
  | .dictionary id entries => do
    let id ← f id
    return .dictionary id (← traverseEntries f entries)
  | .cast id operand spec => do
    let id ← f id
    let operand ← operand.traverse f
    return .cast id operand (← traverseSpec f spec)
  | .instanceOf id operand cls => do
    let id ← f id
    let operand ← operand.traverse f
    return .instanceOf id operand (← cls.traverse f)
  | .has id object property => do
    let id ← f id
    return .has id (← object.traverse f) property

def traverseExprs (f : ι → m κ) : List (Expr ι) → m (List (Expr κ))
  | [] => pure []
  | e :: es => do
    let e ← e.traverse f
    return e :: (← traverseExprs f es)

def traverseEntries (f : ι → m κ) : List (Expr ι × Expr ι) → m (List (Expr κ × Expr κ))
  | [] => pure []
  | (k, v) :: entries => do
    let k ← k.traverse f
    let v ← v.traverse f
    return (k, v) :: (← traverseEntries f entries)

end

/-- Relabels a variable. -/
def VarDecl.traverse (f : ι → m κ) (d : VarDecl ι) : m (VarDecl κ) := do
  let id ← f d.id
  let spec? ← traverseOption (traverseSpec f) d.spec?
  let init? ← traverseOption (Expr.traverse f) d.init?
  return { id, name := d.name, spec?, init?, isConst := d.isConst, isStatic := d.isStatic }

mutual

/-- Relabels a statement. -/
def Stmt.traverse (f : ι → m κ) : Stmt ι → m (Stmt κ)
  | .var id decl => do
    let id ← f id
    return .var id (← decl.traverse f)
  | .expr id value => do
    let id ← f id
    return .expr id (← value.traverse f)
  | .assign id target op? value => do
    let id ← f id
    let target ← target.traverse f
    return .assign id target op? (← value.traverse f)
  | .ret id value? => do
    let id ← f id
    return .ret id (← traverseOption (Expr.traverse f) value?)
  | .branch id test yes no? => do
    let id ← f id
    let test ← test.traverse f
    let yes ← traverseBlock f yes
    return .branch id test yes (← traverseBlock? f no?)
  | .whileLoop id test body => do
    let id ← f id
    let test ← test.traverse f
    return .whileLoop id test (← traverseBlock f body)
  | .doLoop id body test => do
    let id ← f id
    let test ← test.traverse f
    return .doLoop id (← traverseBlock f body) test
  | .forLoop id init test? update body => do
    let id ← f id
    let init ← traverseStmts f init
    let test? ← traverseOption (Expr.traverse f) test?
    let update ← traverseStmts f update
    return .forLoop id init test? update (← traverseBlock f body)
  | .switch id subject cases => do
    let id ← f id
    let subject ← subject.traverse f
    return .switch id subject (← traverseCases f cases)
  | .leave id => do return .leave (← f id)
  | .next id => do return .next (← f id)
  | .raise id value => do
    let id ← f id
    return .raise id (← value.traverse f)
  | .attempt id body handlers finalizer? => do
    let id ← f id
    let body ← traverseBlock f body
    let handlers ← traverseHandlers f handlers
    return .attempt id body handlers (← traverseBlock? f finalizer?)
  | .block id body => do
    let id ← f id
    return .block id (← traverseBlock f body)

def traverseStmts (f : ι → m κ) : List (Stmt ι) → m (List (Stmt κ))
  | [] => pure []
  | s :: ss => do
    let s ← s.traverse f
    return s :: (← traverseStmts f ss)

def traverseBlock (f : ι → m κ) : Braced ι (Stmt ι) → m (Braced κ (Stmt κ))
  | ⟨id, stmts⟩ => do
    let id ← f id
    return ⟨id, ← traverseStmts f stmts⟩

def traverseBlock? (f : ι → m κ) : Option (Braced ι (Stmt ι)) → m (Option (Braced κ (Stmt κ)))
  | none => pure none
  | some b => do return some (← traverseBlock f b)

def traverseCases (f : ι → m κ) : List (Case ι (Stmt ι)) → m (List (Case κ (Stmt κ)))
  | [] => pure []
  | ⟨id, test?, body⟩ :: cases => do
    let id ← f id
    let test? ← traverseOption (Expr.traverse f) test?
    let body ← traverseStmts f body
    return ⟨id, test?, body⟩ :: (← traverseCases f cases)

def traverseHandlers (f : ι → m κ) : List (Handler ι (Stmt ι)) → m (List (Handler κ (Stmt κ)))
  | [] => pure []
  | ⟨id, param, cls?, body⟩ :: handlers => do
    let id ← f id
    let cls? ← traverseOption (Path.traverse f) cls?
    let body ← traverseBlock f body
    return ⟨id, param, cls?, body⟩ :: (← traverseHandlers f handlers)

end

/-- Relabels a parameter. -/
def Param.traverse (p : Param ι) : m (Param κ) := do
  let id ← f p.id
  return { id, name := p.name, spec? := ← traverseOption (traverseSpec f) p.spec? }

/-- Relabels a list of parameters. -/
def traverseParams (f : ι → m κ) : List (Param ι) → m (List (Param κ))
  | [] => pure []
  | p :: ps => do
    let p ← p.traverse f
    return p :: (← traverseParams f ps)

/-- Relabels a function. -/
def Function.traverse (d : Function ι) : m (Function κ) := do
  let id ← f d.id
  let params ← traverseParams f d.params
  let returns? ← traverseOption (traverseSpec f) d.returns?
  let body? ← traverseBlock? f d.body?
  return { id, name := d.name, params, returns?, body?, isStatic := d.isStatic,
           isExempt := d.isExempt }

/-- Relabels the members of an enumeration. -/
def traverseMembers (f : ι → m κ) : List (EnumMember ι) → m (List (EnumMember κ))
  | [] => pure []
  | d :: ds => do
    let id ← f d.id
    let init? ← traverseOption (Expr.traverse f) d.init?
    return { id, name := d.name, init? } :: (← traverseMembers f ds)

/-- Relabels an enumeration. -/
def EnumDecl.traverse (d : EnumDecl ι) : m (EnumDecl κ) := do
  let id ← f d.id
  return { id, name? := d.name?, members := ← traverseMembers f d.members }

mutual

/-- Relabels an item. -/
def Item.traverse (f : ι → m κ) : Item ι → m (Item κ)
  | .module id name items => do
    let id ← f id
    return .module id name (← traverseItems f items)
  | .cls id name extends? items => do
    let id ← f id
    let extends? ← traverseOption (Path.traverse f) extends?
    return .cls id name extends? (← traverseItems f items)
  | .function decl => do return .function (← decl.traverse f)
  | .var decl => do return .var (← decl.traverse f)
  | .enum decl => do return .enum (← decl.traverse f)
  | .synonym id name spec => do
    let id ← f id
    return .synonym id name (← traverseSpec f spec)

def traverseItems (f : ι → m κ) : List (Item ι) → m (List (Item κ))
  | [] => pure []
  | i :: is => do
    let i ← i.traverse f
    return i :: (← traverseItems f is)

end

/-- Relabels a program. -/
def Module.traverse (p : Module ι) : m (Module κ) := do
  let id ← f p.id
  return { id, name := p.name, items := ← traverseItems f p.items }

/-- The next unused number. -/
def fresh : StateM Nat NodeId := fun n => (n, n + 1)

/-- The program with its nodes numbered from zero, and how many there are. -/
def Module.number (p : Module ι) : Module NodeId × Nat :=
  (p.traverse (m := StateM Nat) fun _ => fresh) 0

end TypeFlow
