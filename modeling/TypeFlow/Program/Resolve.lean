import TypeFlow.Program.Declare

/-!
# Resolving names

Superclasses are resolved first, so that inherited members are visible everywhere. Then every name
is looked up where it stands: an identifier in a function means the latest variable or parameter of
that name in the innermost scope that has one, and otherwise what it means outside of functions.
Parameters, blocks, loops with an initial part, switches and handlers open scopes. A variable is not
visible in its own first value.
-/

namespace TypeFlow

/-- The names of a program with their meanings. -/
structure Names extends Declarations where
  /-- The declaration that a node introduces. -/
  declaredBy : Array (Option DeclId) := #[]
  /-- The declarations that a node refers to. -/
  lookups : Array (List DeclId) := #[]

namespace Names

/-- The declarations that a node refers to. -/
def lookup (names : Names) (node : NodeId) : List DeclId := names.lookups.getD node []

/-- The declaration that a node introduces. -/
def declaredAt? (names : Names) (node : NodeId) : Option DeclId := names.declaredBy.getD node none

end Names

/-- The variables of one scope, latest first. -/
abbrev Frame := List (String × DeclId)

/-- The names resolved so far and the scopes that are open, innermost first. -/
structure Resolution extends Names where
  frames : List Frame := []

/-- A walk that resolves names. -/
abbrev Resolving := StateM Resolution

/-- Where a name stands: the innermost module or class and the function, if it is in one. -/
structure Site where
  scope : DeclId
  function? : Option DeclId := none

variable (site : Site)

/-- The declaration from which a name is looked up. -/
def Site.origin : DeclId := site.function?.getD site.scope

namespace Resolving

/-- Notes what a node refers to. -/
def record (node : NodeId) (found : List DeclId) : Resolving Unit :=
  modify fun s => { s with lookups := s.lookups.setIfInBounds node found }

/-- The declaration that a node introduces. -/
def declaredAt (node : NodeId) : Resolving DeclId := do
  return ((← get).declaredAt? node).getD 0

/-- Resolves names in a new scope, which is closed afterwards. -/
def inFrame (frame : Frame) (walk : Resolving Unit) : Resolving Unit := do
  modify fun s => { s with frames := frame :: s.frames }
  walk
  modify fun s => { s with frames := s.frames.tail }

/-- Declares a variable in the innermost scope. -/
def declareLocal (site : Site) (name : String) (node : NodeId)
    (spec? : Option (TypeSpec NodeId)) (isConst : Bool) : Resolving Unit :=
  modify fun s =>
    let d := s.decls.size
    let qualified := (s.decl site.origin).qualified ++ "." ++ name
    let frames := match s.frames with
      | frame :: outer => ((name, d) :: frame) :: outer
      | [] => []
    { s with
      decls := s.decls.push
        { kind := .localVar, name, qualified, parent? := some site.origin, node, spec?, isConst }
      declaredBy := s.declaredBy.setIfInBounds node (some d)
      frames }

end Resolving

/-- What an identifier means. -/
def Resolution.meaning (s : Resolution) (site : Site) (name : String) : List DeclId :=
  match s.frames.findSome? fun frame => frame.lookup name with
  | some d => [d]
  | none => s.lookupFrom site.origin name

/-- What the member `property` of an expression means; only members of `self` and of names are
looked up. -/
def Resolution.memberMeaning (s : Resolution) (site : Site) (object : Expr NodeId)
    (property : String) : List DeclId :=
  match object with
  | .self _ =>
    match s.enclosingClass? site.origin with
    | some c => s.scopeMember c property
    | none => []
  | .ident id _ | .member id _ _ => s.membersOf (s.lookup id) property
  | _ => []

/-- Resolves a dotted name. -/
def resolvePath (path : Path NodeId) : Resolving Unit := do
  Resolving.record path.id ((← get).lookupPath site.origin path.segments)

mutual

/-- Resolves one alternative of a written type. -/
def resolveRef (site : Site) : TypeRef NodeId → Resolving Unit
  | .named path args => do
    resolvePath site path
    resolveSpecs site args
  | .tuple _ slots => resolveSpecs site slots

def resolveSpec (site : Site) : Alternatives NodeId (TypeRef NodeId) → Resolving Unit
  | ⟨_, parts⟩ => resolveRefs site parts

def resolveSpecs (site : Site) : List (Alternatives NodeId (TypeRef NodeId)) → Resolving Unit
  | [] => pure ()
  | s :: ss => do
    resolveSpec site s
    resolveSpecs site ss

def resolveRefs (site : Site) : List (TypeRef NodeId) → Resolving Unit
  | [] => pure ()
  | r :: rs => do
    resolveRef site r
    resolveRefs site rs

end

mutual

/-- Resolves an expression. -/
def resolveExpr (site : Site) : Expr NodeId → Resolving Unit
  | .literal .. | .symbol .. | .self _ => pure ()
  | .ident id name => do Resolving.record id ((← get).meaning site name)
  | .member id object property => do
    resolveExpr site object
    Resolving.record id ((← get).memberMeaning site object property)
  | .has _ object _ => resolveExpr site object
  | .index _ object position => do
    resolveExpr site object
    resolveExpr site position
  | .call _ callee args => do
    resolveExpr site callee
    resolveExprs site args
  | .create _ cls args => do
    resolveExpr site cls
    resolveExprs site args
  | .unary _ _ operand => resolveExpr site operand
  | .binary _ _ left right | .logical _ _ left right => do
    resolveExpr site left
    resolveExpr site right
  | .conditional _ test yes no => do
    resolveExpr site test
    resolveExpr site yes
    resolveExpr site no
  | .array _ elements => resolveExprs site elements
  | .dictionary _ entries => resolveEntries site entries
  | .cast _ operand spec => do
    resolveExpr site operand
    resolveSpec site spec
  | .instanceOf _ operand cls => do
    resolveExpr site operand
    resolveExpr site cls

def resolveExprs (site : Site) : List (Expr NodeId) → Resolving Unit
  | [] => pure ()
  | e :: es => do
    resolveExpr site e
    resolveExprs site es

def resolveEntries (site : Site) : List (Expr NodeId × Expr NodeId) → Resolving Unit
  | [] => pure ()
  | (k, v) :: entries => do
    resolveExpr site k
    resolveExpr site v
    resolveEntries site entries

end

/-- Resolves a written type that may be absent. -/
def resolveSpec? : Option (TypeSpec NodeId) → Resolving Unit
  | none => pure ()
  | some spec => resolveSpec site spec

/-- Resolves an expression that may be absent. -/
def resolveExpr? : Option (Expr NodeId) → Resolving Unit
  | none => pure ()
  | some e => resolveExpr site e

mutual

/-- Resolves a statement. -/
def resolveStmt (site : Site) : Stmt NodeId → Resolving Unit
  | .var _ v => do
    resolveSpec? site v.spec?
    resolveExpr? site v.init?
    Resolving.declareLocal site v.name v.id v.spec? v.isConst
  | .expr _ value | .raise _ value => resolveExpr site value
  | .assign _ target _ value => do
    resolveExpr site value
    resolveExpr site target
  | .ret _ value? => resolveExpr? site value?
  | .branch _ test yes no? => do
    resolveExpr site test
    resolveBlock site yes
    resolveBlock? site no?
  | .whileLoop _ test body => do
    resolveExpr site test
    resolveBlock site body
  | .doLoop _ body test => do
    resolveBlock site body
    resolveExpr site test
  | .forLoop _ init test? update body =>
    Resolving.inFrame [] do
      resolveStmts site init
      resolveExpr? site test?
      resolveBlock site body
      resolveStmts site update
  | .switch _ subject cases => do
    resolveExpr site subject
    Resolving.inFrame [] (resolveCases site cases)
  | .leave _ | .next _ => pure ()
  | .attempt _ body handlers finalizer? => do
    resolveBlock site body
    resolveHandlers site handlers
    resolveBlock? site finalizer?
  | .block _ body => resolveBlock site body

def resolveStmts (site : Site) : List (Stmt NodeId) → Resolving Unit
  | [] => pure ()
  | s :: ss => do
    resolveStmt site s
    resolveStmts site ss

def resolveBlock (site : Site) : Braced NodeId (Stmt NodeId) → Resolving Unit
  | ⟨_, stmts⟩ => Resolving.inFrame [] (resolveStmts site stmts)

def resolveBlock? (site : Site) : Option (Braced NodeId (Stmt NodeId)) → Resolving Unit
  | none => pure ()
  | some b => resolveBlock site b

def resolveCases (site : Site) : List (Case NodeId (Stmt NodeId)) → Resolving Unit
  | [] => pure ()
  | ⟨_, test?, body⟩ :: cases => do
    resolveExpr? site test?
    resolveStmts site body
    resolveCases site cases

def resolveHandlers (site : Site) : List (Handler NodeId (Stmt NodeId)) → Resolving Unit
  | [] => pure ()
  | ⟨id, param, cls?, body⟩ :: handlers => do
    match cls? with
    | some path => resolvePath site path
    | none => pure ()
    Resolving.inFrame [] do
      Resolving.declareLocal site param id none false
      resolveBlock site body
    resolveHandlers site handlers

end

/-- Resolves the written types of parameters. -/
def resolveParams (site : Site) : List (Param NodeId) → Resolving Unit
  | [] => pure ()
  | p :: ps => do
    resolveSpec? site p.spec?
    resolveParams site ps

/-- Resolves a function. -/
def resolveFunction (f : Function NodeId) : Resolving Unit := do
  let d ← Resolving.declaredAt f.id
  resolveParams site f.params
  resolveSpec? site f.returns?
  match f.body? with
  | some body =>
    let s ← get
    let frame : Frame := ((s.decl d).params.map fun p => ((s.decl p).name, p)).reverse
    Resolving.inFrame frame (resolveBlock { site with function? := some d } body)
  | none => pure ()

/-- Resolves the written values of enumeration members. -/
def resolveEnumMembers (site : Site) : List (EnumMember NodeId) → Resolving Unit
  | [] => pure ()
  | e :: es => do
    resolveExpr? site e.init?
    resolveEnumMembers site es

mutual

/-- Resolves an item of a scope. -/
def resolveItem (scope : DeclId) : Item NodeId → Resolving Unit
  | .module id _ items | .cls id _ _ items => do resolveItems (← Resolving.declaredAt id) items
  | .function f => resolveFunction { scope } f
  | .var v => do
    resolveSpec? { scope } v.spec?
    resolveExpr? { scope } v.init?
  | .enum e => resolveEnumMembers { scope } e.members
  | .synonym _ _ spec => resolveSpec { scope } spec

def resolveItems (scope : DeclId) : List (Item NodeId) → Resolving Unit
  | [] => pure ()
  | item :: items => do
    resolveItem scope item
    resolveItems scope items

end

/-- Resolves the superclass of the class `d`, which stands in `scope`. Classes only inherit from
other classes. -/
def resolveSuperclass (scope d : DeclId) (path : Path NodeId) : Resolving Unit :=
  modify fun s =>
    let found := s.lookupPath scope path.segments
    let classes := found.filter fun c => (s.decl c).kind = .cls && c ≠ d
    { s with
      superclasses := s.superclasses.setIfInBounds d classes
      lookups := s.lookups.setIfInBounds path.id found }

mutual

/-- Resolves the superclasses in an item of a scope. -/
def resolveSuperclassesOf (scope : DeclId) : Item NodeId → Resolving Unit
  | .module id _ items => do resolveSuperclasses (← Resolving.declaredAt id) items
  | .cls id _ extends? items => do
    let d ← Resolving.declaredAt id
    match extends? with
    | some path => resolveSuperclass scope d path
    | none => pure ()
    resolveSuperclasses d items
  | _ => pure ()

/-- Resolves the superclasses in the items of a scope. -/
def resolveSuperclasses (scope : DeclId) : List (Item NodeId) → Resolving Unit
  | [] => pure ()
  | item :: items => do
    resolveSuperclassesOf scope item
    resolveSuperclasses scope items

end

/-- The names of a program from its declarations and its imports. -/
def Module.resolved (root : Module NodeId) (nodes : Nat) (declared : Declared)
    (imports : List DeclId) : Names :=
  let start : Resolution :=
    { decls := declared.decls
      superclasses := Array.replicate declared.decls.size []
      imports
      declaredBy := declared.declaredBy
      lookups := Array.replicate nodes [] }
  let walk : Resolving Unit := do
    resolveSuperclasses 0 root.items
    resolveItems 0 root.items
  (walk.run start).2.toNames

end TypeFlow
