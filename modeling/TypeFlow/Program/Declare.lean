import TypeFlow.NumMap
import TypeFlow.Program.Decl

/-!
# Collecting the declarations of a program

One walk over the items gives every module, class, function, parameter, variable, enumeration,
enumeration member and typedef its number, in the order of the text. The members of a named
enumeration are members of the enclosing scope as well.
-/

namespace TypeFlow

/-- The declarations met so far. -/
structure Declared where
  decls : Array Decl := #[]
  /-- The declaration that a node introduces. -/
  declaredBy : Array (Option DeclId) := #[]
  /-- The values of enumeration members. -/
  enumValues : NumMap Ty := {}

/-- A walk that collects declarations. -/
abbrev Declaring := StateM Declared

namespace Declaring

/-- Changes a declaration. -/
def update (d : DeclId) (f : Decl → Decl) : Declaring Unit :=
  modify fun s => { s with decls := s.decls.modify d f }

/-- Makes a declaration a member of a scope. -/
def register (scope : DeclId) (name : String) (d : DeclId) : Declaring Unit :=
  update scope fun decl => { decl with members := addMember name d decl.members }

/-- Enters a new declaration. -/
def add (kind : DeclKind) (name : String) (node : NodeId) (parent : DeclId) : Declaring DeclId := do
  let s ← get
  let d := s.decls.size
  let qualified :=
    if parent = 0 then name else (s.decls.getD parent default).qualified ++ "." ++ name
  set { s with
    decls := s.decls.push { kind, name, qualified, parent? := some parent, node }
    declaredBy := s.declaredBy.setIfInBounds node (some d) }
  return d

/-- Enters a new declaration as a member of its parent. -/
def addMember (kind : DeclKind) (name : String) (node : NodeId) (parent : DeclId) :
    Declaring DeclId := do
  let d ← add kind name node parent
  register parent name d
  return d

end Declaring

/-- The value that an enumeration member is given. Anything but a literal or a negated integer is
only known to be a number. -/
def enumLiteral {ι : Type} : Expr ι → Ty
  | .literal _ (.number n) => Ty.number n
  | .literal _ (.long n) => Ty.long n
  | .literal _ (.float x) => Ty.float x
  | .literal _ (.double x) => Ty.double x
  | .literal _ (.char c) => Ty.char c
  | .literal _ (.string s) => Ty.string s
  | .unary _ .neg (.literal _ (.number n)) => Ty.number (-n)
  | .unary _ .neg (.literal _ (.long n)) => Ty.long (-n)
  | _ => Ty.ofTags (Tags.single .number)

/-- The value of an enumeration member that follows one of the given value. -/
def enumSuccessor (t : Ty) : Ty :=
  if t.tags = Tags.single .long then
    match t.asInteger? with
    | some n => Ty.long (Int64.ofInt n + 1)
    | none => Ty.ofTags (Tags.single .long)
  else
    match t.asInteger? with
    | some n =>
      if t.tags = Tags.single .number then Ty.number (Int32.ofInt n + 1)
      else Ty.ofTags (Tags.single .number)
    | none => Ty.ofTags (Tags.single .number)

/-- Declares the parameters of a function. -/
def declareParams (function : DeclId) : List (Param NodeId) → Declaring (List DeclId)
  | [] => pure []
  | p :: ps => do
    let d ← Declaring.add .param p.name p.id function
    Declaring.update d fun decl => { decl with spec? := p.spec? }
    return d :: (← declareParams function ps)

/-- Declares a function with its parameters. -/
def declareFunction (scope : DeclId) (f : Function NodeId) : Declaring DeclId := do
  let d ← Declaring.addMember .function f.name f.id scope
  let params ← declareParams d f.params
  Declaring.update d fun decl =>
    { decl with params, spec? := f.returns?, isStatic := f.isStatic, isExempt := f.isExempt }
  return d

/-- Declares a variable of a module or class. -/
def declareVar (scope : DeclId) (v : VarDecl NodeId) : Declaring DeclId := do
  let d ← Declaring.addMember .var v.name v.id scope
  Declaring.update d fun decl =>
    { decl with spec? := v.spec?, isConst := v.isConst, isStatic := v.isStatic }
  return d

/-- Declares enumeration members of which the first has the value `next` if it is given none. -/
def declareEnumMembers (scope : DeclId) (owner? : Option DeclId) (next : Ty) :
    List (EnumMember NodeId) → Declaring Unit
  | [] => pure ()
  | e :: es => do
    let d ← Declaring.addMember .enumMember e.name e.id (owner?.getD scope)
    if owner?.isSome then Declaring.register scope e.name d
    let value := match e.init? with
      | some init => enumLiteral init
      | none => next
    modify fun s => { s with enumValues := s.enumValues.insert d value }
    declareEnumMembers scope owner? (enumSuccessor value) es

/-- Declares an enumeration, if it has a name, and its members. -/
def declareEnum (scope : DeclId) (e : EnumDecl NodeId) : Declaring (Option DeclId) := do
  let owner? ← match e.name? with
    | some name => do pure (some (← Declaring.addMember .enum name e.id scope))
    | none => pure none
  declareEnumMembers scope owner? (Ty.number 0) e.members
  return owner?

mutual

/-- Declares an item and what it contains; `place` is its path, innermost position first. -/
def declareItem (scope : DeclId) (place : List Nat) : Item NodeId → Declaring (Option DeclId)
  | .module id name items => do
    let d ← Declaring.addMember .module name id scope
    declareItems d place 0 items
    return some d
  | .cls id name _ items => do
    let d ← Declaring.addMember .cls name id scope
    declareItems d place 0 items
    return some d
  | .function f => do return some (← declareFunction scope f)
  | .var v => do return some (← declareVar scope v)
  | .enum e => declareEnum scope e
  | .synonym id name spec => do
    let d ← Declaring.addMember .synonym name id scope
    Declaring.update d fun decl => { decl with spec? := some spec }
    return some d

/-- Declares the items of a scope from position `i` on. -/
def declareItems (scope : DeclId) (place : List Nat) (i : Nat) : List (Item NodeId) → Declaring Unit
  | [] => pure ()
  | item :: items => do
    match ← declareItem scope (i :: place) item with
    | some d => Declaring.update d fun decl => { decl with path? := some (i :: place).reverse }
    | none => pure ()
    declareItems scope place (i + 1) items

end

/-- The declarations of a program with the given number of nodes. -/
def Module.declared (root : Module NodeId) (nodes : Nat) : Declared :=
  let start : Declared :=
    { decls := #[{ kind := .module, name := root.name, qualified := root.name, node := root.id }]
      declaredBy := (Array.replicate nodes none).setIfInBounds root.id (some 0) }
  ((declareItems 0 [] 0 root.items).run start).2

end TypeFlow
