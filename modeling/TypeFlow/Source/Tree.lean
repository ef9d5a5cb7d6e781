import TypeFlow.Binary.Basic
import TypeFlow.Source.Operator

/-!
# Source trees

The tree of a program, as a front end hands it over. Every node carries a label of type `ι`: a tree
that has just been built carries nothing, a tree that is analysed carries the numbers of its nodes.
-/

namespace TypeFlow

/-- Number of a node. -/
abbrev NodeId := Nat

/-- A dotted name. -/
structure Path (ι : Type) where
  id : ι
  segments : List String

/-- The path with dots. -/
def Path.dotted {ι : Type} (p : Path ι) : String := ".".intercalate p.segments

/-- A list of alternatives that share a label. -/
structure Alternatives (ι ρ : Type) where
  id : ι
  parts : List ρ

/-- One alternative of a written type. -/
inductive TypeRef (ι : Type) where
  /-- A name with type arguments. -/
  | named (path : Path ι) (args : List (Alternatives ι (TypeRef ι)))
  /-- An array of fixed length, with the type of each slot. -/
  | tuple (id : ι) (slots : List (Alternatives ι (TypeRef ι)))

/-- A written type: the union of its parts. -/
abbrev TypeSpec (ι : Type) := Alternatives ι (TypeRef ι)

/-- Values written in a program. -/
inductive Literal where
  | null
  | bool (b : Bool)
  | number (n : Int32)
  | long (n : Int64)
  | float (x : Single)
  | double (x : Double)
  | char (c : Char)
  | string (s : String)
  deriving DecidableEq

/-- The kind of a literal and its value as text, by which literals are told apart. -/
def Literal.raw : Literal → String × String
  | null => ("null", "")
  | bool b => ("bool", toString b)
  | number n => ("number", toString n.toInt)
  | long n => ("long", toString n.toInt)
  | float x => ("float", toString x.bits.toNat)
  | double x => ("double", toString x.bits.toNat)
  | char c => ("char", toString c.toNat)
  | string s => ("string", s)

/-- Expressions. -/
inductive Expr (ι : Type) where
  | literal (id : ι) (value : Literal)
  | symbol (id : ι) (name : String)
  | ident (id : ι) (name : String)
  | self (id : ι)
  | member (id : ι) (object : Expr ι) (property : String)
  | index (id : ι) (object position : Expr ι)
  | call (id : ι) (callee : Expr ι) (args : List (Expr ι))
  /-- The construction of an object. -/
  | create (id : ι) (cls : Expr ι) (args : List (Expr ι))
  | unary (id : ι) (op : UnaryOp) (operand : Expr ι)
  | binary (id : ι) (op : BinaryOp) (left right : Expr ι)
  | logical (id : ι) (op : LogicalOp) (left right : Expr ι)
  | conditional (id : ι) (test yes no : Expr ι)
  | array (id : ι) (elements : List (Expr ι))
  | dictionary (id : ι) (entries : List (Expr ι × Expr ι))
  | cast (id : ι) (operand : Expr ι) (spec : TypeSpec ι)
  | instanceOf (id : ι) (operand cls : Expr ι)
  /-- The test whether an object provides a member. -/
  | has (id : ι) (object : Expr ι) (property : String)

/-- A variable or constant with its written type and its first value. -/
structure VarDecl (ι : Type) where
  id : ι
  name : String
  spec? : Option (TypeSpec ι)
  init? : Option (Expr ι)
  isConst : Bool := false
  isStatic : Bool := false

/-- Statements in braces. -/
structure Braced (ι σ : Type) where
  id : ι
  stmts : List σ

/-- One case of a switch; the default case has no test. -/
structure Case (ι σ : Type) where
  id : ι
  test? : Option (Expr ι)
  body : List σ

/-- One handler of exceptions, for all of them or for those of one class. -/
structure Handler (ι σ : Type) where
  id : ι
  param : String
  cls? : Option (Path ι)
  body : Braced ι σ

/-- Statements. -/
inductive Stmt (ι : Type) where
  | var (id : ι) (decl : VarDecl ι)
  | expr (id : ι) (value : Expr ι)
  /-- An assignment; with an operator, the target is the left operand. -/
  | assign (id : ι) (target : Expr ι) (op? : Option BinaryOp) (value : Expr ι)
  | ret (id : ι) (value? : Option (Expr ι))
  | branch (id : ι) (test : Expr ι) (yes : Braced ι (Stmt ι)) (no? : Option (Braced ι (Stmt ι)))
  | whileLoop (id : ι) (test : Expr ι) (body : Braced ι (Stmt ι))
  | doLoop (id : ι) (body : Braced ι (Stmt ι)) (test : Expr ι)
  | forLoop (id : ι) (init : List (Stmt ι)) (test? : Option (Expr ι)) (update : List (Stmt ι))
      (body : Braced ι (Stmt ι))
  | switch (id : ι) (subject : Expr ι) (cases : List (Case ι (Stmt ι)))
  /-- Leaves the innermost loop or switch. -/
  | leave (id : ι)
  /-- Starts the next round of the innermost loop. -/
  | next (id : ι)
  | raise (id : ι) (value : Expr ι)
  /-- Statements with handlers and with statements that run at the end in any case. -/
  | attempt (id : ι) (body : Braced ι (Stmt ι)) (handlers : List (Handler ι (Stmt ι)))
      (finalizer? : Option (Braced ι (Stmt ι)))
  | block (id : ι) (body : Braced ι (Stmt ι))

/-- A block of statements, which opens a scope. -/
abbrev Block (ι : Type) := Braced ι (Stmt ι)

/-- A parameter with its written type. -/
structure Param (ι : Type) where
  id : ι
  name : String
  spec? : Option (TypeSpec ι)

/-- A function or method. -/
structure Function (ι : Type) where
  id : ι
  name : String
  params : List (Param ι)
  returns? : Option (TypeSpec ι)
  /-- Absent for functions that are only declared. -/
  body? : Option (Block ι)
  isStatic : Bool := false
  /-- Whether the function is exempt from the propagation of types. -/
  isExempt : Bool := false

/-- A member of an enumeration with its written value. -/
structure EnumMember (ι : Type) where
  id : ι
  name : String
  init? : Option (Expr ι)

/-- An enumeration; without a name it only declares its members. -/
structure EnumDecl (ι : Type) where
  id : ι
  name? : Option String
  members : List (EnumMember ι)

/-- What a module or class may contain. -/
inductive Item (ι : Type) where
  | module (id : ι) (name : String) (items : List (Item ι))
  | cls (id : ι) (name : String) (extends? : Option (Path ι)) (items : List (Item ι))
  | function (decl : Function ι)
  | var (decl : VarDecl ι)
  | enum (decl : EnumDecl ι)
  | synonym (id : ι) (name : String) (spec : TypeSpec ι)

/-- A whole program: its outermost module. -/
structure Module (ι : Type) where
  id : ι
  name : String
  items : List (Item ι)

namespace Expr

variable {ι : Type}

/-- The label of an expression. -/
def id : Expr ι → ι
  | literal i _ | symbol i _ | ident i _ | self i | member i _ _ | index i _ _ | call i _ _
  | create i _ _ | unary i _ _ | binary i _ _ _ | logical i _ _ _ | conditional i _ _ _
  | array i _ | dictionary i _ | cast i _ _ | instanceOf i _ _ | has i _ _ => i

/-- The dotted name of an identifier or of a chain of members of an identifier. -/
def dottedName? : Expr ι → Option String
  | ident _ name => some name
  | member _ object property => object.dottedName?.map fun base => base ++ "." ++ property
  | _ => none

end Expr

/-- The label of a statement. -/
def Stmt.id {ι : Type} : Stmt ι → ι
  | .var i _ | .expr i _ | .assign i _ _ _ | .ret i _ | .branch i _ _ _ | .whileLoop i _ _
  | .doLoop i _ _ | .forLoop i _ _ _ _ | .switch i _ _ | .leave i | .next i | .raise i _
  | .attempt i _ _ _ | .block i _ => i

/-- Name of the kind of an item. -/
def Item.kindName {ι : Type} : Item ι → String
  | .module .. => "Module"
  | .cls .. => "Class"
  | .function _ => "Function"
  | .var _ => "Var"
  | .enum _ => "Enum"
  | .synonym .. => "Typedef"

/-- What an item contains. -/
def Item.items {ι : Type} : Item ι → List (Item ι)
  | .module _ _ items | .cls _ _ _ items => items
  | _ => []

/-- The item at the end of a path of positions. -/
def itemAt? {ι : Type} (items : List (Item ι)) : List Nat → Option (Item ι)
  | [] => none
  | [i] => items[i]?
  | i :: rest => do itemAt? (← items[i]?).items rest

end TypeFlow
