import TypeFlow.DeclTable
import TypeFlow.Source.Tree
import TypeFlow.Text.Dotted

/-!
# Declarations

Everything that has a name in a program is a declaration. Declarations are numbered, the outermost
module first and every other one after the declaration that encloses it. `Declarations` answers the
questions about names that do not concern the parameters and variables of functions.
-/

namespace TypeFlow

/-- What a declaration declares. -/
inductive DeclKind where
  | module
  | cls
  | function
  /-- A variable or constant of a module or class. -/
  | var
  | enum
  | enumMember
  | synonym
  | param
  /-- A variable of a function or the parameter of a handler. -/
  | localVar
  deriving DecidableEq

namespace DeclKind

/-- Name of a kind. -/
def name : DeclKind → String
  | module => "Module"
  | .cls => "Class"
  | function => "Function"
  | var => "Var"
  | enum => "Enum"
  | enumMember => "EnumMember"
  | synonym => "Typedef"
  | param => "Param"
  | localVar => "Local"

/-- Whether declarations of this kind have members. -/
def isScope : DeclKind → Bool
  | module | .cls | enum => true
  | _ => false

/-- Whether declarations of this kind belong to a function. -/
def isLocal : DeclKind → Bool
  | param | localVar => true
  | _ => false

end DeclKind

/-- One declaration. -/
structure Decl where
  kind : DeclKind
  name : String
  /-- The name with those of the enclosing declarations, the outermost module left out. -/
  qualified : String
  parent? : Option DeclId := none
  /-- The node that declares it. -/
  node : NodeId := 0
  /-- The written type of a variable or parameter, of a function's result or of a typedef. -/
  spec? : Option (TypeSpec NodeId) := none
  params : List DeclId := []
  /-- The declarations of each member name, in the order in which the names first appear. -/
  members : List (String × List DeclId) := []
  /-- Where its item is in the tree. -/
  path? : Option (List Nat) := none
  isStatic : Bool := false
  isConst : Bool := false
  isExempt : Bool := false

instance : Inhabited Decl := ⟨{ kind := .module, name := "", qualified := "" }⟩

/-- Adds a declaration of a member name. -/
def addMember (name : String) (d : DeclId) :
    List (String × List DeclId) → List (String × List DeclId)
  | [] => [(name, [d])]
  | (n, ds) :: rest => if n = name then (n, ds ++ [d]) :: rest else (n, ds) :: addMember name d rest

/-- The declarations of a program, as far as names are concerned. -/
structure Declarations where
  decls : Array Decl := #[]
  /-- Direct superclasses, by number of the class. -/
  superclasses : Array (List DeclId) := #[]
  /-- Declarations that are visible everywhere by their own name. -/
  imports : List DeclId := []

namespace Declarations

variable (ds : Declarations) (d : DeclId)

/-- The declaration with a number. -/
def decl : Decl := ds.decls.getD d default

/-- A declaration and the `n` next ones that enclose it, from the inside out. -/
def chainWithin (ds : Declarations) : Nat → DeclId → List DeclId
  | 0, d => [d]
  | n + 1, d =>
    match (ds.decl d).parent? with
    | some p => d :: ds.chainWithin n p
    | none => [d]

/-- A declaration and all that enclose it, from the inside out. -/
def chain : List DeclId := ds.chainWithin d d

/-- The innermost declaration that satisfies a test, from `d` outwards. -/
def enclosing? (test : Decl → Bool) : Option DeclId := (ds.chain d).find? fun e => test (ds.decl e)

/-- The innermost module or class, from `d` outwards. -/
def enclosingScope : DeclId := (ds.enclosing? d fun e => e.kind = .module || e.kind = .cls).getD 0

/-- The innermost class, from `d` outwards. -/
def enclosingClass? : Option DeclId := ds.enclosing? d fun e => e.kind = .cls

variable (scope : DeclId) (name : String)

/-- The declarations that a scope itself has under a name. -/
def ownMember : Option (List DeclId) := (ds.decl scope).members.lookup name

/-- Searches the scopes on a stack, and what classes among them inherit from, for a name. The
superclasses of a class are put on the stack from right to left, so the first one comes next. -/
def searchMember (ds : Declarations) (name : String) : Nat → List DeclId → List DeclId → List DeclId
  | n + 1, s :: stack, seen =>
    if seen.contains s then ds.searchMember name n stack seen
    else
      match ds.ownMember s name with
      | some found => found
      | none =>
        let stack :=
          if (ds.decl s).kind = .cls then pushAll stack (ds.superclasses.getD s []).reverse
          else stack
        ds.searchMember name n stack (seen ++ [s])
  | _, _, _ => []

/-- The declarations that a scope has under a name; a class without its own inherits them. -/
def scopeMember : List DeclId :=
  ds.searchMember name (DeclTable.searchBound ds.superclasses) [scope] []

/-- What a name means in a scope: a member of the innermost scope that has one, or else what is
imported under that name. -/
def lookupFrom : List DeclId :=
  let found := (ds.chain scope).findSome? fun s =>
    if (ds.decl s).kind.isScope then
      match ds.scopeMember s name with
      | [] => none
      | members => some members
    else none
  found.getD (ds.imports.filter fun d => (ds.decl d).name = name)

/-- The members of all owners under a name, each once; nothing when an owner has no members. -/
def membersOf (owners : List DeclId) (name : String) : List DeclId :=
  if owners.all fun d => (ds.decl d).kind.isScope then
    (owners.flatMap fun d => ds.scopeMember d name).foldl
      (fun found d => if found.contains d then found else found ++ [d]) []
  else []

/-- What a dotted name means in a scope. -/
def lookupPath : List String → List DeclId
  | [] => []
  | first :: rest => rest.foldl ds.membersOf (ds.lookupFrom scope first)

/-- The first declaration with a qualified name. -/
def find? (qualified : String) : Option DeclId :=
  (dottedSegments qualified).foldlM (fun d name => do (← ds.ownMember d name).head?) 0

/-- The library class of a kind of values. -/
def languageClass? : Option DeclId := ds.find? ("Toybox.Lang." ++ name)

/-- Whether a declaration belongs to the library. -/
def isLibrary : Bool :=
  let name := (ds.decl d).qualified
  name = "Toybox" || startsText "Toybox." name

/-- Whether a declaration belongs to the part of the library that describes values. -/
def isLanguage : Bool := startsText "Toybox.Lang." (ds.decl d).qualified

/-- Name of a declaration in printed types. -/
def displayName : String :=
  if (ds.decl d).kind = .synonym || ds.isLanguage d then (ds.decl d).name
  else (ds.decl d).qualified

end Declarations

end TypeFlow
