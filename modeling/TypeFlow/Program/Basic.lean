import TypeFlow.Program.Library
import TypeFlow.Program.Spec
import TypeFlow.Source.Traverse
import TypeFlow.Ty.Typedef

/-!
# Programs

A `Program` is a numbered tree with its declarations, the meanings of its names, the expansions of
its typedefs and the values of its enumeration members. `Source.program` builds it.
-/

namespace TypeFlow

/-- What a program is built from. -/
structure Source where
  root : Module Unit
  /-- Whether the library is added, unless the program declares a module of its name. -/
  withLibrary : Bool := true
  /-- Qualified names that are made visible everywhere. -/
  imports : List String := []

/-- A program that consists of some items only. -/
def Source.ofItems (items : List (Item Unit)) (imports : List String := []) : Source :=
  { root := ⟨(), "", items⟩, withLibrary := false, imports }

/-- A program whose names are resolved. -/
structure Program extends Names where
  root : Module NodeId
  nodeCount : Nat
  typedefs : List (DeclId × Expansion)
  enumValues : NumMap Ty
  /-- What types know about the declarations. -/
  table : DeclTable

namespace Source

/-- The tree with the library, if it is added. -/
def completed (source : Source) : Module Unit :=
  let declared := source.root.items.any fun
    | .module _ name _ => name = "Toybox"
    | _ => false
  if source.withLibrary && !declared then
    { source.root with items := source.root.items ++ [Library.toybox] }
  else source.root

/-- The imported declarations; the part of the library that describes values is always among
them. -/
def importedFrom (source : Source) (ds : Declarations) : List DeclId :=
  let imports := source.imports.filterMap ds.find?
  match ds.find? "Toybox.Lang" with
  | some lang => if imports.contains lang then imports else imports ++ [lang]
  | none => imports

/-- The definitions of all typedefs. -/
def definitions (names : Names) : List (DeclId × Ty) :=
  (List.range names.decls.size).filterMap fun d =>
    let decl := names.decl d
    if decl.kind = .synonym then
      some (d, match decl.spec? with
        | some spec => names.typeOfSpec spec
        | none => Ty.any)
    else none

/-- The program of a source. -/
def program (source : Source) : Program :=
  let (root, nodeCount) := source.completed.number
  let declared := root.declared nodeCount
  let imports := source.importedFrom { decls := declared.decls }
  let names := root.resolved nodeCount declared imports
  let typedefs := Expansion.all (definitions names)
  { toNames := names
    root
    nodeCount
    typedefs
    enumValues := declared.enumValues
    table :=
      { expansions := typedefs.map fun e => (e.1, e.2.ty)
        superclasses := names.superclasses
        names := (Array.range names.decls.size).map names.displayName } }

end Source

namespace Program

variable (p : Program) (d : DeclId)

/-- The item that declares a module, class, function, variable, named enumeration or typedef. -/
def item? : Option (Item NodeId) := do
  itemAt? p.root.items (← (p.decl d).path?)

/-- The function that a declaration stands for. -/
def function? : Option (Function NodeId) :=
  match p.item? d with
  | some (.function f) => some f
  | _ => none

/-- The variable that a declaration stands for. -/
def var? : Option (VarDecl NodeId) :=
  match p.item? d with
  | some (.var v) => some v
  | _ => none

/-- The items of a module; `none` when the declaration is not a module. -/
def moduleItems? : Option (List (Item NodeId)) :=
  if d = 0 then some p.root.items
  else
    match p.item? d with
    | some (.module _ _ items) => some items
    | _ => none

/-- The items of a class; `none` when the declaration is not a class. -/
def classItems? : Option (List (Item NodeId)) :=
  match p.item? d with
  | some (.cls _ _ _ items) => some items
  | _ => none

/-- The items of a module or class. -/
def scopeItems : List (Item NodeId) := ((p.moduleItems? d).or (p.classItems? d)).getD []

/-- Whether a declaration is a function with a body. -/
def hasBody : Bool :=
  match p.function? d with
  | some f => f.body?.isSome
  | none => false

/-- Whether a declaration is analysed on its own: a module, a class or a function with a body. -/
def isRoot : Bool :=
  match (p.decl d).kind with
  | .module | .cls => true
  | .function => p.hasBody d
  | _ => false

/-- All declarations that are analysed on their own. -/
def roots : List DeclId := (List.range p.decls.size).filter p.isRoot

/-- The expansion of a typedef. -/
def expansion? : Option Expansion := p.typedefs.lookup d

/-- The declared type of a declaration. -/
def declaredType? : Option Ty := (p.decl d).spec?.map p.typeOfSpec

/-- The type of the instances of a class. The library classes of values stand for their tags. -/
def instanceType (c : DeclId) : Ty :=
  let tags? := if p.isLanguage c then languageTags? (p.decl c).name else none
  match tags? with
  | some tags => Ty.ofTags tags
  | none => Ty.object (DeclSet.one c)

end Program

end TypeFlow
