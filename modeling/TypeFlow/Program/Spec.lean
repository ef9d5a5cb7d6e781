import TypeFlow.Program.Resolve

/-!
# The type that a written type denotes

Names of the language's own types denote sets of tags, whether or not the library that declares
their classes is there. Other names denote instances of classes, typedefs, members of enumerations
and modules; a name without meaning denotes every value.
-/

namespace TypeFlow

/-- The language's own types, by name. -/
def languageTags? : String → Option Tags
  | "Null" | "Void" => some (Tags.single .null)
  | "Boolean" => some Tags.boolean
  | "Number" => some (Tags.single .number)
  | "Long" => some (Tags.single .long)
  | "Float" => some (Tags.single .float)
  | "Double" => some (Tags.single .double)
  | "Numeric" => some Tags.numeric
  | "Decimal" => some Tags.decimal
  | "Char" => some (Tags.single .char)
  | "String" => some (Tags.single .string)
  | "Symbol" => some (Tags.single .symbol)
  | "Array" => some (Tags.single .array)
  | "Dictionary" => some (Tags.single .dictionary)
  | "Method" => some (Tags.single .method)
  | "Object" => some (Tags.single .object)
  | "Any" => some Tags.any
  | _ => none

namespace Names

/-- The type that a reference to a declaration denotes. -/
def typeOfDecl (names : Names) (d : DeclId) : Ty :=
  match (names.decl d).kind with
  | .cls => Ty.object (DeclSet.one d)
  | .synonym => Ty.exact (.synonym (DeclSet.one d))
  | .enum => Ty.enumeration (some d) none
  | .module => Ty.exact (.module (DeclSet.one d))
  | _ => Ty.any

/-- The name of the language's own type that a path may stand for. -/
def languageName? (names : Names) (path : Path NodeId) : Option String :=
  match names.lookup path.id with
  | [] => path.segments.getLast?
  | [d] =>
    if names.isLanguage d && (names.decl d).kind = .cls then some (names.decl d).name else none
  | _ => none

/-- The type of one of the language's own types with type arguments. -/
def languageType (tags : Tags) : List Ty → Ty
  | [element] => if tags = Tags.single .array then Ty.array element else Ty.ofTags tags
  | [key, value] =>
    if tags = Tags.single .dictionary then Ty.dictionary key value else Ty.ofTags tags
  | _ => Ty.ofTags tags

/-- The type of a path with type arguments. -/
def namedType (names : Names) (path : Path NodeId) (args : List Ty) : Ty :=
  match (names.languageName? path).bind languageTags? with
  | some tags => languageType tags args
  | none =>
    match names.lookup path.id with
    | [] => Ty.any
    | found => Ty.unionAll (found.map names.typeOfDecl)

mutual

/-- The type of one alternative. -/
def typeOfRef (names : Names) : TypeRef NodeId → Ty
  | .named path args => names.namedType path (names.typesOfSpecs args)
  | .tuple _ slots => Ty.tuple (names.typesOfSpecs slots)

/-- The type that a written type denotes. -/
def typeOfSpec (names : Names) : Alternatives NodeId (TypeRef NodeId) → Ty
  | ⟨_, parts⟩ => Ty.unionAll (names.typesOfRefs parts)

def typesOfSpecs (names : Names) : List (Alternatives NodeId (TypeRef NodeId)) → List Ty
  | [] => []
  | s :: ss => names.typeOfSpec s :: names.typesOfSpecs ss

def typesOfRefs (names : Names) : List (TypeRef NodeId) → List Ty
  | [] => []
  | r :: rs => names.typeOfRef r :: names.typesOfRefs rs

end

end Names

end TypeFlow
