import TypeFlow.Eval.Context
import TypeFlow.Ty.Meet

/-!
# Members of values

The member of a value is looked up for each tag of its type: in modules and classes, in the classes
of an object and the scopes around them, in the underlying value of an enumeration member, and in
the library class of any other value. Parts of the value without the member throw, so after the
access only the parts with the member are left.
-/

namespace TypeFlow

/-- The library classes of values. -/
def languageClassName : Tag → Option String
  | .false | .true => some "Boolean"
  | .number => some "Number"
  | .long => some "Long"
  | .float => some "Float"
  | .double => some "Double"
  | .char => some "Char"
  | .string => some "String"
  | .symbol => some "Symbol"
  | .array => some "Array"
  | .dictionary => some "Dictionary"
  | .method => some "Method"
  | .object => some "Object"
  | _ => none

/-- What the access of a member gives. -/
structure MemberAccess where
  ty : Ty
  /-- The parts of the object that provide the member, if these are not all of it. -/
  receiver? : Option Ty := none
  mayThrow : Bool := false

namespace Context

variable (ctx : Context)

/-- The type of references to declarations, unless there are none. -/
def foundType (found : List DeclId) : Evaluating (Option Ty) := do
  if found.isEmpty then return none else return some (← ctx.valueTypes found)

/-- A member of modules or classes. -/
def staticMember (scopes : DeclSet) (property : String) : Evaluating (Option Ty) :=
  ctx.foundType (scopes.ids.flatMap fun s => ctx.program.scopeMember s property)

/-- The declarations of a member of the instances of a class: those of the class, or else those of
the scope around it. -/
def instanceMembers (property : String) (c : DeclId) : List DeclId :=
  match ctx.program.scopeMember c property with
  | [] =>
    match (ctx.program.decl c).parent? with
    | some parent => ctx.program.scopeMember (ctx.program.enclosingScope parent) property
    | none => []
  | members => members

/-- A member of objects. -/
def objectMember (part : Ty) (property : String) : Evaluating (Option Ty) :=
  match part.data.head? with
  | some (.object classes shape) =>
    match shape.bind fun fields => fields.lookup property with
    | some t => pure (some t)
    | none => ctx.foundType (classes.ids.flatMap (ctx.instanceMembers property))
  | _ => pure (some Ty.any)

/-- A member of the values of a tag. Without the library nothing is known about it. -/
def valueMember (tag : Tag) (property : String) : Evaluating (Option Ty) :=
  match (languageClassName tag).bind fun name => ctx.program.languageClass? name with
  | some c => ctx.foundType (ctx.program.scopeMember c property)
  | none => pure (some Ty.any)

variable (inner : Ty → Evaluating MemberAccess)

/-- A member of the part of one tag of a type, where `inner` looks into underlying values. -/
def partMember (tag : Tag) (part : Ty) (property : String) : Evaluating (Option Ty) :=
  match tag with
  | .module | .cls =>
    match part.data.head?.bind Payload.decls? with
    | some scopes => ctx.staticMember scopes property
    | none => pure (some Ty.any)
  | .object => ctx.objectMember part property
  | .enum => do
    let access ← inner part.enumValue
    return access.ty.nonempty?
  | .null | .function | .synonym => pure none
  | _ => ctx.valueMember tag property

/-- Adds the part of one tag to the type of a member and to the parts that provide it. -/
def addPart (object : Ty) (property : String)
    (acc : Ty × Ty) (tag : Tag) : Evaluating (Ty × Ty) := do
  let part := object.part tag
  match ← ctx.partMember inner tag part property with
  | some t => return (acc.1.union t, acc.2.union part)
  | none => return acc

/-- The access of a member; the first argument bounds how far underlying values are followed. -/
def memberWithin (ctx : Context) (property : String) : Nat → Ty → Evaluating MemberAccess
  | 0, _ => pure { ty := Ty.any }
  | n + 1, object => do
    let object := object.expand ctx.table
    if object.isNever then return { ty := Ty.never }
    else
      let (ty, provided) ← object.tags.toList.foldlM
        (ctx.addPart (ctx.memberWithin property n) object property) (Ty.never, Ty.never)
      if provided.isNever then return { ty := Ty.any, mayThrow := true }
      else if provided = object then return { ty }
      else return { ty, receiver? := some provided, mayThrow := true }

/-- The access of a member of a value. -/
def memberAccess (object : Ty) (property : String) : Evaluating MemberAccess :=
  ctx.memberWithin property (object.depth + ctx.table.weight + 2) object

/-- The receiver of a method as the library sees it: a method of a class of values sees only the
parts of that class. -/
def receiverFor (method : DeclId) (receiver : Ty) : Ty :=
  let p := ctx.program
  let tags? := do
    let c ← (p.decl method).parent?
    if p.isLanguage c then languageTags? (p.decl c).name else none
  match tags?.filter fun tags => tags ≠ Tags.single .object with
  | some tags => ((receiver.enumToValue.restrictedTo tags).nonempty?).getD receiver
  | none => receiver

end Context

end TypeFlow
