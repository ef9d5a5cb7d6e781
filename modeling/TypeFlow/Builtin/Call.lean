import TypeFlow.Ty.Overlap
import TypeFlow.Ty.Subtype

/-!
# Calls of library functions

A modelled library function refines the type of a call beyond its declared signature. It sees the
types of the operands and answers with the type of the result and, when it changes the object it is
called on, the new type of that object.
-/

namespace TypeFlow

/-- Operand types of one call. -/
structure BuiltinCall where
  table : DeclTable
  /-- The object whose method is called, restricted to the parts that provide it; `none` for the
  functions of a module. -/
  receiver? : Option Ty
  args : List Ty

/-- Refined types of one call. -/
structure BuiltinEffect where
  result : Ty
  /-- New type of the receiver, when the call changes it. -/
  receiver? : Option Ty := none
  deriving DecidableEq

/-- A modelled library function; `none` leaves the call to its declared signature. -/
structure Builtin where
  name : String
  effect? : BuiltinCall → Option BuiltinEffect

namespace BuiltinCall

/-- The receiver, when it has the given tag and no other. -/
def only? (call : BuiltinCall) (tag : Tag) : Option Ty :=
  call.receiver?.filter fun r => r.tags = Tags.single tag

/-- The argument at a position, enum members replaced by their values. -/
def argValue? (call : BuiltinCall) (i : Nat) : Option Ty := call.args[i]?.map Ty.enumToValue

end BuiltinCall

end TypeFlow
