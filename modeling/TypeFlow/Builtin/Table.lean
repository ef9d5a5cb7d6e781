import TypeFlow.Builtin.Collection
import TypeFlow.Builtin.Numeric
import TypeFlow.Builtin.Textual

/-!
# The table of modelled library functions
-/

namespace TypeFlow.Builtin

/-- The modelled methods of one class of numbers. -/
def numberMethods (className : String) : List Builtin :=
  [conversion className "toNumber" .number, conversion className "toLong" .long,
    conversion className "toFloat" .float, conversion className "toDouble" .double,
    toText className, absMethod className]

/-- Every modelled library function. -/
def all : List Builtin :=
  collections ++ mathematical ++
    ["Number", "Long", "Float", "Double"].flatMap numberMethods ++ textual

/-- The modelled function with a qualified name. -/
def find? (name : String) : Option Builtin := all.find? fun b => b.name == name

/-- Refined types of a call of the function with a qualified name. -/
def refine? (name : String) (call : BuiltinCall) : Option BuiltinEffect := do
  (← find? name).effect? call

end TypeFlow.Builtin
