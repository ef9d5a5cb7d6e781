import TypeFlow.Source.Make

/-!
# The library of the device

The classes of values with their common methods, the mathematical functions and a few functions of
the system. Nothing in the library has a body.
-/

namespace TypeFlow.Library

/-- A written type from its alternatives. -/
abbrev oneOf (names : List String) : TypeSpec Unit := TypeSpec.ofNames names

variable (name : String)

/-- A declared function. -/
def native (params : List (String × List String)) (returns : List String) :
    Item Unit :=
  .function
    { id := ()
      name
      params := params.map fun (param, names) => { id := (), name := param, spec? := oneOf names }
      returns? := oneOf returns
      body? := none }

/-- A class with its superclass. -/
def subclass (name superclass : String) (items : List (Item Unit)) : Item Unit :=
  .cls () name (some (Path.ofDotted superclass)) items

/-- Every value. -/
def anything : List String := ["Object", "Null"]

/-- The methods of all values. -/
def objectMethods : List (Item Unit) :=
  [native "toString" [] ["String"], native "equals" [("other", anything)] ["Boolean"],
    native "hashCode" [] ["Number"],
    native "method" [("name", ["Symbol"])] ["Method"]]

/-- The methods of numbers. -/
def numericMethods : List (Item Unit) :=
  [native "toNumber" [] ["Number"], native "toLong" [] ["Long"], native "toFloat" [] ["Float"],
    native "toDouble" [] ["Double"],
    native "toChar" [] ["Char"],
    native "format" [("format", ["String"])] ["String"],
    native "abs" [] ["Numeric"]]

/-- The methods of arrays. -/
def arrayMethods : List (Item Unit) :=
  [native "add" [("object", anything)] ["Array"], native "addAll" [("array", ["Array"])] ["Array"],
    native "size" [] ["Number"],
    native "indexOf" [("object", anything)] ["Number"],
    native "remove" [("object", anything)] ["Boolean"],
    native "removeAll" [("object", anything)] ["Boolean"],
    native "slice" [("start", ["Number", "Null"]), ("end", ["Number", "Null"])] ["Array"],
    native "reverse" [] ["Array"]]

/-- The methods of dictionaries. -/
def dictionaryMethods : List (Item Unit) :=
  [native "put" [("key", anything), ("value", anything)] ["Void"],
    native "get" [("key", anything)] anything,
    native "hasKey" [("key", anything)] ["Boolean"],
    native "remove" [("key", anything)] ["Void"],
    native "size" [] ["Number"],
    native "isEmpty" [] ["Boolean"],
    native "keys" [] ["Array"],
    native "values" [] ["Array"]]

/-- The type of arrays of characters. -/
def charArray : TypeSpec Unit := ⟨(), [.named (Path.ofDotted "Array") [oneOf ["Char"]]]⟩

/-- The methods of strings. -/
def stringMethods : List (Item Unit) :=
  [native "length" [] ["Number"],
    native "substring" [("start", ["Number", "Null"]), ("end", ["Number", "Null"])]
      ["String", "Null"],
    native "find" [("string", ["String"])] ["Number", "Null"],
    native "toNumber" [] ["Number", "Null"],
    native "toLong" [] ["Long", "Null"],
    native "toFloat" [] ["Float", "Null"],
    native "toDouble" [] ["Double", "Null"],
    native "toUpper" [] ["String"],
    native "toLower" [] ["String"],
    .function
      { id := (), name := "toCharArray", params := [], returns? := charArray, body? := none }]

/-- The methods of characters. -/
def charMethods : List (Item Unit) :=
  [native "toNumber" [] ["Number"], native "toUpper" [] ["Char"], native "toLower" [] ["Char"]]

/-- The methods of exceptions. -/
def exceptionMethods : List (Item Unit) :=
  [native "getErrorMessage" [] ["String", "Null"], native "printStackTrace" [] ["Void"]]

/-- A class of values, with the methods that all values have. -/
def valueClass (methods : List (Item Unit)) : Item Unit :=
  subclass name "Object" (methods ++ objectMethods)

/-- The classes of values. -/
def lang : Item Unit :=
  .module () "Lang" [.cls () "Object" none objectMethods, valueClass "Boolean" [],
      valueClass "Symbol" [],
      valueClass "Method" [native "invoke" [] anything],
      valueClass "Number" numericMethods,
      valueClass "Long" numericMethods,
      valueClass "Float" numericMethods,
      valueClass "Double" numericMethods,
      valueClass "Char" charMethods,
      valueClass "String" stringMethods,
      valueClass "Array" arrayMethods,
      valueClass "Dictionary" dictionaryMethods,
      subclass "Exception" "Object" exceptionMethods,
      subclass "InvalidValueException" "Exception" exceptionMethods,
      subclass "UnexpectedTypeException" "Exception" exceptionMethods,
      subclass "ValueOutOfBoundsException" "Exception" exceptionMethods,
      native "format" [("format", ["String"]), ("parameters", ["Array"])] ["String"]]

/-- A constant of 32-bit precision. -/
def constant (x : Single) : Item Unit :=
  .var { id := (), name, spec? := oneOf ["Float"], init? := some (.literal () (.float x)),
         isConst := true }

/-- A mathematical function of one argument. -/
def realFunction : Item Unit := native name [("x", ["Numeric"])] ["Float", "Double"]

/-- The mathematical functions. -/
def math : Item Unit :=
  .module () "Math" <| [constant "PI" ⟨0x40490fdb⟩, constant "E" ⟨0x402df854⟩] ++
    ["sqrt", "sin", "cos", "tan", "asin", "acos", "atan", "ln", "floor", "ceil", "round",
      "toRadians", "toDegrees"].map realFunction ++
    [native "atan2" [("y", ["Numeric"]), ("x", ["Numeric"])] ["Float", "Double"],
      native "log" [("x", ["Numeric"]), ("base", ["Numeric"])] ["Float", "Double"],
      native "pow" [("x", ["Numeric"]), ("y", ["Numeric"])] ["Numeric"],
      native "abs" [("x", ["Numeric"])] ["Numeric"],
      native "rand" [] ["Number"],
      native "srand" [("seed", ["Number"])] ["Void"]]

/-- The functions of the system. -/
def system : Item Unit :=
  .module () "System" [native "println" [("output", anything)] ["Void"],
      native "print" [("output", anything)] ["Void"],
      native "getTimer" [] ["Number"],
      native "exit" [] ["Void"]]

/-- The library. -/
def toybox : Item Unit := .module () "Toybox" [lang, math, system]

end TypeFlow.Library
