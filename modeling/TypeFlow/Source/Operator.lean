/-!
# Operators of the source language
-/

namespace TypeFlow

/-- Operators with one operand. -/
inductive UnaryOp where
  | neg | plus | not | bitNot
  deriving DecidableEq

/-- Operators with two operands, comparisons included. -/
inductive BinaryOp where
  | add | sub | mul | div | mod
  | shl | shr | bitAnd | bitOr | bitXor
  | eq | ne | lt | le | gt | ge
  deriving DecidableEq

/-- Operators that may skip their right operand. -/
inductive LogicalOp where
  | and | or
  deriving DecidableEq

namespace UnaryOp

/-- Spelling of the operator. -/
def symbol : UnaryOp → String
  | neg => "-"
  | plus => "+"
  | .not => "!"
  | bitNot => "~"

/-- Every operator. -/
def all : List UnaryOp := [neg, plus, .not, bitNot]

/-- The operator with the given spelling. -/
def ofSymbol? (s : String) : Option UnaryOp := all.find? fun op => op.symbol == s

end UnaryOp

namespace BinaryOp

/-- Spelling of the operator. -/
def symbol : BinaryOp → String
  | add => "+"
  | sub => "-"
  | mul => "*"
  | div => "/"
  | mod => "%"
  | shl => "<<"
  | shr => ">>"
  | bitAnd => "&"
  | bitOr => "|"
  | bitXor => "^"
  | eq => "=="
  | ne => "!="
  | lt => "<"
  | le => "<="
  | gt => ">"
  | ge => ">="

/-- Every operator. -/
def all : List BinaryOp :=
  [add, sub, mul, div, mod, shl, shr, bitAnd, bitOr, bitXor, eq, ne, lt, le, gt, ge]

/-- The operator with the given spelling. -/
def ofSymbol? (s : String) : Option BinaryOp := all.find? fun op => op.symbol == s

/-- Whether the operator compares its operands. -/
def isComparison : BinaryOp → Bool
  | eq | ne | lt | le | gt | ge => true
  | _ => false

/-- Whether the operator works on the bits of integers. -/
def isBitwise : BinaryOp → Bool
  | shl | shr | bitAnd | bitOr | bitXor => true
  | _ => false

end BinaryOp

end TypeFlow
