/-!
# Dotted names
-/

namespace TypeFlow

/-- The pieces of a text between its dots; a text without dots is one piece. -/
def dottedPieces : List Char → List (List Char)
  | [] => [[]]
  | c :: cs =>
    match dottedPieces cs with
    | [] => [[c]]
    | piece :: pieces => if c = '.' then [] :: piece :: pieces else (c :: piece) :: pieces

/-- The segments of a dotted name. -/
def dottedSegments (name : String) : List String := (dottedPieces name.toList).map String.ofList

/-- Whether a text starts with another one. -/
def startsText (start text : String) : Bool := start.toList.isPrefixOf text.toList

end TypeFlow
