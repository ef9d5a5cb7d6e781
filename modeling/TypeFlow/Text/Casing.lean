import TypeFlow.Text.CaseTable

/-!
# Upper and lower case of a text

Conversion goes character by character, except that a capital sigma at the end of a word becomes a
final sigma in lower case.
-/

namespace TypeFlow.Text

/-- Characters a character is converted to, given the runs and the expansions of a direction. -/
def convertCase (runs : List CaseRun) (expansions : List (Nat × List Nat)) (c : Char) :
    List Char :=
  let n := c.toNat
  match expansions.lookup n with
  | some cs => cs.map Char.ofNat
  | none =>
    match runs.find? fun r => r.first ≤ n && n ≤ r.last && (n - r.first) % r.step == 0 with
    | some r => [Char.ofNat (n + r.offset).toNat]
    | none => [c]

/-- Whether the first character that is not skipped has a case. -/
def nextIsCased (cs : List Char) : Bool :=
  match cs.dropWhile (fun c => inRanges caseIgnorableBounds c.toNat) with
  | [] => false
  | c :: _ => inRanges casedBounds c.toNat

/-- Lower case of the characters `cs`; `before` holds what precedes them, nearest first. -/
def lowerFrom (before : List Char) : List Char → List Char
  | [] => []
  | c :: cs =>
    let converted :=
      if c == 'Σ' then [if nextIsCased before && !nextIsCased cs then 'ς' else 'σ']
      else convertCase lowerRuns lowerExpansions c
    converted ++ lowerFrom (c :: before) cs

/-- The text in upper case. -/
def toUpper (s : String) : String :=
  String.ofList (s.toList.flatMap (convertCase upperRuns upperExpansions))

/-- The text in lower case. -/
def toLower (s : String) : String := String.ofList (lowerFrom [] s.toList)

end TypeFlow.Text
