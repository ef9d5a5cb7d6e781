import TypeFlow.Config.Basic
import TypeFlow.Source.Tree

/-!
# Findings of the type check
-/

namespace TypeFlow

/-- How serious a finding is. -/
inductive Severity where
  | info | warning | error
  deriving DecidableEq

namespace Severity

/-- Name of a severity. -/
def name : Severity → String
  | info => "INFO"
  | warning => "WARNING"
  | error => "ERROR"

/-- The severity of findings under a setting; `none` when nothing is reported. -/
def ofLevel? : CheckLevel → Option Severity
  | .off => none
  | .info => some info
  | .warning => some warning
  | .error => some error

end Severity

/-- A finding about a node. -/
structure Diagnostic where
  node : NodeId
  message : String
  severity : Severity
  deriving DecidableEq

/-- Text of a finding. -/
def Diagnostic.text (d : Diagnostic) : String :=
  d.severity.name ++ " #" ++ toString d.node ++ ": " ++ d.message

end TypeFlow
