/-!
# Settings of the analysis
-/

namespace TypeFlow

/-- The level at which findings of the type check are reported. -/
inductive CheckLevel where
  | off | info | warning | error
  deriving DecidableEq

/-- Which relation a value must have to a declared type. -/
inductive Strictness where
  /-- Every value must belong to the declared type. -/
  | on
  /-- Some value may belong to the declared type. -/
  | off
  /-- As `off`. -/
  | default
  deriving DecidableEq

/-- Settings that control inference and checking. -/
structure Config where
  /-- Without trust nothing is inferred and every node may be anything. -/
  trustDeclaredTypes : Bool := true
  propagateTypes : Bool := true
  checkTypes : CheckLevel := .warning
  strictTypeCheck : Strictness := .default
  /-- How deep the contents of containers are kept where states meet. -/
  wideningDepth : Nat := 4
  /-- How often the blocks of one root may be visited. -/
  maxBlockVisits : Nat := 100000
  /-- How often roots may be run. -/
  maxRootRuns : Nat := 10000
  deriving DecidableEq

namespace CheckLevel

/-- Name of a level in settings. -/
def name : CheckLevel → String
  | off => "OFF"
  | info => "INFO"
  | warning => "WARNING"
  | error => "ERROR"

/-- The level with a name. -/
def ofName? (s : String) : Option CheckLevel :=
  [off, info, warning, error].find? fun l => l.name == s

end CheckLevel

namespace Strictness

/-- Name of a strictness in settings. -/
def name : Strictness → String
  | on => "On"
  | off => "Off"
  | default => "Default"

/-- The strictness with a name. -/
def ofName? (s : String) : Option Strictness := [on, off, default].find? fun x => x.name == s

end Strictness

/-- Whether a value must belong to the declared type in any case. -/
def Config.strict (config : Config) : Bool := config.strictTypeCheck = .on

/-- A kind of setting with the change that a value of it makes. -/
inductive Setting where
  | flag (set : Bool → Config → Config)
  | level (set : CheckLevel → Config → Config)
  | strictness (set : Strictness → Config → Config)
  | limit (set : Nat → Config → Config)

/-- Readers for the kinds of values that settings have in documents of type `α`. -/
structure Setting.Format (α : Type) where
  bool? : α → Option Bool
  /-- The name of one of several choices. -/
  choice? : α → Option String
  natural? : α → Option Nat

namespace Setting

/-- The settings by key, in their fixed order. -/
def all : List (String × Setting) :=
  [("trustDeclaredTypes", .flag fun b c => { c with trustDeclaredTypes := b }),
    ("propagateTypes", .flag fun b c => { c with propagateTypes := b }),
    ("checkTypes", .level fun l c => { c with checkTypes := l }),
    ("strictTypeCheck", .strictness fun s c => { c with strictTypeCheck := s }),
    ("wideningDepth", .limit fun n c => { c with wideningDepth := n }),
    ("maxBlockVisits", .limit fun n c => { c with maxBlockVisits := n }),
    ("maxRootRuns", .limit fun n c => { c with maxRootRuns := n })]

/-- The settings after one of them is given a value; `none` when the value does not suit it. -/
def change? {α : Type} (format : Setting.Format α) (value : α) (config : Config) :
    Setting → Option Config
  | flag set => do return set (← format.bool? value) config
  | level set => do return set (← CheckLevel.ofName? (← format.choice? value)) config
  | strictness set => do return set (← Strictness.ofName? (← format.choice? value)) config
  | limit set => do return set (← format.natural? value) config

end Setting

/-- The settings given by the entries of a document. A known key may be given once; unknown keys do
not count. -/
def Config.ofEntries? {α : Type} (format : Setting.Format α) :
    List (String × α) → Config → Option Config
  | [], config => some config
  | (key, value) :: rest, config =>
    match Setting.all.lookup key with
    | none => ofEntries? format rest config
    | some setting =>
      if rest.any fun e => e.1 == key then none
      else do ofEntries? format rest (← setting.change? format value config)

end TypeFlow
