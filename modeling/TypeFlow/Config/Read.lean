import TypeFlow.Config.Json
import TypeFlow.Config.Toml
import TypeFlow.Text.Dotted

/-!
# Reading settings from a file
-/

namespace TypeFlow

/-- Why settings could not be read. -/
inductive ConfigError where
  /-- There is no text. -/
  | reading
  /-- The text does not give settings. -/
  | parsing
  deriving DecidableEq

/-- Name of an error. -/
def ConfigError.name : ConfigError → String
  | reading => "reading"
  | parsing => "parsing"

namespace Config

/-- Whether a file name ends in an extension, in letters of any case. -/
def hasExtension (fileName extension : String) : Bool :=
  match (dottedSegments fileName).reverse with
  | last :: _ :: _ => last.map Char.toLower == extension
  | _ => false

/-- The settings of a file with the given name and text, if it has one. A file of extension `toml`
is a TOML document, any other file is a JSON document. -/
def ofFile (fileName : String) (text? : Option String) : Except ConfigError Config :=
  match text? with
  | none => .error .reading
  | some text =>
    let config? :=
      if hasExtension fileName "toml" then (Toml.read? text).bind ofToml?
      else (Json.read? text).bind ofJson?
    match config? with
    | some config => .ok config
    | none => .error .parsing

end Config

end TypeFlow
