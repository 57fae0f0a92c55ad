import DocTypes.Config.Toml
import DocTypes.Files.Path

namespace DocTypes

inductive OutputFormat where
  | text
  | json
deriving DecidableEq, Repr

namespace OutputFormat

def name : OutputFormat → String
  | text => "text"
  | json => "json"

def ofName? (name : String) : Option OutputFormat :=
  match name with
  | "text" => some .text
  | "json" => some .json
  | _ => none

end OutputFormat

structure Config where
  /-- Whether a check that cannot be completed ends the run. -/
  strict : Bool := false
  format : OutputFormat := .text
  /-- Patterns of paths to leave out. -/
  exclude : List String := []
  /-- The extensions of the files to check, without the dot. -/
  extensions : List String := ["php"]
deriving DecidableEq, Repr

namespace Config

/-- The configuration with one setting made; `none` for an unknown setting or a wrong value. -/
def set? (config : Config) : String × Toml.Value → Option Config
  | ("strict", .bool strict) => some { config with strict }
  | ("format", .text name) => (OutputFormat.ofName? name).map fun format => { config with format }
  | ("exclude", .texts exclude) => some { config with exclude }
  | ("extensions", .texts extensions) => some { config with extensions }
  | _ => none

/-- The configuration that a settings file gives. -/
def ofToml? (text : String) : Option Config := do
  (← Toml.parse? text).foldlM set? {}

/-- Whether a path has one of the extensions, in whatever case. -/
def wantsExtension (config : Config) (path : String) : Bool :=
  (Path.extension? path).any fun extension => config.extensions.any (Text.sameWord · extension)

end Config

end DocTypes
