import DocTypes.Check.Source
import DocTypes.Cli.Help
import DocTypes.Cli.Options
import DocTypes.Files.FileMap
import DocTypes.Report.Basic

namespace DocTypes.Cli

/-- Where a run takes place. -/
structure Place where
  /-- The directory that paths start from. -/
  current : Path
  /-- The directory of the user's settings. -/
  settings : Path
deriving DecidableEq, Repr

inductive RunError where
  | usage (error : UsageError)
  | badConfig (path : Path)
  | missing (path : String)
  | badPattern (pattern : String)
  | check (path : String) (error : CheckError)
deriving DecidableEq, Repr

/-- How a run ends. -/
inductive Ending where
  | clean
  | errorsFound
  | failed
deriving DecidableEq, Repr

def Ending.exitCode : Ending → Nat
  | clean => 0
  | errorsFound => 1
  | failed => 2

structure Outcome where
  ending : Ending
  output : String
  files : FileMap
deriving DecidableEq, Repr

def localConfigName : String :=
  "phpdoc-types.toml"

/-- The settings files that are looked for, the first one found being used. -/
def Place.configPaths (place : Place) : List Path :=
  [place.current ++ [localConfigName], place.settings ++ [programName, "config.toml"]]

def readConfig (files : FileMap) (path : Path) : Except RunError Config :=
  match (files.read? path).bind Config.ofToml? with
  | some config => .ok config
  | none => .error (.badConfig path)

/-- The configuration of the settings file in use, which may be given. -/
def baseConfig (place : Place) (given : Option String) (files : FileMap) : Except RunError Config :=
  match given with
  | some text =>
    match files.resolve? place.current text with
    | some path => readConfig files path
    | none => .error (.missing text)
  | none =>
    match place.configPaths.find? files.holds with
    | some path => readConfig files path
    | none => .ok {}

/-- Options go before settings. -/
def Options.override (options : Options) (config : Config) : Config :=
  { config with
    strict := options.strict || config.strict
    format := options.format.getD config.format }

def excludeRules (config : Config) : Except RunError (List IgnoreRule) :=
  config.exclude.foldlM (fun rules pattern =>
    match IgnoreRule.parse? ("!" ++ pattern) with
    | some rule => .ok (rules ++ rule.toList)
    | none => .error (.badPattern pattern)) []

/-- A file to check: where it is, and the path it is reported under. -/
structure Target where
  path : Path
  shown : String
deriving DecidableEq, Repr

/-- The files that a path stands for. A file stands for itself whatever the configuration says. -/
def targets (place : Place) (config : Config) (files : FileMap) (text : String) :
    Except RunError (List Target) :=
  match files.resolve? place.current text with
  | none => .error (.missing text)
  | some path =>
    if files.isFile path then .ok [⟨path, text⟩]
    else do
      let rules ← excludeRules config
      let found := (files.walk rules path).map fun below =>
        (⟨path ++ below, Path.extend text (Text.join '/' below)⟩ : Target)
      return found.filter fun target => config.wantsExtension target.shown

/-- What a run leaves to others: reading the command line and the settings, finding files, and parsing. -/
structure Platform where
  request : List String → Except UsageError Request
  /-- The configuration of the settings file in use, which may be given. -/
  settings : Option String → FileMap → Except RunError Config
  /-- The files that a path stands for. -/
  select : Config → FileMap → String → Except RunError (List Target)
  parse : Check.FrontEnd

/-- What the program runs with. -/
def platform (place : Place) : Platform where
  request := Request.ofArguments
  settings := baseConfig place
  select := targets place
  parse := Check.frontEnd

/-- The state of a run: the reports so far and the files as they are now. -/
structure Progress where
  reports : List FileReport
  files : FileMap

/-- Makes the fixes of a report in its file, which is read once more for that. -/
def writeFixes (files : FileMap) (target : Target) (diagnostics : List Diagnostic) :
    Except RunError FileMap :=
  if diagnostics.all fun diagnostic => diagnostic.fix.isNone then .ok files
  else
    match files.read? target.path with
    | none => .error (.missing target.shown)
    | some text =>
      let fixed := String.ofList (Diagnostic.applyFixes text.toList diagnostics)
      .ok (if fixed = text then files else files.write target.path fixed)

/-- Checks a file, and fixes it if asked to. -/
def checkTarget (parse : Check.FrontEnd) (fix strict : Bool) (progress : Progress) (target : Target) :
    Except RunError Progress :=
  match progress.files.read? target.path with
  | none => .error (.missing target.shown)
  | some text =>
    match Check.checkSource parse strict text.toList with
    | .error error => .error (.check target.shown error)
    | .ok diagnostics => do
      let files ← if fix then writeFixes progress.files target diagnostics else .ok progress.files
      return ⟨progress.reports ++ [⟨target.shown, diagnostics⟩], files⟩

/-- Does step after step until one fails; what was done before stays done. -/
def stepAll {σ α ε : Type} (step : σ → α → Except ε σ) (state : σ) : List α → σ × Option ε
  | [] => (state, none)
  | item :: items =>
    match step state item with
    | .ok next => stepAll step next items
    | .error error => (state, some error)

/-- Checks the files of one path. -/
def checkPath (platform : Platform) (fix : Bool) (config : Config) (progress : Progress)
    (text : String) : Progress × Option RunError :=
  match platform.select config progress.files text with
  | .error error => (progress, some error)
  | .ok found => stepAll (checkTarget platform.parse fix config.strict) progress found

/-- Checks the files of path after path until something fails. -/
def checkPaths (platform : Platform) (fix : Bool) (config : Config) (progress : Progress) :
    List String → Progress × Option RunError
  | [] => (progress, none)
  | text :: texts =>
    match checkPath platform fix config progress text with
    | (progress, none) => checkPaths platform fix config progress texts
    | (progress, some error) => (progress, some error)

def render (format : OutputFormat) (reports : List FileReport) : String :=
  match format with
  | .text => String.join (reports.map FileReport.text)
  | .json => FileReport.jsonText reports ++ "\n"

def ending (reports : List FileReport) : Ending :=
  if reports.any fun report => report.errorCount > 0 then .errorsFound else .clean

/-- What a run comes to. One that fails prints nothing, but the files fixed before stay fixed. -/
def conclude (format : OutputFormat) : Progress × Option RunError → Outcome
  | (progress, some _) => ⟨.failed, "", progress.files⟩
  | (progress, none) => ⟨ending progress.reports, render format progress.reports, progress.files⟩

/-- A check with given options. -/
def check (platform : Platform) (options : Options) (files : FileMap) : Outcome :=
  match platform.settings options.config files with
  | .error _ => ⟨.failed, "", files⟩
  | .ok base =>
    let config := options.override base
    conclude config.format (checkPaths platform options.fix config ⟨[], files⟩ options.checkedPaths)

def run (platform : Platform) (arguments : List String) (files : FileMap) : Outcome :=
  match platform.request arguments with
  | .error _ => ⟨.failed, "", files⟩
  | .ok .help => ⟨.clean, helpText, files⟩
  | .ok .version => ⟨.clean, versionText, files⟩
  | .ok (.check options) => check platform options files

end DocTypes.Cli
