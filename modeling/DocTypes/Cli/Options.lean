import DocTypes.Config.Basic

namespace DocTypes.Cli

structure Options where
  /-- Files and directories to check; nothing means the current directory. -/
  paths : List String := []
  fix : Bool := false
  strict : Bool := false
  format : Option OutputFormat := none
  /-- The settings file to use. -/
  config : Option String := none
  logLevel : Option String := none
deriving DecidableEq, Repr

/-- What a command line asks for. -/
inductive Request where
  | check (options : Options)
  | help
  | version
deriving DecidableEq, Repr

inductive UsageError where
  | unknownOption (text : String)
  | repeatedOption (name : String)
  | missingValue (name : String)
  | unwantedValue (name : String)
  | invalidValue (name value : String)
  | emptyPath
deriving DecidableEq, Repr

namespace Options

def checkedPaths (options : Options) : List String :=
  if options.paths.isEmpty then ["."] else options.paths

def addPath (options : Options) (path : String) : Except UsageError Options :=
  if path.isEmpty then .error .emptyPath
  else .ok { options with paths := options.paths ++ [path] }

/-- Makes an option that takes no value; `none` if there is no such option. -/
def setFlag? (options : Options) (name : String) : Option (Except UsageError Options) :=
  match name with
  | "fix" =>
    some <| if options.fix then .error (.repeatedOption name) else .ok { options with fix := true }
  | "strict" =>
    some <| if options.strict then .error (.repeatedOption name) else .ok { options with strict := true }
  | _ => none

/-- Whether an option takes a value. -/
def takesValue (name : String) : Bool :=
  ["format", "config", "log-level"].contains name

/-- Makes an option that takes a value. -/
def setValue (options : Options) (name value : String) : Except UsageError Options :=
  match name with
  | "format" =>
    if options.format.isSome then .error (.repeatedOption name)
    else
      match OutputFormat.ofName? value with
      | some format => .ok { options with format := some format }
      | none => .error (.invalidValue name value)
  | "config" =>
    if options.config.isSome then .error (.repeatedOption name)
    else if value.isEmpty then .error (.missingValue name)
    else .ok { options with config := some value }
  | _ =>
    if options.logLevel.isSome then .error (.repeatedOption name)
    else .ok { options with logLevel := some value }

end Options

/-- An argument, by its form. -/
inductive Argument where
  | path (text : String)
  /-- From here on all arguments are paths. -/
  | pathsOnly
  | long (name : String) (value : Option String)
  | short (letters : List Char)
deriving DecidableEq, Repr

/-- A dash alone is a path. -/
def Argument.ofText (text : String) : Argument :=
  match text.toList with
  | ['-', '-'] => .pathsOnly
  | '-' :: '-' :: rest =>
    let name := String.ofList (rest.takeWhile (· != '='))
    match rest.dropWhile (· != '=') with
    | [] => .long name none
    | _ :: value => .long name (some (String.ofList value))
  | '-' :: c :: rest => .short (c :: rest)
  | _ => .path text

/-- What becomes of the reading at one argument. -/
inductive Reading where
  | help
  | version
  | failed (error : UsageError)
  /-- Goes on with these options; `pending` is an option that waits for its value. -/
  | next (options : Options) (pending : Option String)
  /-- Goes on with these options, and takes all that follows as paths. -/
  | pathsOnly (options : Options)
deriving DecidableEq, Repr

def Reading.made : Except UsageError Options → Reading
  | .ok options => .next options none
  | .error error => .failed error

/-- Reads one argument on top of the options read so far. -/
def readArgument (options : Options) (pending : Option String) (text : String) : Reading :=
  match pending, Argument.ofText text with
  | some name, .path value => .made (options.setValue name value)
  | some name, _ => .failed (.missingValue name)
  | none, .path path => .made (options.addPath path)
  | none, .pathsOnly => .pathsOnly options
  | none, .short ('h' :: _) => .help
  | none, .short ('V' :: _) => .version
  | none, .short _ => .failed (.unknownOption text)
  | none, .long "help" none => .help
  | none, .long "version" none => .version
  | none, .long name none =>
    if Options.takesValue name then .next options (some name)
    else
      match options.setFlag? name with
      | some made => .made made
      | none => .failed (.unknownOption text)
  | none, .long name (some value) =>
    if Options.takesValue name then .made (options.setValue name value)
    else .failed (.unwantedValue name)

/-- Reads the arguments on top of the options read so far. -/
def readArguments (options : Options) (pending : Option String) :
    List String → Except UsageError Request
  | [] =>
    match pending with
    | some name => .error (.missingValue name)
    | none => .ok (.check options)
  | text :: rest =>
    match readArgument options pending text with
    | .help => .ok .help
    | .version => .ok .version
    | .failed error => .error error
    | .next options pending => readArguments options pending rest
    | .pathsOnly options => do return .check (← rest.foldlM Options.addPath options)

def Request.ofArguments (arguments : List String) : Except UsageError Request :=
  readArguments {} none arguments

end DocTypes.Cli
