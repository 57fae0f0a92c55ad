import DocTypes.Cli.Run

namespace DocTypes.Cli

/-- The text of an absolute path. -/
def pathText (path : Path) : String :=
  "/" ++ Text.join '/' path

/-- Adds the file at a path, if it is there and is text. -/
def loadFile (files : FileMap) (path : Path) : IO FileMap := do
  try
    let text ← IO.FS.readFile (pathText path)
    return { files with entries := (path, text) :: files.entries }
  catch _ => return files

/-- Adds the file or the tree at a path. -/
partial def loadTree (files : FileMap) (path : Path) : IO FileMap := do
  let entries ← try some <$> ((← IO.currentDir) / pathText path).readDir catch _ => pure none
  match entries with
  | none => loadFile files path
  | some entries =>
    let mut files := { files with dirs := path :: files.dirs }
    for entry in entries do
      files ← loadTree files (path ++ [entry.fileName])
    return files

/-- Adds the rule files of the directories above a path. -/
def loadRules (files : FileMap) (path : Path) : IO FileMap := do
  let mut files := files
  for dir in FileMap.ancestors path do
    if ← ((← IO.currentDir) / pathText (dir ++ [".git"])).pathExists then
      files := { files with dirs := (dir ++ [".git"]) :: files.dirs }
    for name in [[".ignore"], [".gitignore"], [".git", "info", "exclude"]] do
      files ← loadFile files (dir ++ name)
  return files

/-- An absolute path from a directory, its `..` steps taken. -/
def absolute (start : Path) (text : String) : Path :=
  (Path.components text).foldl (fun path name =>
    if name = "/" then [] else if name = ".." then path.dropLast else path ++ [name]) start

/-- What a run with these arguments can look at. -/
def load (place : Place) (arguments : List String) : IO FileMap := do
  match Request.ofArguments arguments with
  | .ok (.check options) =>
    let mut files : FileMap := ⟨[], [place.current]⟩
    for path in place.configPaths ++ options.config.toList.map (absolute place.current) do
      files ← loadFile files path
    for text in options.checkedPaths do
      let path := absolute place.current text
      files ← loadTree (← loadRules files path) path
    return files
  | _ => return ⟨[], []⟩

/-- Writes the files that a run changed. -/
def store (before after : FileMap) : IO Unit := do
  for (path, text) in after.entries do
    if before.read? path != some text then
      IO.FS.writeFile (pathText path) text

def userSettings (current : Path) : IO Path := do
  match ← IO.getEnv "XDG_CONFIG_HOME", ← IO.getEnv "HOME" with
  | some dir, _ => return absolute current dir
  | none, some home => return absolute current home ++ [".config"]
  | none, none => return [".config"]

end DocTypes.Cli

open DocTypes.Cli in
def main (arguments : List String) : IO UInt32 := do
  let current := absolute [] (toString (← IO.currentDir))
  let place : Place := ⟨current, ← userSettings current⟩
  let files ← load place arguments
  let outcome := run (platform place) arguments files
  store files outcome.files
  IO.print outcome.output
  return outcome.ending.exitCode.toUInt32
