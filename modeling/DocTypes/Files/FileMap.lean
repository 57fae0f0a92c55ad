import DocTypes.Config.Basic
import DocTypes.Files.Ignore

namespace DocTypes

structure FileMap where
  entries : List (Path × String)
  /-- Directories that are there even if they hold nothing. -/
  dirs : List Path
deriving DecidableEq, Repr

namespace FileMap

def read? (files : FileMap) (path : Path) : Option String :=
  files.entries.lookup path

/-- Replaces the text of a file that is there. -/
def write (files : FileMap) (path : Path) (text : String) : FileMap :=
  { files with
    entries := files.entries.map fun entry => if entry.1 = path then (path, text) else entry }

def isFile (files : FileMap) (path : Path) : Bool :=
  files.entries.any (·.1 == path)

/-- The directory that holds everything is there even if nothing else is. -/
def isDir (files : FileMap) (path : Path) : Bool :=
  path.isEmpty || files.dirs.any (path.isPrefixOf ·) ||
    files.entries.any fun entry => path.isPrefixOf entry.1 && path != entry.1

/-- Whether a file or directory is there. -/
def holds (files : FileMap) (path : Path) : Bool :=
  files.isFile path || files.isDir path

/-- Follows a path from a directory, step by step. -/
def follow? (files : FileMap) (start : Path) : Path → Option Path
  | [] => if files.holds start then some start else none
  | name :: names =>
    if name = "/" then files.follow? [] names
    else if !files.isDir start then none
    else if name = ".." then files.follow? start.dropLast names
    else files.follow? (start ++ [name]) names

/-- The file or directory that a path text leads to from a directory. A slash at its end asks for
a directory. -/
def resolve? (files : FileMap) (start : Path) (text : String) : Option Path := do
  let path ← files.follow? start (Path.components text)
  let wantsDir := (Text.split '/' text).getLast?.any fun part => part = "" || part = "."
  guard (!wantsDir || files.isDir path)
  return path

/-- The rules in a file of a directory. -/
def rulesIn (files : FileMap) (dir name : Path) : List IgnoreRule :=
  ((files.read? (dir ++ name)).map IgnoreRule.ofText).getD []

/-- The directories above a path, the closest one first. -/
def ancestors : Path → List Path
  | [] => []
  | name :: names => (ancestors names).map (name :: ·) ++ [[]]

/-- What the rule files called `name` in some directories say about a path. -/
def verdictFrom (files : FileMap) (dirs : List Path) (name path : Path) (isDir : Bool) :
    Option Bool :=
  dirs.findSome? fun dir =>
    let below := Text.join '/' (path.drop dir.length)
    IgnoreRule.verdict (files.rulesIn dir name) below isDir

def isRepository (files : FileMap) (dir : Path) : Bool :=
  files.holds (dir ++ [".git"])

/-- The directories up to the repository that a path is in; none outside of a repository. -/
def repositoryDirs (files : FileMap) (dirs : List Path) : List Path :=
  match dirs.findIdx? files.isRepository with
  | some n => dirs.take (n + 1)
  | none => []

/-- Whether the rule files around a path keep it or leave it out. Those of a repository only count
inside one. -/
def ignoreVerdict (files : FileMap) (path : Path) (isDir : Bool) : Option Bool :=
  let dirs := ancestors path
  let inside := files.repositoryDirs dirs
  (files.verdictFrom dirs [".ignore"] path isDir).or <|
    (files.verdictFrom inside [".gitignore"] path isDir).or <|
      files.verdictFrom inside [".git", "info", "exclude"] path isDir

def isHidden (name : String) : Bool :=
  name.toList.head? == some '.'

/-- Whether a walk from `root` leaves out the file or directory at `below`. -/
def skips (files : FileMap) (exclude : List IgnoreRule) (root below : Path) (isDir : Bool) : Bool :=
  match IgnoreRule.verdict exclude (Text.join '/' below) isDir with
  | some keeps => keeps
  | none =>
    match files.ignoreVerdict (root ++ below) isDir with
    | some keeps => !keeps
    | none => below.getLast?.any isHidden

/-- Whether a walk from `root` reaches the file at `below`: neither it nor a directory on the way
is left out. -/
def reaches (files : FileMap) (exclude : List IgnoreRule) (root below : Path) : Bool :=
  !files.skips exclude root below false &&
    ((List.range below.length).drop 1).all fun n => !files.skips exclude root (below.take n) true

/-- The paths below `root` that a walk reaches, in order. -/
def walk (files : FileMap) (exclude : List IgnoreRule) (root : Path) : List Path :=
  let below := files.entries.filterMap fun entry =>
    if root.isPrefixOf entry.1 && root != entry.1 then some (entry.1.drop root.length) else none
  (below.filter (files.reaches exclude root)).mergeSort Path.ordered

end FileMap

end DocTypes
