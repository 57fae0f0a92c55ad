import DocTypes.Files.Glob
import DocTypes.Text.Blank
import DocTypes.Text.Split

namespace DocTypes

structure IgnoreRule where
  /-- Whether a match keeps a path instead of leaving it out. -/
  keeps : Bool
  onlyDirs : Bool
  patterns : List Glob.Pattern
deriving DecidableEq, Repr

namespace IgnoreRule

/-- A pattern with its end adjusted: two stars at the end match inside a directory only. -/
def pinned (text : List Char) : List Char :=
  if ['*', '*', '/'].isPrefixOf text.reverse then text ++ ['/', '*'] else text

/-- The rule of a line; `some none` for a line without one, `none` if it is malformed. -/
def parse? (line : String) : Option (Option IgnoreRule) :=
  let chars := line.toList
  if chars.head? = some '#' then some none
  else
    let chars :=
      if [' ', '\\'].isPrefixOf chars.reverse then chars
      else Text.dropWhileEnd Text.isBlank chars
    if chars.isEmpty then some none
    else
      let escaped := ['\\', '!'].isPrefixOf chars || ['\\', '#'].isPrefixOf chars
      let keeps := chars.head? == some '!'
      let chars := if escaped || keeps then chars.drop 1 else chars
      let anchored := !escaped && chars.head? == some '/'
      let chars := if anchored then chars.drop 1 else chars
      let onlyDirs := chars.getLast? == some '/'
      let chars := if onlyDirs then chars.dropLast else chars
      let chars := if onlyDirs && chars.getLast? == some '\\' then chars.dropLast else chars
      let anywhere := !anchored && !chars.contains '/' && chars != ['*', '*']
      let chars := if anywhere then ['*', '*', '/'] ++ chars else chars
      (Glob.parse? (String.ofList (pinned chars))).map fun patterns =>
        some ⟨keeps, onlyDirs, patterns⟩

def applies (rule : IgnoreRule) (path : String) (isDir : Bool) : Bool :=
  (isDir || !rule.onlyDirs) && Glob.matchesAny rule.patterns path

/-- The rules of a text, line by line; malformed ones do not count. -/
def ofText (text : String) : List IgnoreRule :=
  (Text.split '\n' text).filterMap fun line =>
    let chars := line.toList
    let chars := if chars.getLast? = some '\r' then chars.dropLast else chars
    (parse? (String.ofList chars)).join

/-- Whether the last rule that applies keeps the path; `none` if no rule applies. -/
def verdict (rules : List IgnoreRule) (path : String) (isDir : Bool) : Option Bool :=
  (rules.reverse.find? fun rule => rule.applies path isDir).map IgnoreRule.keeps

end IgnoreRule

end DocTypes
