import DocTypes.Text.Case
import DocTypes.Text.Split

namespace DocTypes

/-- The components of a path, the first of an absolute one being `/`. -/
abbrev Path := List String

namespace Path

/-- The components that say something; `..` is kept. -/
def components (text : String) : Path :=
  let parts := (Text.split '/' text).filter fun part => part != "" && part != "."
  if text.toList.head? = some '/' then "/" :: parts else parts

/-- The name of the file that a path leads to. -/
def fileName? (text : String) : Option String :=
  (components text).getLast?.filter fun name => name != ".." && name != "/"

/-- What follows the last dot of a name, unless that dot is its first character. -/
def extension? (text : String) : Option String := do
  let name := (← fileName? text).toList.reverse
  match name.dropWhile (· != '.') with
  | _ :: _ :: _ => some (String.ofList (name.takeWhile (· != '.')).reverse)
  | _ => none

/-- A path with one more component. -/
def extend (text name : String) : String :=
  if text.toList.getLast? = some '/' then text ++ name else text ++ "/" ++ name

/-- Whether one path comes before another, or is the same, comparing component by component. -/
def ordered : Path → Path → Bool
  | [], _ => true
  | _ :: _, [] => false
  | a :: as, b :: bs => if a = b then ordered as bs else a < b

end Path

end DocTypes
