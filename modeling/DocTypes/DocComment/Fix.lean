import DocTypes.DocComment.Basic
import DocTypes.Edit

namespace DocTypes

/-- Why the checks of a file cannot be completed. -/
inductive CheckError where
  /-- The new text of a tag has another number of lines. -/
  | lineCount (tag : String) (before after : Nat)
  /-- A line of the new text is empty and the tag's line is not, or the other way round. -/
  | lineLayout (tag : String) (line : Nat)
  /-- The source was not parsed. -/
  | parserPanicked
deriving DecidableEq, Repr

def CheckError.message : CheckError → String
  | .lineCount tag before after =>
    "replacement for " ++ tag ++ " spans " ++ toString after ++ " line(s) but the tag spans " ++
      toString before
  | .lineLayout tag line =>
    "replacement for " ++ tag ++ " does not match the tag's line layout at line " ++ toString line
  | .parserPanicked => "PHP parser panicked"

namespace DocTag

/-- Number of the first line, counted from one, that is empty on one side only. -/
def firstMisfit : List TagLine → List (List Char) → Option Nat
  | line :: lines, text :: texts =>
    if line.isEmpty == text.isEmpty then (firstMisfit lines texts).map (· + 1) else some 1
  | _, _ => none

/-- The edits that give the tag a new content, one for each line that changes. -/
def withContent (tag : DocTag) (replacement : String) : Except CheckError (List Edit) :=
  let texts := Text.splitChars '\n' replacement.toList
  if texts.length ≠ tag.lines.length then
    .error (.lineCount tag.name tag.lines.length texts.length)
  else
    match firstMisfit tag.lines texts with
    | some line => .error (.lineLayout tag.name line)
    | none =>
      let changed := (tag.lines.zip texts).filter fun (line, text) => line.text != text
      .ok (changed.map fun (line, text) =>
        ⟨line.start, Text.byteSize line.text, String.ofList text⟩)

end DocTag

end DocTypes
