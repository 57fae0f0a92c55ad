import DocTypes.Text.Blank
import DocTypes.Text.Bytes
import DocTypes.Text.Split

namespace DocTypes

/-- The content of one comment line, and the byte where it starts. -/
structure TagLine where
  start : Nat
  text : List Char
deriving DecidableEq, Repr

namespace TagLine

def stop (line : TagLine) : Nat :=
  line.start + Text.byteSize line.text

def isEmpty (line : TagLine) : Bool :=
  line.text.isEmpty

/-- Whether the line opens a tag. -/
def opensTag (line : TagLine) : Bool :=
  line.text.head? == some '@'

/-- The line without its first characters that satisfy `p`. -/
def dropWhile (p : Char → Bool) (line : TagLine) : TagLine :=
  ⟨line.start + Text.byteSize (line.text.takeWhile p), line.text.dropWhile p⟩

def isIndent (c : Char) : Bool :=
  c == ' ' || c == '\t'

/-- The line without indent, one `*` with its indent, and trailing blanks. -/
def strip (line : TagLine) : TagLine :=
  let inner := line.dropWhile isIndent
  let content :=
    match inner.text with
    | '*' :: rest => dropWhile isIndent ⟨inner.start + 1, rest⟩
    | _ => inner
  ⟨content.start, Text.dropWhileEnd Text.isLineSpace content.text⟩

end TagLine

/-- One tag of a doc comment. -/
structure DocTag where
  /-- The name, `@` included. -/
  name : String
  /-- Where the `@` stands. -/
  offset : Nat
  /-- What follows the name, line by line. -/
  lines : List TagLine
deriving DecidableEq, Repr

namespace DocTag

/-- The lines of the tag with line feeds between them. -/
def content (tag : DocTag) : String :=
  String.ofList (Text.joinChars '\n' (tag.lines.map TagLine.text))

/-- The tag that a line opens, with the lines that follow it. Empty lines at its end are not part
of it. -/
def ofLines (opening : TagLine) (following : List TagLine) : DocTag :=
  let first := (opening.dropWhile fun c => !Text.isBlank c).dropWhile Text.isBlank
  let more := (following.reverse.dropWhile TagLine.isEmpty).reverse
  ⟨String.ofList (opening.text.takeWhile fun c => !Text.isBlank c), opening.start, first :: more⟩

/-- The tags of consecutive comment lines. -/
def allOf : List TagLine → List DocTag
  | [] => []
  | line :: lines =>
    if line.opensTag then
      ofLines line (lines.takeWhile fun next => !next.opensTag) :: allOf lines
    else allOf lines

end DocTag

/-- A doc comment: its bytes in the source, and its tags in order. -/
structure DocComment where
  offset : Nat
  stop : Nat
  tags : List DocTag
deriving DecidableEq, Repr

namespace DocComment

/-- Numbers the lines of a text by the byte where each starts. -/
def place (offset : Nat) : List (List Char) → List TagLine
  | [] => []
  | line :: lines => ⟨offset, line⟩ :: place (offset + Text.byteSize line + 1) lines

/-- A comment without its `*/`. -/
def withoutClose (raw : List Char) : List Char :=
  match raw.reverse with
  | '/' :: '*' :: rest => rest.reverse
  | _ => raw

/-- The lines of the comment `raw` that stands at `offset`. -/
def bodyLines (raw : List Char) (offset : Nat) : List TagLine :=
  let (start, inside) :=
    if ['/', '*', '*'].isPrefixOf raw then (offset + 3, raw.drop 3) else (offset, raw)
  (place start (Text.splitChars '\n' (withoutClose inside))).map TagLine.strip

def parse (raw : List Char) (offset : Nat) : DocComment :=
  ⟨offset, offset + Text.byteSize raw, DocTag.allOf (bodyLines raw offset)⟩

/-- The tags of a name, in order. -/
def named (comment : DocComment) (name : String) : List DocTag :=
  comment.tags.filter (·.name == name)

def has (comment : DocComment) (name : String) : Bool :=
  comment.tags.any (·.name == name)

end DocComment

end DocTypes
