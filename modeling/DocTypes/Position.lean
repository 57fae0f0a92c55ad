import DocTypes.Text.Bytes
import DocTypes.Text.Split

namespace DocTypes

/-- A place in a text by its lines and by the characters within the line, both counted from one. -/
structure Position where
  line : Nat
  column : Nat
deriving DecidableEq, Repr

namespace Position

/-- The characters of a text, each with the byte that it begins at. -/
def charIndices (start : Nat) : List Char → List (Nat × Char)
  | [] => []
  | c :: cs => (start, c) :: charIndices (start + c.utf8Size) cs

/-- How many characters of a line begin before a byte of it. -/
def charsBefore (line : List Char) (byte : Nat) : Nat :=
  ((charIndices 0 line).takeWhile fun (index, _) => index < byte).length

/-- Looks for the line that an offset lies in, where the first of the lines has the number `number`
and begins at the byte `start`. -/
def inLines? (offset number start : Nat) : List (List Char) → Option Position
  | [] => none
  | line :: lines =>
    let stop := start + Text.byteSize line
    if offset ≤ stop then some ⟨number, charsBefore line (offset - start) + 1⟩
    -- One more byte for the line feed.
    else inLines? offset (number + 1) (stop + 1) lines

/-- The line and column of a byte offset. An offset past the end stands for the end of the last line. -/
def ofOffset (text : List Char) (offset : Nat) : Position :=
  let lines := Text.splitChars '\n' text
  (inLines? offset 1 0 lines).getD ⟨lines.length, (lines.getLastD []).length + 1⟩

end Position

end DocTypes
