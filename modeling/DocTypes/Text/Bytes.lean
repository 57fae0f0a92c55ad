namespace DocTypes.Text

/-- Number of bytes in the UTF-8 form of a text. -/
def byteSize : List Char → Nat
  | [] => 0
  | c :: cs => c.utf8Size + byteSize cs

/-- The characters that end at or before byte `n`. -/
def takeBytes : Nat → List Char → List Char
  | _, [] => []
  | n, c :: cs => if c.utf8Size ≤ n then c :: takeBytes (n - c.utf8Size) cs else []

/-- What is left after the characters that end at or before byte `n`. -/
def dropBytes : Nat → List Char → List Char
  | _, [] => []
  | n, c :: cs => if c.utf8Size ≤ n then dropBytes (n - c.utf8Size) cs else c :: cs

/-- Whether byte `n` lies between two characters, or at either end of the text. -/
def isBoundary (n : Nat) (cs : List Char) : Bool :=
  byteSize (takeBytes n cs) == n

/-- The text from byte `start` up to byte `stop`. -/
def slice (start stop : Nat) (cs : List Char) : List Char :=
  takeBytes (stop - start) (dropBytes start cs)

/-- The text with the `len` bytes at `pos` replaced. -/
def splice (pos len : Nat) (replacement cs : List Char) : List Char :=
  takeBytes pos cs ++ replacement ++ dropBytes (pos + len) cs

theorem takeBytes_append_dropBytes (n : Nat) (cs : List Char) :
    takeBytes n cs ++ dropBytes n cs = cs := by
  induction cs generalizing n with
  | nil => rfl
  | cons c cs ih =>
    unfold takeBytes dropBytes
    split
    · simp [ih]
    · rfl

theorem byteSize_append (as bs : List Char) :
    byteSize (as ++ bs) = byteSize as + byteSize bs := by
  induction as with
  | nil => simp [byteSize]
  | cons a as ih => simp [byteSize, ih, Nat.add_assoc]

end DocTypes.Text
