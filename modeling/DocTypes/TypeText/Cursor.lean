import DocTypes.Text.Case
import DocTypes.TypeText.Error
import DocTypes.TypeText.Token

namespace DocTypes

/-- A token that should be spelled otherwise: its bytes and its right spelling. -/
structure Correction where
  pos : Nat
  len : Nat
  replacement : String
deriving DecidableEq, Repr

structure Cursor where
  text : List Char
  ahead : List Token
  ending : Ending
  corrections : List Correction
deriving DecidableEq, Repr

/-- A place to come back to: what was ahead, and how many corrections had been made. -/
structure Mark where
  ahead : List Token
  corrections : Nat
deriving DecidableEq, Repr

namespace Cursor

def ofText (text : List Char) : Cursor :=
  let stream := Token.scan text
  ⟨text, stream.tokens, stream.ending, []⟩

/-- The text of the token `n` places ahead; `none` at the end. -/
def peek (c : Cursor) (n : Nat) : Option String :=
  c.ahead[n]?.map Token.text

/-- First byte, and byte past the last, of what stands `n` places ahead. Beyond the place where the
tokens end there is only the end of the text. -/
def spanAt (c : Cursor) (n : Nat) : Nat × Nat :=
  match c.ahead[n]? with
  | some token => (token.start, token.stop)
  | none =>
    if n = c.ahead.length then (c.ending.start, c.ending.stop)
    else (c.ending.stop, c.ending.stop)

/-- The cursor after the current token. -/
def advance (c : Cursor) : Cursor :=
  { c with ahead := c.ahead.tail }

/-- The current token, and the cursor after it. -/
def take (c : Cursor) : Except ParseError (String × Cursor) :=
  match c.peek 0 with
  | none => .error .unexpectedEnd
  | some found => .ok (found, c.advance)

/-- The current token if it is the word `wanted` in whatever case. -/
def expect (c : Cursor) (wanted : String) : Except ParseError (String × Cursor) :=
  match c.peek 0 with
  | none => .error .unexpectedEnd
  | some found =>
    if Text.sameWord found wanted then .ok (found, c.advance)
    else .error (.expected wanted found)

/-- Steps over the current token if it is exactly `text`. -/
def eat (c : Cursor) (text : String) : Bool × Cursor :=
  if c.peek 0 = some text then (true, c.advance) else (false, c)

def mark (c : Cursor) : Mark :=
  ⟨c.ahead, c.corrections.length⟩

/-- Returns to a mark; corrections made since are dropped. -/
def reset (c : Cursor) (m : Mark) : Cursor :=
  { c with ahead := m.ahead, corrections := c.corrections.take m.corrections }

/-- Notes that the current token should be spelled `canonical`. -/
def correct (c : Cursor) (canonical : String) : Cursor :=
  match c.ahead with
  | [] => c
  | token :: _ =>
    if token.text = canonical then c
    else
      let fix := ⟨token.start, Text.byteSize token.text.toList, canonical⟩
      { c with corrections := c.corrections ++ [fix] }

/-- The text with the corrections made, the last one first; `none` if there are none. -/
def fixed? (c : Cursor) : Option String :=
  match c.corrections with
  | [] => none
  | fixes =>
    some <| String.ofList <|
      fixes.foldr (fun fix text => Text.splice fix.pos fix.len fix.replacement.toList text) c.text

/-- Whether a blank stands right before the current token. -/
def spaced (c : Cursor) : Bool :=
  match c.ahead with
  | [] => c.ending.spaced
  | token :: _ => token.spaced

/-- Whether a type or a name may end here: at the end, at a blank, or before one of `, ; : .`. -/
def atFieldEnd (c : Cursor) : Bool :=
  match c.ahead with
  | [] => true
  | token :: _ => [",", ";", ":", "."].contains token.text || token.spaced

/-- The text from the token `n` places ahead. -/
def restFrom (c : Cursor) (n : Nat) : List Char :=
  Text.dropBytes (c.spanAt n).1 c.text

end Cursor

end DocTypes
