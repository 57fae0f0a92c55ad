import DocTypes.TypeText.Cursor

namespace DocTypes

namespace Text

/-- The bytes of a character, each as the character with that code. Those of a character beyond ASCII are beyond
ASCII too, and so they are in no class of characters that a token is made of. -/
def charBytes (c : Char) : List Char :=
  (String.utf8EncodeChar c).map Char.ofUInt8

/-- The bytes of a text, each as the character with that code. -/
def bytes (cs : List Char) : List Char :=
  cs.flatMap charBytes

/-- The text from byte `start` up to byte `stop`, if both lie between characters. -/
def slice? (start stop : Nat) (cs : List Char) : Option (List Char) :=
  if isBoundary start cs && isBoundary stop cs then some (slice start stop cs) else none

end Text

/-- How many bytes after the first belong to its token; `none` for an unclosed string. A character that is a token
of its own is `width` bytes long. -/
def Token.tailBytes (width : Nat) (first : Char) (bytes : List Char) : Option Nat :=
  if isWordStart first then some (bytes.takeWhile (continuesWord first)).length
  else if first.isDigit || (first == '-' && bytes.head?.any Char.isDigit) then
    some (numberTail false bytes)
  else if first == '"' || first == '\'' then quotedTail first bytes
  else if first == '.' && ['.', '.'].isPrefixOf bytes then some 2
  else if first == ':' && [':'].isPrefixOf bytes then some 1
  else some (width - 1)

/-- A token, or an end of the tokens, which has no text. -/
structure Found where
  start : Nat
  stop : Nat
  text : Option String
deriving DecidableEq, Repr

/-- What stands behind byte `offset`, after blanks. -/
def Found.scanAt (text : List Char) (offset : Nat) : Found :=
  let size := Text.byteSize text
  let rest := (Text.bytes text).drop offset
  let start := offset + (rest.takeWhile Text.isTypeSpace).length
  match rest.dropWhile Text.isTypeSpace with
  | [] => ⟨start, start, none⟩
  | first :: more =>
    let width := ((Text.dropBytes start text).head?.map Char.utf8Size).getD 1
    match Token.tailBytes width first more with
    | none => ⟨start, size, none⟩
    | some n =>
      let stop := min (start + 1 + n) size
      ⟨start, stop, (Text.slice? start stop text).map String.ofList⟩

structure Tokenizer where
  text : List Char
  /-- What was found so far, from the start of the text on. -/
  found : List Found
  /-- The place of the current token. -/
  position : Nat
  corrections : List Correction
deriving DecidableEq, Repr

/-- A place to come back to, and how many corrections had been made there. -/
structure Checkpoint where
  position : Nat
  corrections : Nat
deriving DecidableEq, Repr

namespace Tokenizer

def ofText (text : List Char) : Tokenizer :=
  ⟨text, [], 0, []⟩

/-- Finds what stands behind the last token that was found. -/
def findNext (t : Tokenizer) : Tokenizer :=
  let offset := (t.found.getLast?.map Found.stop).getD 0
  { t with found := t.found ++ [Found.scanAt t.text offset] }

/-- Finds so many more tokens. -/
def findMore (t : Tokenizer) : Nat → Tokenizer
  | 0 => t
  | n + 1 => t.findNext.findMore n

/-- The token `n` places ahead, which is found now unless it was found before. -/
def token (t : Tokenizer) (n : Nat) : Found × Tokenizer :=
  let place := t.position + n
  let t := t.findMore (place + 1 - t.found.length)
  (t.found.getD place ⟨0, 0, none⟩, t)

/-- The text of the token `n` places ahead; `none` at the end. -/
def next (t : Tokenizer) (n : Nat) : Option String × Tokenizer :=
  let (found, t) := t.token n
  (found.text, t)

def advance (t : Tokenizer) : Tokenizer :=
  { t with position := t.position + 1 }

/-- Takes the current token, which has to be the word `wanted` in whatever case if one is wanted. -/
def consume (t : Tokenizer) (wanted : Option String) : Except ParseError String × Tokenizer :=
  let (current, t) := t.next 0
  match current, wanted with
  | none, _ => (.error .unexpectedEnd, t)
  | some found, none => (.ok found, t.advance)
  | some found, some wanted =>
    if Text.sameWord found wanted then (.ok found, t.advance) else (.error (.expected wanted found), t)

/-- Steps over the current token if it is exactly `text`. -/
def eat (t : Tokenizer) (text : String) : Bool × Tokenizer :=
  let (current, t) := t.next 0
  if current = some text then (true, t.advance) else (false, t)

/-- Steps over the current token, if there is one. -/
def skip (t : Tokenizer) : Tokenizer :=
  let (current, t) := t.next 0
  if current.isSome then t.advance else t

def checkpoint (t : Tokenizer) : Checkpoint :=
  ⟨t.position, t.corrections.length⟩

/-- Goes to a checkpoint; corrections made since are dropped. -/
def rewind (t : Tokenizer) (checkpoint : Checkpoint) : Tokenizer :=
  { t with position := checkpoint.position, corrections := t.corrections.take checkpoint.corrections }

/-- Notes that the current token should be spelled `canonical`. -/
def correct (t : Tokenizer) (canonical : String) : Tokenizer :=
  let (current, t) := t.token 0
  match current.text with
  | none => t
  | some text =>
    if text = canonical then t
    else
      let fix := ⟨current.start, Text.byteSize text.toList, canonical⟩
      { t with corrections := t.corrections ++ [fix] }

/-- Whether a blank stands right before the current token. -/
def precededBySpace (t : Tokenizer) : Bool × Tokenizer :=
  let (current, t) := t.token 0
  (((Text.bytes t.text).take current.start).getLast?.any Text.isTypeSpace, t)

/-- Whether a type or a name may end here: at the end, at a blank, or before one of `, ; : .`. -/
def atFieldEnd (t : Tokenizer) : Bool × Tokenizer :=
  let (current, t) := t.next 0
  match current with
  | none => (true, t)
  | some text => if [",", ";", ":", "."].contains text then (true, t) else t.precededBySpace

/-- The text from the token `n` places ahead. -/
def restFrom (t : Tokenizer) (n : Nat) : List Char × Tokenizer :=
  let (found, t) := t.token n
  (Text.dropBytes found.start t.text, t)

/-- The text with the corrections made; `none` if there are none. -/
def fixed? (t : Tokenizer) : Option String :=
  { Cursor.ofText t.text with corrections := t.corrections }.fixed?

end Tokenizer

/-- What a tokenizer may be asked. Checkpoints have numbers, in the order in which they are taken. -/
inductive Request where
  | next (n : Nat)
  | token (n : Nat)
  | consume (wanted : Option String)
  | eat (text : String)
  | skip
  | checkpoint
  | rewind (number : Nat)
  | correct (canonical : String)
  | precededBySpace
  | atFieldEnd
  | restFrom (n : Nat)
deriving DecidableEq, Repr

inductive Answer where
  | done
  | text (text : Option String)
  | found (found : Found)
  | taken (result : Except ParseError String)
  | holds (flag : Bool)
  | rest (chars : List Char)

/-- A tokenizer and the checkpoints taken so far. -/
structure Session where
  tokenizer : Tokenizer
  checkpoints : List Checkpoint
deriving DecidableEq, Repr

namespace Session

def ofText (text : List Char) : Session :=
  ⟨.ofText text, []⟩

/-- Answers one request. A checkpoint that was not taken is ignored. -/
def answer (s : Session) : Request → Answer × Session
  | .next n => let (text, t) := s.tokenizer.next n; (.text text, { s with tokenizer := t })
  | .token n => let (found, t) := s.tokenizer.token n; (.found found, { s with tokenizer := t })
  | .consume wanted => let (result, t) := s.tokenizer.consume wanted; (.taken result, { s with tokenizer := t })
  | .eat text => let (eaten, t) := s.tokenizer.eat text; (.holds eaten, { s with tokenizer := t })
  | .skip => (.done, { s with tokenizer := s.tokenizer.skip })
  | .checkpoint => (.done, { s with checkpoints := s.checkpoints ++ [s.tokenizer.checkpoint] })
  | .rewind number =>
    match s.checkpoints[number]? with
    | some checkpoint => (.done, { s with tokenizer := s.tokenizer.rewind checkpoint })
    | none => (.done, s)
  | .correct canonical => (.done, { s with tokenizer := s.tokenizer.correct canonical })
  | .precededBySpace => let (spaced, t) := s.tokenizer.precededBySpace; (.holds spaced, { s with tokenizer := t })
  | .atFieldEnd => let (ends, t) := s.tokenizer.atFieldEnd; (.holds ends, { s with tokenizer := t })
  | .restFrom n => let (chars, t) := s.tokenizer.restFrom n; (.rest chars, { s with tokenizer := t })

/-- Answers requests one after the other. -/
def run (s : Session) : List Request → List Answer × Session
  | [] => ([], s)
  | request :: requests =>
    let (first, s) := s.answer request
    let (others, s) := s.run requests
    (first :: others, s)

end Session

end DocTypes
