import DocTypes.Php.Node
import DocTypes.Text.Bytes

namespace DocTypes.Php

structure Tape where
  source : List Char
  ahead : List Lexeme
  last : Nat

abbrev Parse := StateT Tape Option

namespace Parse

/-- The lexeme `n` places ahead. -/
def peek (n : Nat) : Parse (Option Lexeme) := do
  return (← get).ahead[n]?

def advance : Parse Lexeme := fun tape =>
  match tape.ahead with
  | [] => none
  | lexeme :: ahead => some (lexeme, { tape with ahead, last := lexeme.span.stop })

def atEnd : Parse Bool := do
  return (← get).ahead.isEmpty

def nextIs (n : Nat) (p : Lexeme → Bool) : Parse Bool := do
  return (← peek n).any p

def atSymbol (text : String) : Parse Bool :=
  nextIs 0 (·.isSymbol text)

def atWord (word : String) : Parse Bool :=
  nextIs 0 (·.isWord word)

def atKind (kind : LexemeKind) : Parse Bool :=
  nextIs 0 (·.kind == kind)

/-- Whether the current lexeme is one of several symbols. -/
def atSymbols (texts : List String) : Parse Bool :=
  nextIs 0 fun lexeme => lexeme.kind == .symbol && texts.contains lexeme.text

/-- Whether the current lexeme is one of several keywords. -/
def atWords (words : List String) : Parse Bool :=
  nextIs 0 fun lexeme => lexeme.kind == .word && words.contains (Text.lower lexeme.text)

def eatWhen (there : Parse Bool) : Parse Bool := do
  if ← there then
    discard advance
    return true
  else return false

def eatSymbol (text : String) : Parse Bool :=
  eatWhen (atSymbol text)

def eatWord (word : String) : Parse Bool :=
  eatWhen (atWord word)

def symbol (text : String) : Parse Unit := do
  guard (← eatSymbol text)

def word (text : String) : Parse Unit := do
  guard (← eatWord text)

def kind (kind : LexemeKind) : Parse String := do
  guard (← atKind kind)
  return (← advance).text

/-- A name. -/
def name : Parse String :=
  kind .word

/-- The byte where the current lexeme starts. -/
def here : Parse Nat := do
  let tape ← get
  return (tape.ahead.head?.map fun lexeme => lexeme.span.start).getD tape.last

/-- The bytes from `start` to the end of the last lexeme taken. -/
def spanFrom (start : Nat) : Parse Span := do
  return ⟨start, (← get).last⟩

/-- The source from `start` to the end of the last lexeme taken. -/
def sourceFrom (start : Nat) : Parse String := do
  let tape ← get
  return String.ofList (Text.slice start tape.last tape.source)

/-- Reads items, at most `n`, as long as `more` says so. -/
def itemsWhile {α : Type} (more : Parse Bool) (item : Parse (List α)) : Nat → Parse (List α)
  | 0 => return []
  | n + 1 => do
    if ← more then
      let first ← item
      return first ++ (← itemsWhile more item n)
    else return []

/-- Reads items as long as `more` says so; each takes a lexeme or fails. -/
def many {α : Type} (more : Parse Bool) (item : Parse (List α)) : Parse (List α) := do
  itemsWhile more item ((← get).ahead.length + 1)

/-- Reads items up to a symbol. -/
def upTo {α : Type} (close : String) (item : Parse (List α)) : Parse (List α) :=
  many (do return !(← atEnd) && !(← atSymbol close)) item

/-- Reads items up to and with a symbol. -/
def closedBy {α : Type} (close : String) (item : Parse (List α)) : Parse (List α) := do
  let found ← upTo close item
  symbol close
  return found

/-- Steps over everything up to a symbol. -/
def skipTo (close : String) : Parse Unit := do
  discard (upTo close (do discard advance; return ([] : List Unit)))

/-- The rules that statements and expressions refer back to. -/
structure Rules where
  expression : Parse (List Node)
  statement : Parse (List Node)

end Parse

end DocTypes.Php
