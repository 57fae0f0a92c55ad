import DocTypes.Text.Case

namespace DocTypes.Php

/-- Bytes `start` up to `stop` of the source. -/
structure Span where
  start : Nat
  stop : Nat
deriving DecidableEq, Repr

inductive LexemeKind where
  /-- A keyword or a name, with its backslashes. -/
  | word
  | varName
  /-- A number, or a string without expressions in it. -/
  | literal
  | symbol
  /-- The start, a stretch of text, and the end of a string that may hold expressions. -/
  | quoteOpen
  | quoteText
  | quoteClose
  /-- The braces around an expression in a string. -/
  | partOpen
  | partClose
  | openTag
  | echoTag
  | closeTag
  /-- Text outside of the code. -/
  | html
deriving DecidableEq, Repr

structure Lexeme where
  kind : LexemeKind
  text : String
  span : Span
deriving DecidableEq, Repr

namespace Lexeme

def isSymbol (lexeme : Lexeme) (text : String) : Bool :=
  lexeme.kind == .symbol && lexeme.text == text

/-- Whether the lexeme is the keyword `word`, in whatever case. -/
def isWord (lexeme : Lexeme) (word : String) : Bool :=
  lexeme.kind == .word && Text.lower lexeme.text == word

end Lexeme

/-- A comment; only doc comments are read. -/
structure Comment where
  span : Span
  text : List Char
  isDoc : Bool
deriving DecidableEq, Repr

/-- The pieces of a source, in order. -/
structure Lexed where
  lexemes : List Lexeme
  comments : List Comment
deriving DecidableEq, Repr

end DocTypes.Php
