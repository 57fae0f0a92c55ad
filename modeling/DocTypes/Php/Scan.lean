import DocTypes.Php.Lexeme
import DocTypes.Text.Blank
import DocTypes.Text.Bytes

namespace DocTypes.Php

/-- Where a character stands. -/
inductive Mode where
  | html
  /-- Code, with the number of braces open since it began. -/
  | code (braces : Nat)
  /-- A string that ends at a quote. -/
  | quoted (quote : Char)
  /-- A string that ends at a line with its label; the flag tells whether a line begins here. -/
  | heredoc (label : List Char) (lineStart : Bool)
  /-- Code after the word that ends the program; so many lexemes of it are left. -/
  | halting (lexemes : Nat)
  /-- Data after the end of the program. -/
  | data
deriving DecidableEq, Repr

/-- What a stretch of source is. -/
inductive Piece where
  | blank
  | comment (isDoc : Bool)
  | lexeme (kind : LexemeKind)
deriving DecidableEq, Repr

namespace Scan

def isNameStart (c : Char) : Bool :=
  c.isAlpha || c == '_' || 128 ≤ c.toNat

def isNameChar (c : Char) : Bool :=
  isNameStart c || c.isDigit

/-- How many characters go on a name; a backslash does if a further part follows. -/
def nameTail : List Char → Nat
  | [] => 0
  | c :: cs =>
    if isNameChar c || (c == '\\' && cs.head?.any isNameStart) then nameTail cs + 1 else 0

/-- How many characters there are before the first place where `p` holds of the rest. -/
def lengthUntil (p : List Char → Bool) : List Char → Nat
  | [] => 0
  | c :: cs => if p (c :: cs) then 0 else lengthUntil p cs + 1

def startsWith (start : String) (cs : List Char) : Bool :=
  start.toList.isPrefixOf cs

/-- Whether a comment that runs to the end of its line ends here. -/
def endsLineComment (cs : List Char) : Bool :=
  startsWith "\n" cs || startsWith "\r" cs || startsWith "?>" cs

/-- How many characters complete a string closed by `quote`, or the rest of the text. -/
def quotedTail (quote : Char) : List Char → Nat
  | [] => 0
  | c :: cs =>
    if c = quote then 1
    else if c = '\\' then
      match cs with
      | [] => 1
      | _ :: rest => quotedTail quote rest + 2
    else quotedTail quote cs + 1

/-- Whether an expression in a string starts here. -/
def startsPart (cs : List Char) : Bool :=
  startsWith "\x7b$" cs || startsWith "$\x7b" cs

/-- How many characters of a string there are before its end or its next expression. -/
def quotedText (quote : Char) : List Char → Nat
  | [] => 0
  | c :: cs =>
    if c = quote || startsPart (c :: cs) then 0
    else if c = '\\' then
      match cs with
      | [] => 1
      | _ :: rest => quotedText quote rest + 2
    else quotedText quote cs + 1

def isIndent (c : Char) : Bool :=
  c == ' ' || c == '\t'

/-- Length of the label line that closes a string, if one stands here. -/
def closingLabel? (label cs : List Char) : Option Nat :=
  let indent := cs.takeWhile isIndent
  let rest := cs.dropWhile isIndent
  if label.isPrefixOf rest && !(rest.drop label.length).head?.any isNameChar then
    some (indent.length + label.length)
  else none

/-- How many characters of a labelled string there are before its end or its next expression. -/
def heredocText (label : List Char) (lineStart : Bool) : List Char → Nat
  | [] => 0
  | c :: cs =>
    if (lineStart && (closingLabel? label (c :: cs)).isSome) || startsPart (c :: cs) then 0
    else if c = '\\' then
      match cs with
      | [] => 1
      | next :: rest => heredocText label (next == '\n') rest + 2
    else heredocText label (c == '\n') cs + 1

/-- How many characters there are up to and with the line that closes a labelled string. -/
def nowdocTail (label : List Char) (lineStart : Bool) : List Char → Nat
  | [] => 0
  | c :: cs =>
    match if lineStart then closingLabel? label (c :: cs) else none with
    | some n => n
    | none => nowdocTail label (c == '\n') cs + 1

/-- The label of a string that starts here, whether its text is taken as it stands, and the length
of its first line. -/
def heredocHead? (cs : List Char) : Option (List Char × Bool × Nat) :=
  if startsWith "<<<" cs then
    let rest := cs.drop 3
    let blanks := (rest.takeWhile isIndent).length
    let rest := rest.dropWhile isIndent
    let quote := rest.head?.filter fun c => c == '\'' || c == '"'
    let rest := rest.drop quote.toList.length
    let label := rest.takeWhile isNameChar
    let after := rest.drop label.length
    let closed := quote.toList.isPrefixOf after
    let after := after.drop quote.toList.length
    let lineEnd := if startsWith "\r\n" after then 2 else if startsWith "\n" after then 1 else 0
    if label.head?.any isNameStart && closed && 0 < lineEnd then
      some (label, quote == some '\'', 3 + blanks + label.length + 2 * quote.toList.length + lineEnd)
    else none
  else none

def symbols3 : List String :=
  ["===", "!==", "<=>", "**=", "...", "<<=", ">>=", "??=", "?->"]

def symbols2 : List String :=
  ["==", "!=", "<>", "<=", ">=", "&&", "||", "??", "++", "--", "+=", "-=", "*=", "/=", ".=", "%=",
    "&=", "|=", "^=", "->", "=>", "::", "<<", ">>", "**", "|>", "#["]

/-- Length of the longest symbol that starts here. -/
def symbolLength (cs : List Char) : Nat :=
  if symbols3.any (startsWith · cs) then 3
  else if symbols2.any (startsWith · cs) then 2
  else 1

/-- Length of the exponent that starts here, if any. -/
def exponentLength (cs : List Char) : Nat :=
  let isDigit (c : Char) := c.isDigit || c == '_'
  match cs with
  | e :: sign :: c :: rest =>
    if e != 'e' && e != 'E' then 0
    else if sign.isDigit then ((sign :: c :: rest).takeWhile isDigit).length + 1
    else if (sign == '+' || sign == '-') && c.isDigit then ((c :: rest).takeWhile isDigit).length + 2
    else 0
  | [e, c] => if (e == 'e' || e == 'E') && c.isDigit then 2 else 0
  | _ => 0

/-- Digits may be set apart by underscores. -/
def isNumberChar (c : Char) : Bool :=
  c.isDigit || c == '_'

/-- Length of the decimal number that starts here. -/
def decimalLength (cs : List Char) : Nat :=
  let whole := (cs.takeWhile isNumberChar).length
  let rest := cs.drop whole
  let fraction :=
    match rest with
    | '.' :: '.' :: _ => 0
    | '.' :: more => (more.takeWhile isNumberChar).length + 1
    | _ => 0
  whole + fraction + exponentLength (rest.drop fraction)

/-- Length of the number that starts here. -/
def numberLength (cs : List Char) : Nat :=
  match cs with
  | '0' :: x :: rest =>
    if ['x', 'X', 'b', 'B', 'o', 'O'].contains x then
      (rest.takeWhile fun c => c.isAlphanum || c == '_').length + 2
    else decimalLength cs
  | _ => decimalLength cs

/-- The piece of code that starts here: what it is and how long. Braces, tags and strings with
expressions are not told apart from other symbols. -/
def codePiece (cs : List Char) : Piece × Nat :=
  match cs with
  | [] => (.blank, 0)
  | c :: rest =>
    if c.isWhitespace || c == '\x0b' || c == '\x0c' then (.blank, 1)
    else if startsWith "//" cs || (c == '#' && !startsWith "#[" cs) then
      (.comment false, lengthUntil endsLineComment cs)
    else if startsWith "/*" cs then
      let body := lengthUntil (startsWith "*/") (cs.drop 2)
      (.comment (startsWith "/**" cs && 0 < body), body + 4)
    else if isNameStart c || (c == '\\' && rest.head?.any isNameStart) then
      if (c == 'b' || c == 'B') && rest.head? == some '\'' then
        (.lexeme .literal, quotedTail '\'' (rest.drop 1) + 2)
      else (.lexeme .word, nameTail rest + 1)
    else if c == '$' && rest.head?.any isNameStart then
      (.lexeme .varName, (rest.takeWhile isNameChar).length + 1)
    else if c.isDigit || (c == '.' && rest.head?.any Char.isDigit) then
      (.lexeme .literal, numberLength cs)
    else if c == '\'' then (.lexeme .literal, quotedTail '\'' rest + 1)
    else (.lexeme .symbol, symbolLength cs)

/-- A piece of code with what it does to the modes around it. -/
def codeStep (braces : Nat) (outer : List Mode) (cs : List Char) : Piece × Nat × List Mode :=
  let here := Mode.code braces :: outer
  match heredocHead? cs with
  | some (label, true, n) =>
    (.lexeme .literal, n + nowdocTail label true (cs.drop n), here)
  | some (label, false, n) => (.lexeme .quoteOpen, n, .heredoc label true :: here)
  | none =>
    if startsWith "?>" cs then (.lexeme .closeTag, 2, .html :: outer)
    else if startsWith "\"" cs then (.lexeme .quoteOpen, 1, .quoted '"' :: here)
    else if startsWith "b\"" cs || startsWith "B\"" cs then
      (.lexeme .quoteOpen, 2, .quoted '"' :: here)
    else if startsWith "\x60" cs then (.lexeme .quoteOpen, 1, .quoted '\x60' :: here)
    else if startsWith "\x7b" cs then (.lexeme .symbol, 1, .code (braces + 1) :: outer)
    else if startsWith "\x7d" cs then
      match braces, outer with
      | 0, _ :: _ => (.lexeme .partClose, 1, outer)
      | n, _ => (.lexeme .symbol, 1, .code (n - 1) :: outer)
    else
      let (piece, n) := codePiece cs
      let halts := piece == .lexeme .word &&
        Text.lower (String.ofList (cs.take n)) == "__halt_compiler"
      (piece, n, if halts then .halting 3 :: outer else here)

/-- The expression of a string that starts here is code again. -/
def partStep (here : List Mode) (cs : List Char) : Piece × Nat × List Mode :=
  (.lexeme .partOpen, if startsWith "$" cs then 2 else 1, .code 0 :: here)

def quotedStep (quote : Char) (outer : List Mode) (cs : List Char) : Piece × Nat × List Mode :=
  if cs.head? = some quote then (.lexeme .quoteClose, 1, outer)
  else if startsPart cs then partStep (.quoted quote :: outer) cs
  else (.lexeme .quoteText, quotedText quote cs, .quoted quote :: outer)

def heredocStep (label : List Char) (lineStart : Bool) (outer : List Mode) (cs : List Char) :
    Piece × Nat × List Mode :=
  match if lineStart then closingLabel? label cs else none with
  | some n => (.lexeme .quoteClose, n, outer)
  | none =>
    if startsPart cs then partStep (.heredoc label false :: outer) cs
    else
      let n := heredocText label lineStart cs
      let endsLine := (cs.take n).getLast? == some '\n'
      (.lexeme .quoteText, n, .heredoc label endsLine :: outer)

/-- Text outside of code lasts until a tag opens code. -/
def htmlStep (outer : List Mode) (cs : List Char) : Piece × Nat × List Mode :=
  let inside := Mode.code 0 :: outer
  if startsWith "<?=" cs then (.lexeme .echoTag, 3, inside)
  else if startsWith "<?" cs then
    if Text.lower (String.ofList (cs.take 5)) = "<?php" then (.lexeme .openTag, 5, inside)
    else (.lexeme .openTag, 2, inside)
  else (.lexeme .html, lengthUntil (startsWith "<?") cs, .html :: outer)

/-- After the word that ends the program come two brackets and the end of the statement; all that
follows is data. -/
def haltingStep (lexemes : Nat) (outer : List Mode) (cs : List Char) : Piece × Nat × List Mode :=
  let (piece, n) := codePiece cs
  match piece with
  | .lexeme _ =>
    if startsWith "?>" cs then (.lexeme .closeTag, 2, [.data])
    else (piece, n, if lexemes ≤ 1 then [.data] else .halting (lexemes - 1) :: outer)
  | _ => (piece, n, .halting lexemes :: outer)

/-- The next piece, its length, and the modes after it. -/
def step (modes : List Mode) (cs : List Char) : Piece × Nat × List Mode :=
  match modes with
  | [] => (.lexeme .html, cs.length, [])
  | .html :: outer => htmlStep outer cs
  | .code braces :: outer => codeStep braces outer cs
  | .quoted quote :: outer => quotedStep quote outer cs
  | .heredoc label lineStart :: outer => heredocStep label lineStart outer cs
  | .halting lexemes :: outer => haltingStep lexemes outer cs
  | .data :: _ => (.lexeme .html, cs.length, modes)

/-- The pieces of the source found at byte `offset`. -/
def piecesFrom (offset : Nat) (modes : List Mode) (cs : List Char) : Lexed :=
  match cs with
  | [] => ⟨[], []⟩
  | c :: rest =>
    let (piece, n, modes) := step modes (c :: rest)
    let text := c :: rest.take (n - 1)
    let span : Span := ⟨offset, offset + Text.byteSize text⟩
    let more := piecesFrom span.stop modes (rest.drop (n - 1))
    match piece with
    | .blank => more
    | .comment isDoc => ⟨more.lexemes, ⟨span, text, isDoc⟩ :: more.comments⟩
    | .lexeme kind => ⟨⟨kind, String.ofList text, span⟩ :: more.lexemes, more.comments⟩
termination_by cs.length
decreasing_by
  simp only [List.length_cons, List.length_drop]
  omega

end Scan

/-- The lexemes and comments of a source. -/
def lex (source : List Char) : Lexed :=
  Scan.piecesFrom 0 [.html] source

end DocTypes.Php
