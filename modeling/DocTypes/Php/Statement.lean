import DocTypes.Php.Expression
import DocTypes.Php.Scan

namespace DocTypes.Php

namespace Parse

/-- The end of a statement: a semicolon, a closing tag, or the end of the source. -/
def terminator : Parse Unit := do
  unless (← atEnd) || (← eatSymbol ";") do discard (kind .closeTag)

def atTerminator : Parse Bool := do
  return (← atEnd) || (← atSymbol ";") || (← atKind .closeTag)

section

variable (rules : Rules)

/-- Expressions with commas between them, up to the end of the statement. -/
def expressionList : Parse (List Node) := do
  let parts ← many (do return !(← atTerminator)) do
    if ← eatSymbol "," then return [] else rules.expression
  terminator
  return [.compound .statement parts]

/-- A keyword and expressions after it. -/
def simpleStatement : Parse (List Node) := do
  discard advance
  expressionList rules

def bracketed : Parse (List Node) := do
  symbol "("
  let parts ← rules.expression
  symbol ")"
  return parts

/-- Statements up to one of several keywords. -/
def statementsUntil (words : List String) : Parse (List Node) :=
  many (do return !(← atEnd) && !(← atWords words)) rules.statement

/-- A statement, or statements after a colon up to a keyword. -/
def controlled (endWord : String) : Parse (List Node) := do
  if ← eatSymbol ":" then
    let parts ← statementsUntil rules [endWord]
    word endWord
    terminator
    return parts
  else rules.statement

/-- The branches after the first, where each is a statement. -/
def plainBranches : Parse (List Node) := do
  let more ← many (atWord "elseif") do
    word "elseif"
    let condition ← bracketed rules
    return condition ++ (← rules.statement)
  if (← atWord "else") && !(← nextIs 1 (·.isSymbol ":")) then
    word "else"
    return more ++ (← rules.statement)
  else return more

/-- The branches after the first condition, where each is a list of statements. -/
def colonBranches : Parse (List Node) := do
  let body := statementsUntil rules ["elseif", "else", "endif"]
  let first ← body
  let more ← many (atWords ["elseif", "else"]) do
    let isLast := (← atWord "else") && (← nextIs 1 (·.isSymbol ":"))
    if ← eatWord "else" then discard (eatWord "if") else word "elseif"
    let condition ← if isLast then pure [] else bracketed rules
    symbol ":"
    return condition ++ (← body)
  word "endif"
  terminator
  return first ++ more

def branchStatement : Parse (List Node) := do
  word "if"
  let condition ← bracketed rules
  let parts ←
    if ← eatSymbol ":" then colonBranches rules
    else do
      let first ← rules.statement
      pure (first ++ (← plainBranches rules))
  return [.compound .branch (condition ++ parts)]

def whileStatement : Parse (List Node) := do
  word "while"
  let condition ← bracketed rules
  return [.compound .loop (condition ++ (← controlled rules "endwhile"))]

def doStatement : Parse (List Node) := do
  word "do"
  let body ← rules.statement
  word "while"
  let condition ← bracketed rules
  terminator
  return [.compound .loop (body ++ condition)]

def forStatement : Parse (List Node) := do
  word "for"
  symbol "("
  let heads ← closedBy ")" do
    if ← eatWhen (atSymbols [",", ";"]) then return [] else rules.expression
  return [.compound .loop (heads ++ (← controlled rules "endfor"))]

def foreachStatement : Parse (List Node) := do
  word "foreach"
  symbol "("
  let subject ← rules.expression
  word "as"
  let first ← rules.expression
  let second ← if ← eatSymbol "=>" then rules.expression else pure []
  symbol ")"
  return [.compound .loop (subject ++ first ++ second ++ (← controlled rules "endforeach"))]

/-- A case label, or a statement under one. -/
def caseItem : Parse (List Node) := do
  let label : Parse Unit := do guard (← eatWhen (atSymbols [":", ";"]))
  if ← eatWord "case" then
    let value ← rules.expression
    label
    return value
  else if ← eatWord "default" then
    label
    return []
  else rules.statement

def choiceStatement : Parse (List Node) := do
  word "switch"
  let subject ← bracketed rules
  let cases ←
    if ← eatSymbol "\x7b" then closedBy "\x7d" (caseItem rules)
    else do
      symbol ":"
      let cases ← many (do return !(← atEnd) && !(← atWord "endswitch")) (caseItem rules)
      word "endswitch"
      terminator
      pure cases
  return [.compound .choice (subject ++ cases)]

def recoveryStatement : Parse (List Node) := do
  word "try"
  let body ← braced rules
  let catches ← many (atWord "catch") do
    word "catch"
    symbol "("
    skipTo ")"
    symbol ")"
    braced rules
  let last ← if ← eatWord "finally" then braced rules else pure []
  return [.compound .recovery (body ++ catches ++ last)]

def directiveStatement : Parse (List Node) := do
  word "declare"
  let settings ← arguments rules
  let body ← if ← atTerminator then do terminator; pure [] else controlled rules "enddeclare"
  return [.compound .directive (settings ++ body)]

end

/-- One imported name; `none` for a function or a constant. -/
def importItem (group : Option String) : Parse (List Import) := do
  if ← eatSymbol "," then return []
  let other := (← atWords ["function", "const"]) && (← nextIs 1 (·.kind == .word))
  if other then discard advance
  let target ← name
  let rename ← if ← eatWord "as" then do pure (some (← name)) else pure none
  return if other then [] else [⟨group, target, rename⟩]

/-- The classes that a `use` statement imports. -/
def importStatement : Parse (List Node) := do
  word "use"
  let other := (← atWords ["function", "const"]) && (← nextIs 1 (·.kind == .word))
  if other then discard advance
  let grouped ← nextIs 1 (·.isSymbol "\\")
  let items ←
    if grouped then do
      let group ← name
      symbol "\\"
      symbol "\x7b"
      closedBy "\x7d" (importItem (some group))
    else many (do return !(← atTerminator)) (importItem none)
  terminator
  return [.imports (if other then [] else items)]

section

variable (rules : Rules)

/-- A statement, or one lexeme if no statement can be read here. -/
def recovering : Parse (List Node) := fun tape =>
  match rules.statement tape with
  | some result => some result
  | none => (do discard advance; return []) tape

def namespaceStatement : Parse (List Node) := do
  let start ← here
  word "namespace"
  let title ← if ← atKind .word then name else pure ""
  let body ←
    if ← atSymbol "\x7b" then braced rules
    else do
      terminator
      many (do return !(← atEnd) && !(← atWord "namespace")) (recovering rules)
  return [.namespaceBlock (← spanFrom start) title body]

/-- Whether a function with a name is declared here. -/
def atFunction : Parse Bool := do
  let isName (lexeme : Lexeme) := lexeme.kind == .word
  return (← atWord "function") &&
    ((← nextIs 1 isName) || ((← nextIs 1 (·.isSymbol "&")) && (← nextIs 2 isName)))

/-- A statement that starts with a keyword, or an expression. -/
def wordStatement (keyword : String) : Parse (List Node) := do
  match keyword with
  | "namespace" => namespaceStatement rules
  | "use" => importStatement
  | "if" => branchStatement rules
  | "while" => whileStatement rules
  | "do" => doStatement rules
  | "for" => forStatement rules
  | "foreach" => foreachStatement rules
  | "switch" => choiceStatement rules
  | "try" => recoveryStatement rules
  | "declare" => directiveStatement rules
  | "echo" | "return" | "break" | "continue" | "global" | "goto" | "const" => simpleStatement rules
  | "static" =>
    if ← nextIs 1 (·.kind == .varName) then simpleStatement rules else expressionList rules
  | _ =>
    if ← nextIs 1 (·.isSymbol ":") then
      discard advance
      discard advance
      return []
    else expressionList rules

def statement : Parse (List Node) := do
  let start ← here
  if (← atKind .openTag) || (← atKind .closeTag) || (← atKind .html) then
    discard advance
    return []
  if ← atKind .echoTag then return ← simpleStatement rules
  if ← eatSymbol ";" then return []
  if ← atSymbol "\x7b" then return [.compound .block (← braced rules)]
  let attributed := (← atSymbol "#[")
  let attributes ← attributes rules
  if ← atClassLike then return [← classDeclaration rules start attributes]
  if ← atFunction then return [← functionDeclaration rules start attributes]
  if attributed && (← atClosure) then
    let declared ← closure rules start attributes
    terminator
    return [.compound .statement [declared]]
  match ← peek 0 with
  | some lexeme =>
    if lexeme.kind == .word then wordStatement rules (Text.lower lexeme.text)
    else expressionList rules
  | none => failure

end

/-- The rules with `n` levels of nesting left. -/
def rulesWithin : Nat → Rules
  | 0 => ⟨failure, failure⟩
  | n + 1 => ⟨expression (rulesWithin n), statement (rulesWithin n)⟩

/-- The statements of a program; each level of nesting takes a lexeme or passes from a statement to
an expression, so twice their number of levels suffices. -/
def program : Parse (List Node) := do
  let rules := rulesWithin (2 * (← get).ahead.length + 2)
  many (do return !(← atEnd)) (recovering rules)

end Parse

/-- The program that a source holds. What cannot be read as code is stepped over. -/
def Program.ofSource (source : List Char) : Program :=
  let lexed := lex source
  match Parse.program ⟨source, lexed.lexemes, 0⟩ with
  | some (statements, _) => ⟨statements, lexed.comments⟩
  | none => ⟨[], lexed.comments⟩

end DocTypes.Php
