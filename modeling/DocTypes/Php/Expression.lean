import DocTypes.Php.Declaration

namespace DocTypes.Php.Parse

def prefixSymbols : List String :=
  ["!", "-", "+", "~", "@", "&", "++", "--"]

/-- Words that stand before an operand. -/
def prefixWords : List String :=
  ["new", "print", "throw", "include", "include_once", "require", "require_once", "clone"]

def infixSymbols : List String :=
  ["+", "-", "*", "/", "%", "**", ".", "<<", ">>", "<", "<=", ">", ">=", "==", "!=", "<>", "===",
    "!==", "<=>", "&", "|", "^", "&&", "||", "??", "=", "+=", "-=", "*=", "/=", ".=", "%=", "**=",
    "<<=", ">>=", "&=", "|=", "^=", "??=", "|>"]

def infixWords : List String :=
  ["and", "or", "xor", "instanceof"]

def castWords : List String :=
  ["int", "integer", "bool", "boolean", "float", "double", "real", "string", "binary", "array",
    "object", "unset", "void"]

/-- Whether a type in brackets stands here. -/
def atCast : Parse Bool := do
  return (← atSymbol "(") && (← nextIs 2 (·.isSymbol ")")) &&
    (← nextIs 1 fun lexeme => lexeme.kind == .word && castWords.contains (Text.lower lexeme.text))

/-- Whether nothing of an expression can stand here. -/
def atExpressionEnd : Parse Bool := do
  return (← atEnd) || (← atSymbols [";", ",", ")", "]", "\x7d", ":", "=>"]) || (← atKind .closeTag) ||
    (← atKind .partClose)

section

variable (rules : Rules)

/-- A string, from its opening on. -/
def template : Parse (List Node) := do
  discard (kind .quoteOpen)
  let parts ← many (do return !(← atEnd) && !(← atKind .quoteClose)) do
    if ← atKind .quoteText then
      discard advance
      return []
    else
      discard (kind .partOpen)
      let parts ← rules.expression
      discard (kind .partClose)
      return parts
  discard (kind .quoteClose)
  return [.compound .template parts]

def bracedExpression : Parse (List Node) := do
  symbol "\x7b"
  let parts ← rules.expression
  symbol "\x7d"
  return parts

/-- A `match`: its subject and its arms. -/
def matching : Parse (List Node) := do
  word "match"
  symbol "("
  let subject ← rules.expression
  symbol ")"
  symbol "\x7b"
  let arms ← closedBy "\x7d" do
    if (← eatSymbol ",") || (← eatSymbol "=>") then return [] else rules.expression
  return [.compound .matching (subject ++ arms)]

/-- What follows `yield`: nothing, a value, or a key and a value. -/
def yielded : Parse (List Node) := do
  word "yield"
  if ← eatWord "from" then rules.expression
  else if ← atExpressionEnd then return []
  else
    let value ← rules.expression
    if ← eatSymbol "=>" then return value ++ (← rules.expression) else return value

/-- An operand without what stands before and after it. -/
def primary : Parse (List Node) := do
  let start ← here
  if ← atSymbol "#[" then
    let attributes ← attributes rules
    return [← closure rules start attributes]
  if ← atClosure then return [← closure rules start []]
  if ← eatSymbol "(" then
    let parts ← rules.expression
    symbol ")"
    return parts
  if ← eatSymbol "[" then return ← listItems rules .items "]"
  if ← eatSymbol "$" then
    if ← atSymbol "\x7b" then return ← bracedExpression rules
    discard (many (atSymbol "$") (do discard advance; return ([] : List Unit)))
    if ← atSymbol "\x7b" then return ← bracedExpression rules
    discard (kind .varName)
    return []
  if ← atKind .quoteOpen then return ← template rules
  if (← atWord "match") && (← nextIs 1 (·.isSymbol "(")) then return ← matching rules
  if ← atWord "yield" then return ← yielded rules
  if (← atKind .word) || (← atKind .varName) || (← atKind .literal) then
    discard advance
    return []
  failure

/-- The member after `->` or `::`. -/
def memberName : Parse (List Node) := do
  if ← atSymbol "\x7b" then bracedExpression rules
  else if ← eatSymbol "$" then
    if ← atSymbol "\x7b" then bracedExpression rules
    else
      discard (kind .varName)
      return []
  else
    guard ((← atKind .word) || (← atKind .varName))
    discard advance
    return []

/-- One call, index, member or step after an operand. -/
def suffixItem : Parse (List Node) := do
  if ← atSymbol "(" then arguments rules
  else if ← eatSymbol "[" then listItems rules .items "]"
  else if ← eatWhen (atSymbols ["++", "--"]) then return []
  else
    discard advance
    memberName rules

def suffixes : Parse (List Node) :=
  many (atSymbols ["(", "[", "->", "?->", "::", "++", "--"]) (suffixItem rules)

/-- An operand with what stands before it. -/
def operandWithin : Nat → Parse (List Node)
  | 0 => failure
  | n + 1 => do
    let start ← here
    if ← atCast then
      symbol "("
      discard advance
      symbol ")"
      operandWithin n
    else if ← eatWhen (atSymbols prefixSymbols) then operandWithin n
    else if (← atWords prefixWords) && !((← atWord "clone") && (← nextIs 1 (·.isSymbol "("))) then
      let isNew ← atWord "new"
      discard advance
      if isNew && (← atAnonymousClass) then
        let declared ← anonymousClass rules start
        return declared :: (← suffixes rules)
      else operandWithin n
    else
      let parts ← primary rules
      return parts ++ (← suffixes rules)

def operand : Parse (List Node) := do
  operandWithin rules (← get).ahead.length

/-- An operator and its right operand; of `? :` both operands. -/
def operation : Parse (List Node) := do
  if ← eatSymbol "?" then
    if ← eatSymbol ":" then operand rules
    else
      let middle ← rules.expression
      symbol ":"
      return middle ++ (← operand rules)
  else
    discard advance
    operand rules

/-- The declarations inside an expression. -/
def expression : Parse (List Node) := do
  let first ← operand rules
  let atOperator : Parse Bool := do
    return (← atSymbols ("?" :: infixSymbols)) || (← atWords infixWords)
  return first ++ (← many atOperator (operation rules))

end

end DocTypes.Php.Parse
