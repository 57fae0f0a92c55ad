import DocTypes.Php.Tape

namespace DocTypes.Php.Parse

/-- Whether an `&` before this lexeme belongs to a parameter and not to a type. -/
def marksReference (lexeme : Lexeme) : Bool :=
  lexeme.kind == .varName || lexeme.isSymbol "..." || lexeme.isSymbol "&"

def hintAtom (inner : Parse Hint) : Parse Hint := do
  if ← eatSymbol "?" then return .nullable (← inner)
  if ← eatSymbol "(" then
    let hint ← inner
    symbol ")"
    return .grouped hint
  return .name (← name)

def hintRest (inner : Parse Hint) (left : Hint) : Nat → Parse Hint
  | 0 => return left
  | n + 1 => do
    if ← eatSymbol "|" then
      hintRest inner (.union left (← hintAtom inner)) n
    else if (← atSymbol "&") && !(← nextIs 1 marksReference) then
      discard advance
      hintRest inner (.intersection left (← hintAtom inner)) n
    else return left

def hintWithin : Nat → Parse Hint
  | 0 => failure
  | n + 1 => do
    let first ← hintAtom (hintWithin n)
    hintRest (hintWithin n) first (← get).ahead.length

/-- A native type. -/
def hint : Parse Hint := do
  hintWithin (← get).ahead.length

/-- The type after a colon, if there is one. -/
def resultHint : Parse (Option Hint) := do
  if ← eatSymbol ":" then return some (← hint) else return none

section

variable (rules : Rules)

/-- One item of an argument list or an array: it may be spread, named, keyed, or left out. -/
def listItem (close : String) : Parse (List Node) := do
  if ← eatSymbol "," then return []
  discard (eatSymbol "...")
  if (← atSymbol close) || (← atSymbol ",") then return []
  if (← atKind .word) && (← nextIs 1 (·.isSymbol ":")) then
    discard advance
    discard advance
  let value ← rules.expression
  if ← eatSymbol "=>" then return value ++ (← rules.expression) else return value

/-- Items between brackets of which the first has been taken. -/
def listItems (construct : Construct) (close : String) : Parse (List Node) := do
  return [.compound construct (← closedBy close (listItem rules close))]

def arguments : Parse (List Node) := do
  symbol "("
  listItems rules .arguments ")"

def optionalArguments : Parse (List Node) := do
  if ← atSymbol "(" then arguments rules else return []

def attributeItem : Parse (List Node) := do
  if ← eatSymbol "," then return []
  discard name
  return [.compound .attributeUse (← optionalArguments rules)]

/-- Any number of attribute groups. -/
def attributes : Parse (List Node) :=
  many (atSymbol "#[") do
    symbol "#["
    closedBy "]" (attributeItem rules)

/-- A modifier, which may say that it is about writing. -/
def modifier : Parse (List String) := do
  let text ← name
  if (← atSymbol "(") && (← nextIs 1 (·.isWord "set")) then
    symbol "("
    word "set"
    symbol ")"
  return [text]

def modifiers (words : List String) : Parse (List String) :=
  many (atWords words) modifier

/-- The statements between braces. -/
def braced : Parse (List Node) := do
  symbol "\x7b"
  closedBy "\x7d" rules.statement

end

/-- The words that can stand before a parameter or a member. -/
def parameterModifiers : List String :=
  ["public", "protected", "private", "readonly", "final"]

def memberModifiers : List String :=
  ["public", "protected", "private", "readonly", "final", "static", "abstract", "var"]

def classModifiers : List String :=
  ["readonly", "final", "abstract"]

section

variable (rules : Rules)

/-- The parameters of a function, by way of the reader of a single one. -/
def parametersOf (parameter : Parse Node) : Parse (List Node) := do
  symbol "("
  closedBy ")" do
    let read ← parameter
    discard (eatSymbol ",")
    return [read]

/-- The body of a hook: code, an expression, or nothing. -/
def hookBody : Parse (List Node) := do
  if ← eatSymbol ";" then return []
  if ← eatSymbol "=>" then
    let value ← rules.expression
    symbol ";"
    return value
  else return [.compound .block (← braced rules)]

/-- One hook of a property. -/
def hook (parameter : Parse Node) : Parse (List Node) := do
  let attributes ← attributes rules
  discard (modifiers memberModifiers)
  discard (eatSymbol "&")
  discard name
  let parameters ← if ← atSymbol "(" then parametersOf parameter else pure []
  return [.compound .hook (attributes ++ parameters ++ (← hookBody rules))]

def hooks (parameter : Parse Node) : Parse (List Node) := do
  symbol "\x7b"
  closedBy "\x7d" (hook rules parameter)

/-- One parameter. The parameters of its hooks are read by `inner`. -/
def parameterWith (inner : Parse Node) : Parse Node := do
  let start ← here
  let attributes ← attributes rules
  let words ← modifiers parameterModifiers
  let untyped := (← nextIs 0 marksReference)
  let hint ← if untyped then pure none else do pure (some (← hint))
  let byReference ← eatSymbol "&"
  let splat ← eatSymbol "..."
  let name ← kind .varName
  let (value, text) ←
    if ← eatSymbol "=" then do
      let valueStart ← here
      let value ← rules.expression
      pure (value, some (← sourceFrom valueStart))
    else pure ([], none)
  let hooked ← atSymbol "\x7b"
  let hooks ← if hooked then hooks rules inner else pure []
  let promoted := hooked || !words.isEmpty
  return .parameter ⟨start, hint, byReference, splat, name, promoted, text⟩ attributes value hooks

/-- A parameter; that of a hook has no hooks itself. -/
def parameter : Parse Node :=
  parameterWith rules (parameterWith rules failure)

def parameters : Parse (List Node) :=
  parametersOf (parameter rules)

/-- A function with a name, from the word `function` on. -/
def functionDeclaration (start : Nat) (attributes : List Node) : Parse Node := do
  word "function"
  discard (eatSymbol "&")
  discard name
  let parameters ← parameters rules
  let result ← resultHint
  let body ← braced rules
  return .functionLike ⟨.function, ← spanFrom start, result⟩ attributes parameters body

/-- A closure or an arrow function, from the word `static`, `function` or `fn` on. -/
def closure (start : Nat) (attributes : List Node) : Parse Node := do
  discard (eatWord "static")
  if ← eatWord "function" then
    discard (eatSymbol "&")
    let parameters ← parameters rules
    if ← eatWord "use" then
      symbol "("
      skipTo ")"
      symbol ")"
    let result ← resultHint
    let body ← braced rules
    return .functionLike ⟨.closure, ← spanFrom start, result⟩ attributes parameters body
  else
    word "fn"
    discard (eatSymbol "&")
    let parameters ← parameters rules
    let result ← resultHint
    symbol "=>"
    let body ← rules.expression
    return .functionLike ⟨.arrow, ← spanFrom start, result⟩ attributes parameters body

/-- Whether a closure or an arrow function starts here. -/
def atClosure : Parse Bool := do
  let isFunction (lexeme : Lexeme) := lexeme.isWord "function" || lexeme.isWord "fn"
  return (← nextIs 0 isFunction) || ((← atWord "static") && (← nextIs 1 isFunction))

/-- A constant after its word and type: names with values. -/
def constantItems : Parse (List Node) :=
  closedBy ";" do
    if ← eatSymbol "," then return []
    discard name
    symbol "="
    rules.expression

def constant (start : Nat) (attributes : List Node) : Parse Node := do
  word "const"
  unless ← nextIs 1 (·.isSymbol "=") do discard hint
  return .constant start (attributes ++ (← constantItems rules))

def method (start : Nat) (attributes : List Node) : Parse Node := do
  word "function"
  discard (eatSymbol "&")
  discard name
  let parameters ← parameters rules
  let result ← resultHint
  let body ← if ← eatSymbol ";" then pure [] else braced rules
  return .functionLike ⟨.method, ← spanFrom start, result⟩ attributes parameters body

/-- One variable of a property, with its value. -/
def propertyItem : Parse (List Node) := do
  if ← eatSymbol "," then return []
  discard (kind .varName)
  if ← eatSymbol "=" then rules.expression else return []

def property (start : Nat) (attributes : List Node) : Parse Node := do
  let hint ← if ← atKind .varName then pure none else do pure (some (← hint))
  let values ←
    many (do return !(← atEnd) && !(← atSymbols [";", "\x7b"])) (propertyItem rules)
  let hooks ← if ← eatSymbol ";" then pure [] else hooks rules (parameter rules)
  return .property start hint (attributes ++ values ++ hooks)

/-- The traits that a class-like uses. -/
def traitUse : Parse Node := do
  word "use"
  discard (many (do return !(← atEnd) && !(← atSymbols [";", "\x7b"]))
    (do discard advance; return ([] : List Unit)))
  unless ← eatSymbol ";" do
    symbol "\x7b"
    skipTo "\x7d"
    symbol "\x7d"
  return .compound .traitUse []

def enumCase (attributes : List Node) : Parse Node := do
  word "case"
  discard name
  let value ← if ← eatSymbol "=" then rules.expression else pure []
  symbol ";"
  return .compound .enumCase (attributes ++ value)

def member : Parse (List Node) := do
  let start ← here
  let attributes ← attributes rules
  if ← atWord "use" then return [← traitUse]
  if ← atWord "case" then return [← enumCase rules attributes]
  discard (modifiers memberModifiers)
  if ← atWord "const" then return [← constant rules start attributes]
  if ← atWord "function" then return [← method rules start attributes]
  return [← property rules start attributes]

def members : Parse (List Node) := do
  symbol "\x7b"
  closedBy "\x7d" (member rules)

/-- The names after a keyword, if it stands here. -/
def namesAfter (keyword : String) : Parse (List String) := do
  if ← eatWord keyword then
    let first ← name
    let more ← many (atSymbol ",") do
      symbol ","
      return [← name]
    return first :: more
  else return []

/-- Whether a class-like with a name is declared here. -/
def atClassLike : Parse Bool := do
  let isName (lexeme : Lexeme) := lexeme.kind == .word
  if ← atWords ["class", "interface", "trait"] then nextIs 1 isName
  else if ← atWord "enum" then
    nextIs 1 fun lexeme =>
      isName lexeme && !lexeme.isWord "extends" && !lexeme.isWord "implements"
  else if ← atWords classModifiers then
    nextIs 1 fun lexeme =>
      lexeme.kind == .word && ("class" :: classModifiers).contains (Text.lower lexeme.text)
  else return false

/-- A class-like with a name. -/
def classDeclaration (start : Nat) (attributes : List Node) : Parse Node := do
  discard (modifiers classModifiers)
  let keyword := Text.lower (← name)
  let className ← name
  let backing ← if keyword = "enum" then resultHint else pure none
  let extended ← namesAfter "extends"
  let implemented ← namesAfter "implements"
  let members ← members rules
  let kind : ClassKind :=
    match keyword with
    | "interface" => .interface
    | "trait" => .trait
    | "enum" => .enum backing.isSome
    | _ => .plain
  let head : ClassHead := ⟨kind, ← spanFrom start, some className, extended, implemented⟩
  return .classLike head attributes [] members

/-- Whether a class without a name is declared here, after the word `new`. -/
def atAnonymousClass : Parse Bool := do
  return (← atSymbol "#[") || (← atWord "class") ||
    ((← atWords classModifiers) && (← nextIs 1 fun lexeme =>
      lexeme.kind == .word && ("class" :: classModifiers).contains (Text.lower lexeme.text)))

/-- A class without a name, which starts at the word `new` before it. -/
def anonymousClass (start : Nat) : Parse Node := do
  let attributes ← attributes rules
  discard (modifiers classModifiers)
  word "class"
  let arguments ← optionalArguments rules
  let extended ← namesAfter "extends"
  let implemented ← namesAfter "implements"
  let members ← members rules
  let head : ClassHead := ⟨.plain, ← spanFrom start, none, extended, implemented⟩
  return .classLike head attributes arguments members

end

end DocTypes.Php.Parse
