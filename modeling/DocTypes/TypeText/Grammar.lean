import DocTypes.DocType.Normal
import DocTypes.Scope
import DocTypes.TypeText.Cursor

namespace DocTypes

/-- What the reading of a type depends on besides its text. -/
structure Context where
  classes : ClassTable
  scope : Scope
  /-- Whether a fragment that cannot be resolved counts as `mixed`, else as `never`. -/
  wide : Bool
  limit : Nat := 64

/-- Reading of tokens that may fail. -/
abbrev Reading := StateT Cursor (Except ParseError)

namespace Grammar

def peek (n : Nat) : Reading (Option String) := do
  return (← get).peek n

def take : Reading String :=
  Cursor.take

def expect (wanted : String) : Reading Unit := do
  discard fun c => Cursor.expect c wanted

def eat (text : String) : Reading Bool :=
  fun c => .ok (c.eat text)

def correct (canonical : String) : Reading Unit :=
  modify fun c => c.correct canonical

/-- One `item`, and one more each time `more` says so. -/
def separated {α : Type} (item : Reading α) (more : Reading Bool) : Nat → Reading (List α)
  | 0 => do return [← item]
  | n + 1 => do
    let first ← item
    if ← more then return first :: (← separated item more n) else return [first]

/-- Items with separators between them. -/
def sepBy {α : Type} (item : Reading α) (more : Reading Bool) : Reading (List α) := do
  separated item more (← get).ahead.length

/-- Repeats `item` until the current token is `close`. -/
def untilToken (close : String) (item : Reading Unit) : Nat → Reading Unit
  | 0 => return
  | n + 1 => do
    if (← peek 0) = some close then return
    else
      item
      untilToken close item n

/-- The productions that nest, one level further in. -/
structure Level where
  /-- A type; the flag tells whether it stands directly inside brackets. -/
  anyType : Bool → Reading DocType
  basicType : Reading DocType

section

variable (ctx : Context) (inner : Level)

/-- What a fragment that cannot be resolved counts as. -/
def unresolved : DocType :=
  if ctx.wide then .mixed else .never

/-- Whether an `&` before this token marks a parameter passed by reference. -/
def marksReference (next : Option String) : Bool :=
  match next with
  | none => true
  | some text => ["...", "=", ",", ")"].contains text || Token.isVariable text

/-- Steps over an `&` that goes on an intersection. -/
def continuesIntersection : Reading Bool := do
  if (← peek 0) = some "&" && !marksReference (← peek 1) then eat "&" else return false

/-- Steps over any number of `[]`, and tells whether there was one. -/
def arraySuffix : Nat → Reading Bool
  | 0 => return false
  | n + 1 => do
    if (← peek 0) = some "[" && (← peek 1) = some "]" then
      expect "["
      expect "]"
      discard (arraySuffix n)
      return true
    else return false

def singleType : Reading DocType := do
  let base ←
    if (← peek 0) = some "(" then do
      expect "("
      let type ← inner.anyType true
      expect ")"
      pure type
    else inner.basicType
  if ← arraySuffix (← get).ahead.length then return ⟨["array"]⟩ else return base

/-- The union members that an intersection of single types amounts to. -/
def intersectionMembers (singles : List DocType) : Except ParseError (List String) :=
  if singles.any DocType.isUnion then
    match singles with
    | [union] => .ok union.members
    | _ => .error .unionInIntersection
  else do
    let atoms := singles.flatMap fun single => DocType.atoms single.text
    return [Text.join '&' (← ctx.classes.normalIntersection atoms)]

def intersection : Reading (List String) := do
  let singles ← sepBy (singleType inner) continuesIntersection
  intersectionMembers ctx singles

/-- `$var is A ? B : C`, of which only `B` and `C` count. -/
def conditional : Reading (List String) := do
  discard take
  expect "is"
  discard (inner.anyType false)
  expect "?"
  let yes ← inner.anyType false
  expect ":"
  let no ← inner.anyType false
  return yes.members ++ no.members

def nullable : Reading (List String) := do
  expect "?"
  let single ← singleType inner
  return single.members ++ ["null"]

def union : Reading (List String) := do
  return (← sepBy (intersection ctx inner) (eat "|")).flatten

def anyType (bracketed : Bool) : Reading DocType := do
  let first ← peek 0
  let members ←
    if bracketed && first.any Token.isVariable && (← peek 1) = some "is" then conditional inner
    else if first = some "?" then nullable inner
    else union ctx inner
  return ⟨ctx.classes.normalUnion members⟩

/-- What the first token of a basic type announces. The words are in their right spelling. -/
inductive Head where
  | bool (word : String)
  | int (word : String)
  | float
  | floatLiteral
  | string (word : String)
  | stringLiteral
  | callableString
  | array (word : String)
  | object
  | never
  | plain (word : String)
  | self
  | parent
  | static
  | callable
  | closure
  | iterable
  | keyOrValue (word : String)
  | className
  | unknown
deriving DecidableEq, Repr

/-- Whether a token may be the name of a class. -/
def isClassName (token : String) : Bool :=
  let chars := token.toList
  (Token.startsName token || chars.head? == some '\\') && !chars.contains '-' &&
    !(chars.zip chars.tail).contains ('\\', '\\')

def Head.ofToken (scope : Scope) (token : String) : Head :=
  let word := Text.lower token
  if word = "boolean" then .bool "bool"
  else if ["bool", "true", "false"].contains word then .bool word
  else if word = "integer" then .int "int"
  else if ["int", "positive-int", "negative-int", "non-positive-int", "non-negative-int", "int-mask",
      "int-mask-of"].contains word || Token.isIntLiteral token then .int word
  else if word = "float" || word = "double" then .float
  else if Token.isFloatLiteral token then .floatLiteral
  else if ["string", "class-string", "numeric-string", "literal-string", "non-empty-string",
      "non-falsy-string", "truthy-string"].contains word then .string word
  else if Token.isStringLiteral token then .stringLiteral
  else if word = "callable-string" then .callableString
  else if ["array", "non-empty-array", "list", "non-empty-list"].contains word then .array word
  else if word = "object" then .object
  else if ["never", "never-return", "never-returns", "no-return"].contains word then .never
  else if ["resource", "null", "void", "mixed", "array-key", "scalar"].contains word then .plain word
  else if word = "self" then .self
  else if word = "parent" then .parent
  else if word = "static" || word = "$this" then .static
  else if word = "callable" then .callable
  else if scope.resolveDocName token = "\\Closure" then .closure
  else if word = "iterable" then .iterable
  else if word = "key-of" || word = "value-of" then .keyOrValue word
  else if isClassName token then .className
  else .unknown

/-- Takes the current token, noting its right spelling. -/
def keyword (canonical : String) : Reading Unit := do
  correct canonical
  discard take

def intBound (bound : String) : Reading Unit := do
  match ← peek 0 with
  | some token =>
    if Text.sameWord token bound || Token.isIntLiteral token then discard take
    else throw (.intRangeBound bound token)
  | none => throw (.intRangeBound bound "")

def intMaskMember : Reading Unit := do
  let mask ← inner.basicType
  unless ctx.classes.accepts ⟨["int"]⟩ mask do throw (.invalidIntMask mask.text)

/-- The arguments of an integer type: a range, or what a mask is made of. -/
def intArguments (word : String) : Reading Unit := do
  if word = "int" && (← peek 0) = some "<" then
    expect "<"
    intBound "min"
    expect ","
    intBound "max"
    expect ">"
  else if word = "int-mask" then
    expect "<"
    discard (sepBy (intMaskMember ctx inner) (eat ","))
    expect ">"
  else if word = "int-mask-of" then
    expect "<"
    intMaskMember ctx inner
    expect ">"

/-- `class-string` may name the class. -/
def stringArguments (word : String) : Reading Unit := do
  if word = "class-string" && (← peek 0) = some "<" then
    expect "<"
    let type ← inner.basicType
    unless ctx.classes.accepts ⟨["object"]⟩ type do throw (.classStringNotClass type.text)
    expect ">"

/-- An item of an array shape, with or without a key. -/
def shapeItem : Reading Unit := do
  let isKey := (← peek 0).any fun key =>
    Token.isShapeWord key || Token.isStringLiteral key || Token.isIntLiteral key
  let after ← peek 1
  if isKey && (after = some ":" || (after = some "?" && (← peek 2) = some ":")) then
    discard take
    discard (eat "?")
    expect ":"
  discard (inner.anyType false)

/-- `<V>` or `<K, V>`, or a shape. -/
def arrayArguments (word : String) : Reading Unit := do
  match ← peek 0 with
  | some "<" =>
    expect "<"
    let first ← inner.anyType false
    if (← peek 0) = some "," then
      if word = "list" || word = "non-empty-list" then throw .listWithKey
      unless ctx.classes.accepts ⟨["array-key"]⟩ first do throw (.invalidArrayKey first.text)
      expect ","
      discard (inner.anyType false)
    expect ">"
  | some "\x7b" =>
    if word = "non-empty-array" || word = "non-empty-list" then throw .nonEmptyShape
    expect "\x7b"
    discard (sepBy (shapeItem inner) (eat ","))
    expect "\x7d"
  | _ => return

def objectProperty : Reading Unit := do
  if (← peek 0).any fun key => Token.isShapeWord key || Token.isStringLiteral key then
    discard take
  else throw .invalidObjectKey
  discard (eat "?")
  expect ":"
  discard (inner.anyType false)

def objectArguments : Reading Unit := do
  if (← peek 0) = some "\x7b" then
    expect "\x7b"
    discard (sepBy (objectProperty inner) (eat ","))
    expect "\x7d"

/-- A parameter of a callable type and the comma after it. -/
def callableParameter : Reading Unit := do
  discard (inner.anyType false)
  discard (eat "&")
  discard (eat "...")
  discard (eat "=")
  if (← peek 0).any Token.isVariable then discard take
  unless (← peek 0) = some ")" do expect ","

/-- The signature `(T1, T2): R` of a callable type. -/
def callableArguments : Reading Unit := do
  if (← peek 0) = some "(" then
    expect "("
    untilToken ")" (callableParameter inner) ((← get).ahead.length + 1)
    expect ")"
    expect ":"
    if (← peek 0) = some "?" then discard (inner.anyType false) else discard (singleType inner)

def iterableArguments : Reading Unit := do
  if (← peek 0) = some "<" then
    expect "<"
    discard (inner.anyType false)
    if ← eat "," then discard (inner.anyType false)
    expect ">"

/-- The key or value type of something iterable is not resolved. -/
def keyOrValueArguments : Reading Unit := do
  expect "<"
  let type ← inner.anyType false
  unless ctx.classes.accepts ⟨["iterable"]⟩ type || ctx.classes.accepts ⟨["object"]⟩ type do
    throw (.notIterable type.text)
  expect ">"

def className : Reading DocType := do
  let name ← take
  if name.toList.getLast? = some '\\' then throw (.trailingBackslash name)
  return .ofText (ctx.scope.resolveDocName name)

/-- A basic type without what may follow an object type. -/
def basicHead (token : String) : Reading DocType := do
  match Head.ofToken ctx.scope token with
  | .bool word => keyword word; return ⟨["bool"]⟩
  | .int word => keyword word; intArguments ctx inner word; return ⟨["int"]⟩
  | .float => keyword "float"; return ⟨["float"]⟩
  | .floatLiteral => discard take; return ⟨["float"]⟩
  | .string word => keyword word; stringArguments ctx inner word; return ⟨["string"]⟩
  | .stringLiteral => discard take; return ⟨["string"]⟩
  | .callableString => keyword "callable-string"; return ⟨["callable-string"]⟩
  | .array word => keyword word; arrayArguments ctx inner word; return ⟨["array"]⟩
  | .object => keyword "object"; objectArguments inner; return ⟨["object"]⟩
  | .never => keyword "never"; return .never
  | .plain word => keyword word; return ⟨[word]⟩
  | .self => keyword "self"; return .ofText ctx.scope.resolveSelf
  | .parent => keyword "parent"; return .ofText ctx.scope.resolveParent
  | .static => keyword "static"; return .ofText ctx.scope.resolveStatic
  | .callable => keyword "callable"; callableArguments inner; return ⟨["callable"]⟩
  | .closure => discard take; callableArguments inner; return ⟨["\\Closure"]⟩
  | .iterable => keyword "iterable"; iterableArguments inner; return ⟨["iterable"]⟩
  | .keyOrValue word => keyword word; keyOrValueArguments ctx inner; return unresolved ctx
  | .className => className ctx
  | .unknown => throw (.unrecognised token)

/-- A class constant `::NAME`, or a family `::NAME_*` or `::*`. -/
def constantReference : Reading Unit := do
  expect "::"
  let named := (← peek 0).any Token.startsName
  if named then discard take
  if !named || (← peek 0) = some "*" then expect "*"

/-- Arguments or a constant after an object type. -/
def objectSuffix (type : DocType) : Reading DocType := do
  match ← peek 0 with
  | some "<" =>
    if ctx.classes.isObject type.text then
      expect "<"
      discard (sepBy (inner.anyType false) (eat ","))
      expect ">"
    return type
  | some "::" =>
    if ctx.classes.isObject type.text then
      constantReference
      return unresolved ctx
    return type
  | _ => return type

def basicType : Reading DocType := do
  match ← peek 0 with
  | none => throw .expectedType
  | some token => objectSuffix ctx inner (← basicHead ctx inner token)

end

/-- The productions with `n` levels of nesting left. -/
def level (ctx : Context) : Nat → Level
  | 0 => ⟨fun _ => throw (.tooDeep ctx.limit), throw (.tooDeep ctx.limit)⟩
  | n + 1 => ⟨anyType ctx (level ctx n), basicType ctx (level ctx n)⟩

/-- A type from the current token on. -/
def type (ctx : Context) : Reading DocType :=
  (level ctx ctx.limit).anyType false

end Grammar

end DocTypes
