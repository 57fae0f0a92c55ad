import DocTypes.TypeText.Grammar

namespace DocTypes.Grammar

/-- What a script does at the cursor. -/
inductive Action : Type → Type where
  | peek (n : Nat) : Action (Option String)
  | take : Action String
  | expect (wanted : String) : Action Unit
  | eat (text : String) : Action Bool
  | keyword (canonical : String) : Action Unit

/-- An action as a reading. One that fails leaves the cursor where it is. -/
def Action.reading {α : Type} : Action α → Reading α
  | peek n => Grammar.peek n
  | take => Grammar.take
  | expect wanted => Grammar.expect wanted
  | eat text => Grammar.eat text
  | keyword canonical => Grammar.keyword canonical

/-- What a script can call. -/
inductive Production : Type → Type where
  | anyType (bracketed : Bool) : Production DocType
  | singleType : Production DocType
  | basicType : Production DocType
  | intArguments (word : String) : Production Unit
  | stringArguments (word : String) : Production Unit
  | arrayArguments (word : String) : Production Unit
  | objectArguments : Production Unit
  | callableArguments : Production Unit
  | iterableArguments : Production Unit
  | keyOrValueArguments : Production Unit
  | objectSuffix (type : DocType) : Production DocType

namespace Production

variable {α : Type}

/-- Whether a call opens a level of nesting. -/
def nests : Production α → Bool
  | anyType _ | basicType => true
  | _ => false

/-- Whether a production is one of a type with all that belongs to it. -/
def isType : Production α → Bool
  | anyType _ | singleType | basicType => true
  | _ => false

end Production

inductive Script : Type → Type 1 where
  | done {α : Type} (value : α) : Script α
  | fail {α : Type} (error : ParseError) : Script α
  | act {α : Type} (action : Action α) : Script α
  | call {α : Type} (production : Production α) : Script α
  | next {α β : Type} (first : Script α) (rest : α → Script β) : Script β
  /-- Runs its body with a value that the body changes, until the body has a result. -/
  | loop {α σ : Type} (body : σ → Script (σ ⊕ α)) (start : σ) : Script α

namespace Script

instance : Monad Script where
  pure := done
  bind := next

variable {α : Type}

def peek (n : Nat) : Script (Option String) :=
  act (.peek n)

def take : Script String :=
  act .take

def expect (wanted : String) : Script Unit :=
  act (.expect wanted)

def eat (text : String) : Script Bool :=
  act (.eat text)

def keyword (canonical : String) : Script Unit :=
  act (.keyword canonical)

def ofResult : Except ParseError α → Script α
  | .ok value => done value
  | .error error => fail error

/-- One more item of a series, and whether another follows. -/
def sepByStep (item : Script α) (more : Script Bool) (found : List α) : Script (List α ⊕ List α) := do
  let one ← item
  if ← more then return .inl (found ++ [one]) else return .inr (found ++ [one])

/-- One `item`, and one more each time `more` says so. -/
def sepBy (item : Script α) (more : Script Bool) : Script (List α) :=
  loop (sepByStep item more) []

def untilTokenStep (close : String) (item : Script Unit) (_ : Unit) : Script (Unit ⊕ Unit) := do
  if (← peek 0) = some close then return .inr ()
  else
    item
    return .inl ()

/-- Repeats `item` until the current token is `close`. -/
def untilToken (close : String) (item : Script Unit) : Script Unit :=
  loop (untilTokenStep close item) ()

def arraySuffixStep (found : Bool) : Script (Bool ⊕ Bool) := do
  if (← peek 0) = some "[" && (← peek 1) = some "]" then
    expect "["
    expect "]"
    return .inl true
  else return .inr found

/-- Steps over any number of `[]`, and tells whether there was one. -/
def arraySuffix : Script Bool :=
  loop arraySuffixStep false

def continuesIntersection : Script Bool := do
  if (← peek 0) = some "&" && !marksReference (← peek 1) then eat "&" else return false

def singleType : Script DocType := do
  let base ←
    if (← peek 0) = some "(" then do
      expect "("
      let type ← call (.anyType true)
      expect ")"
      pure type
    else call .basicType
  if ← arraySuffix then return ⟨["array"]⟩ else return base

def conditional : Script (List String) := do
  discard take
  expect "is"
  discard (call (.anyType false))
  expect "?"
  let yes ← call (.anyType false)
  expect ":"
  let no ← call (.anyType false)
  return yes.members ++ no.members

def nullable : Script (List String) := do
  expect "?"
  let single ← call .singleType
  return single.members ++ ["null"]

def intBound (bound : String) : Script Unit := do
  match ← peek 0 with
  | some token =>
    if Text.sameWord token bound || Token.isIntLiteral token then discard take
    else fail (.intRangeBound bound token)
  | none => fail (.intRangeBound bound "")

def shapeItem : Script Unit := do
  let isKey := (← peek 0).any fun key =>
    Token.isShapeWord key || Token.isStringLiteral key || Token.isIntLiteral key
  let after ← peek 1
  if isKey && (after = some ":" || (after = some "?" && (← peek 2) = some ":")) then
    discard take
    discard (eat "?")
    expect ":"
  discard (call (.anyType false))

def objectProperty : Script Unit := do
  if (← peek 0).any fun key => Token.isShapeWord key || Token.isStringLiteral key then
    discard take
  else fail .invalidObjectKey
  discard (eat "?")
  expect ":"
  discard (call (.anyType false))

def objectArguments : Script Unit := do
  if (← peek 0) = some "\x7b" then
    expect "\x7b"
    discard (sepBy objectProperty (eat ","))
    expect "\x7d"

def callableParameter : Script Unit := do
  discard (call (.anyType false))
  discard (eat "&")
  discard (eat "...")
  discard (eat "=")
  if (← peek 0).any Token.isVariable then discard take
  unless (← peek 0) = some ")" do expect ","

def callableArguments : Script Unit := do
  if (← peek 0) = some "(" then
    expect "("
    untilToken ")" callableParameter
    expect ")"
    expect ":"
    if (← peek 0) = some "?" then discard (call (.anyType false)) else discard (call .singleType)

def iterableArguments : Script Unit := do
  if (← peek 0) = some "<" then
    expect "<"
    discard (call (.anyType false))
    if ← eat "," then discard (call (.anyType false))
    expect ">"

def constantReference : Script Unit := do
  expect "::"
  let named := (← peek 0).any Token.startsName
  if named then discard take
  if !named || (← peek 0) = some "*" then expect "*"

section

variable (ctx : Context)

def intersection : Script (List String) := do
  let singles ← sepBy (call .singleType) continuesIntersection
  ofResult (intersectionMembers ctx singles)

def union : Script (List String) := do
  return (← sepBy (intersection ctx) (eat "|")).flatten

def anyType (bracketed : Bool) : Script DocType := do
  let first ← peek 0
  let members ←
    if bracketed && first.any Token.isVariable && (← peek 1) = some "is" then conditional
    else if first = some "?" then nullable
    else union ctx
  return ⟨ctx.classes.normalUnion members⟩

def intMaskMember : Script Unit := do
  let mask ← call .basicType
  unless ctx.classes.accepts ⟨["int"]⟩ mask do fail (.invalidIntMask mask.text)

def intArguments (word : String) : Script Unit := do
  if word = "int" && (← peek 0) = some "<" then
    expect "<"
    intBound "min"
    expect ","
    intBound "max"
    expect ">"
  else if word = "int-mask" then
    expect "<"
    discard (sepBy (intMaskMember ctx) (eat ","))
    expect ">"
  else if word = "int-mask-of" then
    expect "<"
    intMaskMember ctx
    expect ">"

def stringArguments (word : String) : Script Unit := do
  if word = "class-string" && (← peek 0) = some "<" then
    expect "<"
    let type ← call .basicType
    unless ctx.classes.accepts ⟨["object"]⟩ type do fail (.classStringNotClass type.text)
    expect ">"

def arrayArguments (word : String) : Script Unit := do
  let front ← peek 0
  if front = some "<" then
    expect "<"
    let first ← call (.anyType false)
    if (← peek 0) = some "," then
      if word = "list" || word = "non-empty-list" then fail .listWithKey
      unless ctx.classes.accepts ⟨["array-key"]⟩ first do fail (.invalidArrayKey first.text)
      expect ","
      discard (call (.anyType false))
    expect ">"
  else if front = some "\x7b" then
    if word = "non-empty-array" || word = "non-empty-list" then fail .nonEmptyShape
    expect "\x7b"
    discard (sepBy shapeItem (eat ","))
    expect "\x7d"

def keyOrValueArguments : Script Unit := do
  expect "<"
  let type ← call (.anyType false)
  unless ctx.classes.accepts ⟨["iterable"]⟩ type || ctx.classes.accepts ⟨["object"]⟩ type do
    fail (.notIterable type.text)
  expect ">"

def className : Script DocType := do
  let name ← take
  if name.toList.getLast? = some '\\' then fail (.trailingBackslash name)
  return .ofText (ctx.scope.resolveDocName name)

def basicHead (token : String) : Script DocType := do
  match Head.ofToken ctx.scope token with
  | .bool word => keyword word; return ⟨["bool"]⟩
  | .int word => keyword word; call (.intArguments word); return ⟨["int"]⟩
  | .float => keyword "float"; return ⟨["float"]⟩
  | .floatLiteral => discard take; return ⟨["float"]⟩
  | .string word => keyword word; call (.stringArguments word); return ⟨["string"]⟩
  | .stringLiteral => discard take; return ⟨["string"]⟩
  | .callableString => keyword "callable-string"; return ⟨["callable-string"]⟩
  | .array word => keyword word; call (.arrayArguments word); return ⟨["array"]⟩
  | .object => keyword "object"; call .objectArguments; return ⟨["object"]⟩
  | .never => keyword "never"; return .never
  | .plain word => keyword word; return ⟨[word]⟩
  | .self => keyword "self"; return .ofText ctx.scope.resolveSelf
  | .parent => keyword "parent"; return .ofText ctx.scope.resolveParent
  | .static => keyword "static"; return .ofText ctx.scope.resolveStatic
  | .callable => keyword "callable"; call .callableArguments; return ⟨["callable"]⟩
  | .closure => discard take; call .callableArguments; return ⟨["\\Closure"]⟩
  | .iterable => keyword "iterable"; call .iterableArguments; return ⟨["iterable"]⟩
  | .keyOrValue word => keyword word; call .keyOrValueArguments; return unresolved ctx
  | .className => className ctx
  | .unknown => fail (.unrecognised token)

def objectSuffix (type : DocType) : Script DocType := do
  let front ← peek 0
  if front = some "<" then
    if ctx.classes.isObject type.text then
      expect "<"
      discard (sepBy (call (.anyType false)) (eat ","))
      expect ">"
    return type
  else if front = some "::" then
    if ctx.classes.isObject type.text then
      constantReference
      return unresolved ctx
    return type
  else return type

def basicType : Script DocType := do
  match ← peek 0 with
  | none => fail .expectedType
  | some token =>
    let type ← basicHead ctx token
    call (.objectSuffix type)

end

end Script

/-- What a production does. -/
def Production.script {α : Type} (ctx : Context) : Production α → Script α
  | anyType bracketed => Script.anyType ctx bracketed
  | singleType => Script.singleType
  | basicType => Script.basicType ctx
  | intArguments word => Script.intArguments ctx word
  | stringArguments word => Script.stringArguments ctx word
  | arrayArguments word => Script.arrayArguments ctx word
  | objectArguments => Script.objectArguments
  | callableArguments => Script.callableArguments
  | iterableArguments => Script.iterableArguments
  | keyOrValueArguments => Script.keyOrValueArguments ctx
  | objectSuffix type => Script.objectSuffix ctx type

/-- The state of a run: where it reads, how many levels are open, and how many have been at most. -/
structure Machine where
  cursor : Cursor
  depth : Nat
  deepest : Nat
deriving DecidableEq, Repr

namespace Machine

def enter (m : Machine) : Machine :=
  { m with depth := m.depth + 1, deepest := max m.deepest (m.depth + 1) }

def leave (m : Machine) : Machine :=
  { m with depth := m.depth - 1 }

end Machine

/-- Runs of scripts, each with its outcome and the machine it leaves. There is one if and only if the
script ends. -/
inductive Runs (ctx : Context) : {α : Type} → Script α → Machine → Except ParseError α → Machine → Prop
  | done {α : Type} (value : α) (m : Machine) : Runs ctx (.done value) m (.ok value) m
  | fail {α : Type} (error : ParseError) (m : Machine) : Runs ctx (.fail error : Script α) m (.error error) m
  | acted {α : Type} {action : Action α} {m : Machine} {value : α} {after : Cursor}
      (acts : action.reading m.cursor = .ok (value, after)) :
      Runs ctx (.act action) m (.ok value) { m with cursor := after }
  | refused {α : Type} {action : Action α} {m : Machine} {error : ParseError}
      (refuses : action.reading m.cursor = .error error) : Runs ctx (.act action) m (.error error) m
  | next {α β : Type} {first : Script α} {rest : α → Script β} {m between after : Machine} {value : α}
      {outcome : Except ParseError β} (starts : Runs ctx first m (.ok value) between)
      (goesOn : Runs ctx (rest value) between outcome after) : Runs ctx (.next first rest) m outcome after
  | broken {α β : Type} {first : Script α} {rest : α → Script β} {m after : Machine} {error : ParseError}
      (breaks : Runs ctx first m (.error error) after) : Runs ctx (.next first rest) m (.error error) after
  | again {α σ : Type} {body : σ → Script (σ ⊕ α)} {start value : σ} {m between after : Machine}
      {outcome : Except ParseError α} (starts : Runs ctx (body start) m (.ok (.inl value)) between)
      (goesOn : Runs ctx (.loop body value) between outcome after) : Runs ctx (.loop body start) m outcome after
  | left {α σ : Type} {body : σ → Script (σ ⊕ α)} {start : σ} {m after : Machine} {value : α}
      (leaves : Runs ctx (body start) m (.ok (.inr value)) after) : Runs ctx (.loop body start) m (.ok value) after
  | stuck {α σ : Type} {body : σ → Script (σ ⊕ α)} {start : σ} {m after : Machine} {error : ParseError}
      (breaks : Runs ctx (body start) m (.error error) after) : Runs ctx (.loop body start) m (.error error) after
  | plain {α : Type} {production : Production α} {m after : Machine} {outcome : Except ParseError α}
      (flat : production.nests = false) (runs : Runs ctx (production.script ctx) m outcome after) :
      Runs ctx (.call production) m outcome after
  | nested {α : Type} {production : Production α} {m after : Machine} {outcome : Except ParseError α}
      (nests : production.nests = true) (room : m.depth < ctx.limit)
      (runs : Runs ctx (production.script ctx) m.enter outcome after) :
      Runs ctx (.call production) m outcome after.leave
  | tooDeep {α : Type} {production : Production α} {m : Machine} (nests : production.nests = true)
      (full : ctx.limit ≤ m.depth) : Runs ctx (.call production) m (.error (.tooDeep ctx.limit)) m

namespace Runs

variable {α : Type} {ctx : Context} {script : Script α} {m after : Machine} {outcome : Except ParseError α}

/-- A script can be run in one way only. -/
theorem unique (runs : Runs ctx script m outcome after) {other : Except ParseError α} {last : Machine}
    (runsOther : Runs ctx script m other last) : other = outcome ∧ last = after := by
  induction runs generalizing last with
  | done value m =>
    cases runsOther
    exact ⟨rfl, rfl⟩
  | fail error m =>
    cases runsOther
    exact ⟨rfl, rfl⟩
  | acted acts =>
    cases runsOther with
    | acted actsOther =>
      obtain ⟨rfl, rfl⟩ := Prod.mk.inj (Except.ok.inj (actsOther.symm.trans acts))
      exact ⟨rfl, rfl⟩
    | refused refuses => exact absurd (refuses.symm.trans acts) (by simp)
  | refused refuses =>
    cases runsOther with
    | acted acts => exact absurd (refuses.symm.trans acts) (by simp)
    | refused refusesOther =>
      obtain rfl := Except.error.inj (refusesOther.symm.trans refuses)
      exact ⟨rfl, rfl⟩
  | next _ _ ihFirst ihRest =>
    cases runsOther with
    | next starts goesOn =>
      obtain ⟨same, rfl⟩ := ihFirst starts
      obtain rfl := Except.ok.inj same
      exact ihRest goesOn
    | broken breaks => exact absurd (ihFirst breaks).1 (by simp)
  | broken _ ih =>
    cases runsOther with
    | next starts _ => exact absurd (ih starts).1 (by simp)
    | broken breaks =>
      obtain ⟨same, rfl⟩ := ih breaks
      exact ⟨by rw [Except.error.inj same], rfl⟩
  | again _ _ ihBody ihLoop =>
    cases runsOther with
    | again starts goesOn =>
      obtain ⟨same, rfl⟩ := ihBody starts
      obtain rfl := Sum.inl.inj (Except.ok.inj same)
      exact ihLoop goesOn
    | left leaves => exact absurd (ihBody leaves).1 (by simp)
    | stuck breaks => exact absurd (ihBody breaks).1 (by simp)
  | left _ ih =>
    cases runsOther with
    | again starts _ => exact absurd (ih starts).1 (by simp)
    | left leaves =>
      obtain ⟨same, rfl⟩ := ih leaves
      exact ⟨by rw [Sum.inr.inj (Except.ok.inj same)], rfl⟩
    | stuck breaks => exact absurd (ih breaks).1 (by simp)
  | stuck _ ih =>
    cases runsOther with
    | again starts _ => exact absurd (ih starts).1 (by simp)
    | left leaves => exact absurd (ih leaves).1 (by simp)
    | stuck breaks =>
      obtain ⟨same, rfl⟩ := ih breaks
      exact ⟨by rw [Except.error.inj same], rfl⟩
  | plain flat _ ih =>
    cases runsOther with
    | plain _ runs => exact ih runs
    | nested nests => exact absurd nests (by simp [flat])
    | tooDeep nests => exact absurd nests (by simp [flat])
  | nested nests room _ ih =>
    cases runsOther with
    | plain flat => exact absurd nests (by simp [flat])
    | nested _ _ runs =>
      obtain ⟨same, rfl⟩ := ih runs
      exact ⟨same, rfl⟩
    | tooDeep _ full => omega
  | tooDeep nests full =>
    cases runsOther with
    | plain flat => exact absurd nests (by simp [flat])
    | nested _ room => omega
    | tooDeep => exact ⟨rfl, rfl⟩

end Runs

end DocTypes.Grammar
