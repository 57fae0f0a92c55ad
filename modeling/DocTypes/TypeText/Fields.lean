import DocTypes.TypeText.Grammar

namespace DocTypes

/-- How much is read besides the type; each level includes the ones before. -/
inductive Extent where
  | typeOnly
  | typeAndName
  | withPassMode
  | withDefault
deriving DecidableEq, Repr

namespace Extent

def level : Extent → Nat
  | typeOnly => 0
  | typeAndName => 1
  | withPassMode => 2
  | withDefault => 3

def includes (extent other : Extent) : Bool :=
  other.level ≤ extent.level

end Extent

/-- The markers `&` and `...` in front of a parameter. -/
structure PassMode where
  byReference : Bool
  splat : Bool
deriving DecidableEq, Repr

/-- The fields that can fail. -/
inductive Field where
  | type
  | name
  | templateName
  | templateBound
deriving DecidableEq, Repr

structure Failure where
  field : Field
  error : ParseError
deriving DecidableEq, Repr

/-- What is said of a field that could not be read. -/
def Failure.message (failure : Failure) : String :=
  match failure.field with
  | .type => "type not parsed"
  | .name => "name not parsed"
  | .templateName => "template name not parsed"
  | .templateBound => "template bound not parsed"

/-- A type with what was read after it. -/
structure TypedName where
  type : Option DocType
  passMode : PassMode
  /-- The variable, `$` included. -/
  name : Option String
  /-- What follows the last field that was read. -/
  remainder : String
  /-- The whole text in its right spelling, if it is spelled otherwise and has a type. -/
  fixed : Option String
  failures : List Failure
deriving DecidableEq, Repr

/-- A template parameter. -/
structure Template where
  /-- The bound, `mixed` where none is given. -/
  bound : Option DocType
  name : Option String
  remainder : String
  fixed : Option String
  failures : List Failure
deriving DecidableEq, Repr

namespace Grammar

/-- A type, which has to end where a field may end. -/
def delimitedType (ctx : Context) : Reading DocType := do
  let type ← Grammar.type ctx
  unless (← get).atFieldEnd do throw .noSpaceAfterType
  return type

/-- A variable name, which has to end where a field may end or before its default. -/
def variableName (extent : Extent) : Reading String := do
  let found ← peek 0
  unless found.any Token.isVariable do throw (.expectedVariable (found.getD ""))
  let name ← take
  let before ← get
  let hasDefault := extent.includes .withDefault && before.peek 0 = some "="
  unless hasDefault || before.atFieldEnd do throw .noSpaceAfterName
  return name

/-- Whether `= null`, in whatever case, is all that is left. -/
def nullDefault (c : Cursor) : Bool :=
  c.peek 0 = some "=" && (c.peek 1).any (Text.sameWord · "null") &&
    Text.sameWord (String.ofList (Text.trim (c.restFrom 1))) "null"

def templateName : Reading String := do
  let found ← peek 0
  unless found.any Token.startsName do throw (.expectedTemplateName (found.getD ""))
  let name ← take
  unless (← get).atFieldEnd do throw .noSpaceAfterName
  return name

/-- Reads one field: its value if it is well formed, else the cursor does not move. -/
def attempt {α : Type} (field : Field) (reading : Reading α) (c : Cursor) :
    Option α × Cursor × List Failure :=
  match reading c with
  | .ok (value, after) => (some value, after, [])
  | .error error => (none, c, [⟨field, error⟩])

/-- The text that no field took. -/
def remainder (c : Cursor) : String :=
  String.ofList (Text.trim (c.restFrom 0))

end Grammar

namespace ClassTable

/-- A type that also admits `null`, as a default of `null` implies. -/
def withNull (classes : ClassTable) (type : DocType) : DocType :=
  if type = .mixed then type else ⟨classes.normalUnion (type.members ++ ["null"])⟩

/-- Reads a type from the start of a text, and after it what `extent` asks for. `wide` tells what a
fragment that cannot be resolved counts as. -/
def readTypedName (classes : ClassTable) (scope : Scope) (text : String) (extent : Extent)
    (wide : Bool) : TypedName :=
  let ctx : Context := { classes, scope, wide }
  let start := Cursor.ofText text.toList
  let (type, afterType, typeFailures) := Grammar.attempt .type (Grammar.delimitedType ctx) start
  let (byReference, afterReference) :=
    if extent.includes .withPassMode then afterType.eat "&" else (false, afterType)
  let (splat, beforeName) :=
    if extent.includes .withPassMode then afterReference.eat "..." else (false, afterReference)
  let (name, afterName, nameFailures) :=
    if extent.includes .typeAndName then
      Grammar.attempt .name (Grammar.variableName extent) beforeName
    else (none, beforeName, [])
  let nullable := extent.includes .withDefault && name.isSome && Grammar.nullDefault afterName
  { type := if nullable then type.map classes.withNull else type
    passMode := ⟨byReference, splat⟩
    name
    remainder := Grammar.remainder afterName
    fixed := type.bind fun _ => afterName.fixed?
    failures := typeFailures ++ nameFailures }

/-- Reads `Name`, `Name of Bound` or `Name as Bound`. -/
def readTemplate (classes : ClassTable) (scope : Scope) (text : String) : Template :=
  let ctx : Context := { classes, scope, wide := false }
  let start := Cursor.ofText text.toList
  let (name, afterName, nameFailures) := Grammar.attempt .templateName Grammar.templateName start
  let bounded := afterName.peek 0 = some "of" || afterName.peek 0 = some "as"
  let (bound, afterBound, boundFailures) :=
    if bounded then
      Grammar.attempt .templateBound (Grammar.delimitedType ctx) afterName.advance
    else (some .mixed, afterName, [])
  { bound
    name
    remainder := Grammar.remainder afterBound
    fixed := bound.bind fun _ => afterBound.fixed?
    failures := nameFailures ++ boundFailures }

end ClassTable

end DocTypes
