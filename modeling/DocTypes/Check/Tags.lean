import DocTypes.Diagnostic
import DocTypes.DocComment.Fix
import DocTypes.Php.Node
import DocTypes.TypeText.Fields

namespace DocTypes.Check

/-- What a type is the type of, and the codes of the verdicts on it. -/
structure Subject where
  title : String
  missing : Code
  style : Code

namespace Subject

def template : Subject := ⟨"template", .templateType, .templateStyle⟩

def property : Subject := ⟨"class property", .propertyType, .propertyStyle⟩

def param (number : Nat) : Subject :=
  ⟨"function parameter " ++ toString number, .paramType, .paramStyle⟩

def result : Subject := ⟨"function return", .returnType, .returnStyle⟩

def var : Subject := ⟨"var", .varType, .varStyle⟩

/-- A verdict on the tag as it is. -/
def finding (subject : Subject) (code : Code) (tag : DocTag) (what : String) : Finding :=
  ⟨code, tag.offset, "PHPDoc " ++ subject.title ++ " " ++ what, none⟩

def missingType (subject : Subject) (tag : DocTag) : Finding :=
  subject.finding subject.missing tag "type missing or malformed"

/-- The verdict on a tag that should be spelled as `fixed`, if it should be spelled otherwise. -/
def styleFindings (subject : Subject) (tag : DocTag) (fixed : Option String) :
    Except CheckError (List Finding) :=
  match fixed with
  | none => .ok []
  | some text => do
    let edits ← tag.withContent text
    let message := "type doesn't conform to recommended style"
    return [{ subject.finding subject.style tag message with fix := some edits }]

end Subject

/-- What the tags of a file are read with: its class-likes, and the scope of the declaration. -/
structure Reader where
  classes : ClassTable
  scope : Scope

namespace Reader

/-- A native type, read so that what cannot be resolved admits anything; without one, any type. -/
def native (reader : Reader) (hint : Option String) : Option DocType :=
  match hint with
  | some text => (reader.classes.readTypedName reader.scope text .typeOnly true).type
  | none => some .mixed

def documented (reader : Reader) (tag : DocTag) (extent : Extent) : TypedName :=
  reader.classes.readTypedName reader.scope tag.content extent false

/-- Binds one template. A bound that cannot be read admits nothing. -/
def bindTemplate (reader : Reader) (tag : DocTag) : Except CheckError (Reader × List Finding) := do
  let read := reader.classes.readTemplate reader.scope tag.content
  match read.name, read.bound with
  | none, _ =>
    return (reader, [Subject.template.finding .templateName tag "name missing or malformed"])
  | some name, none =>
    return ({ reader with scope := reader.scope.bindTemplate name "never" },
      [Subject.template.missingType tag])
  | some name, some bound =>
    return ({ reader with scope := reader.scope.bindTemplate name bound.text },
      ← Subject.template.styleFindings tag read.fixed)

/-- Binds templates in order, so that a bound may name those before it. -/
def bindTemplates (reader : Reader) : List DocTag → Except CheckError (Reader × List Finding)
  | [] => .ok (reader, [])
  | tag :: tags => do
    let (reader, found) ← reader.bindTemplate tag
    let (reader, more) ← reader.bindTemplates tags
    return (reader, found ++ more)

def propertyTag (reader : Reader) (tag : DocTag) : Except CheckError (List Finding) :=
  let read := reader.documented tag .typeAndName
  if read.type.isNone then .ok [Subject.property.missingType tag]
  else if read.name.isNone then
    .ok [Subject.property.finding .propertyName tag "name missing or malformed"]
  else Subject.property.styleFindings tag read.fixed

/-- The tags about the magic properties of a class. -/
def propertyTags (reader : Reader) (doc : DocComment) : Except CheckError (List Finding) := do
  let tags := ["@property", "@property-read", "@property-write"].flatMap doc.named
  return (← tags.mapM reader.propertyTag).flatten

/-- One parameter tag against the signature at its place. Another name ends the comparison, since
the tags may just be in another order. -/
def paramTag (reader : Reader) (number : Nat) (signature : Option String) (tag : DocTag) :
    Except CheckError (List Finding) := do
  let subject := Subject.param number
  let read := reader.documented tag .withPassMode
  match read.type, read.name, signature with
  | none, _, _ => return [subject.missingType tag]
  | some _, none, _ => return [subject.finding .paramName tag "name missing or malformed"]
  | some _, some _, none => return []
  | some _, some name, some text =>
    let native := reader.classes.readTypedName reader.scope text .withDefault true
    if native.name ≠ some name then
      return [subject.finding .paramNameMismatch tag "name mismatch"]
    let onType ←
      if reader.classes.compatible native.type read.type then subject.styleFindings tag read.fixed
      else pure [subject.finding .paramTypeMismatch tag "type mismatch"]
    let onSplat :=
      if native.passMode.splat = read.passMode.splat then []
      else [subject.finding .paramSplatMismatch tag "splat mismatch"]
    return onType ++ onSplat

/-- Parameter tags against signatures, place by place; tags to spare are only read. -/
def paramTagsFrom (reader : Reader) (number : Nat) :
    List String → List DocTag → Except CheckError (List Finding)
  | _, [] => .ok []
  | [], tag :: tags => do
    return (← reader.paramTag number none tag) ++ (← reader.paramTagsFrom (number + 1) [] tags)
  | signature :: signatures, tag :: tags => do
    return (← reader.paramTag number (some signature) tag) ++
      (← reader.paramTagsFrom (number + 1) signatures tags)

def paramTags (reader : Reader) (doc : DocComment) (signatures : List String) :
    Except CheckError (List Finding) := do
  let tags := doc.named "@param"
  let count : List Finding :=
    if tags.length = signatures.length then []
    else [⟨.paramCount, doc.offset, "PHPDoc number of function @param tags doesn't match " ++
      "actual number of parameters", none⟩]
  return count ++ (← reader.paramTagsFrom 1 signatures tags)

/-- A tag that holds just a type, which has to fit the native one. -/
def typeTag (reader : Reader) (subject : Subject) (mismatch : Code) (native : Option DocType)
    (tag : DocTag) : Except CheckError (List Finding) :=
  let read := reader.documented tag .typeOnly
  if read.type.isNone then .ok [subject.missingType tag]
  else if reader.classes.compatible native read.type then subject.styleFindings tag read.fixed
  else .ok [subject.finding mismatch tag "type mismatch"]

def returnTags (reader : Reader) (doc : DocComment) (hint : Option String) :
    Except CheckError (List Finding) := do
  let tags := doc.named "@return"
  let multiple : List Finding :=
    match tags with
    | _ :: second :: _ => [⟨.returnMultiple, second.offset, "PHPDoc multiple function @return " ++
        "tags--Put in one tag, separated by vertical bars |", none⟩]
    | _ => []
  let native := reader.native hint
  return multiple ++
    (← tags.mapM (reader.typeTag .result .returnTypeMismatch native)).flatten

def varTags (reader : Reader) (doc : DocComment) (hint : Option String) :
    Except CheckError (List Finding) := do
  let native := reader.native hint
  return (← (doc.named "@var").mapM (reader.typeTag .var .varTypeMismatch native)).flatten

end Reader

end DocTypes.Check
