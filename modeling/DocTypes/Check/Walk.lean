import DocTypes.Check.Classes
import DocTypes.Check.Comments
import DocTypes.Check.Tags

namespace DocTypes.Check

open DocTypes.Php (Comment Span Node ClassHead FunctionHead Parameter)

/-- A stretch of source and the scope that holds there. -/
structure Region where
  span : Span
  scope : Scope
deriving DecidableEq, Repr

namespace Region

def contains (region : Region) (offset : Nat) : Bool :=
  region.span.start ≤ offset && offset < region.span.stop

def length (region : Region) : Nat :=
  region.span.stop - region.span.start

/-- The shorter of two regions, the first of two of one length. -/
def shorter (first : Option Region) (second : Region) : Region :=
  match first with
  | some region => if second.length < region.length then second else region
  | none => second

/-- The shortest of the regions that contain an offset. -/
def innermost? (regions : List Region) (offset : Nat) : Option Region :=
  (regions.filter (·.contains offset)).foldl (fun best region => some (shorter best region)) none

end Region

/-- What the walk has seen so far. -/
structure Progress where
  /-- Where the comments start that have been given to a declaration. -/
  consumed : List Nat
  regions : List Region
  findings : List Finding
deriving DecidableEq, Repr

/-- A source with its comments, and all class-likes it declares. -/
structure SourceFile where
  text : List Char
  comments : List Comment
  classes : ClassTable

abbrev Walk := StateT Progress (Except CheckError)

namespace Walk

def report (findings : List Finding) : Walk Unit :=
  modify fun progress => { progress with findings := progress.findings ++ findings }

/-- Records the scope of a declaration that the walk leaves. -/
def leave (span : Span) (scope : Scope) : Walk Unit :=
  modify fun progress => { progress with regions := progress.regions ++ [⟨span, scope⟩] }

/-- The doc comment of what starts here, unless another declaration has it. -/
def takeDoc (file : SourceFile) (start : Nat) : Walk (Option DocComment) := do
  match attached? file.text file.comments start with
  | none => return none
  | some comment =>
    let progress ← get
    let offset := comment.span.start
    if progress.consumed.contains offset then return none
    else
      set { progress with consumed := offset :: progress.consumed }
      return some (docComment comment)

/-- The scope of a class-like's members, once its own comment is checked. -/
def enterClass (file : SourceFile) (scope : Scope) (head : ClassHead) : Walk Scope := do
  let inside := scope.inClass (head.name.map scope.qualify) (scope.parentOf head)
  match ← takeDoc file head.span.start with
  | none => return inside
  | some doc =>
    let (reader, found) ← Reader.bindTemplates ⟨file.classes, inside⟩ (doc.named "@template")
    report found
    report (← reader.propertyTags doc)
    return reader.scope

/-- The scope of a function, once its comment is checked. -/
def enterFunction (file : SourceFile) (scope : Scope) (head : FunctionHead)
    (parameters : List Parameter) : Walk Scope := do
  match ← takeDoc file head.span.start with
  | none => return scope
  | some doc =>
    let (reader, found) ← Reader.bindTemplates ⟨file.classes, scope⟩ (doc.named "@template")
    report found
    report (← reader.paramTags doc (parameters.map Parameter.signature))
    report (← reader.returnTags doc (head.result.map Php.Hint.text))
    return reader.scope

/-- Checks the comment of a property or constant. -/
def checkVar (file : SourceFile) (scope : Scope) (start : Nat) (hint : Option Php.Hint) :
    Walk Unit := do
  match ← takeDoc file start with
  | none => return
  | some doc => report (← Reader.varTags ⟨file.classes, scope⟩ doc (hint.map Php.Hint.text))

end Walk

/-- The parameters among the nodes of a parameter list. -/
def parameterHeads (nodes : List Node) : List Parameter :=
  nodes.filterMap fun node =>
    match node with
    | .parameter head _ _ _ => some head
    | _ => none

mutual

/-- Walks a node in the scope around it. -/
def walk (file : SourceFile) (scope : Scope) : Node → Walk Unit
  | .namespaceBlock span name body => do
    let inside ← walkSequence file (Scope.root.inNamespace name) body
    Walk.leave span inside
  | .imports _ => return
  | .classLike head _ arguments members => do
    walkAll file scope arguments
    let inside ← Walk.enterClass file scope head
    walkAll file inside members
    Walk.leave head.span inside
  | .functionLike head _ parameters body => do
    let inside ← Walk.enterFunction file scope head (parameterHeads parameters)
    walkParameters file inside parameters
    discard (walkSequence file inside body)
    Walk.leave head.span inside
  | .parameter _ attributes default hooks => do
    walkAll file scope attributes
    walkAll file scope default
    walkAll file scope hooks
  | .property start hint parts => do
    Walk.checkVar file scope start hint
    walkAll file scope parts
  | .constant start parts => do
    Walk.checkVar file scope start none
    walkAll file scope parts
  | .compound _ parts => walkAll file scope parts

/-- Walks several nodes, all in one scope. -/
def walkAll (file : SourceFile) (scope : Scope) : List Node → Walk Unit
  | [] => return
  | node :: nodes => do
    walk file scope node
    walkAll file scope nodes

/-- Walks consecutive statements, where imports count for what follows, and returns the scope at
their end. -/
def walkSequence (file : SourceFile) (scope : Scope) : List Node → Walk Scope
  | [] => return scope
  | .imports items :: nodes => walkSequence file (scope.addImports items) nodes
  | node :: nodes => do
    walk file scope node
    walkSequence file scope nodes

/-- Walks the parameters of a function: the comments of those that declare a property, and the
default values. -/
def walkParameters (file : SourceFile) (scope : Scope) : List Node → Walk Unit
  | [] => return
  | .parameter head _ default _ :: nodes => do
    if head.promoted then Walk.checkVar file scope head.start head.hint
    walkAll file scope default
    walkParameters file scope nodes
  | node :: nodes => do
    walk file scope node
    walkParameters file scope nodes

end

/-- The scope that holds at a byte: that of the innermost region around it, or else the one at the top. -/
def Progress.scopeAt (progress : Progress) (top : Scope) (offset : Nat) : Scope :=
  ((Region.innermost? progress.regions offset).map Region.scope).getD top

/-- The `@var` tags of the comments that no declaration has, each in the innermost scope around. -/
def loneFindings (file : SourceFile) (progress : Progress) (top : Scope) :
    Except CheckError (List Finding) := do
  let lone := file.comments.filter fun comment =>
    comment.isDoc && !progress.consumed.contains comment.span.start
  let found ← lone.mapM fun comment =>
    let scope := progress.scopeAt top comment.span.start
    Reader.varTags ⟨file.classes, scope⟩ (docComment comment) none
  return found.flatten

/-- All verdicts on a file, in the order they are reached. -/
def findings (file : SourceFile) (statements : List Node) : Except CheckError (List Finding) := do
  let (top, progress) ← walkSequence file .root statements ⟨[], [], []⟩
  return progress.findings ++ (← loneFindings file progress top)

end DocTypes.Check
