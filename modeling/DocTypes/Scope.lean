import DocTypes.NameMap
import DocTypes.Text.Blank

namespace DocTypes

structure Scope where
  /-- Empty for the global namespace, else a backslash in front and none at the end. -/
  ns : String
  /-- Imported class names by alias. -/
  imports : NameMap String
  /-- Bounds of the template parameters. -/
  templates : NameMap String
  /-- The class around, for `self`. -/
  className : Option String
  /-- Its parent class, for `parent`. -/
  parentName : Option String
deriving DecidableEq, Repr

namespace Scope

/-- The scope at the top of a file. -/
def root : Scope :=
  ⟨"", .empty, .empty, none, none⟩

instance : Inhabited Scope :=
  ⟨root⟩

/-- A namespace name with a backslash in front and none at the end, or empty. -/
def normalizeNamespace (name : String) : String :=
  match Text.dropWhileEnd (· == '\\') (Text.trim name.toList) with
  | [] => ""
  | c :: cs => if c = '\\' then String.ofList (c :: cs) else String.ofList ('\\' :: c :: cs)

def inNamespace (scope : Scope) (name : String) : Scope :=
  { scope with ns := normalizeNamespace name }

/-- The scope inside a class-like; an anonymous class has no name. -/
def inClass (scope : Scope) (className parentName : Option String) : Scope :=
  { scope with className, parentName }

def addImport (scope : Scope) (short target : String) : Scope :=
  { scope with imports := scope.imports.insert short target }

def bindTemplate (scope : Scope) (name bound : String) : Scope :=
  { scope with templates := scope.templates.insert name bound }

/-- The full name of something declared here. -/
def qualify (scope : Scope) (name : String) : String :=
  scope.ns ++ "\\" ++ name

def isFullName (name : String) : Bool :=
  name.toList.head? == some '\\'

/-- The meaning of a class name in a documented type: a full name stands for itself, then imports
come before templates, and all else is relative to the namespace. -/
def resolveDocName (scope : Scope) (name : String) : String :=
  if isFullName name then name
  else
    match scope.imports.find? name with
    | some target => target
    | none =>
      match scope.templates.find? name with
      | some bound => bound
      | none => scope.qualify name

/-- The meaning of a class name in code. Templates do not count, and an imported first part of a
qualified name is expanded. -/
def resolveCodeName (scope : Scope) (name : String) : String :=
  if isFullName name then name
  else
    match scope.imports.find? name with
    | some target => target
    | none =>
      let first := name.toList.takeWhile (· != '\\')
      let rest := name.toList.dropWhile (· != '\\')
      match rest, scope.imports.find? (String.ofList first) with
      | _ :: _, some target => target ++ String.ofList rest
      | _, _ => scope.qualify name

def resolveSelf (scope : Scope) : String :=
  scope.className.getD "self"

def resolveParent (scope : Scope) : String :=
  scope.parentName.getD "parent"

/-- The late-bound class: `static(X)` inside a class `X`. -/
def resolveStatic (scope : Scope) : String :=
  match scope.className with
  | some name => "static(" ++ name ++ ")"
  | none => "static"

end Scope

end DocTypes
