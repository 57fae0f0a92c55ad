import DocTypes.Hierarchy.ClassTable
import DocTypes.Php.Node
import DocTypes.Scope

namespace DocTypes

open Php (Import ClassHead Node)

def Scope.addImports (scope : Scope) (items : List Import) : Scope :=
  items.foldl (fun scope item => scope.addImport item.short item.target) scope

/-- The parent class of a declaration; only a class has one. -/
def Scope.parentOf (scope : Scope) (head : ClassHead) : Option String :=
  match head.kind with
  | .plain => head.extended.head?.map scope.resolveCodeName
  | _ => none

/-- What a declared class-like inherits from. Interfaces extend interfaces, and an enum implements
one of the two predefined interfaces of enums. -/
def Scope.entryOf (scope : Scope) (head : ClassHead) : ClassEntry :=
  match head.kind with
  | .plain => ⟨scope.parentOf head, head.implemented.map scope.resolveCodeName⟩
  | .interface => ⟨none, head.extended.map scope.resolveCodeName⟩
  | .trait => ⟨none, []⟩
  | .enum backed =>
    ⟨none, head.implemented.map scope.resolveCodeName ++
      [if backed then "\\BackedEnum" else "\\UnitEnum"]⟩

/-- Adds a class-like, unless it is anonymous. -/
def ClassTable.declare (classes : ClassTable) (scope : Scope) (head : ClassHead) : ClassTable :=
  match head.name with
  | some name => classes.insert (scope.qualify name) (scope.entryOf head)
  | none => classes

namespace Check

mutual

/-- Adds the class-likes declared in a node. -/
def collect (scope : Scope) (classes : ClassTable) : Node → ClassTable
  | .namespaceBlock _ name body => collectSequence (Scope.root.inNamespace name) classes body
  | .imports _ => classes
  | .classLike head attributes arguments members =>
    let classes := collectAll scope (classes.declare scope head) attributes
    collectAll scope (collectAll scope classes arguments) members
  | .functionLike _ attributes parameters body =>
    collectAll scope (collectAll scope (collectAll scope classes attributes) parameters) body
  | .parameter _ attributes default hooks =>
    collectAll scope (collectAll scope (collectAll scope classes attributes) default) hooks
  | .property _ _ parts => collectAll scope classes parts
  | .constant _ parts => collectAll scope classes parts
  | .compound _ parts => collectAll scope classes parts

/-- Adds the class-likes of several nodes, all in one scope. -/
def collectAll (scope : Scope) (classes : ClassTable) : List Node → ClassTable
  | [] => classes
  | node :: nodes => collectAll scope (collect scope classes node) nodes

/-- Adds the class-likes of consecutive statements, where imports count for what follows. -/
def collectSequence (scope : Scope) (classes : ClassTable) : List Node → ClassTable
  | [] => classes
  | .imports items :: nodes => collectSequence (scope.addImports items) classes nodes
  | node :: nodes => collectSequence scope (collect scope classes node) nodes

end

/-- The class-likes of a program. -/
def classTable (statements : List Node) : ClassTable :=
  collectSequence .root .empty statements

end Check

end DocTypes
