import DocTypes.Php.Lexeme
import DocTypes.Text.Blank

namespace DocTypes.Php

/-- A native type. -/
inductive Hint where
  | name (text : String)
  | nullable (hint : Hint)
  | union (left right : Hint)
  | intersection (left right : Hint)
  | grouped (hint : Hint)
deriving DecidableEq, Repr

/-- The type as it would be written without blanks. -/
def Hint.text : Hint → String
  | name text => text
  | nullable hint => "?" ++ hint.text
  | union left right => left.text ++ "|" ++ right.text
  | intersection left right => left.text ++ "&" ++ right.text
  | grouped hint => "(" ++ hint.text ++ ")"

/-- One imported class. -/
structure Import where
  /-- What the names of a group start with. -/
  group : Option String
  name : String
  rename : Option String
deriving DecidableEq, Repr

namespace Import

def isBackslash (c : Char) : Bool :=
  c == '\\'

/-- The full name of the class. -/
def target (item : Import) : String :=
  let name := String.ofList (item.name.toList.dropWhile isBackslash)
  match item.group with
  | some group =>
    let start := Text.dropWhileEnd isBackslash (group.toList.dropWhile isBackslash)
    "\\" ++ String.ofList start ++ "\\" ++ name
  | none => "\\" ++ name

/-- The last part of a name. -/
def lastPart (name : String) : String :=
  String.ofList (name.toList.reverse.takeWhile (!isBackslash ·)).reverse

/-- The name by which the class is known in the file. -/
def short (item : Import) : String :=
  item.rename.getD (lastPart item.target)

end Import

inductive ClassKind where
  | plain
  | interface
  | trait
  | enum (backed : Bool)
deriving DecidableEq, Repr

/-- A class-like without its members. An anonymous class has no name. -/
structure ClassHead where
  kind : ClassKind
  span : Span
  name : Option String
  extended : List String
  implemented : List String
deriving DecidableEq, Repr

inductive FunctionKind where
  | function
  | method
  | closure
  | arrow
deriving DecidableEq, Repr

/-- A function without its parameters and body. -/
structure FunctionHead where
  kind : FunctionKind
  span : Span
  result : Option Hint
deriving DecidableEq, Repr

structure Parameter where
  start : Nat
  hint : Option Hint
  byReference : Bool
  splat : Bool
  /-- The variable, `$` included. -/
  name : String
  /-- Whether the parameter also declares a property. -/
  promoted : Bool
  /-- The source of the default value. -/
  default : Option String
deriving DecidableEq, Repr

/-- The parameter as a signature; without a native type it takes anything. -/
def Parameter.signature (parameter : Parameter) : String :=
  let type := (parameter.hint.map Hint.text).getD "mixed"
  let markers := (if parameter.byReference then "&" else "") ++ if parameter.splat then "..." else ""
  let value :=
    match parameter.default with
    | some text => " = " ++ String.ofList (Text.trim text.toList)
    | none => ""
  type ++ " " ++ markers ++ parameter.name ++ value

/-- Statements, expressions and members that are told apart by name only. -/
inductive Construct where
  | block
  | branch
  | loop
  | choice
  | recovery
  | directive
  | statement
  | arguments
  | items
  | matching
  | template
  | attributeUse
  | hook
  | enumCase
  | traitUse
deriving DecidableEq, Repr

inductive Node where
  | namespaceBlock (span : Span) (name : String) (body : List Node)
  | imports (items : List Import)
  | classLike (head : ClassHead) (attributes arguments members : List Node)
  | functionLike (head : FunctionHead) (attributes parameters body : List Node)
  | parameter (head : Parameter) (attributes default hooks : List Node)
  | property (start : Nat) (hint : Option Hint) (parts : List Node)
  | constant (start : Nat) (parts : List Node)
  | compound (construct : Construct) (parts : List Node)

/-- A program: its statements, and all comments in source order. -/
structure Program where
  statements : List Node
  comments : List Comment

end DocTypes.Php
