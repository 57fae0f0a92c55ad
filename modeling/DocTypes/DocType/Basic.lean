import DocTypes.Text.Split
import DocTypes.Hierarchy.SuperTypes

namespace DocTypes

/-- A union, by its members. -/
structure DocType where
  members : List String
deriving DecidableEq, Repr

namespace DocType

def mixed : DocType := ⟨["mixed"]⟩

def never : DocType := ⟨["never"]⟩

/-- The type written by a text with `|` between its members. -/
def ofText (text : String) : DocType :=
  ⟨Text.split '|' text⟩

def text (type : DocType) : String :=
  Text.join '|' type.members

/-- Whether there are two members or more. -/
def isUnion (type : DocType) : Bool :=
  1 < type.members.length

/-- The atoms of a member. -/
def atoms (member : String) : List String :=
  Text.split '&' member

end DocType

namespace ClassTable

/-- The atoms of a member and all their supertypes. -/
def reach (classes : ClassTable) (member : String) : List String :=
  (DocType.atoms member).flatMap fun atom => atom :: classes.superTypes atom

/-- Whether one member has all that another asks for. -/
def memberAccepts (classes : ClassTable) (wide narrow : String) : Bool :=
  let reached := classes.reach narrow
  (DocType.atoms wide).all reached.contains

/-- Whether every value of `narrow` may stand where `wide` is asked for. -/
def accepts (classes : ClassTable) (wide narrow : DocType) : Bool :=
  wide == .mixed || narrow == .never ||
    narrow.members.all fun member => wide.members.any fun other => classes.memberAccepts other member

/-- Compatibility where either type may be missing: a missing narrow type fits nothing, and a
missing wide type takes anything else. -/
def compatible (classes : ClassTable) (wide narrow : Option DocType) : Bool :=
  match narrow, wide with
  | none, _ => false
  | some _, none => true
  | some narrow, some wide => classes.accepts wide narrow

end ClassTable

end DocTypes
