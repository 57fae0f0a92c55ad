import DocTypes.NameMap

namespace DocTypes

/-- What a class-like inherits from: its parent class, and the interfaces it names. -/
structure ClassEntry where
  parent : Option String
  interfaces : List String
deriving DecidableEq, Repr, Inhabited

/-- The immediate supertypes, the parent class first. -/
def ClassEntry.supers (entry : ClassEntry) : List String :=
  entry.parent.toList ++ entry.interfaces

abbrev ClassTable := NameMap ClassEntry

/-- Number of inheritance edges in a table. -/
def ClassTable.edgeCount (classes : ClassTable) : Nat :=
  (classes.entries.flatMap fun entry => entry.2.supers).length

/-- Number of characters in the names that the inheritance edges lead to. -/
def ClassTable.nameSize (classes : ClassTable) : Nat :=
  (classes.entries.flatMap fun entry => entry.2.supers.flatMap String.toList).length

end DocTypes
