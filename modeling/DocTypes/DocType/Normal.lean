import DocTypes.DocType.Basic
import DocTypes.TypeText.Error

namespace DocTypes

namespace DocType

/-- Puts a name into an ascending list, unless it is there. -/
def insertName (name : String) : List String → List String
  | [] => [name]
  | other :: rest =>
    if name < other then name :: other :: rest
    else if name = other then other :: rest
    else other :: insertName name rest

/-- The names in ascending order, each once. -/
def ascending (names : List String) : List String :=
  names.foldr insertName []

/-- Types that stand for the union of their parts, smaller ones first. -/
def umbrellas : List (String × List String) :=
  [("array-key", ["int", "string"]),
   ("scalar", ["bool", "float", "array-key"]),
   ("iterable", ["\\Traversable", "array"])]

/-- The umbrellas all of whose parts are members, or umbrellas found before. -/
def completeUmbrellas (members : List String) : List String :=
  umbrellas.foldl
    (fun complete umbrella =>
      if umbrella.2.all fun part => members.contains part || complete.contains part then
        complete ++ [umbrella.1]
      else complete)
    []

end DocType

namespace ClassTable

/-- Drops the members that `wide` accepts, `wide` itself apart. -/
def dropCovered (classes : ClassTable) (wide : String) (members : List String) : List String :=
  members.filter fun member => member == wide || !classes.accepts ⟨[wide]⟩ ⟨[member]⟩

/-- The members of a union in normal form. Umbrella types are added when their parts are there,
and such an umbrella absorbs nothing; any other member absorbs what it accepts. -/
def normalUnion (classes : ClassTable) (members : List String) : List String :=
  if members.length ≤ 1 then members
  else
    let complete := DocType.completeUmbrellas members
    let all := DocType.ascending (members ++ complete)
    if all.contains "mixed" then ["mixed"]
    else
      let known := if all.length ≤ 1 then all else all.filter (· != "never")
      known.foldl
        (fun left wide =>
          if left.contains wide && !complete.contains wide then classes.dropCovered wide left
          else left)
        known

/-- Whether a type may take part in an intersection. -/
def isObjectLike (classes : ClassTable) (atom : String) : Bool :=
  ["object", "iterable", "callable"].contains atom || classes.isObject atom

/-- The members of an intersection in normal form: supertypes of other members are dropped. -/
def normalIntersection (classes : ClassTable) (members : List String) :
    Except ParseError (List String) :=
  if members.length ≤ 1 then .ok members
  else
    match members.find? fun member => !classes.isObjectLike member with
    | some member => .error (.intersectionNonObject member)
    | none =>
      let kept := DocType.ascending ((members.flatMap classes.superTypes).foldl List.erase members)
      if kept.contains "never" then .ok ["never"]
      else if kept.length ≤ 1 then .ok kept
      else .ok (kept.filter (· != "mixed"))

end ClassTable

end DocTypes
