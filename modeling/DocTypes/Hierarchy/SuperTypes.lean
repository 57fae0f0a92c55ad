import DocTypes.Hierarchy.ClassTable
import DocTypes.Hierarchy.Library

namespace DocTypes

namespace Atom

/-- What an atomic type says about its supertypes. -/
inductive View where
  | word (supers : List String)
  | boundStatic (name : String)
  | className
  | unknown
deriving DecidableEq, Repr

/-- The class `X` of an atom `static(X)`. -/
def staticBound? (atom : String) : Option String :=
  if "static(".toList.isPrefixOf atom.toList then
    match (atom.toList.drop 7).reverse with
    | ')' :: rest => some (String.ofList rest.reverse)
    | _ => none
  else none

def view (atom : String) : View :=
  match atom with
  | "int" | "string" => .word ["array-key", "scalar"]
  | "callable-string" => .word ["callable", "string", "array-key", "scalar"]
  | "array-key" | "float" | "bool" => .word ["scalar"]
  | "array" => .word ["iterable"]
  | "static" => .word ["self", "parent", "object"]
  | "self" => .word ["parent", "object"]
  | "parent" => .word ["object"]
  | _ =>
    match staticBound? atom with
    | some name => .boundStatic name
    | none => if atom.toList.head? = some '\\' then .className else .unknown

end Atom

namespace ClassTable

/-- The inheritance edges out of a name: a predefined class hides one of the file. -/
def edges? (classes : ClassTable) (name : String) : Option (List String) :=
  match Library.supers? name with
  | some supers => some supers
  | none => (classes.find? name).map ClassEntry.supers

/-- Adds at the end the names that are not there yet. -/
def appendNew (found extras : List String) : List String :=
  extras.foldl (fun found name => if found.contains name then found else found ++ [name]) found

/-- The words at the head of the supertypes of a bound `static`. -/
def staticWords : List String :=
  ["static", "self", "parent", "object"]

mutual

/-- The search for the supertypes of an atomic type. It has no result if it never ends. -/
def search? (classes : ClassTable) (atom : String) : Option (List String) :=
  match Atom.view atom with
  | .word supers => some supers
  | .boundStatic name => classes |>.reach? [name] staticWords
  | .className => classes |>.reach? ((classes.edges? atom).getD []) ["object"]
  | .unknown => some []
partial_fixpoint

/-- The breadth-first walk. `found` lists what was reached, in order, and a name found twice is not
expanded again. A name with no edges of its own contributes what a search from it finds. -/
def reach? (classes : ClassTable) (queue found : List String) : Option (List String) :=
  match queue with
  | [] => some found
  | name :: queue =>
    if name = "" ∨ name ∈ found then classes |>.reach? queue found
    else
      match classes.edges? name with
      | some next => classes |>.reach? (queue ++ next) (found ++ [name])
      | none => do
        let extras ← classes |>.search? name
        classes |>.reach? queue (appendNew (found ++ [name]) extras)
partial_fixpoint

end

/-- The walk with a number of steps taken ahead by recursion on that number, which evaluates. It goes
on as before once they are used up. -/
def reachAhead (classes : ClassTable) (leaf : String → Option (List String)) :
    (steps : Nat) → (queue found : List String) → Option (List String)
  | 0, queue, found => classes.reach? queue found
  | _ + 1, [], found => some found
  | steps + 1, name :: queue, found =>
    if name = "" ∨ name ∈ found then classes.reachAhead leaf steps queue found
    else
      match classes.edges? name with
      | some next => classes.reachAhead leaf steps (queue ++ next) (found ++ [name])
      | none => do
        let extras ← leaf name
        classes.reachAhead leaf steps queue (appendNew (found ++ [name]) extras)

theorem reachAhead_eq (classes : ClassTable) {leaf : String → Option (List String)}
    (isSearch : ∀ name, leaf name = classes.search? name) (steps : Nat) (queue found : List String) :
    classes.reachAhead leaf steps queue found = classes.reach? queue found := by
  induction steps generalizing queue found with
  | zero => rw [reachAhead]
  | succ steps ih =>
    cases queue with
    | nil => rw [reachAhead, reach?]
    | cons name queue => simp only [reachAhead, reach?, ih, isSearch]

/-- No walk takes more steps to its end: every edge is queued at most once. -/
def walkBound (classes : ClassTable) (queue : List String) : Nat :=
  queue.length + Library.edgeCount + classes.edgeCount

/-- The search with its walks taken ahead, as deep as one bound `static` leads to another. -/
def searchAhead (classes : ClassTable) : (depth : Nat) → String → Option (List String)
  | 0, atom => classes.search? atom
  | depth + 1, atom =>
    let reach (queue found : List String) :=
      classes.reachAhead (classes.searchAhead depth) (classes.walkBound queue) queue found
    match Atom.view atom with
    | .word supers => some supers
    | .boundStatic name => reach [name] staticWords
    | .className => reach ((classes.edges? atom).getD []) ["object"]
    | .unknown => some []

theorem searchAhead_eq (classes : ClassTable) (depth : Nat) (atom : String) :
    classes.searchAhead depth atom = classes.search? atom := by
  induction depth generalizing atom with
  | zero => rw [searchAhead]
  | succ depth ih => simp only [searchAhead, search?, classes.reachAhead_eq ih]

/-- The supertypes of an atomic type, without the type itself unless it lies on a cycle. A search that
ends does so within this depth: a bound `static` leads to a shorter name or to one of the table. -/
def superTypes (classes : ClassTable) (atom : String) : List String :=
  (classes.searchAhead (classes.nameSize + atom.length + 1) atom).getD []

/-- The supertypes are those that the search finds, however far it goes. -/
theorem superTypes_eq (classes : ClassTable) (atom : String) :
    classes.superTypes atom = (classes.search? atom).getD [] := by
  rw [superTypes, searchAhead_eq]

/-- Whether every value of the type is an object. -/
def isObject (classes : ClassTable) (type : String) : Bool :=
  (classes.superTypes type).contains "object"

end ClassTable

end DocTypes
