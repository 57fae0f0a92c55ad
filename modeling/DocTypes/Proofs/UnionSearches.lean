import DocTypes.DocType.Normal
import DocTypes.Proofs.SuperTypes

namespace DocTypes

namespace ClassTable

/-- The atoms of a member and all their supertypes, if the searches for these end. -/
def reached? (classes : ClassTable) (member : String) : Option (List String) := do
  let lists ← (DocType.atoms member).mapM fun atom => (classes.search? atom).map (atom :: ·)
  return lists.flatten

/-- Whether one member takes another, if the comparison ends. -/
def covers? (classes : ClassTable) (wide member : String) : Option Bool :=
  if wide = "mixed" ∨ member = "never" then some true
  else do
    let reached ← classes.reached? member
    return (DocType.atoms wide).all reached.contains

/-- The members that `wide` does not take, itself apart, if all comparisons end. -/
def dropCovered? (classes : ClassTable) (wide : String) : List String → Option (List String)
  | [] => some []
  | member :: members => do
    let covered ← (if member = wide then some false else classes.covers? wide member)
    let kept ← classes.dropCovered? wide members
    return if covered then kept else member :: kept

/-- The normal form of a union, if all comparisons that it takes end. -/
def normalUnion? (classes : ClassTable) (members : List String) : Option (List String) :=
  if members.length ≤ 1 then some members
  else
    let complete := DocType.completeUmbrellas members
    let all := DocType.ascending (members ++ complete)
    if all.contains "mixed" then some ["mixed"]
    else
      let known := if all.length ≤ 1 then all else all.filter (· != "never")
      known.foldlM
        (fun left wide =>
          if left.contains wide && !complete.contains wide then classes.dropCovered? wide left
          else some left)
        known

section Ending

variable {classes : ClassTable} (named : classes.WellNamed)

include named

theorem WellNamed.reached?_eq (member : String) : classes.reached? member = some (classes.reach member) := by
  have lists : (DocType.atoms member).mapM (fun atom => (classes.search? atom).map (atom :: ·)) =
      some ((DocType.atoms member).map fun atom => atom :: classes.superTypes atom) := by
    simp only [named.search?_eq, Option.map_some]
    exact List.mapM_pure
  rw [reached?, lists, reach, List.flatMap_def]
  rfl

theorem WellNamed.covers?_eq (wide member : String) :
    classes.covers? wide member = some (classes.accepts ⟨[wide]⟩ ⟨[member]⟩) := by
  rw [covers?, named.reached?_eq]
  by_cases trivially : wide = "mixed" ∨ member = "never"
  · rw [if_pos trivially]
    rcases trivially with rfl | rfl <;> simp [accepts, DocType.mixed, DocType.never]
  · rw [if_neg trivially]
    simp only [not_or] at trivially
    simp [accepts, memberAccepts, DocType.mixed, DocType.never, trivially]

theorem WellNamed.dropCovered?_eq (wide : String) (members : List String) :
    classes.dropCovered? wide members = some (classes.dropCovered wide members) := by
  induction members with
  | nil => rfl
  | cons member members ih =>
    rw [dropCovered?, ih, named.covers?_eq]
    by_cases same : member = wide
    · simp [same, dropCovered]
    · cases taken : classes.accepts ⟨[wide]⟩ ⟨[member]⟩ <;> simp [same, dropCovered, taken]

/-- Every union comes to its normal form. -/
theorem WellNamed.normalUnion?_eq (members : List String) :
    classes.normalUnion? members = some (classes.normalUnion members) := by
  have steps (complete : List String) :
      (fun left wide => if left.contains wide && !complete.contains wide then classes.dropCovered? wide left
        else some left) =
      fun left wide => (pure (if left.contains wide && !complete.contains wide then classes.dropCovered wide left
        else left) : Option (List String)) := by
    funext left wide
    rw [named.dropCovered?_eq]
    split <;> rfl
  simp only [normalUnion?, normalUnion, steps, List.foldlM_pure]
  split
  · rfl
  · split <;> rfl

end Ending

/-- A class that extends a `static` bound to itself. -/
def circularTable : ClassTable :=
  ⟨[("\\A", ⟨some "static(\\A)", []⟩)]⟩

/-- The states of the search for the supertypes of that class, which goes round. -/
inductive Circling : Search → Prop
  | name : Circling (.supers "\\A")
  | fromName : Circling (.walk ["static(\\A)"] ["object"])
  | bound : Circling (.supers "static(\\A)")
  | fromBound : Circling (.walk ["\\A"] staticWords)
  | onward : Circling (.walk ["static(\\A)"] (staticWords ++ ["\\A"]))

/-- A search that goes round has no end: a finite one would hold a smaller one that goes round. -/
theorem Searches.not_circling {search : Search} {result : List String}
    (searches : circularTable.Searches search result) : ¬ Circling search := by
  have viewBound : Atom.view "static(\\A)" = .boundStatic "\\A" := by decide
  have viewName : Atom.view "\\A" = .className := by decide
  have parent : circularTable.edges? "\\A" = some ["static(\\A)"] := by decide
  have noParent : circularTable.edges? "static(\\A)" = none := by decide
  intro circling
  induction searches with
  | word view | unknown view =>
    cases circling with
    | name => exact absurd (view.symm.trans viewName) (by simp)
    | bound => exact absurd (view.symm.trans viewBound) (by simp)
  | boundStatic view _ ih =>
    cases circling with
    | name => exact absurd (view.symm.trans viewName) (by simp)
    | bound =>
      cases view.symm.trans viewBound
      exact ih .fromBound
  | className view _ ih =>
    cases circling with
    | name => exact ih (parent ▸ .fromName)
    | bound => exact absurd (view.symm.trans viewBound) (by simp)
  | done => cases circling
  | skip known =>
    cases circling with
    | fromName | fromBound | onward => exact absurd known (by decide)
  | edges _ leads _ ih =>
    cases circling with
    | fromName | onward => exact absurd (leads.symm.trans noParent) (by simp)
    | fromBound =>
      cases leads.symm.trans parent
      exact ih .onward
  | leaf _ ends _ _ ih _ =>
    cases circling with
    | fromName | onward => exact ih .bound
    | fromBound => exact absurd (ends.symm.trans parent) (by simp)

theorem search?_circular : circularTable.search? "\\A" = none := by
  cases isResult : circularTable.search? "\\A" with
  | none => rfl
  | some result =>
    have searches : circularTable.Searches (.supers "\\A") result := searches_iff_outcome.mpr isResult
    exact absurd .name searches.not_circling

/-- A union of that class and `null` needs its supertypes, so it has no normal form. -/
theorem normalUnion?_circular : circularTable.normalUnion? ["\\A", "null"] = none := by
  have atomsName : DocType.atoms "\\A" = ["\\A"] := by decide
  have atomsNull : DocType.atoms "null" = ["null"] := by decide
  have searchNull : circularTable.search? "null" = some [] := by
    rw [search?, show Atom.view "null" = .unknown by decide]
  have first : circularTable.dropCovered? "\\A" ["\\A", "null"] = some ["\\A", "null"] := by
    simp [dropCovered?, covers?, reached?, atomsName, atomsNull, searchNull]
  have second : circularTable.dropCovered? "null" ["\\A", "null"] = none := by
    simp [dropCovered?, covers?, reached?, atomsName, search?_circular]
  have incomplete : DocType.completeUmbrellas ["\\A", "null"] = [] := by decide
  have sorted : DocType.ascending ["\\A", "null"] = ["\\A", "null"] := by decide
  simp [normalUnion?, incomplete, sorted, first, second]

end ClassTable

end DocTypes
