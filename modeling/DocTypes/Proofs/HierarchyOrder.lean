import DocTypes.Proofs.SuperTypes
import Mathlib.Data.Fintype.Card

namespace DocTypes

namespace ClassTable

theorem nodup_append_new {found : List String} {name : String} (nodup : found.Nodup) (fresh : name ∉ found) :
    (found ++ [name]).Nodup := by
  rw [← List.concat_eq_append]
  exact nodup.concat fresh

theorem appendNew_nodup {found extras : List String} (nodup : found.Nodup) : (appendNew found extras).Nodup := by
  induction extras generalizing found with
  | nil => exact nodup
  | cons extra extras ih =>
    have unfolded : appendNew found (extra :: extras) =
        appendNew (if found.contains extra then found else found ++ [extra]) extras := rfl
    rw [unfolded]
    split
    next => exact ih nodup
    next fresh => exact ih (nodup_append_new nodup (by simpa using fresh))

/-- A walk lists a name only if it is not listed yet. -/
theorem Searches.walk_nodup {classes : ClassTable} {search : Search} {result : List String}
    (searches : classes.Searches search result) :
    ∀ queue found, search = .walk queue found → found.Nodup → result.Nodup := by
  induction searches with
  | word | unknown | boundStatic | className => nofun
  | done found =>
    rintro _ _ ⟨⟩ nodup
    exact nodup
  | skip _ _ ih =>
    rintro _ _ ⟨⟩ nodup
    exact ih _ _ rfl nodup
  | edges fresh _ _ ih =>
    rintro _ _ ⟨⟩ nodup
    exact ih _ _ rfl (nodup_append_new nodup (not_or.mp fresh).2)
  | leaf fresh _ _ _ _ ih =>
    rintro _ _ ⟨⟩ nodup
    exact ih _ _ rfl (appendNew_nodup (nodup_append_new nodup (not_or.mp fresh).2))

theorem reach?_nodup {classes : ClassTable} {queue found : List String} (nodup : found.Nodup) :
    ((classes.reach? queue found).getD []).Nodup := by
  cases isResult : classes.reach? queue found with
  | none => exact List.nodup_nil
  | some result =>
    have searches : classes.Searches (.walk queue found) result := searches_iff_outcome.mpr isResult
    exact searches.walk_nodup queue found rfl nodup

theorem superTypes_nodup (classes : ClassTable) (atom : String) : (classes.superTypes atom).Nodup := by
  rcases Atom.kinds atom with word | full | ⟨name, rfl⟩ | unknown
  · have each : ∀ word ∈ Atom.words, (Atom.ladder word).Nodup := by decide
    rw [superTypes_word classes word]
    exact each atom word
  · rw [superTypes_eq, search?, Atom.view_of_full full]
    exact reach?_nodup (List.nodup_singleton _)
  · rw [superTypes_eq, search?, Atom.view_static]
    exact reach?_nodup (by decide)
  · rw [superTypes_unknown classes unknown]
    exact List.nodup_nil

/-- A class that inherits from itself, in however many steps. -/
def OnCycle (classes : ClassTable) (name : String) : Prop :=
  ∃ steps, 0 < steps ∧ classes.InheritsIn steps name name

/-- No class inherits from itself, in however many steps. -/
def Acyclic (classes : ClassTable) : Prop :=
  ∀ name steps, 0 < steps → ¬ classes.InheritsIn steps name name

section Order

variable {classes : ClassTable} (named : classes.WellNamed)

include named

/-- Only what has edges lies on a cycle. -/
theorem WellNamed.full_of_onCycle {name : String} (cycle : classes.OnCycle name) : Scope.isFullName name := by
  obtain ⟨steps, positive, path⟩ := cycle
  obtain ⟨rest, rfl⟩ := Nat.exists_eq_succ_of_ne_zero (by omega : steps ≠ 0)
  obtain ⟨_, ⟨_, edges, _⟩, _⟩ := inheritsIn_succ_first.mp path
  exact named.edges_full edges

/-- What is above itself lies on a cycle. The induction is on the length: only a bound `static` is not a class, and
what it is bound to is shorter. -/
theorem WellNamed.onCycle_of_mem_superTypes {atom : String} (above : atom ∈ classes.superTypes atom) :
    classes.OnCycle atom := by
  induction length : atom.length using Nat.strongRecOn generalizing atom with
  | ind size ih =>
    rcases Atom.kinds atom with word | full | ⟨name, rfl⟩ | unknown
    · have each : ∀ word ∈ Atom.words, word ∉ Atom.ladder word := by decide
      rw [superTypes_word classes word] at above
      exact absurd above (each atom word)
    · rcases (named.mem_superTypes_class full).mp above with rfl | cycle
      · exact absurd full (by decide)
      · exact cycle
    · rw [Atom.length_static] at length
      have notWord : "static(" ++ name ++ ")" ∉ staticWords ++ ["callable", "iterable"] := by
        have unbound : ∀ word ∈ staticWords ++ ["callable", "iterable"], Atom.staticBound? word = none := by decide
        intro isWord
        have bound := unbound _ isWord
        rw [Atom.staticBound?_static] at bound
        cases bound
      obtain ⟨nonempty, same | inner⟩ :=
        (named.mem_superTypes_static.mp above).resolve_left fun isWord => notWord (List.mem_append_left _ isWord)
      · have sizes := congrArg String.length same
        rw [Atom.length_static] at sizes
        omega
      · -- then the class it is bound to lies on a cycle, and no class is below a bound `static`
        have bound : name ∈ classes.superTypes ("static(" ++ name ++ ")") :=
          named.mem_superTypes_static.mpr (Or.inr ⟨nonempty, Or.inl rfl⟩)
        have full := named.full_of_onCycle (ih name.length (by omega) (named.superTypes_trans inner bound) rfl)
        rcases (named.mem_superTypes_class full).mp inner with same | ⟨steps, positive, path⟩
        · rw [same] at notWord
          exact absurd (by decide) notWord
        · rcases named.inheritsIn_super path (Or.inl full) with isFull | same | same
          · simp [Scope.isFullName] at isFull
          all_goals
            rw [same] at notWord
            exact absurd (by decide) notWord
    · rw [superTypes_unknown classes unknown] at above
      exact absurd above List.not_mem_nil

theorem WellNamed.onCycle_iff {atom : String} : classes.OnCycle atom ↔ atom ∈ classes.superTypes atom :=
  ⟨fun cycle => (named.mem_superTypes_class (named.full_of_onCycle cycle)).mpr (Or.inr cycle),
    named.onCycle_of_mem_superTypes⟩

/-- Where there are no cycles nothing is above itself. -/
theorem WellNamed.superTypes_irrefl (acyclic : classes.Acyclic) (atom : String) :
    atom ∉ classes.superTypes atom := by
  intro above
  obtain ⟨steps, positive, path⟩ := named.onCycle_of_mem_superTypes above
  exact acyclic atom steps positive path

/-- A name on a cycle is at both ends of edges, so there are finitely many to look at. -/
theorem WellNamed.acyclic_iff :
    classes.Acyclic ↔ ∀ entry ∈ classes.edgeTable, ∀ upper ∈ entry.2, upper ∉ classes.superTypes upper := by
  refine ⟨fun acyclic _ _ upper _ => named.superTypes_irrefl acyclic upper, fun none name steps positive path => ?_⟩
  obtain ⟨rest, rfl⟩ := Nat.exists_eq_add_of_lt positive
  rw [Nat.zero_add] at path
  obtain ⟨_, ⟨_, firstEdges, _⟩, _⟩ := inheritsIn_succ_first.mp path
  obtain ⟨last, _, ⟨next, lastEdges, isUpper⟩⟩ := inheritsIn_succ.mp path
  have above : name ∈ classes.superTypes name :=
    (named.mem_superTypes_class (named.edges_full firstEdges)).mpr (Or.inr ⟨rest + 1, Nat.succ_pos rest, path⟩)
  rw [edges?_eq_lookup] at lastEdges
  exact none (last, next) (lookup_mem lastEdges) name isUpper above

/-- Where no member is above itself, there is below every member, or at it, one that is above no member. -/
theorem WellNamed.exists_lowest_of_irrefl {members : List String}
    (irrefl : ∀ member ∈ members, member ∉ classes.superTypes member) {name : String} (isMember : name ∈ members) :
    ∃ low ∈ members, (name = low ∨ name ∈ classes.superTypes low) ∧
      ∀ other ∈ members, low ∉ classes.superTypes other := by
  let below (lower upper : {name // name ∈ members}) : Prop := upper.1 ∈ classes.superTypes lower.1
  have : IsTrans _ below := ⟨fun _ _ _ first second => named.superTypes_trans first second⟩
  have : Std.Irrefl below := ⟨fun member => irrefl member.1 member.2⟩
  -- there are finitely many members, so going down from one to the next ends
  induction h : (⟨name, isMember⟩ : {name // name ∈ members})
    using (Finite.wellFounded_of_trans_of_irrefl below).induction generalizing name with
  | _ current ih =>
    subst h
    by_cases lower : ∃ other ∈ members, name ∈ classes.superTypes other
    · obtain ⟨other, isOther, above⟩ := lower
      obtain ⟨low, isLow, atOrAbove, lowest⟩ := ih ⟨other, isOther⟩ above isOther rfl
      refine ⟨low, isLow, Or.inr ?_, lowest⟩
      rcases atOrAbove with rfl | higher
      · exact above
      · exact named.superTypes_trans higher above
    · exact ⟨name, isMember, Or.inl rfl, by simpa using lower⟩

/-- Below every member, or at it, there is one that is above no member. -/
theorem WellNamed.exists_lowest (acyclic : classes.Acyclic) {members : List String} {name : String}
    (isMember : name ∈ members) : ∃ low ∈ members, (name = low ∨ name ∈ classes.superTypes low) ∧
      ∀ other ∈ members, low ∉ classes.superTypes other :=
  named.exists_lowest_of_irrefl (fun member _ => named.superTypes_irrefl acyclic member) isMember

end Order

end ClassTable

end DocTypes
