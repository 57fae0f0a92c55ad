import DocTypes.Hierarchy.SuperTypes
import DocTypes.Scope
import Mathlib.Order.Lattice.Nat

namespace DocTypes

namespace ClassTable

/-- Every name of the table starts with a backslash: those it explains, and those it leads to. -/
structure WellNamed (classes : ClassTable) : Prop where
  keys : ∀ entry ∈ classes.entries, Scope.isFullName entry.1
  supers : ∀ entry ∈ classes.entries, ∀ name ∈ entry.2.supers, Scope.isFullName name

instance (classes : ClassTable) : Decidable classes.WellNamed :=
  decidable_of_iff
    ((∀ entry ∈ classes.entries, Scope.isFullName entry.1) ∧
      ∀ entry ∈ classes.entries, ∀ name ∈ entry.2.supers, Scope.isFullName name)
    ⟨fun both => ⟨both.1, both.2⟩, fun named => ⟨named.keys, named.supers⟩⟩

/-- One inheritance step. -/
def Inherits (classes : ClassTable) (lower upper : String) : Prop :=
  ∃ next, classes.edges? lower = some next ∧ upper ∈ next

/-- A number of inheritance steps. -/
inductive InheritsIn (classes : ClassTable) : Nat → String → String → Prop
  | refl (name : String) : InheritsIn classes 0 name name
  | step {steps : Nat} {lower middle upper : String} :
      InheritsIn classes steps lower middle → classes.Inherits middle upper →
      InheritsIn classes (steps + 1) lower upper

/-- The least number of steps, one or more, from a name up to another. -/
noncomputable def inheritanceDistance (classes : ClassTable) (lower upper : String) : Nat :=
  sInf {steps | 0 < steps ∧ classes.InheritsIn steps lower upper}

theorem inheritsIn_zero {classes : ClassTable} {lower upper : String} :
    classes.InheritsIn 0 lower upper ↔ lower = upper := by
  constructor
  · intro path
    cases path
    rfl
  · intro same
    subst same
    exact .refl lower

theorem inheritsIn_succ {classes : ClassTable} {steps : Nat} {lower upper : String} :
    classes.InheritsIn (steps + 1) lower upper ↔
      ∃ middle, classes.InheritsIn steps lower middle ∧ classes.Inherits middle upper := by
  constructor
  · intro path
    cases path with
    | step before last => exact ⟨_, before, last⟩
  · rintro ⟨middle, before, last⟩
    exact .step before last

theorem InheritsIn.trans {classes : ClassTable} {first second : Nat} {lower middle upper : String}
    (below : classes.InheritsIn first lower middle) (above : classes.InheritsIn second middle upper) :
    classes.InheritsIn (first + second) lower upper := by
  induction above with
  | refl => exact below
  | step _ last ih => exact .step (ih below) last

/-- A path of one step or more starts with a step. -/
theorem inheritsIn_succ_first {classes : ClassTable} {steps : Nat} {lower upper : String} :
    classes.InheritsIn (steps + 1) lower upper ↔
      ∃ middle, classes.Inherits lower middle ∧ classes.InheritsIn steps middle upper := by
  constructor
  · intro path
    induction steps generalizing upper with
    | zero =>
      obtain ⟨middle, before, last⟩ := inheritsIn_succ.mp path
      rw [inheritsIn_zero] at before
      subst before
      exact ⟨upper, last, .refl upper⟩
    | succ steps ih =>
      obtain ⟨middle, before, last⟩ := inheritsIn_succ.mp path
      obtain ⟨second, first, rest⟩ := ih before
      exact ⟨second, first, .step rest last⟩
  · rintro ⟨middle, first, rest⟩
    have whole := (InheritsIn.step (.refl lower) first).trans rest
    rwa [Nat.zero_add, Nat.add_comm] at whole

theorem inheritanceDistance_le {classes : ClassTable} {steps : Nat} {lower upper : String}
    (path : classes.InheritsIn steps lower upper) (positive : 0 < steps) :
    classes.inheritanceDistance lower upper ≤ steps :=
  Nat.sInf_le ⟨positive, path⟩

/-- The distance is the length of a path wherever there is one. -/
theorem inheritsIn_inheritanceDistance {classes : ClassTable} {steps : Nat} {lower upper : String}
    (path : classes.InheritsIn steps lower upper) (positive : 0 < steps) :
    0 < classes.inheritanceDistance lower upper ∧
      classes.InheritsIn (classes.inheritanceDistance lower upper) lower upper :=
  Nat.sInf_mem (s := {steps | 0 < steps ∧ classes.InheritsIn steps lower upper})
    ⟨steps, positive, path⟩

/-- A supertype that a class table can lead to: a full name, or one of the two words that the
predefined classes lead to. -/
def IsSuperName (name : String) : Prop :=
  Scope.isFullName name ∨ name = "callable" ∨ name = "iterable"

theorem library_keys_full : ∀ entry ∈ Library.classes, Scope.isFullName entry.1 :=
  List.all_eq_true.mp (by decide +kernel)

theorem library_supers_named : ∀ entry ∈ Library.classes, ∀ name ∈ entry.2,
    Scope.isFullName name ∨ name = "callable" ∨ name = "iterable" := by
  have listed : (Library.classes.all fun entry => entry.2.all fun name =>
      Scope.isFullName name || (name == "callable" || name == "iterable")) = true := by decide +kernel
  simpa only [List.all_eq_true, Bool.or_eq_true, beq_iff_eq] using listed

theorem lookup_mem {β : Type} {pairs : List (String × β)} {name : String} {value : β}
    (found : pairs.lookup name = some value) : (name, value) ∈ pairs := by
  obtain ⟨before, after, split, _⟩ := List.lookup_eq_some_iff.mp found
  rw [split]
  exact List.mem_append_right before (List.mem_cons_self ..)

/-- The edges out of a name are those of a predefined class or those of an entry of the table. -/
theorem edges?_cases {classes : ClassTable} {name : String} {next : List String}
    (edges : classes.edges? name = some next) :
    (name, next) ∈ Library.classes ∨ ∃ entry, (name, entry) ∈ classes.entries ∧ next = entry.supers := by
  unfold edges? at edges
  split at edges
  next supers found =>
    cases Option.some.inj edges
    exact Or.inl (lookup_mem found)
  next =>
    obtain ⟨entry, found, same⟩ := Option.map_eq_some_iff.mp edges
    exact Or.inr ⟨entry, lookup_mem found, same.symm⟩

theorem WellNamed.edges_full {classes : ClassTable} (named : classes.WellNamed) {name : String}
    {next : List String} (edges : classes.edges? name = some next) : Scope.isFullName name := by
  rcases edges?_cases edges with library | ⟨entry, own, _⟩
  · exact library_keys_full (name, next) library
  · exact named.keys (name, entry) own

theorem WellNamed.inherits_super {classes : ClassTable} (named : classes.WellNamed) {lower upper : String}
    (step : classes.Inherits lower upper) : IsSuperName upper := by
  obtain ⟨next, edges, member⟩ := step
  rcases edges?_cases edges with library | ⟨entry, own, same⟩
  · exact library_supers_named (lower, next) library upper member
  · subst same
    exact Or.inl (named.supers (lower, entry) own upper member)

theorem WellNamed.inheritsIn_super {classes : ClassTable} (named : classes.WellNamed) {steps : Nat}
    {lower upper : String} (path : classes.InheritsIn steps lower upper) (start : IsSuperName lower) :
    IsSuperName upper := by
  cases path with
  | refl => exact start
  | step _ last => exact named.inherits_super last

/-- None of the words that head a list of supertypes can be inherited. -/
theorem IsSuperName.not_mem_of_words {name : String} (isSuper : IsSuperName name) :
    name ≠ "" ∧ name ∉ ["static", "self", "parent", "object"] := by
  rcases isSuper with full | rfl | rfl
  · constructor
    · rintro rfl
      exact absurd full (by decide)
    · intro member
      simp only [List.mem_cons, List.not_mem_nil, or_false] at member
      rcases member with rfl | rfl | rfl | rfl <;> exact absurd full (by decide)
  · decide
  · decide

end ClassTable

end DocTypes
