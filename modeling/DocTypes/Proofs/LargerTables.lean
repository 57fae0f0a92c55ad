import DocTypes.Proofs.Compatibility

namespace DocTypes

namespace ClassTable

/-- The larger table explains each name of the smaller one, and explains it alike. -/
def Within (classes larger : ClassTable) : Prop :=
  ∀ name entry, classes.find? name = some entry → larger.find? name = some entry

/-- Entries behind those of a table explain no name of the table. -/
theorem within_append (classes : ClassTable) (more : List (String × ClassEntry)) :
    classes.Within ⟨classes.entries ++ more⟩ := by
  intro name entry found
  have known : classes.entries.lookup name = some entry := found
  change (classes.entries ++ more).lookup name = some entry
  rw [List.lookup_append, known, Option.some_or]

variable {classes larger : ClassTable}

/-- Predefined classes hide those of either table. -/
theorem Within.edges? (within : classes.Within larger) {name : String} {next : List String}
    (edges : classes.edges? name = some next) : larger.edges? name = some next := by
  unfold ClassTable.edges? at edges ⊢
  cases predefined : Library.supers? name with
  | some supers => simpa only [predefined] using edges
  | none =>
    simp only [predefined] at edges ⊢
    obtain ⟨entry, found, supers⟩ := Option.map_eq_some_iff.mp edges
    rw [within name entry found, Option.map_some, supers]

theorem Within.inherits (within : classes.Within larger) {lower upper : String}
    (step : classes.Inherits lower upper) : larger.Inherits lower upper := by
  obtain ⟨next, edges, member⟩ := step
  exact ⟨next, within.edges? edges, member⟩

theorem Within.inheritsIn (within : classes.Within larger) {steps : Nat} {lower upper : String}
    (path : classes.InheritsIn steps lower upper) : larger.InheritsIn steps lower upper := by
  induction path with
  | refl => exact .refl _
  | step _ last ih => exact .step ih (within.inherits last)

/-- Supertypes stay supertypes. The two searches meet their names in different orders, so the paths are compared
and not the lists. The induction is on the length of the atom, since `static(X)` leads to the supertypes of the
shorter `X`. -/
theorem Within.superTypes_subset (within : classes.Within larger) (named : classes.WellNamed)
    (namedLarger : larger.WellNamed) (atom : String) : classes.superTypes atom ⊆ larger.superTypes atom := by
  induction length : atom.length using Nat.strongRecOn generalizing atom with
  | ind size ih =>
    intro other isSuper
    rcases Atom.kinds atom with word | full | ⟨name, rfl⟩ | unknown
    · rw [superTypes_word _ word] at isSuper ⊢
      exact isSuper
    · rw [named.mem_superTypes_class full] at isSuper
      rw [namedLarger.mem_superTypes_class full]
      rcases isSuper with object | ⟨steps, positive, path⟩
      · exact Or.inl object
      · exact Or.inr ⟨steps, positive, within.inheritsIn path⟩
    · rw [named.mem_superTypes_static] at isSuper
      rw [namedLarger.mem_superTypes_static]
      have shorter : name.length < size := by
        rw [Atom.length_static] at length
        omega
      rcases isSuper with word | ⟨nonempty, same | above⟩
      · exact Or.inl word
      · exact Or.inr ⟨nonempty, Or.inl same⟩
      · exact Or.inr ⟨nonempty, Or.inr (ih name.length shorter name rfl above)⟩
    · rw [superTypes_unknown _ unknown] at isSuper
      exact absurd isSuper List.not_mem_nil

theorem memberAccepts_of_subset (supers : ∀ atom, classes.superTypes atom ⊆ larger.superTypes atom)
    {wide narrow : String} (accepted : classes.memberAccepts wide narrow) : larger.memberAccepts wide narrow := by
  rw [memberAccepts_iff] at accepted ⊢
  intro atom isAtom
  obtain ⟨source, isSource, same | isSuper⟩ := mem_reach.mp (accepted atom isAtom)
  · exact mem_reach.mpr ⟨source, isSource, Or.inl same⟩
  · exact mem_reach.mpr ⟨source, isSource, Or.inr (supers source isSuper)⟩

theorem accepts_of_subset (supers : ∀ atom, classes.superTypes atom ⊆ larger.superTypes atom)
    {wide narrow : DocType} (accepted : classes.accepts wide narrow) : larger.accepts wide narrow := by
  rw [accepts_iff] at accepted ⊢
  rcases accepted with mixed | never | each
  · exact Or.inl mixed
  · exact Or.inr (Or.inl never)
  · refine Or.inr (Or.inr fun member isMember => ?_)
    obtain ⟨other, isOther, takes⟩ := each member isMember
    exact ⟨other, isOther, memberAccepts_of_subset supers takes⟩

/-- Where more classes are known every atom keeps its supertypes, and no types that were compatible cease to be. -/
theorem compatible_of_larger (named : classes.WellNamed) (namedLarger : larger.WellNamed)
    (within : classes.Within larger) :
    (∀ atom, classes.superTypes atom ⊆ larger.superTypes atom) ∧
    ∀ wide narrow : Option String, classes.compatible (wide.map .ofText) (narrow.map .ofText) →
      larger.compatible (wide.map .ofText) (narrow.map .ofText) := by
  have supers := within.superTypes_subset named namedLarger
  refine ⟨supers, fun wide narrow fits => ?_⟩
  cases narrow with
  | none => exact fits
  | some narrow =>
    cases wide with
    | none => exact fits
    | some wide => exact accepts_of_subset supers fits

/-- A class whose parent is only a name. -/
def orphanTable : ClassTable :=
  ⟨[("\\A", ⟨some "\\B", []⟩)]⟩

/-- The parent gets known, and inherits from the class itself. -/
theorem compatible_of_larger_cycle :
    orphanTable.WellNamed ∧ cyclicTable.WellNamed ∧ orphanTable.Within cyclicTable ∧
      orphanTable.superTypes "static(\\A)" ⊆ cyclicTable.superTypes "static(\\A)" ∧
      "\\Countable" ∈ cyclicTable.superTypes "static(\\A)" ∧
      "\\Countable" ∉ orphanTable.superTypes "static(\\A)" ∧
      orphanTable.compatible (some (.ofText "\\B|scalar")) (some (.ofText "int|static(\\A)")) ∧
      cyclicTable.compatible (some (.ofText "\\B|scalar")) (some (.ofText "int|static(\\A)")) := by
  have named : orphanTable.WellNamed := by decide
  have namedLarger : cyclicTable.WellNamed := by decide
  have within : orphanTable.Within cyclicTable := within_append orphanTable _
  have fits : orphanTable.compatible (some (.ofText "\\B|scalar")) (some (.ofText "int|static(\\A)")) := by decide
  obtain ⟨supers, kept⟩ := compatible_of_larger named namedLarger within
  exact ⟨named, namedLarger, within, supers _, by decide, by decide, fits,
    kept (some "\\B|scalar") (some "int|static(\\A)") fits⟩

end ClassTable

end DocTypes
