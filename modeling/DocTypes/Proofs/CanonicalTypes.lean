import DocTypes.Proofs.ReturnedTypes

namespace DocTypes

namespace DocType

/-- The one form in which a type is returned. -/
structure Canonical (type : DocType) : Prop where
  members_ascending : type.members.Pairwise (· < ·)
  atoms_ascending : ∀ member ∈ type.members, (atoms member).Pairwise (· < ·)
  mixed_alone : ∀ member ∈ type.members, "mixed" ∈ atoms member → type = .mixed
  never_alone : ∀ member ∈ type.members, "never" ∈ atoms member → type = .never
  umbrella_mem : ∀ umbrella ∈ umbrellas, (∀ part ∈ umbrella.2, part ∈ type.members) → umbrella.1 ∈ type.members

end DocType

namespace ClassTable

variable {classes : ClassTable}

theorem Simple.atoms_ascending {member : String} (simple : classes.Simple member) :
    (DocType.atoms member).Pairwise (· < ·) := by
  rcases simple.2 with single | ⟨sorted, _⟩
  · rw [single]
    exact List.pairwise_singleton _ member
  · exact sorted

/-- A word that takes part in no intersection is an atom of no other member. -/
theorem Simple.eq_of_mem_atoms {member word : String} (simple : classes.Simple member)
    (isAtom : word ∈ DocType.atoms member) (notObject : ¬ classes.isObjectLike word) : member = word := by
  rcases simple.2 with single | ⟨_, objects⟩
  · rw [single, List.mem_singleton] at isAtom
    exact isAtom.symm
  · exact absurd (objects word isAtom) notObject

theorem Normal.canonical (named : classes.WellNamed) {type : DocType} (normal : classes.Normal type) :
    type.Canonical := by
  have formed := normal.formed named
  obtain ⟨members, ⟨some, _⟩, rfl⟩ := normal
  refine ⟨normalUnion_pairwise classes members, fun member isMember => (formed.2 member isMember).atoms_ascending,
    fun member isMember isAtom => ?_, fun member isMember isAtom => ?_, fun umbrella listed given => ?_⟩
  · have notObject : ¬ classes.isObjectLike "mixed" := not_isObjectLike_of_unknown (by decide) (by decide)
    have same := (formed.2 member isMember).eq_of_mem_atoms isAtom notObject
    subst same
    have mixed := (mem_of_mem_normalUnion isMember).resolve_right (mixed_not_complete members)
    rw [normalUnion_of_mixed mixed]
    rfl
  · have notObject : ¬ classes.isObjectLike "never" := not_isObjectLike_of_unknown (by decide) (by decide)
    have same := (formed.2 member isMember).eq_of_mem_atoms isAtom notObject
    subst same
    rw [normalUnion_of_never some (never_of_mem_normalUnion isMember)]
    rfl
  · exact named.umbrella_mem_normalUnion (DocType.completeUmbrellas_closed listed fun part isPart missing =>
      absurd (given part isPart) missing)

theorem Formed.ofText_text {type : DocType} (formed : classes.Formed type) : DocType.ofText type.text = type := by
  have cut := Text.split_join formed.1 fun member isMember => (formed.2 member isMember).1
  rw [DocType.ofText, DocType.text, cut]

/-- Every type that is read has this form, in scopes whose names are single atoms and whose template bounds
were read before, and its text stands for no other type. -/
theorem read_type_canonical (named : classes.WellNamed) {scope : Scope} (names : scope.NamesAtoms)
    (bounds : ∀ name bound, scope.templates.find? name = some bound → classes.Returned (.ofText bound))
    {text : String} {extent : Extent} {wide : Bool} {type : DocType}
    (read : (classes.readTypedName scope text extent wide).type = some type) :
    type.Canonical ∧ DocType.ofText type.text = type := by
  have normal := (Returned.typedName names bounds read).normal named
  exact ⟨normal.canonical named, (normal.formed named).ofText_text⟩

theorem read_type_canonical_nullable :
    cyclicTable.WellNamed ∧ Scope.NamesAtoms (.bindTemplate .root "T" "\\Bar&\\Foo|int") ∧
      cyclicTable.Returned (.ofText "\\Bar&\\Foo|int") ∧
      (cyclicTable.readTypedName (.bindTemplate .root "T" "\\Bar&\\Foo|int")
        "T|(array|\\Traversable)|string $x = null" .withDefault true).type =
        some ⟨["\\Bar&\\Foo", "\\Traversable", "array", "array-key", "int", "iterable", "null", "string"]⟩ ∧
      DocType.Canonical
        ⟨["\\Bar&\\Foo", "\\Traversable", "array", "array-key", "int", "iterable", "null", "string"]⟩ := by
  have named : cyclicTable.WellNamed := by decide
  have bounds : ∀ name text, (Scope.bindTemplate .root "T" "\\Bar&\\Foo|int").templates.find? name = some text →
      cyclicTable.Returned (.ofText text) :=
    fun name text isBound => Scope.eq_of_find?_bindTemplate isBound ▸ returned_intersection_int
  have read : (cyclicTable.readTypedName (.bindTemplate .root "T" "\\Bar&\\Foo|int")
      "T|(array|\\Traversable)|string $x = null" .withDefault true).type =
      some ⟨["\\Bar&\\Foo", "\\Traversable", "array", "array-key", "int", "iterable", "null", "string"]⟩ := by
    decide +kernel
  exact ⟨named, by decide, returned_intersection_int, read, (read_type_canonical named (by decide) bounds read).1⟩

end ClassTable

end DocTypes
