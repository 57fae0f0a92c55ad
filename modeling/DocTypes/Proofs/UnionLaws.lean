import DocTypes.Proofs.UnionGrouping

namespace DocTypes

namespace DocType

/-- An umbrella is complete when each of its parts is a member or, where it is not, a complete umbrella. -/
inductive Complete (members : List String) : String → Prop
  | intro {umbrella : String} {parts : List String} (listed : (umbrella, parts) ∈ umbrellas)
      (given : ∀ part ∈ parts, part ∉ members → Complete members part) : Complete members umbrella

variable {members : List String} {umbrella : String}

theorem mem_completeUmbrellas_iff : umbrella ∈ completeUmbrellas members ↔ Complete members umbrella := by
  constructor
  · intro found
    have arrayKey : "int" ∈ members → "string" ∈ members → Complete members "array-key" := by
      intro int string
      have listed : ("array-key", ["int", "string"]) ∈ umbrellas := by simp [umbrellas]
      exact .intro listed (by simp [int, string])
    rcases mem_completeUmbrellas.mp found with
        ⟨rfl, int, string⟩ | ⟨rfl, bool, float, keys⟩ | ⟨rfl, traversable, array⟩
    · exact arrayKey int string
    · have listed : ("scalar", ["bool", "float", "array-key"]) ∈ umbrellas := by simp [umbrellas]
      refine .intro listed ?_
      simp only [List.forall_mem_cons]
      refine ⟨absurd bool, absurd float, fun missing => ?_, by simp⟩
      obtain ⟨int, string⟩ := keys.resolve_left missing
      exact arrayKey int string
    · have listed : ("iterable", ["\\Traversable", "array"]) ∈ umbrellas := by simp [umbrellas]
      exact .intro listed (by simp [traversable, array])
  · intro complete
    induction complete with
    | intro listed _ ih => exact completeUmbrellas_closed listed ih

end DocType

namespace ClassTable

variable {classes : ClassTable} {members others : List String}

theorem WellNamed.normalUnion_congr (named : classes.WellNamed) (same : ∀ name, name ∈ members ↔ name ∈ others) :
    classes.normalUnion members = classes.normalUnion others := by
  by_cases mixed : "mixed" ∈ members
  · rw [normalUnion_of_mixed mixed, normalUnion_of_mixed ((same _).mp mixed)]
  · have alike : ∀ name, name ∈ classes.normalUnion members ↔ name ∈ classes.normalUnion others := by
      intro name
      rw [named.mem_normalUnion mixed, named.mem_normalUnion fun found => mixed ((same _).mpr found)]
      simp only [mem_candidates_iff, TakesOut, DocType.mem_completeUmbrellas, same]
    exact List.Subset.antisymm_of_pairwise (normalUnion_pairwise classes members)
      (normalUnion_pairwise classes others) (fun name => (alike name).mp) fun name => (alike name).mpr

theorem free_of_mem_normalUnion (free : ∀ member ∈ members, '|' ∉ member.toList) {name : String}
    (isNormal : name ∈ classes.normalUnion members) : '|' ∉ name.toList := by
  rcases mem_of_mem_normalUnion isNormal with isMember | complete
  · exact free name isMember
  · have words : ∀ word ∈ ["array-key", "scalar", "iterable"], '|' ∉ word.toList := by decide
    exact words name (DocType.umbrella_of_complete complete)

/-- Nothing is lost: the normal form takes every member. -/
theorem WellNamed.normalUnion_accepts (named : classes.WellNamed) {member : String} (isMember : member ∈ members) :
    classes.accepts ⟨classes.normalUnion members⟩ ⟨[member]⟩ := by
  rw [accepts_iff]
  by_cases mixed : "mixed" ∈ members
  · exact Or.inl (by rw [normalUnion_of_mixed mixed]; rfl)
  by_cases never : member = "never"
  · exact Or.inr (Or.inl (by rw [never]; rfl))
  refine Or.inr (Or.inr fun name same => ?_)
  rw [List.mem_singleton.mp same]
  exact named.normalUnion_covers mixed never (Or.inl isMember)

/-- Only a complete umbrella takes another member of the normal form. -/
theorem WellNamed.complete_of_accepts (named : classes.WellNamed) {wide name : String}
    (isWide : wide ∈ classes.normalUnion members) (isName : name ∈ classes.normalUnion members)
    (different : name ≠ wide)
    (accepted : classes.accepts ⟨[wide]⟩ ⟨[name]⟩) : wide ∈ DocType.completeUmbrellas members := by
  by_cases mixed : "mixed" ∈ members
  · rw [normalUnion_of_mixed mixed, List.mem_singleton] at isWide isName
    exact absurd (isName.trans isWide.symm) different
  have notMixed : wide ≠ "mixed" := by
    rintro rfl
    exact (mem_of_mem_normalUnion isWide).elim mixed (mixed_not_complete members)
  have notNever : name ≠ "never" := by
    rintro rfl
    have onlyNever := never_of_mem_normalUnion isName
    rcases mem_of_mem_normalUnion isWide with isMember | complete
    · exact different (onlyNever wide isMember).symm
    · rw [completeUmbrellas_of_never onlyNever] at complete
      exact List.not_mem_nil complete
  have below := (accepts_singletons notMixed notNever).mp accepted
  by_contra active
  exact different (named.normalUnion_irredundant mixed isWide active isName below).symm

/-- The normal form of a union, for members without `|`. It is strictly ascending, and the set of the members
decides it. With `mixed` it is `mixed` alone. It holds members and complete umbrellas only, its text takes every
member, and a member of it that takes another one is a complete umbrella. -/
theorem normalUnion_normalizes (named : classes.WellNamed) (nonempty : members ≠ [])
    (free : ∀ member ∈ members, '|' ∉ member.toList) :
    (classes.normalUnion members).Pairwise (· < ·) ∧
    (∀ others : List String, (∀ name, name ∈ others ↔ name ∈ members) →
      classes.normalUnion others = classes.normalUnion members) ∧
    ("mixed" ∈ members → classes.normalUnion members = ["mixed"]) ∧
    (∀ name ∈ classes.normalUnion members, name ∈ members ∨ DocType.Complete members name) ∧
    (∀ member ∈ members, classes.compatible (some (.ofText (Text.join '|' (classes.normalUnion members))))
      (some (.ofText member))) ∧
    ∀ wide ∈ classes.normalUnion members, ∀ name ∈ classes.normalUnion members, name ≠ wide →
      classes.compatible (some (.ofText wide)) (some (.ofText name)) → DocType.Complete members wide := by
  refine ⟨normalUnion_pairwise classes members, fun others => named.normalUnion_congr, normalUnion_of_mixed,
    fun name isNormal => ?_, fun member isMember => ?_, fun wide isWide name isName different accepted => ?_⟩
  · exact (mem_of_mem_normalUnion isNormal).imp_right DocType.mem_completeUmbrellas_iff.mp
  · have text : DocType.ofText (Text.join '|' (classes.normalUnion members)) = ⟨classes.normalUnion members⟩ := by
      rw [DocType.ofText, Text.split_join (named.normalUnion_ne_nil nonempty) fun _ => free_of_mem_normalUnion free]
    rw [text, DocType.ofText_of_free (free member isMember)]
    exact named.normalUnion_accepts isMember
  · rw [DocType.ofText_of_free (free_of_mem_normalUnion free isWide),
      DocType.ofText_of_free (free_of_mem_normalUnion free isName)] at accepted
    exact DocType.mem_completeUmbrellas_iff.mp (named.complete_of_accepts isWide isName different accepted)

/-- In a hierarchy with a cycle, two members that take each other leave one, and `scalar` is complete by way of
`array-key`. -/
theorem normalUnion_normalizes_scalars :
    cyclicTable.WellNamed ∧
      (∀ member ∈ ["\\B", "string", "bool", "\\A", "int", "float", "\\B"], '|' ∉ member.toList) ∧
      cyclicTable.normalUnion ["\\B", "string", "bool", "\\A", "int", "float", "\\B"] =
        ["\\A", "array-key", "bool", "float", "int", "scalar", "string"] ∧
      cyclicTable.normalUnion ["int", "\\A", "float", "\\B", "string", "bool"] =
        ["\\A", "array-key", "bool", "float", "int", "scalar", "string"] ∧
      DocType.Complete ["\\B", "string", "bool", "\\A", "int", "float", "\\B"] "scalar" := by
  have named : cyclicTable.WellNamed := by decide
  have free : ∀ member ∈ ["\\B", "string", "bool", "\\A", "int", "float", "\\B"], '|' ∉ member.toList := by decide
  have normal : cyclicTable.normalUnion ["\\B", "string", "bool", "\\A", "int", "float", "\\B"] =
      ["\\A", "array-key", "bool", "float", "int", "scalar", "string"] := by decide +kernel
  obtain ⟨_, sameSet, _, origin, _⟩ := normalUnion_normalizes named (by simp) free
  refine ⟨named, free, normal, ?_, ?_⟩
  · rw [← normal]
    refine sameSet _ fun name => ?_
    simp only [List.mem_cons, List.not_mem_nil, or_false]
    grind
  · exact (origin "scalar" (by rw [normal]; simp)).resolve_left (by simp)

end ClassTable

end DocTypes
