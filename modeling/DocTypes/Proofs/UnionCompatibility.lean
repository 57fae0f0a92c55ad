import DocTypes.Proofs.ReturnedTypes

namespace DocTypes

namespace ClassTable

variable {classes : ClassTable}

theorem accepts_single {wide : DocType} {member : String} :
    classes.accepts wide ⟨[member]⟩ ↔
      wide = .mixed ∨ member = "never" ∨ ∃ other ∈ wide.members, classes.memberAccepts other member := by
  simp [accepts_iff, DocType.never]

/-- A union is taken if its members are and the umbrellas that these complete. -/
theorem WellNamed.accepts_normalUnion (named : classes.WellNamed) {wide : DocType}
    (whole : ∀ other ∈ wide.members, classes.memberAccepts other "mixed" → wide = .mixed) {members : List String}
    (some : members ≠ []) :
    classes.accepts wide ⟨classes.normalUnion members⟩ ↔
      (∀ member ∈ members, classes.accepts wide ⟨[member]⟩) ∧
        ∀ umbrella ∈ DocType.completeUmbrellas members, classes.accepts wide ⟨[umbrella]⟩ := by
  by_cases isMixed : wide = .mixed
  · simp [accepts_iff, isMixed]
  by_cases mixed : "mixed" ∈ members
  · have refused : ¬ classes.accepts wide ⟨["mixed"]⟩ := by
      intro accepted
      rcases accepts_single.mp accepted with same | never | ⟨other, isOther, above⟩
      · exact isMixed same
      · exact absurd never (by decide)
      · exact isMixed (whole other isOther above)
    rw [normalUnion_of_mixed mixed]
    exact ⟨fun accepted => absurd accepted refused, fun accepted => absurd (accepted.1 "mixed" mixed) refused⟩
  constructor
  · intro accepted
    have taken : ∀ name, name ≠ "never" → name ∈ members ∨ name ∈ DocType.completeUmbrellas members →
        classes.accepts wide ⟨[name]⟩ := by
      intro name notNever candidate
      obtain ⟨upper, isNormal, above⟩ := named.normalUnion_covers mixed notNever candidate
      rcases accepts_iff.mp accepted with same | isNever | each
      · exact absurd same isMixed
      · have isNormal : "never" ∈ classes.normalUnion members := by
          rw [show classes.normalUnion members = ["never"] from congrArg DocType.members isNever]
          exact List.mem_singleton_self _
        have onlyNever := never_of_mem_normalUnion isNormal
        rcases candidate with isMember | complete
        · exact absurd (onlyNever name isMember) notNever
        · obtain ⟨first, isFirst, second, isSecond, distinct, _⟩ := named.umbrella_parts complete
          exact absurd ((onlyNever first isFirst).trans (onlyNever second isSecond).symm) distinct
      · obtain ⟨other, isOther, higher⟩ := each upper isNormal
        exact accepts_single.mpr (Or.inr (Or.inr ⟨other, isOther, named.memberAccepts_trans higher above⟩))
    refine ⟨fun member isMember => ?_, fun umbrella complete => ?_⟩
    · by_cases never : member = "never"
      · exact accepts_single.mpr (Or.inr (Or.inl never))
      · exact taken member never (Or.inl isMember)
    · refine taken umbrella ?_ (Or.inr complete)
      rintro rfl
      exact never_not_complete members complete
  · rintro ⟨ofMembers, ofUmbrellas⟩
    by_cases never : "never" ∈ classes.normalUnion members
    · rw [normalUnion_of_never some (never_of_mem_normalUnion never)]
      exact accepts_iff.mpr (Or.inr (Or.inl rfl))
    · refine accepts_iff.mpr (Or.inr (Or.inr fun name isNormal => ?_))
      have accepted := (mem_of_mem_normalUnion isNormal).elim (ofMembers name) (ofUmbrellas name)
      rcases accepts_single.mp accepted with same | isNever | found
      · exact absurd same isMixed
      · exact absurd (isNever ▸ isNormal) never
      · exact found

/-- Words for scalars and for `mixed`. Their supertypes are such words, and none is the type of objects. -/
def scalarWords : List String :=
  ["int", "string", "bool", "float", "array-key", "scalar", "mixed"]

theorem superTypes_scalarWord {word : String} (isScalar : word ∈ scalarWords) :
    classes.superTypes word = Atom.ladder word := by
  have kinds : ∀ word ∈ scalarWords, word ∈ Atom.words ∨ Atom.view word = .unknown ∧ Atom.ladder word = [] := by
    decide
  rcases kinds word isScalar with isWord | ⟨unknown, none⟩
  · exact superTypes_word classes isWord
  · rw [superTypes_unknown classes unknown, none]

theorem not_isObjectLike_scalarWord {word : String} (isScalar : word ∈ scalarWords) :
    ¬ classes.isObjectLike word := by
  have apart : ∀ word ∈ scalarWords, word ∉ ["object", "iterable", "callable"] ∧ "object" ∉ Atom.ladder word := by
    decide
  simp only [isObjectLike, isObject, superTypes_scalarWord isScalar, Bool.or_eq_true, List.contains_iff_mem, not_or]
  exact apart word isScalar

/-- A simple member that takes such a word is the word or one of its supertypes. -/
theorem Simple.of_accepts {member word : String} (simple : classes.Simple member) (isScalar : word ∈ scalarWords)
    (accepted : classes.memberAccepts member word) : member = word ∨ member ∈ Atom.ladder word := by
  have atom : ∀ word ∈ scalarWords, DocType.atoms word = [word] := by decide
  have closed : ∀ word ∈ scalarWords, ∀ upper ∈ Atom.ladder word, upper ∈ scalarWords := by decide
  have reached : ∀ name ∈ DocType.atoms member, name = word ∨ name ∈ Atom.ladder word := by
    intro name isAtom
    obtain ⟨source, isSource, found⟩ := mem_reach.mp (memberAccepts_iff.mp accepted name isAtom)
    rw [atom word isScalar, List.mem_singleton] at isSource
    rwa [isSource, superTypes_scalarWord isScalar] at found
  rcases simple.2 with single | ⟨_, objects⟩
  · exact reached member (by rw [single]; exact List.mem_singleton_self _)
  · obtain ⟨name, isAtom⟩ := List.exists_mem_of_ne_nil _ (DocType.atoms_ne_nil member)
    refine absurd (objects name isAtom) (not_isObjectLike_scalarWord ?_)
    rcases reached name isAtom with rfl | above
    · exact isScalar
    · exact closed word isScalar name above

/-- Only `mixed` takes `mixed`. -/
theorem Normal.eq_mixed (named : classes.WellNamed) {type : DocType} (normal : classes.Normal type) {other : String}
    (isOther : other ∈ type.members) (accepted : classes.memberAccepts other "mixed") : type = .mixed := by
  have simple := (normal.formed named).2 other isOther
  obtain rfl : other = "mixed" :=
    (simple.of_accepts (by decide) accepted).resolve_right (by rw [show Atom.ladder "mixed" = [] by decide]; simp)
  obtain ⟨members, _, rfl⟩ := normal
  have given := (mem_of_mem_normalUnion isOther).resolve_right (mixed_not_complete members)
  rw [normalUnion_of_mixed given]
  rfl

/-- The umbrellas over scalars. -/
def scalarUmbrellas : List (String × List String) :=
  [("array-key", ["int", "string"]), ("scalar", ["bool", "float", "array-key"])]

/-- Where the parts of an umbrella over scalars are taken, so is the umbrella. -/
theorem Normal.accepts_umbrella (named : classes.WellNamed) {type : DocType} (normal : classes.Normal type)
    {umbrella : String} {parts : List String} (isUmbrella : (umbrella, parts) ∈ scalarUmbrellas)
    (accepted : ∀ part ∈ parts, classes.accepts type ⟨[part]⟩) : classes.accepts type ⟨[umbrella]⟩ := by
  by_cases isMixed : type = .mixed
  · exact accepts_single.mpr (Or.inl isMixed)
  have table : ∀ pair ∈ scalarUmbrellas, pair.1 ∈ scalarWords ∧ ∀ part ∈ pair.2, part ≠ "never" ∧
      part ∈ scalarWords ∧ ∀ upper ∈ Atom.ladder part, upper = pair.1 ∨ upper ∈ Atom.ladder pair.1 := by decide
  obtain ⟨isScalar, ofPart⟩ := table _ isUmbrella
  by_cases listed : ∀ part ∈ parts, part ∈ type.members
  · -- the parts are members, and a normal form has the umbrella then
    have known : ∀ pair ∈ scalarUmbrellas, pair ∈ DocType.umbrellas := by decide
    have complete := DocType.completeUmbrellas_closed (known _ isUmbrella) fun part isPart missing =>
      absurd (listed part isPart) missing
    obtain ⟨members, _, rfl⟩ := normal
    exact accepts_single.mpr (Or.inr (Or.inr
      ⟨umbrella, named.umbrella_mem_normalUnion complete, classes.memberAccepts_refl umbrella⟩))
  · -- a part is taken by something else, which takes the umbrella too
    obtain ⟨part, isPart, notListed⟩ : ∃ part ∈ parts, part ∉ type.members := by simpa using listed
    obtain ⟨notNever, partScalar, uppers⟩ := ofPart part isPart
    rcases accepts_single.mp (accepted part isPart) with same | never | ⟨other, isOther, above⟩
    · exact absurd same isMixed
    · exact absurd never notNever
    · refine accepts_single.mpr (Or.inr (Or.inr ⟨other, isOther, ?_⟩))
      rcases ((normal.formed named).2 other isOther).of_accepts partScalar above with rfl | isUpper
      · exact absurd isOther notListed
      · rcases uppers other isUpper with rfl | higher
        · exact classes.memberAccepts_refl other
        · have atom : ∀ word ∈ scalarWords, DocType.atoms word = [word] ∧
              ∀ upper ∈ Atom.ladder word, DocType.atoms upper = [upper] := by decide
          refine memberAccepts_of_superType ((atom umbrella isScalar).2 other higher) (atom umbrella isScalar).1 ?_
          rwa [superTypes_scalarWord isScalar]

/-- A type that was read takes a union if and only if it takes all members of the union and, where
`\Traversable` and `array` are among them, `iterable`. -/
theorem union_compatible_iff (named : classes.WellNamed) {wide : DocType} (returned : classes.Returned wide)
    {members : List String} (nonempty : members ≠ []) (free : ∀ member ∈ members, '|' ∉ member.toList) :
    classes.compatible (some wide) (some (.ofText (Text.join '|' (classes.normalUnion members)))) ↔
      (∀ member ∈ members, classes.compatible (some wide) (some (.ofText member))) ∧
        ("\\Traversable" ∈ members → "array" ∈ members →
          classes.compatible (some wide) (some (.ofText "iterable"))) := by
  have normal := returned.normal named
  have single : ∀ member ∈ members, DocType.ofText member = ⟨[member]⟩ := by
    intro member isMember
    rw [DocType.ofText, Text.split_of_not_mem (free member isMember)]
  have union : DocType.ofText (Text.join '|' (classes.normalUnion members)) = ⟨classes.normalUnion members⟩ := by
    rw [DocType.ofText, Text.split_join (named.normalUnion_ne_nil nonempty)]
    intro name isNormal
    rcases mem_of_mem_normalUnion isNormal with isMember | umbrella
    · exact free name isMember
    · have words : ∀ word ∈ ["array-key", "scalar", "iterable"], '|' ∉ word.toList := by decide
      exact words name (DocType.umbrella_of_complete umbrella)
  have iterable : DocType.ofText "iterable" = ⟨["iterable"]⟩ := by decide
  simp only [compatible, union, iterable]
  rw [named.accepts_normalUnion (fun other isOther above => normal.eq_mixed named isOther above) nonempty]
  constructor
  · rintro ⟨ofMembers, ofUmbrellas⟩
    refine ⟨fun member isMember => ?_, fun traversable array => ofUmbrellas "iterable" ?_⟩
    · rw [single member isMember]
      exact ofMembers member isMember
    · exact DocType.mem_completeUmbrellas.mpr (Or.inr (Or.inr ⟨rfl, traversable, array⟩))
  · rintro ⟨ofMembers, ofIterable⟩
    have each : ∀ member ∈ members, classes.accepts wide ⟨[member]⟩ := by
      intro member isMember
      rw [← single member isMember]
      exact ofMembers member isMember
    have arrayKey : "int" ∈ members → "string" ∈ members → classes.accepts wide ⟨["array-key"]⟩ := by
      intro int string
      refine normal.accepts_umbrella named (List.mem_cons_self ..) ?_
      simp only [List.forall_mem_cons]
      exact ⟨each "int" int, each "string" string, by simp⟩
    refine ⟨each, fun umbrella complete => ?_⟩
    rcases DocType.mem_completeUmbrellas.mp complete with
      ⟨rfl, int, string⟩ | ⟨rfl, bool, float, keys⟩ | ⟨rfl, traversable, array⟩
    · exact arrayKey int string
    · have ofKeys := keys.elim (each "array-key") fun both => arrayKey both.1 both.2
      refine normal.accepts_umbrella named (List.mem_cons_of_mem _ (List.mem_cons_self ..)) ?_
      simp only [List.forall_mem_cons]
      exact ⟨each "bool" bool, each "float" float, ofKeys, by simp⟩
    · exact ofIterable traversable array

theorem union_compatible_iff_scalars :
    cyclicTable.WellNamed ∧ cyclicTable.Returned ⟨["iterable", "scalar"]⟩ ∧
      (∀ member ∈ ["int", "bool", "\\Traversable", "float", "string", "array"], '|' ∉ member.toList) ∧
      cyclicTable.compatible (some ⟨["iterable", "scalar"]⟩) (some (.ofText (Text.join '|'
        (cyclicTable.normalUnion ["int", "bool", "\\Traversable", "float", "string", "array"])))) := by
  have named : cyclicTable.WellNamed := by decide
  have read : (cyclicTable.readTypedName .root "scalar|iterable" .typeOnly false).type =
      some ⟨["iterable", "scalar"]⟩ := by decide +kernel
  have returned : cyclicTable.Returned ⟨["iterable", "scalar"]⟩ := by
    refine .typedName (by decide) (fun name bound isBound => ?_) read
    simp [Scope.root, NameMap.find?, NameMap.empty] at isBound
  have free : ∀ member ∈ ["int", "bool", "\\Traversable", "float", "string", "array"], '|' ∉ member.toList := by
    decide
  refine ⟨named, returned, free, (union_compatible_iff named returned (by decide) free).mpr ⟨?_, ?_⟩⟩
  · decide +kernel
  · decide +kernel

/-- The members of a union may all be taken where the union is not: `array|object` takes `\Traversable` and
`array`, but not `iterable`, which the union gets from them. -/
theorem union_incompatible_iterable :
    WellNamed .empty ∧ Returned .empty ⟨["array", "object"]⟩ ∧
      (∀ member ∈ ["\\Traversable", "array"],
        compatible .empty (some ⟨["array", "object"]⟩) (some (.ofText member))) ∧
      ¬ compatible .empty (some ⟨["array", "object"]⟩)
        (some (.ofText (Text.join '|' (normalUnion .empty ["\\Traversable", "array"])))) := by
  have read : (readTypedName .empty .root "array|object" .typeOnly false).type = some ⟨["array", "object"]⟩ := by
    decide +kernel
  refine ⟨by decide, .typedName (by decide) (fun name bound isBound => ?_) read, by decide +kernel,
    by decide +kernel⟩
  simp [Scope.root, NameMap.find?, NameMap.empty] at isBound

end ClassTable

end DocTypes
