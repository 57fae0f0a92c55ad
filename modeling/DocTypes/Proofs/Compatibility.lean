import DocTypes.DocType.Basic
import DocTypes.Proofs.SuperTypes

namespace DocTypes

namespace DocType

/-- Where `mixed` and `never` occur they are the whole type, and `static` is bound to full names. -/
def WellPlaced (type : DocType) : Prop :=
  ∀ member ∈ type.members, ∀ atom ∈ atoms member,
    (atom = "mixed" → type = .mixed) ∧ (atom = "never" → type = .never) ∧
      (Atom.staticBound? atom).all Scope.isFullName

instance (type : DocType) : Decidable type.WellPlaced :=
  inferInstanceAs (Decidable (∀ member ∈ type.members, ∀ atom ∈ atoms member,
    (atom = "mixed" → type = .mixed) ∧ (atom = "never" → type = .never) ∧
      (Atom.staticBound? atom).all Scope.isFullName))

theorem atoms_ne_nil (member : String) : atoms member ≠ [] :=
  Text.split_ne_nil '&' member

end DocType

namespace ClassTable

theorem mem_reach {classes : ClassTable} {member name : String} :
    name ∈ classes.reach member ↔
      ∃ atom ∈ DocType.atoms member, name = atom ∨ name ∈ classes.superTypes atom := by
  simp [reach, List.mem_flatMap]

theorem memberAccepts_iff {classes : ClassTable} {wide narrow : String} :
    classes.memberAccepts wide narrow ↔ ∀ atom ∈ DocType.atoms wide, atom ∈ classes.reach narrow := by
  simp [memberAccepts]

theorem memberAccepts_refl (classes : ClassTable) (member : String) : classes.memberAccepts member member := by
  rw [memberAccepts_iff]
  intro atom isAtom
  exact mem_reach.mpr ⟨atom, isAtom, Or.inl rfl⟩

theorem WellNamed.memberAccepts_trans {classes : ClassTable} (named : classes.WellNamed)
    {wide middle narrow : String} (above : classes.memberAccepts wide middle)
    (below : classes.memberAccepts middle narrow) : classes.memberAccepts wide narrow := by
  rw [memberAccepts_iff] at above below ⊢
  intro atom isAtom
  obtain ⟨between, isBetween, same | first⟩ := mem_reach.mp (above atom isAtom)
  · exact same ▸ below between isBetween
  · obtain ⟨source, isSource, rfl | second⟩ := mem_reach.mp (below between isBetween)
    · exact mem_reach.mpr ⟨between, isSource, Or.inr first⟩
    · exact mem_reach.mpr ⟨source, isSource, Or.inr (named.superTypes_trans second first)⟩

theorem accepts_iff {classes : ClassTable} {wide narrow : DocType} :
    classes.accepts wide narrow ↔ wide = .mixed ∨ narrow = .never ∨
      ∀ member ∈ narrow.members, ∃ other ∈ wide.members, classes.memberAccepts other member := by
  simp [accepts, or_assoc]

/-- The words that can be supertypes. -/
def superWords : List String :=
  ["array-key", "scalar", "callable", "string", "iterable", "static", "self", "parent", "object"]

/-- Supertypes are full names or one of a few words, as long as `static` is bound to full names. -/
theorem WellNamed.superTypes_named {classes : ClassTable} (named : classes.WellNamed) {atom other : String}
    (bound : (Atom.staticBound? atom).all Scope.isFullName)
    (member : other ∈ classes.superTypes atom) : Scope.isFullName other ∨ other ∈ superWords := by
  have ofClass : ∀ name, Scope.isFullName name → other ∈ classes.superTypes name →
      Scope.isFullName other ∨ other ∈ superWords := by
    intro name full isSuper
    rcases (named.mem_superTypes_class full).mp isSuper with rfl | ⟨steps, _, path⟩
    · exact Or.inr (by decide)
    · rcases named.inheritsIn_super path (Or.inl full) with otherFull | rfl | rfl
      · exact Or.inl otherFull
      · exact Or.inr (by decide)
      · exact Or.inr (by decide)
  rcases Atom.kinds atom with word | full | ⟨name, rfl⟩ | unknown
  · have known : ∀ word ∈ Atom.words, ∀ upper ∈ Atom.ladder word, upper ∈ superWords := by decide
    rw [superTypes_word classes word] at member
    exact Or.inr (known atom word other member)
  · exact ofClass atom full member
  · have full : Scope.isFullName name := by simpa [Atom.staticBound?_static] using bound
    rcases named.mem_superTypes_static.mp member with word | ⟨_, rfl | isSuper⟩
    · have known : ∀ word ∈ staticWords, word ∈ superWords := by decide
      exact Or.inr (known other word)
    · exact Or.inl full
    · exact ofClass name full isSuper
  · rw [superTypes_unknown classes unknown] at member
    exact absurd member List.not_mem_nil

/-- Nothing but `never` itself is below `never`. -/
theorem WellNamed.eq_never_of_accepts {classes : ClassTable} (named : classes.WellNamed) {narrow : DocType}
    (placed : narrow.WellPlaced) {member : String} (isMember : member ∈ narrow.members)
    (accepted : classes.memberAccepts "never" member) : narrow = .never := by
  have reached := memberAccepts_iff.mp accepted "never" (by decide)
  obtain ⟨atom, isAtom, same | isSuper⟩ := mem_reach.mp reached
  · exact (placed member isMember atom isAtom).2.1 same.symm
  · rcases named.superTypes_named (placed member isMember atom isAtom).2.2 isSuper with full | word
    · exact absurd full (by decide)
    · exact absurd word (by decide)

/-- Nothing but `mixed` itself is above `mixed`. -/
theorem eq_mixed_of_accepts {classes : ClassTable} {wide : DocType} (placed : wide.WellPlaced)
    {member : String} (isMember : member ∈ wide.members) (accepted : classes.memberAccepts member "mixed") :
    wide = .mixed := by
  obtain ⟨atom, isAtom⟩ := List.exists_mem_of_ne_nil _ (DocType.atoms_ne_nil member)
  obtain ⟨source, isSource, reached⟩ := mem_reach.mp (memberAccepts_iff.mp accepted atom isAtom)
  rw [show DocType.atoms "mixed" = ["mixed"] by decide, List.mem_singleton] at isSource
  subst isSource
  rw [superTypes_unknown classes (by decide)] at reached
  exact (placed member isMember atom isAtom).1 (reached.resolve_right List.not_mem_nil)

theorem accepts_refl (classes : ClassTable) (type : DocType) : classes.accepts type type :=
  accepts_iff.mpr (Or.inr (Or.inr fun member isMember =>
    ⟨member, isMember, classes.memberAccepts_refl member⟩))

theorem WellNamed.accepts_trans {classes : ClassTable} (named : classes.WellNamed)
    {wide middle narrow : DocType} (widePlaced : wide.WellPlaced) (narrowPlaced : narrow.WellPlaced)
    (above : classes.accepts wide middle) (below : classes.accepts middle narrow) :
    classes.accepts wide narrow := by
  rw [accepts_iff] at above below ⊢
  by_cases isNever : narrow = .never
  · exact Or.inr (Or.inl isNever)
  rcases above with isMixed | rfl | above
  · exact Or.inl isMixed
  · rcases below with middleMixed | never | below
    · exact absurd middleMixed (by decide)
    · exact absurd never isNever
    · refine Or.inr (Or.inr fun member isMember => ?_)
      obtain ⟨other, isOther, accepted⟩ := below member isMember
      rw [DocType.never, List.mem_singleton] at isOther
      exact absurd (named.eq_never_of_accepts narrowPlaced isMember (isOther ▸ accepted)) isNever
  · rcases below with rfl | never | below
    · obtain ⟨other, isOther, accepted⟩ := above "mixed" (List.mem_singleton_self _)
      exact Or.inl (eq_mixed_of_accepts widePlaced isOther accepted)
    · exact absurd never isNever
    · refine Or.inr (Or.inr fun member isMember => ?_)
      obtain ⟨between, isBetween, low⟩ := below member isMember
      obtain ⟨other, isOther, high⟩ := above between isBetween
      exact ⟨other, isOther, named.memberAccepts_trans high low⟩

/-- Compatibility is a preorder on well-placed types, and supertypes of supertypes of an atom are its
supertypes, in any table of full names, with cycles or without. -/
theorem compatible_preorder {classes : ClassTable} (named : classes.WellNamed) :
    (∀ a : String, classes.compatible (some (.ofText a)) (some (.ofText a))) ∧
    (∀ a b c : String, (DocType.ofText a).WellPlaced → (DocType.ofText b).WellPlaced →
      (DocType.ofText c).WellPlaced → classes.compatible (some (.ofText a)) (some (.ofText b)) →
      classes.compatible (some (.ofText b)) (some (.ofText c)) →
      classes.compatible (some (.ofText a)) (some (.ofText c))) ∧
    ∀ x y z : String, y ∈ classes.superTypes x → z ∈ classes.superTypes y → z ∈ classes.superTypes x := by
  refine ⟨?_, ?_, ?_⟩
  · intro a
    exact classes.accepts_refl (.ofText a)
  · intro a b c placedA _ placedC above below
    exact named.accepts_trans placedA placedC above below
  · intro x y z first second
    exact named.superTypes_trans first second

theorem compatible_preorder_chain :
    cyclicTable.WellNamed ∧ (DocType.ofText "\\Countable|scalar").WellPlaced ∧
      (DocType.ofText "\\B|array-key").WellPlaced ∧ (DocType.ofText "int|static(\\A)").WellPlaced ∧
      cyclicTable.compatible (some (.ofText "\\Countable|scalar")) (some (.ofText "\\B|array-key")) ∧
      cyclicTable.compatible (some (.ofText "\\B|array-key")) (some (.ofText "int|static(\\A)")) ∧
      cyclicTable.compatible (some (.ofText "\\Countable|scalar")) (some (.ofText "int|static(\\A)")) := by
  have named : cyclicTable.WellNamed := by decide
  have placedWide : (DocType.ofText "\\Countable|scalar").WellPlaced := by decide
  have placedMiddle : (DocType.ofText "\\B|array-key").WellPlaced := by decide
  have placedNarrow : (DocType.ofText "int|static(\\A)").WellPlaced := by decide
  have above : cyclicTable.compatible (some (.ofText "\\Countable|scalar"))
      (some (.ofText "\\B|array-key")) := by decide
  have below : cyclicTable.compatible (some (.ofText "\\B|array-key"))
      (some (.ofText "int|static(\\A)")) := by decide
  exact ⟨named, placedWide, placedMiddle, placedNarrow, above, below,
    (compatible_preorder named).2.1 _ _ _ placedWide placedMiddle placedNarrow above below⟩

end ClassTable

end DocTypes
