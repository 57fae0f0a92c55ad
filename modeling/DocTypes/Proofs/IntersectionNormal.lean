import DocTypes.Proofs.HierarchyOrder
import DocTypes.Proofs.UnionNormal
import DocTypes.TypeText.Fields
import Mathlib.Data.List.Count
import Mathlib.Data.List.Perm.Subperm
import Mathlib.Data.List.Sort
import Mathlib.Data.String.Basic

namespace DocTypes

namespace ClassTable

variable {classes : ClassTable} {members others kept : List String} {name : String}

theorem isObjectLike_iff {atom : String} : classes.isObjectLike atom ↔
    atom ∈ ["object", "iterable", "callable"] ∨ "object" ∈ classes.superTypes atom := by
  simp [isObjectLike, isObject]

/-- Words that mean nothing to the class hierarchy take part in no intersection. -/
theorem not_isObjectLike_of_unknown {word : String} (unknown : Atom.view word = .unknown)
    (other : word ∉ ["object", "iterable", "callable"]) : ¬ classes.isObjectLike word := by
  rw [isObjectLike_iff, superTypes_unknown classes unknown]
  exact fun found => found.elim other List.not_mem_nil

/-- The members that stay in an intersection, in ascending order. -/
def remaining (classes : ClassTable) (members : List String) : List String :=
  DocType.ascending ((members.flatMap classes.superTypes).foldl List.erase members)

theorem remaining_pairwise (classes : ClassTable) (members : List String) :
    (classes.remaining members).Pairwise (· < ·) :=
  DocType.ascending_pairwise _

theorem remaining_subset : classes.remaining members ⊆ members := by
  intro name stays
  rw [remaining, DocType.mem_ascending, ← List.diff_eq_foldl] at stays
  exact List.diff_subset _ _ stays

theorem normalIntersection_of_short (short : members.length ≤ 1) :
    classes.normalIntersection members = .ok members :=
  if_pos short

/-- Several members have an intersection if and only if all of them are objects. Neither `never` nor `mixed` is one,
so what is said of these two comes to nothing. -/
theorem normalIntersection_eq_ok_iff (several : 1 < members.length) :
    classes.normalIntersection members = .ok kept ↔
      (∀ member ∈ members, classes.isObjectLike member) ∧ kept = classes.remaining members := by
  unfold normalIntersection
  rw [if_neg (Nat.not_le.mpr several)]
  cases other : members.find? fun member => !classes.isObjectLike member with
  | some member =>
    have isMember := List.mem_of_find?_eq_some other
    have notObject := List.find?_some other
    simp only [reduceCtorEq, false_iff]
    rintro ⟨objects, _⟩
    simp [objects member isMember] at notObject
  | none =>
    have objects : ∀ member ∈ members, classes.isObjectLike member := by simpa using List.find?_eq_none.mp other
    have apart : ∀ word, Atom.view word = .unknown → word ∉ ["object", "iterable", "callable"] →
        word ∉ classes.remaining members := fun word unknown notListed stays =>
      not_isObjectLike_of_unknown unknown notListed (objects word (remaining_subset stays))
    have noNever := apart "never" (by decide) (by decide)
    have noMixed := apart "mixed" (by decide) (by decide)
    have whole : (classes.remaining members).filter (· != "mixed") = classes.remaining members := by
      rw [List.filter_eq_self]
      intro name stays
      simpa using fun same : name = "mixed" => noMixed (same ▸ stays)
    have result :
        (if (classes.remaining members).contains "never" then (.ok ["never"] : Except ParseError (List String))
          else if (classes.remaining members).length ≤ 1 then .ok (classes.remaining members)
          else .ok ((classes.remaining members).filter (· != "mixed"))) = .ok (classes.remaining members) := by
      rw [if_neg (by simpa using noNever), whole, ite_self]
    refine (Eq.congr_left result).trans ⟨fun same => ⟨objects, (Except.ok.inj same).symm⟩, ?_⟩
    rintro ⟨_, rfl⟩
    rfl

/-- Several members have no intersection if and only if one of them is no object. -/
theorem exists_error_iff (several : 1 < members.length) :
    (∃ error, classes.normalIntersection members = .error error) ↔
      ∃ member ∈ members, ¬ classes.isObjectLike member := by
  cases result : classes.normalIntersection members with
  | error error =>
    refine ⟨fun _ => ?_, fun _ => ⟨error, rfl⟩⟩
    by_contra none
    have objects : ∀ member ∈ members, classes.isObjectLike member := by simpa using none
    rw [(normalIntersection_eq_ok_iff several).mpr ⟨objects, rfl⟩] at result
    cases result
  | ok kept =>
    obtain ⟨objects, _⟩ := (normalIntersection_eq_ok_iff several).mp result
    constructor
    · rintro ⟨_, isError⟩
      cases isError
    · rintro ⟨member, isMember, notObject⟩
      exact absurd (objects member isMember) notObject

/-- How many members are below a name, each as often as it is there. -/
def countBelow (classes : ClassTable) (members : List String) (name : String) : Nat :=
  members.countP fun member => (classes.superTypes member).contains name

theorem countBelow_eq_zero :
    classes.countBelow members name = 0 ↔ ∀ other ∈ members, name ∉ classes.superTypes other := by
  simp [countBelow]

theorem count_flatMap_superTypes (classes : ClassTable) (members : List String) (name : String) :
    (members.flatMap classes.superTypes).count name = classes.countBelow members name := by
  induction members with
  | nil => rfl
  | cons member members ih =>
    rw [List.flatMap_cons, List.count_append, ih, (classes.superTypes_nodup member).count, countBelow, countBelow,
      List.countP_cons, Nat.add_comm]
    simp only [List.contains_iff_mem]

/-- A member stays if it occurs more often than there are members below it. -/
theorem mem_remaining :
    name ∈ classes.remaining members ↔ classes.countBelow members name < members.count name := by
  rw [remaining, DocType.mem_ascending, ← List.diff_eq_foldl, ← List.count_pos_iff, List.count_diff,
    count_flatMap_superTypes]
  omega

/-- What is above no member stays. -/
theorem mem_remaining_of_lowest (isMember : name ∈ members)
    (lowest : ∀ other ∈ members, name ∉ classes.superTypes other) : name ∈ classes.remaining members := by
  rw [mem_remaining, countBelow_eq_zero.mpr lowest]
  exact List.count_pos_iff.mpr isMember

/-- No member above others occurs more often than there are members below it. -/
def Balanced (classes : ClassTable) (members : List String) : Prop :=
  ∀ name ∈ members, ∀ other ∈ members, name ∈ classes.superTypes other →
    members.count name ≤ classes.countBelow members name

instance (classes : ClassTable) (members : List String) : Decidable (classes.Balanced members) :=
  inferInstanceAs (Decidable (∀ name ∈ members, ∀ other ∈ members, name ∈ classes.superTypes other →
    members.count name ≤ classes.countBelow members name))

theorem balanced_of_nodup (nodup : members.Nodup) : classes.Balanced members := by
  intro name isMember other isOther above
  have once : members.count name = 1 := List.count_eq_one_of_mem nodup isMember
  have some : classes.countBelow members name ≠ 0 := fun none => countBelow_eq_zero.mp none other isOther above
  omega

/-- Of balanced members exactly the lowest ones stay. -/
theorem Balanced.mem_remaining (balanced : classes.Balanced members) :
    name ∈ classes.remaining members ↔ name ∈ members ∧ ∀ other ∈ members, name ∉ classes.superTypes other := by
  refine ⟨fun stays => ⟨remaining_subset stays, fun other isOther above => ?_⟩, fun ⟨isMember, lowest⟩ =>
    mem_remaining_of_lowest isMember lowest⟩
  have more := ClassTable.mem_remaining.mp stays
  have fewer := balanced name (remaining_subset stays) other isOther above
  omega

/-- Nothing that stays is above another if and only if the members are balanced: what is there too often stays
beside the lowest members. -/
theorem WellNamed.irredundant_iff (named : classes.WellNamed) (acyclic : classes.Acyclic) :
    (∀ name ∈ classes.remaining members, ∀ other ∈ classes.remaining members, other ≠ name →
      name ∉ classes.superTypes other) ↔ classes.Balanced members := by
  constructor
  · intro irredundant name isMember other isOther above
    by_contra more
    have stays : name ∈ classes.remaining members := mem_remaining.mpr (Nat.not_le.mp more)
    obtain ⟨low, isLow, atOrAbove, lowest⟩ := named.exists_lowest acyclic isOther
    have higher : name ∈ classes.superTypes low := by
      rcases atOrAbove with rfl | between
      · exact above
      · exact named.superTypes_trans between above
    have differs : low ≠ name := by
      rintro rfl
      exact named.superTypes_irrefl acyclic low higher
    exact irredundant name stays low (mem_remaining_of_lowest isLow lowest) differs higher
  · intro balanced name stays other otherStays _
    exact (balanced.mem_remaining.mp stays).2 other (remaining_subset otherStays)

theorem Balanced.remaining_congr (same : ∀ name, name ∈ members ↔ name ∈ others)
    (balanced : classes.Balanced members) (balancedOthers : classes.Balanced others) :
    classes.remaining others = classes.remaining members := by
  have alike : ∀ name, name ∈ classes.remaining others ↔ name ∈ classes.remaining members := by
    intro name
    simp only [balanced.mem_remaining, balancedOthers.mem_remaining, same]
  exact List.Subset.antisymm_of_pairwise (remaining_pairwise classes others) (remaining_pairwise classes members)
    (fun name => (alike name).mp) fun name => (alike name).mpr

/-- Two lists of the same several members both have no intersection, or both have one. Nothing in it is above
another if and only if the members are balanced, as they are where none is repeated, and only balanced lists have
the normal form of a balanced one. -/
theorem normalIntersection_members (named : classes.WellNamed) (acyclic : classes.Acyclic)
    (several : 2 ≤ members.length) (severalOthers : 2 ≤ others.length)
    (same : ∀ name, name ∈ members ↔ name ∈ others) :
    ((∃ error, classes.normalIntersection members = .error error) ∧
      ∃ error, classes.normalIntersection others = .error error) ∨
    ∃ kept keptOthers, classes.normalIntersection members = .ok kept ∧
      classes.normalIntersection others = .ok keptOthers ∧
      ((∀ name ∈ kept, ∀ other ∈ kept, other ≠ name → name ∉ classes.superTypes other) ↔ classes.Balanced members) ∧
      (classes.Balanced members → (keptOthers = kept ↔ classes.Balanced others)) ∧
      (members.Nodup → classes.Balanced members) := by
  by_cases objects : ∀ member ∈ members, classes.isObjectLike member
  · have objectsOthers : ∀ other ∈ others, classes.isObjectLike other :=
      fun other isOther => objects other ((same other).mpr isOther)
    refine Or.inr ⟨classes.remaining members, classes.remaining others,
      (normalIntersection_eq_ok_iff several).mpr ⟨objects, rfl⟩,
      (normalIntersection_eq_ok_iff severalOthers).mpr ⟨objectsOthers, rfl⟩,
      named.irredundant_iff acyclic, fun balanced => ⟨fun alike => ?_, balanced.remaining_congr same⟩,
      balanced_of_nodup⟩
    rw [← named.irredundant_iff acyclic, alike]
    exact (named.irredundant_iff acyclic).mpr balanced
  · obtain ⟨member, isMember, notObject⟩ : ∃ member ∈ members, ¬ classes.isObjectLike member := by
      simpa using objects
    exact Or.inl ⟨(exists_error_iff several).mpr ⟨member, isMember, notObject⟩,
      (exists_error_iff severalOthers).mpr ⟨member, (same member).mp isMember, notObject⟩⟩

theorem acyclic_empty : Acyclic .empty :=
  (WellNamed.acyclic_iff (by decide)).mpr (by decide +kernel)

theorem normalIntersection_members_repeated :
    WellNamed .empty ∧ Acyclic .empty ∧
      normalIntersection .empty ["\\Traversable", "\\Countable", "\\Generator", "\\Iterator"] =
        .ok ["\\Countable", "\\Generator"] ∧
      normalIntersection .empty
          ["\\Iterator", "\\Generator", "\\Traversable", "\\Generator", "\\Iterator", "\\Countable"] =
        .ok ["\\Countable", "\\Generator"] := by
  have named : WellNamed .empty := by decide
  have first : normalIntersection .empty ["\\Traversable", "\\Countable", "\\Generator", "\\Iterator"] =
      .ok ["\\Countable", "\\Generator"] := by decide +kernel
  have same : ∀ name, name ∈ ["\\Traversable", "\\Countable", "\\Generator", "\\Iterator"] ↔
      name ∈ ["\\Iterator", "\\Generator", "\\Traversable", "\\Generator", "\\Iterator", "\\Countable"] := by
    intro name
    simp only [List.mem_cons, List.not_mem_nil, or_false]
    grind
  refine ⟨named, acyclic_empty, first, ?_⟩
  rcases normalIntersection_members named acyclic_empty (by simp) (by simp) same with
    ⟨⟨_, failed⟩, _⟩ | ⟨kept, keptOthers, isKept, isKeptOthers, _, alike, balanced⟩
  · rw [first] at failed
    cases failed
  · rw [first] at isKept
    cases isKept
    rw [isKeptOthers, (alike (balanced (by decide))).mpr (by decide +kernel)]

/-- A supertype that is written twice is taken out once: `\Iterator` is below `\Traversable`, which stays
beside it. -/
theorem repeated_supertype_stays :
    WellNamed .empty ∧ Acyclic .empty ∧ "\\Traversable" ∈ superTypes .empty "\\Iterator" ∧
      normalIntersection .empty ["\\Iterator", "\\Traversable"] = .ok ["\\Iterator"] ∧
      normalIntersection .empty ["\\Iterator", "\\Traversable", "\\Traversable"] =
        .ok ["\\Iterator", "\\Traversable"] ∧
      (readTypedName .empty .root "\\Iterator&\\Traversable&\\Traversable" .typeOnly false).type =
        some ⟨["\\Iterator&\\Traversable"]⟩ :=
  ⟨by decide, acyclic_empty, by decide +kernel, by decide +kernel, by decide +kernel, by decide +kernel⟩

/-- What is written with `&` between parts that hold neither `&` nor `|` is one member with these atoms. -/
theorem bar_not_mem_join (nonempty : members ≠ [])
    (free : ∀ member ∈ members, '|' ∉ member.toList ∧ '&' ∉ member.toList) :
    '|' ∉ (Text.join '&' members).toList ∧ DocType.atoms (Text.join '&' members) = members := by
  refine ⟨fun bar => ?_, Text.split_join nonempty fun part isPart => (free part isPart).2⟩
  rcases Text.eq_or_mem_of_mem_join bar with same | ⟨part, isPart, inPart⟩
  · exact absurd same (by decide)
  · exact (free part isPart).1 inPart

/-- An intersection takes another one whose parts are each of its parts or below it. -/
theorem compatible_join (nonempty : members ≠ []) (nonemptyOthers : others ≠ [])
    (free : ∀ member ∈ members, '|' ∉ member.toList ∧ '&' ∉ member.toList)
    (freeOthers : ∀ other ∈ others, '|' ∉ other.toList ∧ '&' ∉ other.toList)
    (above : ∀ member ∈ members, ∃ other ∈ others, member = other ∨ member ∈ classes.superTypes other) :
    classes.compatible (some (.ofText (Text.join '&' members))) (some (.ofText (Text.join '&' others))) := by
  obtain ⟨noBar, atoms⟩ := bar_not_mem_join nonempty free
  obtain ⟨noBarOthers, atomsOthers⟩ := bar_not_mem_join nonemptyOthers freeOthers
  have accepted : classes.memberAccepts (Text.join '&' members) (Text.join '&' others) := by
    rw [memberAccepts_iff, atoms]
    intro member isMember
    rw [mem_reach, atomsOthers]
    exact above member isMember
  rw [compatible, DocType.ofText_of_free noBar, DocType.ofText_of_free noBarOthers, accepts_iff]
  simpa using Or.inr (Or.inr accepted)

/-- Several members have no intersection if and only if one of them is no type of objects. Otherwise some of them
stay, in ascending order, each member is one of these or above one, and so the intersection takes what it took and
is taken by what took it, as long as no member holds an `&` or a `|`. -/
theorem normalIntersection_meaning (named : classes.WellNamed) (acyclic : classes.Acyclic)
    (several : 2 ≤ members.length) :
    ((∃ error, classes.normalIntersection members = .error error) ↔ ∃ member ∈ members,
      member ∉ ["object", "iterable", "callable"] ∧ "object" ∉ classes.superTypes member) ∧
    ((∀ member ∈ members, member ∈ ["object", "iterable", "callable"] ∨ "object" ∈ classes.superTypes member) →
      ∃ kept, classes.normalIntersection members = .ok kept ∧ kept ≠ [] ∧ kept.Pairwise (· < ·) ∧
        kept.Subperm members ∧
        (∀ member ∈ members, ∃ low ∈ kept, member = low ∨ member ∈ classes.superTypes low) ∧
        ((∀ member ∈ members, '|' ∉ member.toList ∧ '&' ∉ member.toList) →
          classes.compatible (some (.ofText (Text.join '&' members))) (some (.ofText (Text.join '&' kept))) ∧
          classes.compatible (some (.ofText (Text.join '&' kept))) (some (.ofText (Text.join '&' members))))) := by
  have lows : ∀ member ∈ members, ∃ low ∈ classes.remaining members,
      member = low ∨ member ∈ classes.superTypes low := by
    intro member isMember
    obtain ⟨low, isLow, atOrAbove, lowest⟩ := named.exists_lowest acyclic isMember
    exact ⟨low, mem_remaining_of_lowest isLow lowest, atOrAbove⟩
  have nonempty : members ≠ [] := List.ne_nil_of_length_pos (by omega)
  have stays : classes.remaining members ≠ [] := by
    obtain ⟨member, isMember⟩ := List.exists_mem_of_ne_nil _ nonempty
    obtain ⟨low, isLow, _⟩ := lows member isMember
    exact List.ne_nil_of_mem isLow
  have sorted := remaining_pairwise classes members
  refine ⟨?_, fun objects => ⟨classes.remaining members, ?_, stays, sorted, ?_, lows, fun free => ?_⟩⟩
  · rw [exists_error_iff several]
    simp only [isObjectLike_iff, not_or]
  · have objectLike : ∀ member ∈ members, classes.isObjectLike member :=
      fun member isMember => isObjectLike_iff.mpr (objects member isMember)
    exact (normalIntersection_eq_ok_iff several).mpr ⟨objectLike, rfl⟩
  · exact List.subperm_of_subset (sorted.imp ne_of_lt) remaining_subset
  · have freeKept : ∀ low ∈ classes.remaining members, '|' ∉ low.toList ∧ '&' ∉ low.toList :=
      fun low isLow => free low (remaining_subset isLow)
    exact ⟨compatible_join nonempty stays free freeKept lows,
      compatible_join stays nonempty freeKept free fun low isLow => ⟨low, remaining_subset isLow, Or.inl rfl⟩⟩

theorem normalIntersection_meaning_repeated :
    WellNamed .empty ∧ Acyclic .empty ∧
      normalIntersection .empty ["\\Traversable", "\\Generator", "\\Iterator", "\\Countable", "\\Iterator"] =
        .ok ["\\Countable", "\\Generator", "\\Iterator"] ∧
      compatible .empty
        (some (.ofText (Text.join '&' ["\\Traversable", "\\Generator", "\\Iterator", "\\Countable", "\\Iterator"])))
        (some (.ofText (Text.join '&' ["\\Countable", "\\Generator", "\\Iterator"]))) ∧
      ∃ error, normalIntersection .empty ["\\Generator", "int"] = .error error := by
  have named : WellNamed .empty := by decide
  have result : normalIntersection .empty
      ["\\Traversable", "\\Generator", "\\Iterator", "\\Countable", "\\Iterator"] =
        .ok ["\\Countable", "\\Generator", "\\Iterator"] := by decide +kernel
  have several : 2 ≤ ["\\Traversable", "\\Generator", "\\Iterator", "\\Countable", "\\Iterator"].length := by simp
  obtain ⟨kept, isKept, _, _, _, _, meaning⟩ :=
    (normalIntersection_meaning named acyclic_empty several).2 (by decide +kernel)
  rw [result] at isKept
  cases isKept
  have pair : 2 ≤ ["\\Generator", "int"].length := by simp
  have refused := (normalIntersection_meaning named acyclic_empty pair).1.mpr (by decide +kernel)
  exact ⟨named, acyclic_empty, result, (meaning (by decide)).1, refused⟩

/-- A class of a file under a name that predefined classes lead to, itself below one of these. -/
def serializableTable : ClassTable :=
  ⟨[("\\JsonSerializable", ⟨some "\\SplFixedArray", []⟩)]⟩

/-- No class of a file may inherit from another one, and yet lie on a cycle through a predefined class. Then the
members of an intersection may take each other out, and nothing stays. -/
theorem cycle_through_library_empties :
    serializableTable.WellNamed ∧
      (∀ entry ∈ serializableTable.entries, ∀ upper ∈ entry.2.supers, serializableTable.find? upper = none) ∧
      (∀ member ∈ ["\\JsonSerializable", "\\SplFixedArray"], "object" ∈ serializableTable.superTypes member) ∧
      serializableTable.normalIntersection ["\\JsonSerializable", "\\SplFixedArray"] = .ok [] ∧
      (serializableTable.readTypedName .root "\\JsonSerializable&\\SplFixedArray" .typeOnly false).type =
        some ⟨[""]⟩ :=
  ⟨by decide, by decide, by decide +kernel, by decide +kernel, by decide +kernel⟩

end ClassTable

end DocTypes
