import DocTypes.DocType.Normal
import DocTypes.Proofs.Compatibility

namespace DocTypes

namespace DocType

theorem mem_insertName {name other : String} {names : List String} :
    other ∈ insertName name names ↔ other = name ∨ other ∈ names := by
  induction names with
  | nil => simp [insertName]
  | cons first rest ih =>
    unfold insertName
    split
    · simp
    · split
      next same =>
        subst same
        simp
      next => simp only [List.mem_cons, ih, or_left_comm]

@[simp]
theorem mem_ascending {other : String} {names : List String} : other ∈ ascending names ↔ other ∈ names := by
  induction names with
  | nil => simp [ascending]
  | cons name names ih =>
    have unfolded : ascending (name :: names) = insertName name (ascending names) := rfl
    rw [unfolded, mem_insertName, ih, List.mem_cons]

theorem insertName_ascending {name : String} {names : List String} (sorted : names.Pairwise (· < ·)) :
    (insertName name names).Pairwise (· < ·) := by
  induction names with
  | nil => simp [insertName]
  | cons first rest ih =>
    obtain ⟨below, restSorted⟩ := List.pairwise_cons.mp sorted
    unfold insertName
    split
    next before =>
      refine List.pairwise_cons.mpr ⟨?_, sorted⟩
      intro other member
      rcases List.mem_cons.mp member with rfl | member
      · exact before
      · exact String.lt_trans before (below other member)
    next notBefore =>
      split
      next => exact sorted
      next different =>
        refine List.pairwise_cons.mpr ⟨?_, ih restSorted⟩
        intro other member
        rcases mem_insertName.mp member with rfl | member
        · exact String.not_le.mp fun upper => different (String.le_antisymm upper (String.not_lt.mp notBefore))
        · exact below other member

theorem ascending_pairwise (names : List String) : (ascending names).Pairwise (· < ·) := by
  induction names with
  | nil => exact List.Pairwise.nil
  | cons name names ih => exact insertName_ascending ih

/-- Copies of one name make a list of one. -/
theorem ascending_length_le_one {names : List String} {name : String} (same : ∀ other ∈ names, other = name) :
    (ascending names).length ≤ 1 := by
  have sorted := ascending_pairwise names
  match listed : ascending names with
  | [] => simp
  | [_] => simp
  | first :: second :: rest =>
    rw [listed] at sorted
    have copies : ∀ other ∈ first :: second :: rest, other = name := by
      intro other member
      exact same other (mem_ascending.mp (listed ▸ member))
    have before : first < second := (List.pairwise_cons.mp sorted).1 second (by simp)
    rw [copies first (by simp), copies second (by simp)] at before
    exact absurd before (String.lt_irrefl name)

theorem mem_append_if {complete : List String} {name other : String} {found : Prop} [Decidable found] :
    other ∈ (if found then complete ++ [name] else complete) ↔ other ∈ complete ∨ other = name ∧ found := by
  split <;> simp [*]

/-- Which umbrellas a list of members completes. -/
theorem mem_completeUmbrellas {members : List String} {umbrella : String} :
    umbrella ∈ completeUmbrellas members ↔
      (umbrella = "array-key" ∧ "int" ∈ members ∧ "string" ∈ members) ∨
      (umbrella = "scalar" ∧ "bool" ∈ members ∧ "float" ∈ members ∧
        ("array-key" ∈ members ∨ "int" ∈ members ∧ "string" ∈ members)) ∨
      (umbrella = "iterable" ∧ "\\Traversable" ∈ members ∧ "array" ∈ members) := by
  simp only [completeUmbrellas, umbrellas, List.foldl_cons, List.foldl_nil]
  rw [mem_append_if, mem_append_if, mem_append_if]
  simp [mem_append_if, or_assoc]

theorem umbrella_of_complete {members : List String} {umbrella : String}
    (complete : umbrella ∈ completeUmbrellas members) : umbrella ∈ ["array-key", "scalar", "iterable"] := by
  rcases mem_completeUmbrellas.mp complete with ⟨rfl, _⟩ | ⟨rfl, _⟩ | ⟨rfl, _⟩ <;> decide

/-- Smaller umbrellas are found first, so no umbrella is missed for a part that is one. -/
theorem completeUmbrellas_closed {umbrella : String} {parts members : List String}
    (listed : (umbrella, parts) ∈ umbrellas)
    (given : ∀ part ∈ parts, part ∉ members → part ∈ completeUmbrellas members) :
    umbrella ∈ completeUmbrellas members := by
  simp only [umbrellas, List.mem_cons, Prod.mk.injEq, List.not_mem_nil, or_false] at listed
  rcases listed with ⟨rfl, rfl⟩ | ⟨rfl, rfl⟩ | ⟨rfl, rfl⟩
  all_goals
    simp only [mem_completeUmbrellas, List.forall_mem_cons] at given ⊢
    grind

/-- A text without `|` is one member. -/
theorem ofText_of_free {member : String} (free : '|' ∉ member.toList) : ofText member = ⟨[member]⟩ := by
  rw [ofText, Text.split_of_not_mem free]

end DocType

namespace ClassTable

/-- One round of the absorption: a member that is left, complete umbrellas apart, takes out what it
accepts. -/
def absorb (classes : ClassTable) (complete left : List String) (wide : String) : List String :=
  if left.contains wide && !complete.contains wide then classes.dropCovered wide left else left

theorem mem_dropCovered {classes : ClassTable} {wide member : String} {left : List String} :
    member ∈ classes.dropCovered wide left ↔
      member ∈ left ∧ (member = wide ∨ ¬ classes.accepts ⟨[wide]⟩ ⟨[member]⟩) := by
  simp [dropCovered]

theorem accepts_singletons {classes : ClassTable} {wide member : String} (notMixed : wide ≠ "mixed")
    (notNever : member ≠ "never") :
    classes.accepts ⟨[wide]⟩ ⟨[member]⟩ ↔ classes.memberAccepts wide member := by
  simp [accepts_iff, DocType.mixed, DocType.never, notMixed, notNever]

theorem absorb_subset {classes : ClassTable} {complete left : List String} {wide : String} :
    classes.absorb complete left wide ⊆ left := by
  unfold absorb
  split
  · exact fun member kept => (mem_dropCovered.mp kept).1
  · exact List.Subset.refl left

/-- What a round takes out is accepted by a member that stays. -/
theorem mem_absorb_or {classes : ClassTable} {left : List String} {member : String}
    (isLeft : member ∈ left) (complete : List String) (wide : String) :
    member ∈ classes.absorb complete left wide ∨
      wide ∈ classes.absorb complete left wide ∧ member ≠ wide ∧ classes.accepts ⟨[wide]⟩ ⟨[member]⟩ ∧
        classes.absorb complete left wide = classes.dropCovered wide left := by
  unfold absorb
  by_cases active : (left.contains wide && !complete.contains wide) = true
  · have wideLeft : wide ∈ left := by simp_all
    rw [if_pos active]
    by_cases kept : member = wide ∨ ¬ classes.accepts ⟨[wide]⟩ ⟨[member]⟩
    · exact Or.inl (mem_dropCovered.mpr ⟨isLeft, kept⟩)
    · rw [not_or, not_not] at kept
      exact Or.inr ⟨mem_dropCovered.mpr ⟨wideLeft, Or.inl rfl⟩, kept.1, kept.2, rfl⟩
  · rw [if_neg active]
    exact Or.inl isLeft

section Absorption

variable {classes : ClassTable} {complete wides left : List String}

theorem foldl_absorb_subset : wides.foldl (classes.absorb complete) left ⊆ left := by
  induction wides generalizing left with
  | nil => exact List.Subset.refl left
  | cons wide wides ih => exact List.Subset.trans ih absorb_subset

theorem foldl_absorb_sublist : (wides.foldl (classes.absorb complete) left).Sublist left := by
  induction wides generalizing left with
  | nil => exact List.Sublist.refl left
  | cons wide wides ih =>
    refine ih.trans ?_
    unfold absorb
    split
    · exact List.filter_sublist
    · exact List.Sublist.refl left

/-- Nothing is lost: every member that was there is accepted by one that stays. -/
theorem WellNamed.foldl_absorb_covers (named : classes.WellNamed) (noMixed : "mixed" ∉ left)
    (noNever : "never" ∉ left) {member : String} (isLeft : member ∈ left) :
    ∃ wide ∈ wides.foldl (classes.absorb complete) left, classes.memberAccepts wide member := by
  induction wides generalizing left member with
  | nil => exact ⟨member, isLeft, classes.memberAccepts_refl member⟩
  | cons wide wides ih =>
    have stillNoMixed : "mixed" ∉ classes.absorb complete left wide := fun mixed => noMixed (absorb_subset mixed)
    have stillNoNever : "never" ∉ classes.absorb complete left wide := fun never => noNever (absorb_subset never)
    rcases mem_absorb_or isLeft complete wide with stays | ⟨wideStays, _, accepted, _⟩
    · exact ih stillNoMixed stillNoNever stays
    · obtain ⟨wider, isWider, above⟩ := ih stillNoMixed stillNoNever wideStays
      have notMixed : wide ≠ "mixed" := fun same => stillNoMixed (same ▸ wideStays)
      have notNever : member ≠ "never" := fun same => noNever (same ▸ isLeft)
      have below := (accepts_singletons notMixed notNever).mp accepted
      exact ⟨wider, isWider, named.memberAccepts_trans above below⟩

/-- What takes a member out also takes out what that member accepts, itself apart. So a member stays
if two members that it accepts stay. -/
theorem WellNamed.foldl_absorb_keeps (named : classes.WellNamed) (noMixed : "mixed" ∉ left)
    (noNever : "never" ∉ left) {umbrella first second : String} (isLeft : umbrella ∈ left)
    (distinct : first ≠ second) (acceptsFirst : classes.memberAccepts umbrella first)
    (acceptsSecond : classes.memberAccepts umbrella second)
    (firstStays : first ∈ wides.foldl (classes.absorb complete) left)
    (secondStays : second ∈ wides.foldl (classes.absorb complete) left) :
    umbrella ∈ wides.foldl (classes.absorb complete) left := by
  induction wides generalizing left with
  | nil => exact isLeft
  | cons wide wides ih =>
    have stillNoMixed : "mixed" ∉ classes.absorb complete left wide := fun mixed => noMixed (absorb_subset mixed)
    have stillNoNever : "never" ∉ classes.absorb complete left wide := fun never => noNever (absorb_subset never)
    rcases mem_absorb_or isLeft complete wide with stays | ⟨wideStays, _, accepted, dropped⟩
    · exact ih stillNoMixed stillNoNever stays firstStays secondStays
    · have notMixed : wide ≠ "mixed" := fun same => stillNoMixed (same ▸ wideStays)
      have notNever : umbrella ≠ "never" := fun same => noNever (same ▸ isLeft)
      have above := (accepts_singletons notMixed notNever).mp accepted
      have isWide : ∀ part ∈ (wide :: wides).foldl (classes.absorb complete) left,
          classes.memberAccepts umbrella part → part = wide := by
        intro part partStays below
        have inRound : part ∈ classes.absorb complete left wide := foldl_absorb_subset partStays
        have partNotNever : part ≠ "never" := fun same => stillNoNever (same ▸ inRound)
        rw [dropped] at inRound
        refine (mem_dropCovered.mp inRound).2.resolve_right ?_
        rw [not_not, accepts_singletons notMixed partNotNever]
        exact named.memberAccepts_trans above below
      have same := (isWide first firstStays acceptsFirst).trans (isWide second secondStays acceptsSecond).symm
      exact absurd same distinct

end Absorption

/-- The members from which the absorption starts: those given and the umbrellas they complete,
without `never` unless nothing else is there. -/
def candidates (members : List String) : List String :=
  let all := DocType.ascending (members ++ DocType.completeUmbrellas members)
  if all.length ≤ 1 then all else all.filter (· != "never")

theorem candidates_pairwise (members : List String) : (candidates members).Pairwise (· < ·) := by
  have sorted := DocType.ascending_pairwise (members ++ DocType.completeUmbrellas members)
  simp only [candidates]
  split
  · exact sorted
  · exact sorted.filter _

theorem normalUnion_of_mixed {classes : ClassTable} {members : List String} (mixed : "mixed" ∈ members) :
    classes.normalUnion members = ["mixed"] := by
  by_cases short : members.length ≤ 1
  · obtain ⟨only, rfl⟩ := List.length_eq_one_iff.mp (Nat.le_antisymm short (List.length_pos_of_mem mixed))
    rw [normalUnion, if_pos short, List.mem_singleton.mp mixed]
  · simp [normalUnion, short, mixed]

theorem mixed_not_complete (members : List String) : "mixed" ∉ DocType.completeUmbrellas members := by
  simp [DocType.mem_completeUmbrellas]

theorem never_not_complete (members : List String) : "never" ∉ DocType.completeUmbrellas members := by
  simp [DocType.mem_completeUmbrellas]

theorem normalUnion_of_not_mixed {classes : ClassTable} {members : List String} (several : 1 < members.length)
    (noMixed : "mixed" ∉ members) : classes.normalUnion members =
      (candidates members).foldl (classes.absorb (DocType.completeUmbrellas members)) (candidates members) := by
  unfold normalUnion
  rw [if_neg (Nat.not_le.mpr several)]
  exact if_neg (by simp [noMixed, mixed_not_complete])

/-- The members of a normal form are strictly ascending. -/
theorem normalUnion_pairwise (classes : ClassTable) (members : List String) :
    (classes.normalUnion members).Pairwise (· < ·) := by
  by_cases short : members.length ≤ 1
  · rw [normalUnion, if_pos short]
    match members, short with
    | [], _ => exact List.Pairwise.nil
    | [member], _ => exact List.pairwise_singleton _ member
  by_cases mixed : "mixed" ∈ members
  · rw [normalUnion_of_mixed mixed]
    exact List.pairwise_singleton _ _
  · rw [normalUnion_of_not_mixed (Nat.not_le.mp short) mixed]
    exact (candidates_pairwise members).sublist foldl_absorb_sublist

theorem mem_candidates {members : List String} (several : ∃ member ∈ members, member ≠ "never")
    {name : String} : name ∈ candidates members ↔
      (name ∈ members ∨ name ∈ DocType.completeUmbrellas members) ∧ name ≠ "never" := by
  obtain ⟨member, isMember, notNever⟩ := several
  simp only [candidates]
  split
  next short =>
    have listed : member ∈ DocType.ascending (members ++ DocType.completeUmbrellas members) := by simp [isMember]
    obtain ⟨only, all⟩ := List.length_eq_one_iff.mp (Nat.le_antisymm short (List.length_pos_of_mem listed))
    have only_iff : name ∈ members ++ DocType.completeUmbrellas members ↔ name = only := by
      rw [← DocType.mem_ascending, all, List.mem_singleton]
    rw [all, List.mem_singleton] at listed
    rw [all, List.mem_singleton, ← List.mem_append, only_iff]
    grind
  next => simp [and_comm]

theorem completeUmbrellas_of_never {members : List String} (never : ∀ member ∈ members, member = "never") :
    DocType.completeUmbrellas members = [] := by
  apply List.eq_nil_iff_forall_not_mem.mpr
  intro umbrella complete
  rw [DocType.mem_completeUmbrellas] at complete
  grind

/-- Where every member is `never`, that is all there is. -/
theorem candidates_of_never {members : List String} (some : members ≠ [])
    (never : ∀ member ∈ members, member = "never") : candidates members = ["never"] := by
  have noUmbrella := completeUmbrellas_of_never never
  obtain ⟨member, isMember⟩ := List.exists_mem_of_ne_nil members some
  have short := DocType.ascending_length_le_one never
  have listed : "never" ∈ DocType.ascending members := by
    rw [DocType.mem_ascending, ← never member isMember]
    exact isMember
  obtain ⟨only, all⟩ := List.length_eq_one_iff.mp (Nat.le_antisymm short (List.length_pos_of_mem listed))
  rw [all, List.mem_singleton] at listed
  simp [candidates, noUmbrella, all, listed]

/-- The candidates are the members and the umbrellas that they complete; `never` is one only by itself. -/
theorem mem_candidates_iff {members : List String} {name : String} : name ∈ candidates members ↔
    (name ∈ members ∨ name ∈ DocType.completeUmbrellas members) ∧
      (name = "never" → ∀ member ∈ members, member = "never") := by
  by_cases several : ∃ member ∈ members, member ≠ "never"
  · obtain ⟨member, isMember, notNever⟩ := several
    rw [mem_candidates ⟨member, isMember, notNever⟩]
    exact and_congr_right fun _ =>
      ⟨fun other never => absurd never other, fun only never => notNever (only never member isMember)⟩
  · have never : ∀ member ∈ members, member = "never" := by simpa using several
    by_cases none : members = []
    · simp [none, candidates, completeUmbrellas_of_never, DocType.ascending]
    · have noUmbrella := completeUmbrellas_of_never never
      obtain ⟨member, isMember⟩ := List.exists_mem_of_ne_nil members none
      rw [candidates_of_never none never, noUmbrella, List.mem_singleton]
      refine ⟨fun same => ⟨Or.inl ?_, fun _ => never⟩, fun found => never name (by simpa using found.1)⟩
      rw [same, ← never member isMember]
      exact isMember

/-- A single member completes no umbrella. -/
theorem completeUmbrellas_of_short {members : List String} (short : members.length ≤ 1) :
    DocType.completeUmbrellas members = [] := by
  apply List.eq_nil_iff_forall_not_mem.mpr
  intro umbrella complete
  match members, short with
  | [], _ => simp [DocType.mem_completeUmbrellas] at complete
  | [member], _ =>
    simp only [DocType.mem_completeUmbrellas, List.mem_singleton] at complete
    grind

theorem mem_of_mem_normalUnion {classes : ClassTable} {members : List String} {name : String}
    (isNormal : name ∈ classes.normalUnion members) :
    name ∈ members ∨ name ∈ DocType.completeUmbrellas members := by
  by_cases short : members.length ≤ 1
  · rw [normalUnion, if_pos short] at isNormal
    exact Or.inl isNormal
  have several := Nat.not_le.mp short
  by_cases mixed : "mixed" ∈ members
  · rw [normalUnion_of_mixed mixed, List.mem_singleton] at isNormal
    exact Or.inl (isNormal ▸ mixed)
  · rw [normalUnion_of_not_mixed several mixed] at isNormal
    have candidate := foldl_absorb_subset isNormal
    by_cases others : ∃ member ∈ members, member ≠ "never"
    · exact ((mem_candidates others).mp candidate).1
    · have never : ∀ member ∈ members, member = "never" := by simpa using others
      obtain ⟨member, isMember⟩ := List.exists_mem_of_ne_nil members (List.ne_nil_of_length_pos (by omega))
      rw [candidates_of_never (List.ne_nil_of_mem isMember) never, List.mem_singleton] at candidate
      exact Or.inl (candidate ▸ never member isMember ▸ isMember)

/-- Every member, and every umbrella that the members complete, is accepted by some member of the
normal form. -/
theorem WellNamed.normalUnion_covers {classes : ClassTable} (named : classes.WellNamed)
    {members : List String} (noMixed : "mixed" ∉ members) {name : String} (notNever : name ≠ "never")
    (candidate : name ∈ members ∨ name ∈ DocType.completeUmbrellas members) :
    ∃ wide ∈ classes.normalUnion members, classes.memberAccepts wide name := by
  by_cases short : members.length ≤ 1
  · rw [completeUmbrellas_of_short short] at candidate
    rw [normalUnion, if_pos short]
    exact ⟨name, candidate.resolve_right List.not_mem_nil, classes.memberAccepts_refl name⟩
  · rw [normalUnion_of_not_mixed (Nat.not_le.mp short) noMixed]
    have others : ∃ member ∈ members, member ≠ "never" := by
      rcases candidate with isMember | complete
      · exact ⟨name, isMember, notNever⟩
      · rw [DocType.mem_completeUmbrellas] at complete
        grind
    apply named.foldl_absorb_covers
    · simp [mem_candidates others, noMixed, mixed_not_complete]
    · simp [mem_candidates others]
    · exact (mem_candidates others).mpr ⟨candidate, notNever⟩

theorem normalUnion_of_never {classes : ClassTable} {members : List String} (some : members ≠ [])
    (never : ∀ member ∈ members, member = "never") : classes.normalUnion members = ["never"] := by
  by_cases short : members.length ≤ 1
  · obtain ⟨only, rfl⟩ := List.length_eq_one_iff.mp (Nat.le_antisymm short (List.length_pos_iff.mpr some))
    rw [normalUnion, if_pos short, never only (List.mem_singleton_self _)]
  · have noMixed : "mixed" ∉ members := fun mixed => absurd (never "mixed" mixed) (by decide)
    rw [normalUnion_of_not_mixed (Nat.not_le.mp short) noMixed, candidates_of_never some never]
    simp [absorb, dropCovered]

/-- Where `never` is left, nothing else was there. -/
theorem never_of_mem_normalUnion {classes : ClassTable} {members : List String}
    (isNormal : "never" ∈ classes.normalUnion members) : ∀ member ∈ members, member = "never" := by
  by_cases short : members.length ≤ 1
  · rw [normalUnion, if_pos short] at isNormal
    obtain ⟨only, rfl⟩ := List.length_eq_one_iff.mp (Nat.le_antisymm short (List.length_pos_of_mem isNormal))
    intro member isMember
    rw [List.mem_singleton.mp isMember, List.mem_singleton.mp isNormal]
  by_cases mixed : "mixed" ∈ members
  · rw [normalUnion_of_mixed mixed] at isNormal
    exact absurd isNormal (by decide)
  rw [normalUnion_of_not_mixed (Nat.not_le.mp short) mixed] at isNormal
  by_contra others
  have several : ∃ member ∈ members, member ≠ "never" := by simpa using others
  exact ((mem_candidates several).mp (foldl_absorb_subset isNormal)).2 rfl

theorem WellNamed.normalUnion_ne_nil {classes : ClassTable} (named : classes.WellNamed)
    {members : List String} (some : members ≠ []) : classes.normalUnion members ≠ [] := by
  by_cases mixed : "mixed" ∈ members
  · simp [normalUnion_of_mixed mixed]
  by_cases others : ∃ member ∈ members, member ≠ "never"
  · obtain ⟨member, isMember, notNever⟩ := others
    obtain ⟨wide, isNormal, _⟩ := named.normalUnion_covers mixed notNever (Or.inl isMember)
    exact List.ne_nil_of_mem isNormal
  · have never : ∀ member ∈ members, member = "never" := by simpa using others
    simp [normalUnion_of_never some never]

/-- A supertype accepts what it is a supertype of. -/
theorem memberAccepts_of_superType {classes : ClassTable} {wide narrow : String}
    (wideAtom : DocType.atoms wide = [wide]) (narrowAtom : DocType.atoms narrow = [narrow])
    (above : wide ∈ classes.superTypes narrow) : classes.memberAccepts wide narrow := by
  rw [memberAccepts_iff, wideAtom]
  intro atom isAtom
  rw [List.mem_singleton.mp isAtom, mem_reach, narrowAtom]
  exact ⟨narrow, List.mem_singleton_self narrow, Or.inr above⟩

theorem WellNamed.iterable_superType {classes : ClassTable} (named : classes.WellNamed) :
    "iterable" ∈ classes.superTypes "\\Traversable" := by
  rw [named.mem_superTypes_class (by decide)]
  have edges : classes.edges? "\\Traversable" = some ["iterable"] := by
    rw [edges?, show Library.supers? "\\Traversable" = some ["iterable"] by decide]
  exact Or.inr ⟨1, Nat.one_pos, .step (.refl _) ⟨_, edges, List.mem_singleton_self _⟩⟩

/-- A complete umbrella accepts two members at least. -/
theorem WellNamed.umbrella_parts {classes : ClassTable} (named : classes.WellNamed) {members : List String}
    {umbrella : String} (complete : umbrella ∈ DocType.completeUmbrellas members) :
    ∃ first ∈ members, ∃ second ∈ members, first ≠ second ∧ classes.memberAccepts umbrella first ∧
      classes.memberAccepts umbrella second := by
  have below : ∀ wide word, DocType.atoms wide = [wide] → DocType.atoms word = [word] → word ∈ Atom.words →
      wide ∈ Atom.ladder word → classes.memberAccepts wide word := by
    intro wide word wideAtom wordAtom isWord above
    rw [← superTypes_word classes isWord] at above
    exact memberAccepts_of_superType wideAtom wordAtom above
  rcases DocType.mem_completeUmbrellas.mp complete with
    ⟨rfl, int, string⟩ | ⟨rfl, bool, float, _⟩ | ⟨rfl, traversable, array⟩
  · exact ⟨"int", int, "string", string, by decide,
      below _ _ (by decide) (by decide) (by decide) (by decide),
      below _ _ (by decide) (by decide) (by decide) (by decide)⟩
  · exact ⟨"bool", bool, "float", float, by decide,
      below _ _ (by decide) (by decide) (by decide) (by decide),
      below _ _ (by decide) (by decide) (by decide) (by decide)⟩
  · exact ⟨"\\Traversable", traversable, "array", array, by decide,
      memberAccepts_of_superType (by decide) (by decide) named.iterable_superType,
      below _ _ (by decide) (by decide) (by decide) (by decide)⟩

/-- A normal form holds every umbrella that its members complete. -/
theorem WellNamed.umbrella_mem_normalUnion {classes : ClassTable} (named : classes.WellNamed)
    {members : List String} {umbrella : String}
    (complete : umbrella ∈ DocType.completeUmbrellas (classes.normalUnion members)) :
    umbrella ∈ classes.normalUnion members := by
  by_cases short : members.length ≤ 1
  · rw [normalUnion, if_pos short, completeUmbrellas_of_short short] at complete
    exact absurd complete List.not_mem_nil
  have several := Nat.not_le.mp short
  by_cases mixed : "mixed" ∈ members
  · rw [normalUnion_of_mixed mixed, completeUmbrellas_of_short (by simp)] at complete
    exact absurd complete List.not_mem_nil
  obtain ⟨first, isFirst, second, isSecond, distinct, aboveFirst, aboveSecond⟩ := named.umbrella_parts complete
  have before : umbrella ∈ DocType.completeUmbrellas members := by
    have origin : ∀ name ∈ classes.normalUnion members, _ := fun name => mem_of_mem_normalUnion
    simp only [DocType.mem_completeUmbrellas] at origin complete ⊢
    grind
  have others : ∃ member ∈ members, member ≠ "never" := by
    rw [DocType.mem_completeUmbrellas] at before
    grind
  rw [normalUnion_of_not_mixed several mixed] at isFirst isSecond ⊢
  apply named.foldl_absorb_keeps _ _ _ distinct aboveFirst aboveSecond isFirst isSecond
  · simp [mem_candidates others, mixed, mixed_not_complete]
  · simp [mem_candidates others]
  · refine (mem_candidates others).mpr ⟨Or.inr before, ?_⟩
    rintro rfl
    exact never_not_complete members before

end ClassTable

end DocTypes
