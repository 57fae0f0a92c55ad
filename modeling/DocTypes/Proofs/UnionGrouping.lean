import DocTypes.Proofs.UnionNormal
import DocTypes.TypeText.Fields
import Mathlib.Data.Fintype.Card
import Mathlib.Data.List.Sort
import Mathlib.Data.String.Basic

namespace DocTypes

namespace ClassTable

variable {classes : ClassTable} {complete members : List String}

/-- One candidate takes another out of a union with these complete umbrellas, none of which takes anything
out. Of two candidates that accept each other the first one stays. -/
def TakesOut (classes : ClassTable) (complete : List String) (wide name : String) : Prop :=
  wide ∉ complete ∧ wide ≠ name ∧ classes.memberAccepts wide name ∧
    (name ∉ complete → classes.memberAccepts name wide → wide < name)

instance (classes : ClassTable) (complete : List String) (wide name : String) :
    Decidable (classes.TakesOut complete wide name) :=
  inferInstanceAs (Decidable (wide ∉ complete ∧ wide ≠ name ∧ classes.memberAccepts wide name ∧
    (name ∉ complete → classes.memberAccepts name wide → wide < name)))

theorem WellNamed.takesOut_trans (named : classes.WellNamed) {first second third : String}
    (left : classes.TakesOut complete first second) (right : classes.TakesOut complete second third) :
    classes.TakesOut complete first third := by
  obtain ⟨firstActive, _, leftAccepts, leftOrder⟩ := left
  obtain ⟨secondActive, _, rightAccepts, rightOrder⟩ := right
  refine ⟨firstActive, ?_, named.memberAccepts_trans leftAccepts rightAccepts, fun thirdActive accepts => ?_⟩
  · rintro rfl
    exact String.lt_irrefl _
      (String.lt_trans (leftOrder secondActive rightAccepts) (rightOrder firstActive leftAccepts))
  · have before := leftOrder secondActive (named.memberAccepts_trans rightAccepts accepts)
    have after := rightOrder thirdActive (named.memberAccepts_trans accepts leftAccepts)
    exact String.lt_trans before after

/-- What is left when the candidates in `done` have had their turn. -/
def LeftAfter (classes : ClassTable) (complete known done left : List String) : Prop :=
  ∀ name, name ∈ left ↔ name ∈ known ∧ ∀ wide ∈ done, ¬ classes.TakesOut complete wide name

/-- A round of the absorption takes out what its candidate takes out. A candidate that is gone by then takes
out nothing that was left, and of two that accept each other the first had its turn before. -/
theorem LeftAfter.absorb (named : classes.WellNamed) {known done left : List String} {wide : String}
    (noMixed : "mixed" ∉ known) (noNever : "never" ∉ known) (isKnown : wide ∈ known)
    (earlier : ∀ name ∈ known, name < wide → name ∈ done) (leftAfter : classes.LeftAfter complete known done left) :
    classes.LeftAfter complete known (done ++ [wide]) (classes.absorb complete left wide) := by
  intro name
  have ends : (∀ other ∈ done ++ [wide], ¬ classes.TakesOut complete other name) ↔
      (∀ other ∈ done, ¬ classes.TakesOut complete other name) ∧ ¬ classes.TakesOut complete wide name := by
    simp [or_imp, forall_and]
  rw [ends, ← and_assoc, ← leftAfter name, ClassTable.absorb]
  have wideNotMixed : wide ≠ "mixed" := fun same => noMixed (same ▸ isKnown)
  have acceptance : name ∈ known →
      (classes.accepts ⟨[wide]⟩ ⟨[name]⟩ ↔ classes.memberAccepts wide name) :=
    fun nameKnown => accepts_singletons wideNotMixed fun same => noNever (same ▸ nameKnown)
  split
  next active =>
    obtain ⟨wideLeft, wideActive⟩ : wide ∈ left ∧ wide ∉ complete := by simpa using active
    rw [mem_dropCovered]
    refine and_congr_right fun nameLeft => ?_
    obtain ⟨nameKnown, _⟩ := (leftAfter name).mp nameLeft
    rw [acceptance nameKnown]
    constructor
    · rintro (rfl | refused) takesOut
      · exact takesOut.2.1 rfl
      · exact refused takesOut.2.2.1
    · intro notTaken
      by_contra covered
      rw [not_or, not_not] at covered
      refine notTaken ⟨wideActive, Ne.symm covered.1, covered.2, fun nameActive accepts => ?_⟩
      by_contra notBefore
      have nameFirst : name < wide := String.not_le.mp fun upper =>
        covered.1 (String.le_antisymm (String.not_lt.mp notBefore) upper)
      have takesWide : classes.TakesOut complete name wide := ⟨nameActive, covered.1, accepts, fun _ _ => nameFirst⟩
      exact ((leftAfter wide).mp wideLeft).2 name (earlier name nameKnown nameFirst) takesWide
  next idle =>
    refine ⟨fun nameLeft => ⟨nameLeft, fun takesOut => ?_⟩, And.left⟩
    have gone : wide ∉ left := fun wideLeft => idle (by simp [wideLeft, takesOut.1])
    obtain ⟨other, isDone, takesWide⟩ : ∃ other ∈ done, classes.TakesOut complete other wide := by
      by_contra none
      exact gone ((leftAfter wide).mpr ⟨isKnown, by simpa using none⟩)
    exact ((leftAfter name).mp nameLeft).2 other isDone (named.takesOut_trans takesWide takesOut)

theorem LeftAfter.foldl_absorb (named : classes.WellNamed) {known done wides left : List String}
    (sorted : known.Pairwise (· < ·)) (noMixed : "mixed" ∉ known) (noNever : "never" ∉ known)
    (split : known = done ++ wides) (leftAfter : classes.LeftAfter complete known done left) :
    classes.LeftAfter complete known known (wides.foldl (classes.absorb complete) left) := by
  induction wides generalizing done left with
  | nil =>
    rw [List.append_nil] at split
    exact split ▸ leftAfter
  | cons wide wides ih =>
    refine ih (by rw [split]; simp) (leftAfter.absorb named noMixed noNever (by simp [split]) ?_)
    intro name nameKnown before
    rw [split] at nameKnown sorted
    refine (List.mem_append.mp nameKnown).resolve_right fun later => ?_
    have above := (List.pairwise_cons.mp (List.pairwise_append.mp sorted).2.1).1
    rcases List.mem_cons.mp later with rfl | later
    · exact String.lt_irrefl _ before
    · exact String.lt_irrefl _ (String.lt_trans before (above name later))

/-- The normal form of a union: the candidates that no candidate takes out. -/
theorem WellNamed.mem_normalUnion (named : classes.WellNamed) (noMixed : "mixed" ∉ members) {name : String} :
    name ∈ classes.normalUnion members ↔ name ∈ candidates members ∧
      ∀ wide ∈ candidates members, ¬ classes.TakesOut (DocType.completeUmbrellas members) wide name := by
  have alone : ∀ only : String, (name = only ↔ name ∈ [only] ∧ ∀ wide ∈ [only], ¬ classes.TakesOut
      (DocType.completeUmbrellas members) wide name) := by
    intro only
    simp only [List.mem_singleton, forall_eq]
    refine ⟨fun same => ⟨same, fun takesOut => takesOut.2.1 same.symm⟩, And.left⟩
  match members with
  | [] => simp [normalUnion, mem_candidates_iff, completeUmbrellas_of_never]
  | [only] =>
    have none : DocType.completeUmbrellas [only] = [] := completeUmbrellas_of_short (by simp)
    have listed : candidates [only] = [only] := by
      simp [candidates, none, DocType.ascending, DocType.insertName]
    rw [listed, ← alone only, normalUnion, if_pos (by simp), List.mem_singleton]
  | first :: second :: others =>
    rw [normalUnion_of_not_mixed (by simp) noMixed]
    by_cases several : ∃ member ∈ first :: second :: others, member ≠ "never"
    · have start : classes.LeftAfter (DocType.completeUmbrellas (first :: second :: others))
          (candidates (first :: second :: others)) [] (candidates (first :: second :: others)) := by
        intro name
        simp
      refine start.foldl_absorb named (candidates_pairwise _) ?_ ?_ rfl name
      · rw [mem_candidates several]
        exact fun found => found.1.elim noMixed (mixed_not_complete _)
      · rw [mem_candidates several]
        exact fun found => found.2 rfl
    · have never : ∀ member ∈ first :: second :: others, member = "never" := by simpa using several
      rw [candidates_of_never (by simp) never, ← alone "never"]
      simp [ClassTable.absorb, dropCovered]

/-- A candidate is in the normal form, or something in the normal form takes it out. -/
theorem WellNamed.mem_normalUnion_or_takesOut (named : classes.WellNamed) (noMixed : "mixed" ∉ members)
    {name : String} (candidate : name ∈ candidates members) : name ∈ classes.normalUnion members ∨
      ∃ wide ∈ classes.normalUnion members, classes.TakesOut (DocType.completeUmbrellas members) wide name := by
  let above (wide name : {name // name ∈ candidates members}) : Prop :=
    classes.TakesOut (DocType.completeUmbrellas members) wide name
  have : IsTrans _ above := ⟨fun _ _ _ => named.takesOut_trans⟩
  have : Std.Irrefl above := ⟨fun _ takesOut => takesOut.2.1 rfl⟩
  -- there are finitely many candidates, so going up from one to the next ends
  induction h : (⟨name, candidate⟩ : {name // name ∈ candidates members})
    using (Finite.wellFounded_of_trans_of_irrefl above).induction generalizing name with
  | _ current ih =>
    subst h
    by_cases taken : ∃ wide ∈ candidates members, classes.TakesOut (DocType.completeUmbrellas members) wide name
    · obtain ⟨wide, isCandidate, takesOut⟩ := taken
      rcases ih ⟨wide, isCandidate⟩ takesOut isCandidate rfl with stays | ⟨upper, stays, takesWide⟩
      · exact Or.inr ⟨wide, stays, takesOut⟩
      · exact Or.inr ⟨upper, stays, named.takesOut_trans takesWide takesOut⟩
    · exact Or.inl ((named.mem_normalUnion noMixed).mpr ⟨candidate, by simpa using taken⟩)

/-- What a union has to have in common with a larger one for the same normal form. A candidate of the larger
one is a candidate still, or one that is takes it out of the larger union. An umbrella that the larger one
completes is complete still, or something takes it out of both. -/
def Agrees (classes : ClassTable) (whole part : List String) : Prop :=
  (∀ name ∈ candidates whole, name ∈ candidates part ∨
    ∃ wide ∈ candidates part, classes.TakesOut (DocType.completeUmbrellas whole) wide name) ∧
  ∀ umbrella ∈ DocType.completeUmbrellas whole, umbrella ∈ DocType.completeUmbrellas part ∨
    ∃ wide ∈ candidates part, classes.TakesOut (DocType.completeUmbrellas whole) wide umbrella ∧
      (umbrella ∈ candidates part → classes.TakesOut (DocType.completeUmbrellas part) wide umbrella)

instance (classes : ClassTable) (whole part : List String) : Decidable (classes.Agrees whole part) :=
  inferInstanceAs (Decidable ((∀ name ∈ candidates whole, name ∈ candidates part ∨
    ∃ wide ∈ candidates part, classes.TakesOut (DocType.completeUmbrellas whole) wide name) ∧
  ∀ umbrella ∈ DocType.completeUmbrellas whole, umbrella ∈ DocType.completeUmbrellas part ∨
    ∃ wide ∈ candidates part, classes.TakesOut (DocType.completeUmbrellas whole) wide umbrella ∧
      (umbrella ∈ candidates part → classes.TakesOut (DocType.completeUmbrellas part) wide umbrella)))

/-- Where fewer umbrellas are complete, the same is taken out by what is complete in neither union. -/
theorem TakesOut.of_complete_subset {fewer : List String} {wide name : String} (subset : fewer ⊆ complete)
    (active : wide ∉ complete) (takesOut : classes.TakesOut fewer wide name) :
    classes.TakesOut complete wide name :=
  ⟨active, takesOut.2.1, takesOut.2.2.1, fun nameActive => takesOut.2.2.2 fun member => nameActive (subset member)⟩

section Comparison

variable {whole part : List String} (named : classes.WellNamed) (noMixedWhole : "mixed" ∉ whole)
  (noMixedPart : "mixed" ∉ part) (subset : candidates part ⊆ candidates whole)
  (completes : DocType.completeUmbrellas part ⊆ DocType.completeUmbrellas whole)

include named noMixedWhole noMixedPart subset completes

theorem Agrees.normalUnion_subset (agrees : classes.Agrees whole part) :
    classes.normalUnion whole ⊆ classes.normalUnion part := by
  intro name isNormal
  rw [named.mem_normalUnion noMixedWhole] at isNormal
  rw [named.mem_normalUnion noMixedPart]
  obtain ⟨isCandidate, stays⟩ := isNormal
  have candidatePart : name ∈ candidates part := (agrees.1 name isCandidate).resolve_right
    fun ⟨wide, isWide, takesOut⟩ => stays wide (subset isWide) takesOut
  refine ⟨candidatePart, fun wide isWide takesOut => ?_⟩
  by_cases wideComplete : wide ∈ DocType.completeUmbrellas whole
  · -- `wide` is complete in the whole union only, so something takes it out of both, and with it `name`
    rcases agrees.2 wide wideComplete with complete | ⟨upper, isUpper, takesWide, inPart⟩
    · exact takesOut.1 complete
    · have takesName := named.takesOut_trans (inPart isWide) takesOut
      exact stays upper (subset isUpper) (takesName.of_complete_subset completes takesWide.1)
  · exact stays wide (subset isWide) (takesOut.of_complete_subset completes wideComplete)

theorem Agrees.normalUnion_superset (agrees : classes.Agrees whole part) :
    classes.normalUnion part ⊆ classes.normalUnion whole := by
  intro name isNormal
  rw [named.mem_normalUnion noMixedPart] at isNormal
  rw [named.mem_normalUnion noMixedWhole]
  obtain ⟨isCandidate, stays⟩ := isNormal
  have completeAlike : name ∈ DocType.completeUmbrellas whole → name ∈ DocType.completeUmbrellas part :=
    fun complete => (agrees.2 name complete).resolve_right
      fun ⟨wide, isWide, _, inPart⟩ => stays wide isWide (inPart isCandidate)
  have carries : ∀ {wide}, classes.TakesOut (DocType.completeUmbrellas whole) wide name →
      classes.TakesOut (DocType.completeUmbrellas part) wide name := fun takesOut =>
    ⟨fun complete => takesOut.1 (completes complete), takesOut.2.1, takesOut.2.2.1,
      fun active => takesOut.2.2.2 fun complete => active (completeAlike complete)⟩
  refine ⟨subset isCandidate, fun wide isWide takesOut => ?_⟩
  rcases agrees.1 wide isWide with isWidePart | ⟨upper, isUpper, takesWide⟩
  · exact stays wide isWidePart (carries takesOut)
  · exact stays upper isUpper (carries (named.takesOut_trans takesWide takesOut))

end Comparison

variable (classes) in
/-- A complete umbrella has a part that is accepted by nothing but what it accepts or what accepts it. -/
theorem umbrella_part {umbrella : String} (isComplete : umbrella ∈ DocType.completeUmbrellas members) :
    ∃ part ∈ members, part ≠ umbrella ∧ part ≠ "never" ∧ classes.memberAccepts umbrella part ∧
      ∀ wide, classes.memberAccepts wide part →
        classes.memberAccepts umbrella wide ∨ classes.memberAccepts wide umbrella := by
  have table : ∀ pair ∈ [("array-key", "int"), ("scalar", "bool"), ("iterable", "array")],
      pair.2 ≠ pair.1 ∧ pair.2 ≠ "never" ∧ DocType.atoms pair.1 = [pair.1] ∧ DocType.atoms pair.2 = [pair.2] ∧
        pair.2 ∈ Atom.words ∧ pair.1 ∈ Atom.ladder pair.2 ∧ ∀ upper ∈ pair.2 :: Atom.ladder pair.2,
          upper = pair.1 ∨ upper ∈ Atom.words ∧ pair.1 ∈ Atom.ladder upper ∨
            pair.1 ∈ Atom.words ∧ upper ∈ Atom.ladder pair.1 := by decide
  have ofPair : ∀ umbrella part,
      (umbrella, part) ∈ [("array-key", "int"), ("scalar", "bool"), ("iterable", "array")] →
      part ≠ umbrella ∧ part ≠ "never" ∧ classes.memberAccepts umbrella part ∧
        ∀ wide, classes.memberAccepts wide part →
          classes.memberAccepts umbrella wide ∨ classes.memberAccepts wide umbrella := by
    intro umbrella part listed
    obtain ⟨different, notNever, umbrellaAtom, partAtom, isWord, above, uppers⟩ := table _ listed
    rw [← superTypes_word classes isWord] at above
    refine ⟨different, notNever, memberAccepts_of_superType umbrellaAtom partAtom above, fun wide accepted => ?_⟩
    have reached : ∀ atom ∈ DocType.atoms wide, atom ∈ part :: Atom.ladder part := by
      intro atom isAtom
      obtain ⟨source, isSource, found⟩ := mem_reach.mp (memberAccepts_iff.mp accepted atom isAtom)
      rw [partAtom, List.mem_singleton] at isSource
      rwa [isSource, superTypes_word classes isWord, ← List.mem_cons] at found
    by_cases below : ∃ atom ∈ DocType.atoms wide, umbrella = atom ∨ umbrella ∈ classes.superTypes atom
    · refine Or.inl (memberAccepts_iff.mpr fun atom isAtom => ?_)
      rw [umbrellaAtom, List.mem_singleton] at isAtom
      exact mem_reach.mpr (isAtom ▸ below)
    · refine Or.inr (memberAccepts_iff.mpr fun atom isAtom => mem_reach.mpr ⟨umbrella, by simp [umbrellaAtom], ?_⟩)
      rcases uppers atom (reached atom isAtom) with same | ⟨atomWord, higher⟩ | ⟨umbrellaWord, higher⟩
      · exact absurd ⟨atom, isAtom, Or.inl same.symm⟩ below
      · exact absurd ⟨atom, isAtom, Or.inr (by rwa [superTypes_word classes atomWord])⟩ below
      · exact Or.inr (by rwa [superTypes_word classes umbrellaWord])
  rcases DocType.mem_completeUmbrellas.mp isComplete with ⟨rfl, int, _⟩ | ⟨rfl, bool, _⟩ | ⟨rfl, _, array⟩
  · exact ⟨"int", int, ofPair _ _ (by simp)⟩
  · exact ⟨"bool", bool, ofPair _ _ (by simp)⟩
  · exact ⟨"array", array, ofPair _ _ (by simp)⟩

/-- In a normal form nothing is accepted by a member that takes others out. -/
theorem WellNamed.normalUnion_irredundant (named : classes.WellNamed) (noMixed : "mixed" ∉ members)
    {wide name : String} (isWide : wide ∈ classes.normalUnion members)
    (active : wide ∉ DocType.completeUmbrellas members) (isName : name ∈ classes.normalUnion members)
    (accepted : classes.memberAccepts wide name) : wide = name := by
  rw [named.mem_normalUnion noMixed] at isWide isName
  by_contra different
  -- neither takes the other out, so each would have to come before the other
  have nameFirst : name ∉ DocType.completeUmbrellas members ∧ classes.memberAccepts name wide ∧ ¬ wide < name := by
    by_contra otherwise
    refine isName.2 wide isWide.1 ⟨active, different, accepted, fun nameActive accepts => ?_⟩
    by_contra notBefore
    exact otherwise ⟨nameActive, accepts, notBefore⟩
  obtain ⟨nameActive, accepts, notBefore⟩ := nameFirst
  refine isWide.2 name isName.1 ⟨nameActive, Ne.symm different, accepts, fun _ _ => ?_⟩
  exact String.not_le.mp fun upper => different (String.le_antisymm upper (String.not_lt.mp notBefore))

/-- A union completes fewer umbrellas than another and has no other candidates. Then the normal forms are the
same if and only if it agrees with the other. -/
theorem WellNamed.normalUnion_eq_iff (named : classes.WellNamed) {whole part : List String}
    (noMixedWhole : "mixed" ∉ whole) (noMixedPart : "mixed" ∉ part) (subset : candidates part ⊆ candidates whole)
    (completes : DocType.completeUmbrellas part ⊆ DocType.completeUmbrellas whole) :
    classes.normalUnion part = classes.normalUnion whole ↔ classes.Agrees whole part := by
  constructor
  · intro same
    have inPart : ∀ {name}, name ∈ classes.normalUnion whole → name ∈ candidates part := by
      intro name isNormal
      rw [← same, named.mem_normalUnion noMixedPart] at isNormal
      exact isNormal.1
    refine ⟨fun name isCandidate => ?_, fun umbrella isComplete => ?_⟩
    · rcases named.mem_normalUnion_or_takesOut noMixedWhole isCandidate with stays | ⟨wide, stays, takesOut⟩
      · exact Or.inl (inPart stays)
      · exact Or.inr ⟨wide, inPart stays, takesOut⟩
    · by_cases still : umbrella ∈ DocType.completeUmbrellas part
      · exact Or.inl still
      have isCandidate : umbrella ∈ candidates whole := mem_candidates_iff.mpr
        ⟨Or.inr isComplete, fun never => absurd (never ▸ isComplete) (never_not_complete whole)⟩
      rcases named.mem_normalUnion_or_takesOut noMixedWhole isCandidate with stays | ⟨wide, stays, takesOut⟩
      · -- the umbrella would stay and take its parts out of one union only
        obtain ⟨part, isPart, different, notNever, below, between⟩ := umbrella_part classes isComplete
        have partCandidate : part ∈ candidates whole :=
          mem_candidates_iff.mpr ⟨Or.inl isPart, fun never => absurd never notNever⟩
        rw [← same] at stays
        rcases named.mem_normalUnion_or_takesOut noMixedWhole partCandidate with
            partStays | ⟨wide, wideStays, takesOut⟩
        · rw [← same] at partStays
          exact absurd (named.normalUnion_irredundant noMixedPart stays still partStays below).symm different
        · rw [← same] at wideStays
          have wideDiffers : umbrella ≠ wide := fun isWide => takesOut.1 (isWide ▸ isComplete)
          rcases between wide takesOut.2.2.1 with lower | upper
          · exact absurd (named.normalUnion_irredundant noMixedPart stays still wideStays lower) wideDiffers
          · rw [same, named.mem_normalUnion noMixedWhole] at stays wideStays
            exact absurd ⟨takesOut.1, Ne.symm wideDiffers, upper, fun active => absurd isComplete active⟩
              (stays.2 wide wideStays.1)
      · refine Or.inr ⟨wide, inPart stays, takesOut, fun isPart => ?_⟩
        have active : wide ∉ DocType.completeUmbrellas part := fun complete => takesOut.1 (completes complete)
        refine ⟨active, takesOut.2.1, takesOut.2.2.1, fun _ accepts => ?_⟩
        by_contra notBefore
        have umbrellaFirst : umbrella < wide := String.not_le.mp fun upper =>
          takesOut.2.1 (String.le_antisymm upper (String.not_lt.mp notBefore))
        rw [← same, named.mem_normalUnion noMixedPart] at stays
        exact stays.2 umbrella isPart ⟨still, Ne.symm takesOut.2.1, accepts, fun _ _ => umbrellaFirst⟩
  · intro agrees
    refine List.Subset.antisymm_of_pairwise (normalUnion_pairwise classes part) (normalUnion_pairwise classes whole)
      ?_ ?_
    · exact agrees.normalUnion_superset named noMixedWhole noMixedPart subset completes
    · exact agrees.normalUnion_subset named noMixedWhole noMixedPart subset completes

/-- Umbrellas are complete in a union with a group in normal form only if they are in the whole union. -/
theorem completeUmbrellas_group (before group after : List String) :
    DocType.completeUmbrellas (before ++ classes.normalUnion group ++ after) ⊆
      DocType.completeUmbrellas (before ++ group ++ after) := by
  intro umbrella isComplete
  have origin : ∀ name ∈ classes.normalUnion group, _ := fun name => mem_of_mem_normalUnion
  simp only [DocType.mem_completeUmbrellas, List.mem_append] at origin isComplete ⊢
  grind

theorem WellNamed.candidates_group (named : classes.WellNamed) (before group after : List String) :
    candidates (before ++ classes.normalUnion group ++ after) ⊆ candidates (before ++ group ++ after) := by
  intro name isCandidate
  obtain ⟨found, onlyNever⟩ := mem_candidates_iff.mp isCandidate
  refine mem_candidates_iff.mpr ⟨?_, fun never => ?_⟩
  · rcases found with isMember | isComplete
    · have origin : ∀ name ∈ classes.normalUnion group, _ := fun name => mem_of_mem_normalUnion
      simp only [DocType.mem_completeUmbrellas, List.mem_append] at origin isMember ⊢
      grind
    · exact Or.inr (completeUmbrellas_group before group after isComplete)
  · have groupNever : ∀ member ∈ group, member = "never" := by
      by_cases none : group = []
      · simp [none]
      · obtain ⟨first, isFirst⟩ := List.exists_mem_of_ne_nil _ (named.normalUnion_ne_nil none)
        have firstNever := onlyNever never first (by simp [isFirst])
        exact never_of_mem_normalUnion (firstNever ▸ isFirst)
    intro member isMember
    simp only [List.mem_append] at isMember onlyNever
    rcases isMember with (inBefore | inGroup) | inAfter
    · exact onlyNever never member (Or.inl (Or.inl inBefore))
    · exact groupNever member inGroup
    · exact onlyNever never member (Or.inr inAfter)

theorem WellNamed.normalUnion_group_iff (named : classes.WellNamed) (before group after : List String) :
    classes.normalUnion (before ++ classes.normalUnion group ++ after) =
        classes.normalUnion (before ++ group ++ after) ↔
      "mixed" ∈ before ++ group ++ after ∨
        classes.Agrees (before ++ group ++ after) (before ++ classes.normalUnion group ++ after) := by
  by_cases mixed : "mixed" ∈ before ++ group ++ after
  · have mixedGrouped : "mixed" ∈ before ++ classes.normalUnion group ++ after := by
      simp only [List.mem_append] at mixed ⊢
      refine mixed.imp_left fun found => found.imp_right fun inGroup => ?_
      simp [normalUnion_of_mixed inGroup]
    rw [normalUnion_of_mixed mixed, normalUnion_of_mixed mixedGrouped]
    exact ⟨fun _ => Or.inl mixed, fun _ => rfl⟩
  · have notGrouped : "mixed" ∉ before ++ classes.normalUnion group ++ after := by
      intro found
      simp only [List.mem_append, not_or] at mixed found
      rcases found with (inBefore | inGroup) | inAfter
      · exact mixed.1.1 inBefore
      · exact (mem_of_mem_normalUnion inGroup).elim mixed.1.2 (mixed_not_complete group)
      · exact mixed.2 inAfter
    rw [named.normalUnion_eq_iff mixed notGrouped (named.candidates_group before group after)
      (completeUmbrellas_group before group after)]
    exact (or_iff_right mixed).symm

/-- What a group takes out is taken out of the whole union, unless the umbrella that did it is complete there. -/
theorem WellNamed.agrees_group (named : classes.WellNamed) {before group after : List String}
    (noMixed : "mixed" ∉ group)
    (stable : ∀ umbrella ∈ DocType.completeUmbrellas (before ++ group ++ after),
      umbrella ∈ DocType.completeUmbrellas (before ++ classes.normalUnion group ++ after) ∧
        (umbrella ∈ group → umbrella ∈ DocType.completeUmbrellas group)) :
    classes.Agrees (before ++ group ++ after) (before ++ classes.normalUnion group ++ after) := by
  have fewer : DocType.completeUmbrellas group ⊆ DocType.completeUmbrellas (before ++ group ++ after) := by
    intro umbrella isComplete
    simp only [DocType.mem_completeUmbrellas, List.mem_append] at isComplete ⊢
    grind
  have stillNever : (∀ member ∈ before ++ group ++ after, member = "never") →
      ∀ member ∈ before ++ classes.normalUnion group ++ after, member = "never" := by
    intro never member isMember
    have groupNever : ∀ member ∈ group, member = "never" := fun member inGroup => never member (by simp [inGroup])
    simp only [List.mem_append] at isMember never
    rcases isMember with (inBefore | isNormal) | inAfter
    · exact never member (Or.inl (Or.inl inBefore))
    · rcases mem_of_mem_normalUnion isNormal with inGroup | isComplete
      · exact groupNever member inGroup
      · rw [completeUmbrellas_of_never groupNever] at isComplete
        exact absurd isComplete List.not_mem_nil
    · exact never member (Or.inr inAfter)
  refine ⟨fun name isCandidate => ?_, fun umbrella isComplete => Or.inl (stable umbrella isComplete).1⟩
  obtain ⟨found, onlyNever⟩ := mem_candidates_iff.mp isCandidate
  have listed : name ∈ before ++ classes.normalUnion group ++ after →
      name ∈ candidates (before ++ classes.normalUnion group ++ after) :=
    fun isMember => mem_candidates_iff.mpr ⟨Or.inl isMember, fun never => stillNever (onlyNever never)⟩
  simp only [List.mem_append] at found
  rcases found with ((inBefore | inGroup) | inAfter) | isComplete
  · exact Or.inl (listed (by simp [inBefore]))
  · have groupCandidate : name ∈ candidates group := mem_candidates_iff.mpr
      ⟨Or.inl inGroup, fun never member inGroup => onlyNever never member (by simp [inGroup])⟩
    rcases named.mem_normalUnion_or_takesOut noMixed groupCandidate with stays | ⟨wide, stays, takesOut⟩
    · exact Or.inl (listed (by simp [stays]))
    · have wideGroup : wide ∈ group := (mem_of_mem_normalUnion stays).resolve_right takesOut.1
      have active : wide ∉ DocType.completeUmbrellas (before ++ group ++ after) :=
        fun isComplete => takesOut.1 ((stable wide isComplete).2 wideGroup)
      refine Or.inr ⟨wide, mem_candidates_iff.mpr ⟨Or.inl (by simp [stays]), fun never => ?_⟩,
        takesOut.of_complete_subset fewer active⟩
      have nameNever := never_of_mem_normalUnion (never ▸ stays) name inGroup
      exact absurd (never.trans nameNever.symm) takesOut.2.1
  · exact Or.inl (listed (by simp [inAfter]))
  · refine Or.inl (mem_candidates_iff.mpr ⟨Or.inr (stable name isComplete).1, fun never => ?_⟩)
    exact absurd (never ▸ isComplete) (never_not_complete _)

/-- Putting a group of members into normal form first leaves the normal form of the union as it is if and only
if the grouped union agrees with the whole one, or `mixed` is a member. It agrees if every umbrella that the
whole union completes is complete after grouping and absorbs nothing in the group. -/
theorem normalUnion_grouping (named : classes.WellNamed) (before group after : List String) :
    (classes.normalUnion (before ++ classes.normalUnion group ++ after) =
        classes.normalUnion (before ++ group ++ after) ↔
      "mixed" ∈ before ++ group ++ after ∨
        classes.Agrees (before ++ group ++ after) (before ++ classes.normalUnion group ++ after)) ∧
    ((∀ umbrella ∈ DocType.completeUmbrellas (before ++ group ++ after),
      umbrella ∈ DocType.completeUmbrellas (before ++ classes.normalUnion group ++ after) ∧
        (umbrella ∈ group → umbrella ∈ DocType.completeUmbrellas group)) →
      classes.normalUnion (before ++ classes.normalUnion group ++ after) =
        classes.normalUnion (before ++ group ++ after)) := by
  refine ⟨named.normalUnion_group_iff before group after, fun stable => ?_⟩
  refine (named.normalUnion_group_iff before group after).mpr ?_
  by_cases mixed : "mixed" ∈ before ++ group ++ after
  · exact Or.inl mixed
  · exact Or.inr (named.agrees_group (fun inGroup => mixed (by simp [inGroup])) stable)

theorem normalUnion_grouping_scalars :
    cyclicTable.WellNamed ∧
      cyclicTable.normalUnion
          (["null", "\\A"] ++ cyclicTable.normalUnion ["\\B", "string", "int"] ++ ["bool", "float"]) =
        cyclicTable.normalUnion (["null", "\\A"] ++ ["\\B", "string", "int"] ++ ["bool", "float"]) := by
  have named : cyclicTable.WellNamed := by decide
  exact ⟨named, (normalUnion_grouping named _ _ _).1.mpr (by decide +kernel)⟩

/-- Grouping may change a normal form. In `string|array-key` the umbrella absorbs `string`, so that it lacks a
part when `int` comes in. In `\Traversable|array|object` the object type absorbs `\Traversable`, so that
`iterable` lacks a part when the union is put into normal form again. -/
theorem normalUnion_grouping_differs :
    WellNamed .empty ∧
      (readTypedName .empty .root "int|(string|array-key)" .typeOnly false).type ≠
        (readTypedName .empty .root "int|string|array-key" .typeOnly false).type ∧
      normalUnion .empty (["int"] ++ normalUnion .empty ["string", "array-key"] ++ []) ≠
        normalUnion .empty (["int"] ++ ["string", "array-key"] ++ []) ∧
      normalUnion .empty (normalUnion .empty ["\\Traversable", "array", "object"]) ≠
        normalUnion .empty ["\\Traversable", "array", "object"] := by
  refine ⟨by decide, by decide +kernel, by decide +kernel, by decide +kernel⟩

end ClassTable

end DocTypes
