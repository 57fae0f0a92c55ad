import DocTypes.Proofs.SourceEdits

namespace DocTypes

namespace Text

theorem isBoundary_iff {n : Nat} {cs : List Char} :
    isBoundary n cs ↔ ∃ before after, cs = before ++ after ∧ byteSize before = n := by
  constructor
  · intro boundary
    exact ⟨takeBytes n cs, dropBytes n cs, (takeBytes_append_dropBytes n cs).symm,
      by simpa [isBoundary] using boundary⟩
  · rintro ⟨before, after, rfl, rfl⟩
    exact isBoundary_append before after

theorem takeBytes_add (before after : List Char) (n : Nat) :
    takeBytes (byteSize before + n) (before ++ after) = before ++ takeBytes n after := by
  induction before with
  | nil => simp [byteSize]
  | cons c before ih =>
    simp only [byteSize, List.cons_append, takeBytes]
    rw [if_pos (by omega), show c.utf8Size + byteSize before + n - c.utf8Size = byteSize before + n by omega, ih]

/-- Two boundaries cut a text into three. -/
theorem exists_cuts {start stop : Nat} {cs : List Char} (le : start ≤ stop) (startsAt : isBoundary start cs)
    (stopsAt : isBoundary stop cs) :
    ∃ before middle after, cs = before ++ (middle ++ after) ∧ byteSize before = start ∧
      byteSize middle = stop - start := by
  obtain ⟨before, rest, split, isStart⟩ := isBoundary_iff.mp startsAt
  obtain ⟨upTo, after, split', isStop⟩ := isBoundary_iff.mp stopsAt
  obtain ⟨middle, rfl, rfl⟩ := exists_append_of_byteSize_le (split.symm.trans split') (by omega)
  rw [byteSize_append] at isStop
  exact ⟨before, middle, after, split, isStart, by omega⟩

theorem slice_middle {start stop : Nat} {before middle after : List Char} (startsAt : byteSize before = start)
    (size : byteSize middle = stop - start) : slice start stop (before ++ (middle ++ after)) = middle := by
  rw [slice, ← startsAt, dropBytes_byteSize, startsAt, ← size, takeBytes_byteSize]

theorem byteSize_slice {start stop : Nat} {cs : List Char} (le : start ≤ stop) (startsAt : isBoundary start cs)
    (stopsAt : isBoundary stop cs) : byteSize (slice start stop cs) = stop - start := by
  obtain ⟨before, middle, after, rfl, isStart, size⟩ := exists_cuts le startsAt stopsAt
  rw [slice_middle isStart size, size]

theorem isBoundary_zero (cs : List Char) : isBoundary 0 cs :=
  isBoundary_append [] cs

theorem le_byteSize_of_isBoundary {n : Nat} {cs : List Char} (boundary : isBoundary n cs) : n ≤ byteSize cs := by
  obtain ⟨before, after, rfl, rfl⟩ := isBoundary_iff.mp boundary
  rw [byteSize_append]
  omega

/-- A boundary in the first part of a text does not depend on the second. -/
theorem isBoundary_append_left {n : Nat} {front : List Char} (le : n ≤ byteSize front) (rest rest' : List Char) :
    isBoundary n (front ++ rest) → isBoundary n (front ++ rest') := by
  intro boundary
  obtain ⟨before, after, split, rfl⟩ := isBoundary_iff.mp boundary
  obtain ⟨gap, rfl, -⟩ := exists_append_of_byteSize_le split.symm le
  rw [List.append_assoc]
  exact isBoundary_append ..

end Text

namespace Edit

/-- The edit is in range and splits no character. -/
def InBounds (source : List Char) (edit : Edit) : Prop :=
  edit.stop ≤ Text.byteSize source ∧ Text.isBoundary edit.offset source ∧ Text.isBoundary edit.stop source

/-- The spans of two edits overlap. An insertion covers nothing, so it overlaps only a span that it lies strictly
inside, and no other insertion. -/
def Overlaps (edit other : Edit) : Prop :=
  edit.offset < other.stop ∧ other.offset < edit.stop

theorem not_overlaps_iff {edit other : Edit} : ¬ edit.Overlaps other ↔ edit.Apart other := by
  simp only [Overlaps, Apart]
  omega

/-- A source from byte `start` on, with the spans of edits in its order replaced. All places are those in the
source. -/
def replaceFrom (source : List Char) (start : Nat) : List Edit → List Char
  | [] => Text.dropBytes start source
  | edit :: edits =>
    Text.slice start edit.offset source ++ (edit.replacement.toList ++ replaceFrom source edit.stop edits)

section Replacement

variable {source : List Char} {edits : List Edit}

/-- What is in front of the first edit is the source. -/
theorem replaceFrom_cut {start cut : Nat} (le : start ≤ cut) (startsAt : Text.isBoundary start source)
    (cutsAt : Text.isBoundary cut source) (behind : ∀ edit ∈ edits.head?, cut ≤ edit.offset) :
    replaceFrom source start edits = Text.slice start cut source ++ replaceFrom source cut edits := by
  obtain ⟨before, middle, after, rfl, isStart, size⟩ := Text.exists_cuts le startsAt cutsAt
  have isCut : Text.byteSize (before ++ middle) = cut := by
    rw [Text.byteSize_append]
    omega
  rw [Text.slice_middle isStart size]
  have dropped : Text.dropBytes cut (before ++ (middle ++ after)) = after := by
    rw [← List.append_assoc, ← isCut, Text.dropBytes_byteSize]
  cases edits with
  | nil =>
    rw [replaceFrom, replaceFrom, dropped, ← isStart, Text.dropBytes_byteSize]
  | cons edit edits =>
    have further : cut ≤ edit.offset := behind edit rfl
    have reach : edit.offset - start = Text.byteSize middle + (edit.offset - cut) := by omega
    rw [replaceFrom, replaceFrom, Text.slice, Text.slice, dropped, reach, ← isStart, Text.dropBytes_byteSize,
      Text.takeBytes_add, List.append_assoc]

theorem replaceFrom_nil (source : List Char) : replaceFrom source 0 [] = source :=
  Text.dropBytes_byteSize [] source

end Replacement

/-- Edits of a source that can be made together, in the order of the source. -/
structure Chosen (source : List Char) (made : List Edit) : Prop where
  inBounds : ∀ edit ∈ made, edit.InBounds source
  ordered : made.Pairwise fun edit other => edit.stop ≤ other.offset

/-- An edit ends before the first of some edits starts. -/
def EndsBefore (made : List Edit) (edit : Edit) : Prop :=
  ∀ first ∈ made.head?, edit.stop ≤ first.offset

namespace Chosen

variable {source : List Char} {made : List Edit} {edit : Edit}

theorem cons (chosen : Chosen source made) (inBounds : edit.InBounds source) (ends : edit.EndsBefore made) :
    Chosen source (edit :: made) := by
  refine ⟨List.forall_mem_cons.mpr ⟨inBounds, chosen.inBounds⟩, List.pairwise_cons.mpr ⟨?_, chosen.ordered⟩⟩
  cases made with
  | nil => simp
  | cons first made =>
    have before : edit.stop ≤ first.offset := ends first rfl
    have later := (List.pairwise_cons.mp chosen.ordered).1
    refine List.forall_mem_cons.mpr ⟨before, fun other isOther => ?_⟩
    have bound := later other isOther
    simp only [stop] at bound before ⊢
    omega

/-- In front of the edits made, the text has the boundaries of the source. -/
theorem isBoundary_iff (chosen : Chosen source made) {n : Nat} (before : ∀ first ∈ made.head?, n ≤ first.offset) :
    Text.isBoundary n (replaceFrom source 0 made) ↔ Text.isBoundary n source := by
  cases made with
  | nil => rw [replaceFrom_nil]
  | cons first made =>
    obtain ⟨front, rest, rfl, size⟩ := Text.isBoundary_iff.mp (chosen.inBounds first (List.mem_cons_self ..)).2.1
    have inFront : n ≤ Text.byteSize front := size ▸ before first rfl
    have text : Text.slice 0 first.offset (front ++ rest) = front := by
      exact @Text.slice_middle 0 first.offset [] front rest rfl (by omega)
    rw [replaceFrom, text]
    exact ⟨Text.isBoundary_append_left inFront _ _, Text.isBoundary_append_left inFront _ _⟩

/-- Making an edit in front of those made replaces its span in the source. -/
theorem splice_eq (inBounds : edit.InBounds source) (ends : edit.EndsBefore made) :
    Text.splice edit.offset edit.len edit.replacement.toList (replaceFrom source 0 made) =
      replaceFrom source 0 (edit :: made) := by
  obtain ⟨_, startsAt, stopsAt⟩ := inBounds
  have le : edit.offset ≤ edit.stop := Nat.le_add_right ..
  have toStart : Text.byteSize (Text.slice 0 edit.offset source) = edit.offset := by
    rw [Text.byteSize_slice (Nat.zero_le _) (Text.isBoundary_zero source) startsAt, Nat.sub_zero]
  have toStop : Text.byteSize (Text.slice edit.offset edit.stop source) = edit.len := by
    rw [Text.byteSize_slice le startsAt stopsAt, stop, Nat.add_sub_cancel_left]
  have spliced := Text.splice_middle (Text.slice 0 edit.offset source) (Text.slice edit.offset edit.stop source)
    (replaceFrom source edit.stop made) edit.replacement.toList
  rw [toStart, toStop, ← replaceFrom_cut le startsAt stopsAt ends,
    ← replaceFrom_cut (Nat.zero_le _) (Text.isBoundary_zero source) startsAt
      fun first isFirst => le.trans (ends first isFirst)]
    at spliced
  rw [spliced, replaceFrom]

/-- An edit is made if and only if it is in bounds in the source and ends before the edits made. -/
theorem applyBefore_eq_some_iff (chosen : Chosen source made) {changed : List Char} :
    edit.applyBefore (made.head?.map Edit.offset) (replaceFrom source 0 made) = some changed ↔
      edit.InBounds source ∧ edit.EndsBefore made ∧ replaceFrom source 0 (edit :: made) = changed := by
  have le : edit.offset ≤ edit.stop := Nat.le_add_right ..
  have limit : (made.head?.map Edit.offset).all (edit.stop ≤ ·) ↔ edit.EndsBefore made := by
    cases made <;> simp [EndsBefore]
  have boundaries : edit.EndsBefore made →
      (Text.isBoundary edit.offset (replaceFrom source 0 made) ↔ Text.isBoundary edit.offset source) ∧
        (Text.isBoundary edit.stop (replaceFrom source 0 made) ↔ Text.isBoundary edit.stop source) := fun ends =>
    ⟨chosen.isBoundary_iff fun first isFirst => le.trans (ends first isFirst), chosen.isBoundary_iff ends⟩
  simp only [applyBefore, Option.ite_none_right_eq_some, Option.some.injEq, Bool.and_eq_true, decide_eq_true_eq,
    limit]
  constructor
  · rintro ⟨⟨⟨⟨ends, _⟩, startsAt⟩, stopsAt⟩, rfl⟩
    rw [(boundaries ends).1] at startsAt
    rw [(boundaries ends).2] at stopsAt
    have inBounds : edit.InBounds source := ⟨Text.le_byteSize_of_isBoundary stopsAt, startsAt, stopsAt⟩
    exact ⟨inBounds, ends, (splice_eq inBounds ends).symm⟩
  · rintro ⟨inBounds, ends, rfl⟩
    have startsAt := (boundaries ends).1.mpr inBounds.2.1
    have stopsAt := (boundaries ends).2.mpr inBounds.2.2
    exact ⟨⟨⟨⟨ends, Text.le_byteSize_of_isBoundary stopsAt⟩, startsAt⟩, stopsAt⟩, splice_eq inBounds ends⟩

/-- An edit that comes later from the back and does not end before the edits made overlaps the first of them. -/
theorem exists_overlap (later : ∀ first ∈ made.head?, laterFirst first edit) (beyond : ¬ edit.EndsBefore made) :
    ∃ other ∈ made, edit.Overlaps other := by
  obtain ⟨first, isFirst, notBefore⟩ : ∃ first ∈ made.head?, ¬ edit.stop ≤ first.offset := by
    simpa [EndsBefore] using beyond
  refine ⟨first, List.mem_of_mem_head? isFirst, ?_⟩
  have order := laterFirst_iff.mp (later first isFirst)
  simp only [Overlaps, stop] at notBefore ⊢
  omega

/-- The edits made from the back, and those left out. -/
theorem run (chosen : Chosen source made) {edits : List Edit}
    (sorted : edits.Pairwise fun edit other => laterFirst edit other)
    (later : ∀ first ∈ made.head?, ∀ edit ∈ edits, laterFirst first edit) :
    ∃ kept left : List Edit, (kept ++ left).Perm edits ∧ Chosen source (kept.reverse ++ made) ∧
      applyFrom (made.head?.map Edit.offset) (replaceFrom source 0 made) edits =
        replaceFrom source 0 (kept.reverse ++ made) ∧
      ∀ edit ∈ left, ¬ edit.InBounds source ∨ ∃ other ∈ kept.reverse ++ made, edit.Overlaps other := by
  induction edits generalizing made with
  | nil => exact ⟨[], [], .nil, chosen, rfl, by simp⟩
  | cons edit edits ih =>
    obtain ⟨afterEdit, sortedRest⟩ := List.pairwise_cons.mp sorted
    have laterEdit : ∀ first ∈ made.head?, laterFirst first edit := fun first isFirst =>
      later first isFirst edit (List.mem_cons_self ..)
    have laterRest : ∀ first ∈ made.head?, ∀ other ∈ edits, laterFirst first other :=
      fun first isFirst other isOther =>
      later first isFirst other (List.mem_cons_of_mem _ isOther)
    cases makes : edit.applyBefore (made.head?.map Edit.offset) (replaceFrom source 0 made) with
    | some changed =>
      obtain ⟨inBounds, ends, rfl⟩ := chosen.applyBefore_eq_some_iff.mp makes
      obtain ⟨kept, left, perm, chosenAll, applied, leftOut⟩ :=
        ih (chosen.cons inBounds ends) sortedRest (by simpa using afterEdit)
      refine ⟨edit :: kept, left, perm.cons edit, ?_⟩
      rw [List.reverse_cons, List.append_assoc, List.singleton_append]
      refine ⟨chosenAll, ?_, leftOut⟩
      rw [applyFrom, makes]
      exact applied
    | none =>
      obtain ⟨kept, left, perm, chosenAll, applied, leftOut⟩ := ih chosen sortedRest laterRest
      refine ⟨kept, edit :: left, List.perm_middle.trans (perm.cons edit), chosenAll, ?_, ?_⟩
      · rw [applyFrom, makes]
        exact applied
      · refine List.forall_mem_cons.mpr ⟨?_, leftOut⟩
        by_cases inBounds : edit.InBounds source
        · have beyond : ¬ edit.EndsBefore made := fun ends => by
            rw [chosen.applyBefore_eq_some_iff.mpr ⟨inBounds, ends, rfl⟩] at makes
            cases makes
          obtain ⟨other, isOther, overlaps⟩ := exists_overlap laterEdit beyond
          exact Or.inr ⟨other, List.mem_append_right _ isOther, overlaps⟩
        · exact Or.inl inBounds

end Chosen

/-- Edits that differ in place or length are made alike in whatever order they are given. -/
theorem applyAll_perm (source : List Char) {edits others : List Edit}
    (distinct : (edits.map fun edit => (edit.offset, edit.len)).Nodup) (perm : others.Perm edits) :
    applyAll source others = applyAll source edits := by
  have sorted : others.mergeSort laterFirst = edits.mergeSort laterFirst := by
    refine List.Perm.eq_of_pairwise (fun edit other isEdit isOther later earlier => ?_)
      (mergeSort_laterFirst others) (mergeSort_laterFirst edits)
      ((List.mergeSort_perm others _).trans (perm.trans (List.mergeSort_perm edits _).symm))
    rw [laterFirst_iff] at later earlier
    refine List.inj_on_of_nodup_map distinct (perm.mem_iff.mp (List.mem_mergeSort.mp isEdit))
      (List.mem_mergeSort.mp isOther) ?_
    rw [Prod.mk.injEq]
    omega
  rw [applyAll, applyAll, sorted]

/-- Making edits from the back makes a choice of them that no other edit can be added to. -/
theorem exists_chosen (source : List Char) (edits : List Edit) :
    ∃ ordered left : List Edit, (ordered ++ left).Perm edits ∧ Chosen source ordered ∧
      applyAll source edits = replaceFrom source 0 ordered ∧
      ∀ edit ∈ left, ¬ edit.InBounds source ∨ ∃ other ∈ ordered, edit.Overlaps other := by
  have start : Chosen source [] := ⟨by simp, .nil⟩
  obtain ⟨kept, left, perm, chosen, applied, leftOut⟩ := start.run (mergeSort_laterFirst edits) (by simp)
  rw [List.append_nil] at chosen applied leftOut
  rw [replaceFrom_nil] at applied
  have split : (kept.reverse ++ left).Perm edits :=
    ((List.reverse_perm kept).append_right left).trans (perm.trans (List.mergeSort_perm edits _))
  exact ⟨kept.reverse, left, split, chosen, applied, leftOut⟩

end Edit

namespace Diagnostic

/-- Fixing a source makes some of the edits, at once and to the source itself: they do not overlap, are in range and
split no character, and all else stays. An edit that is left out is out of range, splits a character or overlaps one
that is made. Edits that differ in place or length are made alike in whatever order the verdicts come. -/
theorem applyFixes_maximal (source : List Char) (diagnostics : List Diagnostic) :
    (∃ made left ordered : List Edit, made.Sublist (edits diagnostics) ∧ (made ++ left).Perm (edits diagnostics) ∧
      made.Pairwise (fun edit other => ¬ edit.Overlaps other) ∧ (∀ edit ∈ made, edit.InBounds source) ∧
      ordered.Perm made ∧ ordered.Pairwise (fun edit other => edit.stop ≤ other.offset) ∧
      applyFixes source diagnostics = Edit.replaceFrom source 0 ordered ∧
      ∀ edit ∈ left, ¬ edit.InBounds source ∨ ∃ other ∈ made, edit.Overlaps other) ∧
    (((edits diagnostics).map fun edit => (edit.offset, edit.len)).Nodup →
      ∀ others : List Diagnostic, others.Perm diagnostics →
        applyFixes source others = applyFixes source diagnostics) := by
  refine ⟨?_, fun distinct others perm => Edit.applyAll_perm source distinct (perm.flatMap_right _)⟩
  obtain ⟨ordered, left, split, chosen, applied, leftOut⟩ := Edit.exists_chosen source (edits diagnostics)
  -- the edits made, in the order in which they are given
  obtain ⟨made, isMade, sublist⟩ : List.Subperm ordered (edits diagnostics) :=
    (List.sublist_append_left ordered left).subperm.trans split.subperm
  refine ⟨made, left, ordered, sublist, (isMade.append_right left).trans split, ?_, ?_, isMade.symm, chosen.ordered,
    applied, fun edit isLeft => ?_⟩
  · have apart : ordered.Pairwise fun edit other => edit.Apart other := chosen.ordered.imp Or.inl
    have apartMade := (isMade.pairwise_iff fun apart => Edit.Apart.symm apart).mpr apart
    exact apartMade.imp Edit.not_overlaps_iff.mpr
  · exact fun edit isEdit => chosen.inBounds edit (isMade.mem_iff.mp isEdit)
  · refine (leftOut edit isLeft).imp_right fun ⟨other, isOther, overlaps⟩ => ?_
    exact ⟨other, isMade.mem_iff.mpr isOther, overlaps⟩

/-- Verdicts whose edits get in each other's way, from back to front: in `aéz`, one edit is out of range, one is
within the second character and one overlaps two others. -/
def crowdedFixes : List Diagnostic :=
  [{ fileLevel with fix := some [⟨3, 9, "?"⟩, ⟨2, 1, "x"⟩] },
   { fileLevel with fix := some [⟨1, 2, "e"⟩, ⟨1, 0, "+"⟩, ⟨0, 3, "!"⟩] },
   { fileLevel with fix := some [⟨0, 1, "b"⟩] }]

theorem applyFixes_maximal_crowded :
    ((edits crowdedFixes).map fun edit => (edit.offset, edit.len)).Nodup ∧
      applyFixes "aéz".toList crowdedFixes = "b+ez".toList ∧
      applyFixes "aéz".toList crowdedFixes.reverse = "b+ez".toList := by
  have distinct : ((edits crowdedFixes).map fun edit => (edit.offset, edit.len)).Nodup := by decide
  have sorted : (edits crowdedFixes).Pairwise fun edit other => Edit.laterFirst edit other := by decide
  have fixed : applyFixes "aéz".toList crowdedFixes = "b+ez".toList := by
    have inOrder : applyFixes "aéz".toList crowdedFixes = Edit.applyFrom none "aéz".toList (edits crowdedFixes) :=
      congrArg (Edit.applyFrom none "aéz".toList) (List.mergeSort_of_pairwise sorted)
    rw [inOrder]
    decide
  have reversed := (applyFixes_maximal "aéz".toList crowdedFixes).2 distinct _ (List.reverse_perm _)
  exact ⟨distinct, fixed, reversed.trans fixed⟩

end Diagnostic

end DocTypes
