import DocTypes.Edit
import DocTypes.Proofs.Scanning
import Mathlib.Data.List.Sort

namespace DocTypes

namespace Text

theorem byteSize_eq_zero {cs : List Char} : byteSize cs = 0 ↔ cs = [] := by
  cases cs with
  | nil => simp [byteSize]
  | cons c cs =>
    have positive := Char.utf8Size_pos c
    simp only [byteSize, reduceCtorEq, iff_false]
    omega

theorem byteSize_pos {cs : List Char} (nonempty : cs ≠ []) : 0 < byteSize cs :=
  Nat.pos_of_ne_zero fun none => nonempty (byteSize_eq_zero.mp none)

theorem isBoundary_append (before after : List Char) : isBoundary (byteSize before) (before ++ after) := by
  rw [isBoundary, takeBytes_byteSize, beq_self_eq_true]

/-- Of two starts of one text the one with fewer bytes is a start of the other. -/
theorem exists_append_of_byteSize_le {first second rest rest' : List Char} (same : first ++ rest = second ++ rest')
    (le : byteSize first ≤ byteSize second) : ∃ gap, second = first ++ gap ∧ rest = gap ++ rest' := by
  rcases List.append_eq_append_iff.mp same with ⟨gap, isSecond, isRest⟩ | ⟨gap, isFirst, isRest⟩
  · exact ⟨gap, isSecond, isRest⟩
  · rw [isFirst, byteSize_append] at le
    obtain rfl : gap = [] := byteSize_eq_zero.mp (by omega)
    exact ⟨[], by simpa using isFirst.symm, by simpa using isRest.symm⟩

end Text

/-- Sorting by a number. -/
theorem ascending_mergeSort {α : Type} (key : α → Nat) (items : List α) :
    (items.mergeSort fun first second => decide (key first ≤ key second)).Pairwise
      fun first second => key first ≤ key second := by
  have sorted : (items.mergeSort fun first second => decide (key first ≤ key second)).Pairwise
      fun first second => decide (key first ≤ key second) := by
    refine List.pairwise_mergeSort (fun a b c => ?_) (fun a b => ?_) items
    · simp only [decide_eq_true_eq]
      omega
    · simp only [Bool.or_eq_true, decide_eq_true_eq]
      omega
  exact sorted.imp of_decide_eq_true

namespace Edit

/-- The edit covers some whole characters of a text. -/
def Fits (edit : Edit) (text : List Char) : Prop :=
  ∃ before old after, text = before ++ (old ++ after) ∧ edit.offset = Text.byteSize before ∧
    edit.len = Text.byteSize old ∧ old ≠ []

/-- An edit of what it covers, if it ends before the limit. -/
theorem applyBefore_middle {edit : Edit} {limit : Option Nat} {front old : List Char}
    (starts : edit.offset = Text.byteSize front) (covers : edit.len = Text.byteSize old)
    (free : limit.all (edit.stop ≤ ·)) (rest : List Char) :
    edit.applyBefore limit (front ++ (old ++ rest)) = some (front ++ (edit.replacement.toList ++ rest)) := by
  have stops : edit.stop = Text.byteSize (front ++ old) := by rw [stop, starts, covers, Text.byteSize_append]
  have boundary : Text.isBoundary edit.offset (front ++ (old ++ rest)) := starts ▸ Text.isBoundary_append ..
  have boundaryStop : Text.isBoundary edit.stop (front ++ (old ++ rest)) := by
    rw [← List.append_assoc, stops]
    exact Text.isBoundary_append ..
  have size : edit.stop ≤ Text.byteSize (front ++ (old ++ rest)) := by
    rw [stops, ← List.append_assoc, Text.byteSize_append (front ++ old)]
    omega
  rw [applyBefore, if_pos, starts, covers, Text.splice_middle]
  rw [free, boundary, boundaryStop, decide_eq_true size]
  rfl

/-- One edit ends before the other starts. -/
def Apart (edit other : Edit) : Prop :=
  edit.stop ≤ other.offset ∨ other.stop ≤ edit.offset

theorem Apart.symm {edit other : Edit} (apart : Apart edit other) : Apart other edit :=
  Or.symm apart

/-- A text from byte `offset` on, and what edits in its order make of it: each replaces what it covers,
and the gaps between them stay. -/
inductive Rewrites : Nat → List Edit → List Char → List Char → Prop
  | done (offset : Nat) (rest : List Char) : Rewrites offset [] rest rest
  | replace {offset : Nat} {edit : Edit} {edits : List Edit} {rest now : List Char} (gap old : List Char)
      (starts : edit.offset = offset + Text.byteSize gap) (covers : edit.len = Text.byteSize old)
      (nonempty : old ≠ []) (more : Rewrites edit.stop edits rest now) :
      Rewrites offset (edit :: edits) (gap ++ (old ++ rest)) (gap ++ (edit.replacement.toList ++ now))

namespace Rewrites

variable {offset : Nat} {edits : List Edit} {cs now : List Char}

/-- More text in front. -/
theorem prepend {front : List Char} (rewrites : Rewrites (offset + Text.byteSize front) edits cs now) :
    Rewrites offset edits (front ++ cs) (front ++ now) := by
  cases rewrites with
  | done => exact .done _ _
  | replace gap old starts covers nonempty more =>
    rw [← List.append_assoc front, ← List.append_assoc front]
    refine .replace (front ++ gap) old ?_ covers nonempty more
    rw [starts, Text.byteSize_append, Nat.add_assoc]

theorem offset_le (rewrites : Rewrites offset edits cs now) : ∀ edit ∈ edits, offset ≤ edit.offset := by
  induction rewrites with
  | done => simp
  | replace gap old starts _ _ _ ih =>
    refine List.forall_mem_cons.mpr ⟨by omega, fun edit member => ?_⟩
    have later := ih edit member
    simp only [stop] at later
    omega

theorem ascending (rewrites : Rewrites offset edits cs now) :
    edits.Pairwise fun edit other => edit.offset < other.offset := by
  induction rewrites with
  | done => exact .nil
  | replace gap old starts covers nonempty more ih =>
    refine List.pairwise_cons.mpr ⟨fun edit member => ?_, ih⟩
    have later := more.offset_le edit member
    have positive := Text.byteSize_pos nonempty
    simp only [stop] at later
    omega

/-- Edits made from the back end up before the place where the first of them starts. -/
theorem applyFrom_reverse (rewrites : Rewrites offset edits cs now) (before : List Char)
    (placed : Text.byteSize before = offset) (limit : Option Nat)
    (atEnd : ∀ n ∈ limit, offset + Text.byteSize cs ≤ n) (others : List Edit) :
    ∃ limit', (∀ n ∈ limit', offset ≤ n) ∧
      applyFrom limit (before ++ cs) (edits.reverse ++ others) = applyFrom limit' (before ++ now) others := by
  induction rewrites generalizing before others with
  | done offset rest => exact ⟨limit, fun n member => by have bound := atEnd n member; omega, rfl⟩
  | @replace offset edit edits rest now gap old starts covers nonempty more ih =>
    have stopAt : Text.byteSize (before ++ gap ++ old) = edit.stop := by
      simp only [Text.byteSize_append, stop]
      omega
    have innerEnd : ∀ n ∈ limit, edit.stop + Text.byteSize rest ≤ n := by
      intro n member
      have bound := atEnd n member
      simp only [Text.byteSize_append] at bound stopAt
      omega
    obtain ⟨limit', within, applied⟩ := ih _ stopAt innerEnd (edit :: others)
    refine ⟨some edit.offset, fun n isLimit => ?_, ?_⟩
    · obtain rfl : edit.offset = n := by simpa using isLimit
      omega
    · have startAt : edit.offset = Text.byteSize (before ++ gap) := by
        rw [Text.byteSize_append]
        omega
      have free : limit'.all (edit.stop ≤ ·) := by
        cases limit' with
        | none => rfl
        | some n => simpa using within n rfl
      have made := applyBefore_middle startAt covers free now
      have reshaped : before ++ (gap ++ (old ++ rest)) = before ++ gap ++ old ++ rest := by simp
      rw [List.reverse_cons, List.append_assoc, List.singleton_append, reshaped, applied, List.append_assoc,
        applyFrom, made, List.append_assoc]

end Rewrites

theorem laterFirst_iff {edit other : Edit} : laterFirst edit other ↔
    other.offset < edit.offset ∨ edit.offset = other.offset ∧ other.len ≤ edit.len := by
  simp [laterFirst]

theorem mergeSort_laterFirst (edits : List Edit) :
    (edits.mergeSort laterFirst).Pairwise fun edit other => laterFirst edit other := by
  refine List.pairwise_mergeSort (fun a b c => ?_) (fun a b => ?_) edits
  · simp only [laterFirst_iff]
    omega
  · simp only [Bool.or_eq_true, laterFirst_iff]
    omega

/-- Edits at different places are made from the back to the front. -/
theorem mergeSort_eq_reverse {edits ordered : List Edit} (perm : edits.Perm ordered)
    (ascending : ordered.Pairwise fun edit other => edit.offset < other.offset) :
    edits.mergeSort laterFirst = ordered.reverse := by
  have distinct : (ordered.map Edit.offset).Nodup := List.pairwise_map.mpr (ascending.imp Nat.ne_of_lt)
  refine List.Perm.eq_of_pairwise (fun edit other isEdit isOther later earlier => ?_) (mergeSort_laterFirst edits)
    ?_ ((List.mergeSort_perm edits _).trans (perm.trans (List.reverse_perm ordered).symm))
  · rw [laterFirst_iff] at later earlier
    exact List.inj_on_of_nodup_map distinct (perm.mem_iff.mp (List.mem_mergeSort.mp isEdit))
      (List.mem_reverse.mp isOther) (by omega)
  · rw [List.pairwise_reverse]
    exact ascending.imp fun before => laterFirst_iff.mpr (Or.inl before)

/-- All edits of a text are made, in whatever order they are given. -/
theorem applyAll_of_rewrites {edits ordered : List Edit} {text now : List Char} (perm : edits.Perm ordered)
    (rewrites : Rewrites 0 ordered text now) : applyAll text edits = now := by
  rw [applyAll, mergeSort_eq_reverse perm rewrites.ascending]
  obtain ⟨limit, _, applied⟩ := rewrites.applyFrom_reverse [] rfl none (by simp) []
  simpa [applyFrom] using applied

/-- Edits in the order of the text, each within it and none over another, rewrite it. -/
theorem exists_rewrites {before rest : List Char} {edits : List Edit}
    (fits : ∀ edit ∈ edits, edit.Fits (before ++ rest))
    (ordered : edits.Pairwise fun edit other => edit.stop ≤ other.offset)
    (behind : ∀ edit ∈ edits, Text.byteSize before ≤ edit.offset) :
    ∃ now, Rewrites (Text.byteSize before) edits rest now := by
  induction edits generalizing before rest with
  | nil => exact ⟨rest, .done _ _⟩
  | cons edit edits ih =>
    obtain ⟨fitsFirst, fitsMore⟩ := List.forall_mem_cons.mp fits
    obtain ⟨behindFirst, _⟩ := List.forall_mem_cons.mp behind
    obtain ⟨first, more⟩ := List.pairwise_cons.mp ordered
    obtain ⟨start, old, after, split, starts, covers, nonempty⟩ := fitsFirst
    obtain ⟨gap, rfl, rfl⟩ := Text.exists_append_of_byteSize_le split (starts ▸ behindFirst)
    have stopAt : Text.byteSize (before ++ (gap ++ old)) = edit.stop := by
      simp only [Text.byteSize_append, stop] at starts ⊢
      omega
    have fitsAfter : ∀ edit ∈ edits, edit.Fits (before ++ (gap ++ old) ++ after) := by simpa using fitsMore
    obtain ⟨now, rewrites⟩ := ih fitsAfter more fun edit member => stopAt ▸ first edit member
    refine ⟨_, .replace gap old ?_ covers nonempty (stopAt ▸ rewrites)⟩
    rw [starts, Text.byteSize_append]

theorem Fits.len_pos {edit : Edit} {text : List Char} (fits : edit.Fits text) : 0 < edit.len := by
  obtain ⟨_, old, _, _, _, covers, nonempty⟩ := fits
  rw [covers]
  exact Text.byteSize_pos nonempty

/-- Edits that do not overlap can be put in the order of the text. -/
theorem exists_ordered {text : List Char} {edits : List Edit} (fits : ∀ edit ∈ edits, edit.Fits text)
    (apart : edits.Pairwise Apart) : ∃ ordered now, ordered.Perm edits ∧ Rewrites 0 ordered text now := by
  have perm := List.mergeSort_perm edits fun edit other => decide (edit.offset ≤ other.offset)
  have ascending := ascending_mergeSort Edit.offset edits
  have fitsOrdered := fun edit member => fits edit (perm.mem_iff.mp member)
  have apartOrdered := (perm.pairwise_iff fun apart => Apart.symm apart).mpr apart
  have behind : (edits.mergeSort fun edit other => decide (edit.offset ≤ other.offset)).Pairwise
      fun edit other => edit.stop ≤ other.offset := by
    refine (ascending.and apartOrdered).imp_of_mem fun {edit other} _ isOther both => ?_
    have positive := (fitsOrdered other isOther).len_pos
    simp only [Apart, stop] at both ⊢
    omega
  obtain ⟨now, rewrites⟩ : ∃ now, Rewrites (Text.byteSize []) _ text now :=
    exists_rewrites fitsOrdered behind fun _ _ => Nat.zero_le _
  exact ⟨_, now, perm, rewrites⟩

theorem Fits.boundaries {edit : Edit} {text : List Char} (fits : edit.Fits text) :
    edit.stop ≤ Text.byteSize text ∧ Text.isBoundary edit.offset text ∧ Text.isBoundary edit.stop text := by
  obtain ⟨before, old, after, rfl, starts, covers, _⟩ := fits
  have stopAt : edit.stop = Text.byteSize (before ++ old) := by rw [stop, starts, covers, Text.byteSize_append]
  refine ⟨?_, starts ▸ Text.isBoundary_append .., ?_⟩
  · rw [stopAt, ← List.append_assoc, Text.byteSize_append (before ++ old)]
    omega
  · rw [stopAt, ← List.append_assoc]
    exact Text.isBoundary_append ..

end Edit

end DocTypes
