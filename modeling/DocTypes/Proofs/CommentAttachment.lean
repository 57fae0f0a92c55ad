import DocTypes.Check.Comments
import DocTypes.Proofs.EditSelection
import DocTypes.Proofs.SourcePlaces

namespace DocTypes

namespace Text

/-- The character `c` stands at byte `n` of a text. -/
def CharAt (cs : List Char) (n : Nat) (c : Char) : Prop :=
  ∃ before after, cs = before ++ c :: after ∧ byteSize before = n

theorem CharAt.isBoundary {cs : List Char} {n : Nat} {c : Char} (stands : CharAt cs n c) : isBoundary n cs := by
  obtain ⟨before, after, split, size⟩ := stands
  exact isBoundary_iff.mpr ⟨before, c :: after, split, size⟩

/-- What holds of all of a slice holds of the characters that stand there. -/
theorem all_slice_iff {start stop : Nat} {cs : List Char} (le : start ≤ stop) (startsAt : isBoundary start cs)
    (stopsAt : isBoundary stop cs) {p : Char → Bool} :
    (slice start stop cs).all p ↔ ∀ n c, CharAt cs n c → start ≤ n → n < stop → p c := by
  obtain ⟨front, middle, back, rfl, atStart, size⟩ := exists_cuts le startsAt stopsAt
  rw [slice_middle atStart size, List.all_eq_true]
  constructor
  · rintro holds n c ⟨before, after, split, rfl⟩ lower upper
    obtain ⟨skipped, rfl, rest⟩ := exists_append_of_byteSize_le split (by omega)
    rw [byteSize_append] at upper
    obtain ⟨gap, isMiddle, isRest⟩ := exists_append_of_byteSize_le rest.symm (by omega)
    rw [isMiddle, byteSize_append] at size
    cases gap with
    | nil =>
      simp only [byteSize] at size
      omega
    | cons d gap =>
      obtain rfl : c = d := (List.cons.inj isRest).1
      exact holds c (by simp [isMiddle])
  · intro holds c member
    obtain ⟨before, after, rfl⟩ := List.append_of_mem member
    have positive := Char.utf8Size_pos c
    simp only [byteSize_append, byteSize] at size
    refine holds (byteSize (front ++ before)) c ⟨front ++ before, after ++ back, by simp, rfl⟩ ?_ ?_
    · rw [byteSize_append]
      omega
    · rw [byteSize_append]
      omega

end Text

namespace Php

/-- A byte is one of those of a comment. -/
def Comment.Covers (comment : Comment) (n : Nat) : Prop :=
  comment.span.start ≤ n ∧ n < comment.span.stop

/-- Comments in the order of a source: each takes up some whole characters of it, and the next one starts behind. -/
structure InSourceOrder (source : List Char) (comments : List Comment) : Prop where
  nonempty : ∀ comment ∈ comments, comment.span.start < comment.span.stop
  startsAt : ∀ comment ∈ comments, Text.isBoundary comment.span.start source
  stopsAt : ∀ comment ∈ comments, Text.isBoundary comment.span.stop source
  apart : comments.Pairwise fun comment other => comment.span.stop ≤ other.span.start

theorem WellPlaced.inSourceOrder {source : List Char} {comments : List Comment}
    (placed : WellPlaced 0 source comments) : InSourceOrder source comments := by
  have found : ∀ comment ∈ comments, ∃ before after, source = before ++ (comment.text ++ after) ∧
      comment.span.start = Text.byteSize before ∧ comment.span.stop = Text.byteSize (before ++ comment.text) := by
    intro comment member
    obtain ⟨before, after, split, starts⟩ := placed.standing.found _ (List.mem_map_of_mem member)
    have isStart : comment.span.start = Text.byteSize before := starts.trans (Nat.zero_add _)
    refine ⟨before, after, split, isStart, ?_⟩
    rw [placed.stop comment member, Text.byteSize_append, ← isStart]
    rfl
  constructor
  · intro comment member
    obtain ⟨before, after, _, isStart, isStop⟩ := found comment member
    have positive := Text.byteSize_pos (placed.nonempty comment member)
    rw [Text.byteSize_append] at isStop
    omega
  · intro comment member
    obtain ⟨before, after, split, isStart, _⟩ := found comment member
    exact Text.isBoundary_iff.mpr ⟨before, _, split, isStart.symm⟩
  · intro comment member
    obtain ⟨before, after, split, _, isStop⟩ := found comment member
    rw [← List.append_assoc] at split
    exact Text.isBoundary_iff.mpr ⟨_, after, split, isStop.symm⟩
  · refine (List.pairwise_map.mp placed.standing.ordered).imp_of_mem ?_
    intro comment other isComment _ ordered
    rw [placed.stop comment isComment]
    exact ordered

end Php

namespace Check

open Php (Comment InSourceOrder)

variable {source : List Char} {comments : List Comment}

/-- The last doc comment that ends at byte `start` or before. -/
structure IsLastDoc (comments : List Comment) (start : Nat) (comment : Comment) : Prop where
  member : comment ∈ comments
  isDoc : comment.isDoc
  before : comment.span.stop ≤ start
  last : ∀ other ∈ comments, other.isDoc → other.span.stop ≤ start → other.span.stop ≤ comment.span.stop

/-- From one byte to another there are only blanks and ordinary comments. -/
def OnlyComments (source : List Char) (comments : List Comment) (start stop : Nat) : Prop :=
  ∀ n c, Text.CharAt source n c → start ≤ n → n < stop →
    Text.isBlank c ∨ ∃ comment ∈ comments, ¬ comment.isDoc ∧ comment.Covers n

/-- Comments from the last one back, all of them before a byte. -/
structure Backwards (source : List Char) (boundary : Nat) (comments : List Comment) : Prop where
  inOrder : InSourceOrder source comments.reverse
  before : ∀ comment ∈ comments, comment.span.stop ≤ boundary
  boundary : Text.isBoundary boundary source

section Step

variable {boundary : Nat} {comment : Comment} {earlier : List Comment}

theorem Backwards.tail (backwards : Backwards source boundary (comment :: earlier)) :
    Backwards source comment.span.start earlier := by
  obtain ⟨⟨nonempty, startsAt, stopsAt, apart⟩, before, _⟩ := backwards
  rw [List.reverse_cons] at nonempty startsAt stopsAt apart
  rw [List.pairwise_append] at apart
  refine ⟨⟨?_, ?_, ?_, apart.1⟩, ?_, startsAt comment (by simp)⟩
  · exact fun other member => nonempty other (List.mem_append_left _ member)
  · exact fun other member => startsAt other (List.mem_append_left _ member)
  · exact fun other member => stopsAt other (List.mem_append_left _ member)
  · exact fun other member => apart.2.2 other (List.mem_reverse.mpr member) comment
      (List.mem_singleton_self comment)

/-- Nothing covers a byte between the last comment and the boundary. -/
theorem Backwards.not_covers (backwards : Backwards source boundary (comment :: earlier)) {n : Nat}
    (behind : comment.span.stop ≤ n) {other : Comment} (member : other ∈ comment :: earlier) :
    ¬ other.Covers n := by
  rintro ⟨_, upper⟩
  have nonempty := backwards.inOrder.nonempty comment (by simp)
  rcases List.mem_cons.mp member with rfl | member
  · omega
  · have ordered := backwards.tail.before other member
    omega

/-- The text behind the last comment is blank if there are only blanks and ordinary comments. -/
theorem Backwards.gap_iff (backwards : Backwards source boundary (comment :: earlier)) :
    (Text.slice comment.span.stop boundary source).all Text.isBlank ↔
      OnlyComments source (comment :: earlier) comment.span.stop boundary := by
  have stopsAt := backwards.inOrder.stopsAt comment (by simp)
  rw [Text.all_slice_iff (backwards.before comment (by simp)) stopsAt backwards.boundary]
  constructor
  · intro blank n c stands lower upper
    exact Or.inl (blank n c stands lower upper)
  · intro only n c stands lower upper
    rcases only n c stands lower upper with blank | ⟨other, member, _, covers⟩
    · exact blank
    · exact absurd covers (backwards.not_covers lower member)

/-- Going back over an ordinary comment: what is behind it, the comment itself, and what is before it. -/
theorem Backwards.onlyComments_iff (backwards : Backwards source boundary (comment :: earlier))
    (ordinary : ¬ comment.isDoc) {start : Nat} (le : start ≤ comment.span.start) :
    OnlyComments source (comment :: earlier) start boundary ↔
      OnlyComments source (comment :: earlier) comment.span.stop boundary ∧
        OnlyComments source earlier start comment.span.start := by
  have nonempty := backwards.inOrder.nonempty comment (by simp)
  have before := backwards.before comment (by simp)
  constructor
  · intro only
    refine ⟨fun n c stands lower upper => only n c stands (by omega) upper, fun n c stands lower upper => ?_⟩
    rcases only n c stands lower (by omega) with blank | ⟨other, member, isOrdinary, covers⟩
    · exact Or.inl blank
    · rcases List.mem_cons.mp member with rfl | member
      · exact absurd covers.1 (by omega)
      · exact Or.inr ⟨other, member, isOrdinary, covers⟩
  · rintro ⟨behind, ahead⟩ n c stands lower upper
    by_cases isAhead : n < comment.span.start
    · rcases ahead n c stands lower isAhead with blank | ⟨other, member, isOrdinary, covers⟩
      · exact Or.inl blank
      · exact Or.inr ⟨other, List.mem_cons_of_mem _ member, isOrdinary, covers⟩
    · by_cases isBehind : comment.span.stop ≤ n
      · exact behind n c stands isBehind upper
      · exact Or.inr ⟨comment, List.mem_cons_self, ordinary, by omega, by omega⟩

theorem Backwards.stop_le (backwards : Backwards source boundary (comment :: earlier)) {other : Comment}
    (member : other ∈ comment :: earlier) : other.span.stop ≤ comment.span.stop := by
  have nonempty := backwards.inOrder.nonempty comment (by simp)
  rcases List.mem_cons.mp member with rfl | member
  · omega
  · have ordered := backwards.tail.before other member
    omega

theorem Backwards.isLastDoc_iff_of_doc (backwards : Backwards source boundary (comment :: earlier))
    (isDoc : comment.isDoc) {found : Comment} :
    IsLastDoc (comment :: earlier) boundary found ↔ found = comment := by
  have nonempty := backwards.inOrder.nonempty comment (by simp)
  have before := backwards.before comment List.mem_cons_self
  constructor
  · intro isLast
    rcases List.mem_cons.mp isLast.member with same | member
    · exact same
    · have ordered := backwards.tail.before found member
      have last := isLast.last comment List.mem_cons_self isDoc before
      omega
  · rintro rfl
    exact ⟨List.mem_cons_self, isDoc, before, fun other member _ _ => backwards.stop_le member⟩

theorem Backwards.isLastDoc_iff_of_ordinary (backwards : Backwards source boundary (comment :: earlier))
    (ordinary : ¬ comment.isDoc) {found : Comment} :
    IsLastDoc (comment :: earlier) boundary found ↔ IsLastDoc earlier comment.span.start found := by
  have docEarlier : ∀ other ∈ comment :: earlier, other.isDoc → other ∈ earlier := by
    intro other member isDoc
    rcases List.mem_cons.mp member with rfl | member
    · exact absurd isDoc ordinary
    · exact member
  constructor
  · intro isLast
    have member := docEarlier found isLast.member isLast.isDoc
    refine ⟨member, isLast.isDoc, backwards.tail.before found member, fun other isOther isDoc _ => ?_⟩
    have isOld := List.mem_cons_of_mem comment isOther
    exact isLast.last other isOld isDoc (backwards.before other isOld)
  · intro isLast
    have member := List.mem_cons_of_mem comment isLast.member
    refine ⟨member, isLast.isDoc, backwards.before found member, fun other isOther isDoc _ => ?_⟩
    have isEarlier := docEarlier other isOther isDoc
    exact isLast.last other isEarlier isDoc (backwards.tail.before other isEarlier)

end Step

/-- Going back from a byte finds the last doc comment if there are only blanks and ordinary comments behind it. -/
theorem attachedBack_iff {boundary : Nat} {comments : List Comment} (backwards : Backwards source boundary comments)
    {found : Comment} :
    attachedBack source boundary comments = some found ↔
      IsLastDoc comments boundary found ∧ OnlyComments source comments found.span.stop boundary := by
  induction comments generalizing boundary with
  | nil =>
    constructor
    · intro isFound
      cases isFound
    · rintro ⟨isLast, _⟩
      cases isLast.member
  | cons comment earlier ih =>
    have before := backwards.before comment List.mem_cons_self
    rw [attachedBack, if_neg (by omega)]
    by_cases blank : (Text.slice comment.span.stop boundary source).all Text.isBlank
    · have behind := backwards.gap_iff.mp blank
      rw [if_neg (by simp [blank])]
      by_cases isDoc : comment.isDoc
      · rw [if_pos isDoc, backwards.isLastDoc_iff_of_doc isDoc, Option.some.injEq]
        constructor
        · rintro rfl
          exact ⟨rfl, behind⟩
        · rintro ⟨rfl, _⟩
          rfl
      · rw [if_neg isDoc, ih backwards.tail, backwards.isLastDoc_iff_of_ordinary isDoc]
        refine and_congr_right fun isLast => ?_
        rw [backwards.onlyComments_iff isDoc isLast.before]
        exact (and_iff_right behind).symm
    · -- code stands behind the last comment, so behind every comment
      rw [if_pos (by simpa using blank)]
      constructor
      · intro isFound
        cases isFound
      · rintro ⟨isLast, only⟩
        have le := backwards.stop_le isLast.member
        exact absurd (backwards.gap_iff.mpr fun n c stands lower => only n c stands (by omega)) blank

/-- The comments that start before a byte outside of all comments are those to go back over. -/
theorem backwards_takeWhile (inOrder : InSourceOrder source comments) {start : Nat}
    (boundary : Text.isBoundary start source) (outside : ∀ comment ∈ comments, ¬ comment.Covers start) :
    Backwards source start (comments.takeWhile (·.span.start < start)).reverse := by
  have sublist := List.takeWhile_sublist (l := comments) (·.span.start < start)
  refine ⟨?_, ?_, boundary⟩
  · rw [List.reverse_reverse]
    constructor
    · exact fun comment member => inOrder.nonempty comment (sublist.subset member)
    · exact fun comment member => inOrder.startsAt comment (sublist.subset member)
    · exact fun comment member => inOrder.stopsAt comment (sublist.subset member)
    · exact inOrder.apart.sublist sublist
  · intro comment member
    rw [List.mem_reverse] at member
    have starts : comment.span.start < start := by simpa using List.mem_takeWhile_imp member
    have notCovers := outside comment (sublist.subset member)
    simp only [Comment.Covers] at notCovers
    omega

/-- Every comment that starts before a byte is among those in front. -/
theorem mem_takeWhile_of_start_lt (inOrder : InSourceOrder source comments) {start : Nat} {comment : Comment}
    (member : comment ∈ comments) (starts : comment.span.start < start) :
    comment ∈ comments.takeWhile (·.span.start < start) := by
  have split := List.takeWhile_append_dropWhile (p := (·.span.start < start)) (l := comments)
  rw [← split, List.mem_append] at member
  rcases member with member | member
  · exact member
  · have apart := inOrder.apart
    rw [← split, List.pairwise_append] at apart
    have notStarts := List.head?_dropWhile_not (·.span.start < start) comments
    cases behind : comments.dropWhile (·.span.start < start) with
    | nil =>
      rw [behind] at member
      cases member
    | cons first others =>
      rw [behind] at member apart notStarts
      have isBehind : ¬ first.span.start < start := by simpa using notStarts
      rcases List.mem_cons.mp member with rfl | isOther
      · exact absurd starts isBehind
      · have ordered := (List.pairwise_cons.mp apart.2.1).1 comment isOther
        have isFirst : first ∈ comments := by
          rw [← split, behind]
          exact List.mem_append_right _ List.mem_cons_self
        have nonempty := inOrder.nonempty first isFirst
        omega

/-- The doc comment of what starts at a byte outside of all comments. -/
theorem attached?_eq_some_iff (inOrder : InSourceOrder source comments) {start : Nat}
    (boundary : Text.isBoundary start source) (outside : ∀ comment ∈ comments, ¬ comment.Covers start)
    {found : Comment} :
    attached? source comments start = some found ↔
      IsLastDoc comments start found ∧ OnlyComments source comments found.span.stop start := by
  have inFront : ∀ comment ∈ comments, comment.span.start < start →
      comment ∈ (comments.takeWhile (·.span.start < start)).reverse :=
    fun comment member starts => List.mem_reverse.mpr (mem_takeWhile_of_start_lt inOrder member starts)
  have ofFront : ∀ comment ∈ (comments.takeWhile (·.span.start < start)).reverse, comment ∈ comments :=
    fun comment member => (List.takeWhile_sublist _).subset (List.mem_reverse.mp member)
  have docInFront : ∀ comment ∈ comments, comment.span.stop ≤ start →
      comment ∈ (comments.takeWhile (·.span.start < start)).reverse := by
    intro comment member before
    have nonempty := inOrder.nonempty comment member
    exact inFront comment member (by omega)
  rw [attached?, attachedBack_iff (backwards_takeWhile inOrder boundary outside)]
  constructor
  · rintro ⟨isLast, only⟩
    refine ⟨⟨ofFront found isLast.member, isLast.isDoc, isLast.before, ?_⟩, ?_⟩
    · intro other member isDoc before
      exact isLast.last other (docInFront other member before) isDoc before
    · intro n c stands lower upper
      exact (only n c stands lower upper).imp_right fun ⟨comment, member, rest⟩ =>
        ⟨comment, ofFront comment member, rest⟩
  · rintro ⟨isLast, only⟩
    refine ⟨⟨docInFront found isLast.member isLast.before, isLast.isDoc, isLast.before, ?_⟩, ?_⟩
    · intro other member isDoc before
      exact isLast.last other (ofFront other member) isDoc before
    · intro n c stands lower upper
      refine (only n c stands lower upper).imp_right fun ⟨comment, member, ordinary, covers⟩ => ?_
      exact ⟨comment, inFront comment member (covers.1.trans_lt upper), ordinary, covers⟩

/-- A character of code: no blank, and in no comment. -/
def StartsCode (source : List Char) (comments : List Comment) (start : Nat) : Prop :=
  (∃ c, Text.CharAt source start c ∧ ¬ Text.isBlank c) ∧ ∀ comment ∈ comments, ¬ comment.Covers start

/-- What is attached to code is not attached to code that starts later: the earlier code stands between. -/
theorem attached?_ne_of_lt (inOrder : InSourceOrder source comments) {first second : Nat} (lt : first < second)
    (isFirst : StartsCode source comments first) (isSecond : StartsCode source comments second) {found : Comment}
    (attached : attached? source comments first = some found) : attached? source comments second ≠ some found := by
  intro attachedAgain
  obtain ⟨⟨c, stands, notBlank⟩, outside⟩ := isFirst
  obtain ⟨⟨d, standsLater, _⟩, outsideLater⟩ := isSecond
  obtain ⟨isLast, _⟩ := (attached?_eq_some_iff inOrder stands.isBoundary outside).mp attached
  obtain ⟨_, only⟩ := (attached?_eq_some_iff inOrder standsLater.isBoundary outsideLater).mp attachedAgain
  rcases only first c stands isLast.before lt with blank | ⟨comment, member, _, covers⟩
  · exact notBlank blank
  · exact outside comment member covers

/-- A doc comment is attached exactly when it is the last one before and only blanks and ordinary comments follow
it. So what starts at different characters of code never has the same comment. -/
theorem attached_iff_only_comments_between (inOrder : InSourceOrder source comments) :
    (∀ start, Text.isBoundary start source → (∀ comment ∈ comments, ¬ comment.Covers start) →
      ∀ found, attached? source comments start = some found ↔
        IsLastDoc comments start found ∧ OnlyComments source comments found.span.stop start) ∧
    ∀ first second, first ≠ second → StartsCode source comments first → StartsCode source comments second →
      ∀ found, attached? source comments first = some found → attached? source comments second ≠ some found := by
  refine ⟨fun start boundary outside found => attached?_eq_some_iff inOrder boundary outside, ?_⟩
  intro first second different isFirst isSecond found attached attachedAgain
  rcases Nat.lt_or_gt_of_ne different with lt | lt
  · exact attached?_ne_of_lt inOrder lt isFirst isSecond attached attachedAgain
  · exact attached?_ne_of_lt inOrder lt isSecond isFirst attachedAgain attached

/-- A doc comment, a block comment and a line comment before code. -/
def mixedComments : List Char :=
  "<?php /** @var A */ /* b */ # c\n$a; $b;".toList

theorem attached_iff_only_comments_between_mixed :
    let comments := (Php.Program.ofSource mixedComments).comments
    InSourceOrder mixedComments comments ∧ StartsCode mixedComments comments 32 ∧
      StartsCode mixedComments comments 36 ∧
      ∃ found, attached? mixedComments comments 32 = some found ∧ IsLastDoc comments 32 found ∧
        OnlyComments mixedComments comments found.span.stop 32 ∧
        attached? mixedComments comments 36 ≠ some found := by
  intro comments
  have inOrder : InSourceOrder mixedComments comments := (Php.wellPlaced_comments mixedComments).inSourceOrder
  have outside : ∀ start ∈ [32, 36], ∀ comment ∈ comments, ¬ comment.Covers start := by
    unfold Comment.Covers
    decide +kernel
  have first : StartsCode mixedComments comments 32 :=
    ⟨⟨'$', ⟨"<?php /** @var A */ /* b */ # c\n".toList, "a; $b;".toList, by decide, by decide⟩, by decide⟩,
      outside 32 (by decide)⟩
  have second : StartsCode mixedComments comments 36 :=
    ⟨⟨'$', ⟨"<?php /** @var A */ /* b */ # c\n$a; ".toList, "b;".toList, by decide, by decide⟩, by decide⟩,
      outside 36 (by decide)⟩
  have attached : attached? mixedComments comments 32 = some ⟨⟨6, 19⟩, "/** @var A */".toList, true⟩ := by
    decide +kernel
  obtain ⟨attachedIff, attachedOnce⟩ := attached_iff_only_comments_between inOrder
  obtain ⟨isLast, only⟩ := (attachedIff 32 (by decide) (outside 32 (by decide)) _).mp attached
  exact ⟨inOrder, first, second, _, attached, isLast, only, attachedOnce 32 36 (by decide) first second _ attached⟩

end Check

end DocTypes
