import DocTypes.Php.Statement
import DocTypes.Proofs.TagLayout

namespace DocTypes

/-- Lines in a text that starts at byte `offset`, one behind the other. -/
structure Standing (offset : Nat) (cs : List Char) (lines : List TagLine) : Prop where
  found : ∀ line ∈ lines, ∃ before after,
    cs = before ++ (line.text ++ after) ∧ line.start = offset + Text.byteSize before
  ordered : lines.Pairwise fun line other => line.stop ≤ other.start

namespace Standing

variable {offset : Nat} {cs : List Char} {lines : List TagLine}

theorem sublist {others : List TagLine} (standing : Standing offset cs lines) (sublist : others.Sublist lines) :
    Standing offset cs others :=
  ⟨fun line member => standing.found line (sublist.subset member), standing.ordered.sublist sublist⟩

theorem start_le {line : TagLine} (standing : Standing offset cs lines) (member : line ∈ lines) :
    offset ≤ line.start := by
  obtain ⟨before, after, _, starts⟩ := standing.found line member
  omega

theorem stop_le {line : TagLine} (standing : Standing offset cs lines) (member : line ∈ lines) :
    line.stop ≤ offset + Text.byteSize cs := by
  obtain ⟨before, after, rfl, starts⟩ := standing.found line member
  simp only [TagLine.stop, Text.byteSize_append]
  omega

/-- More text in front. -/
theorem prepend {front : List Char} (standing : Standing (offset + Text.byteSize front) cs lines) :
    Standing offset (front ++ cs) lines := by
  refine ⟨fun line member => ?_, standing.ordered⟩
  obtain ⟨before, after, rfl, starts⟩ := standing.found line member
  exact ⟨front ++ before, after, by simp, by rw [starts, Text.byteSize_append, Nat.add_assoc]⟩

/-- One more line in front. -/
theorem cons {line : TagLine} (standing : Standing line.stop cs lines) :
    Standing line.start (line.text ++ cs) (line :: lines) := by
  have behind : Standing line.start (line.text ++ cs) lines := standing.prepend
  exact ⟨List.forall_mem_cons.mpr ⟨⟨[], cs, rfl, rfl⟩, behind.found⟩,
    List.pairwise_cons.mpr ⟨fun other member => standing.start_le member, standing.ordered⟩⟩

/-- Lines may lose their first parts. -/
theorem map {shorten : TagLine → TagLine} (standing : Standing offset cs lines)
    (shortens : ∀ line, ∃ part, line.text = part ++ (shorten line).text ∧
      (shorten line).start = line.start + Text.byteSize part) : Standing offset cs (lines.map shorten) := by
  have sameStop : ∀ line, (shorten line).stop = line.stop := by
    intro line
    obtain ⟨part, isText, isStart⟩ := shortens line
    simp only [TagLine.stop, isText, isStart, Text.byteSize_append, Nat.add_assoc]
  refine ⟨fun line member => ?_, List.pairwise_map.mpr (standing.ordered.imp fun ordered => ?_)⟩
  · obtain ⟨whole, isLine, rfl⟩ := List.mem_map.mp member
    obtain ⟨part, isText, isStart⟩ := shortens whole
    obtain ⟨before, after, rfl, starts⟩ := standing.found whole isLine
    refine ⟨before ++ part, after, ?_, ?_⟩
    · simp [isText]
    · rw [isStart, starts, Text.byteSize_append, Nat.add_assoc]
  · rename_i line other
    obtain ⟨part, _, isStart⟩ := shortens other
    rw [sameStop, isStart]
    omega

end Standing

theorem Refilled.standing {offset : Nat} {lines : List TagLine} {texts : List (List Char)} {cs now : List Char}
    (refilled : Refilled offset lines texts cs now) : Standing offset cs lines := by
  induction refilled with
  | done => exact ⟨by simp, .nil⟩
  | line gap starts _ ih =>
    refine Standing.prepend ?_
    rw [← starts]
    exact ih.cons

/-- What a line adds to the content of a tag. -/
def TagLine.content (line : TagLine) : TagLine :=
  if line.opensTag then (line.dropWhile fun c => !Text.isBlank c).dropWhile Text.isBlank else line

theorem TagLine.exists_content (line : TagLine) :
    ∃ part, line.text = part ++ line.content.text ∧ line.content.start = line.start + Text.byteSize part := by
  unfold content
  split
  · refine ⟨line.text.takeWhile (fun c => !Text.isBlank c) ++
      (line.text.dropWhile fun c => !Text.isBlank c).takeWhile Text.isBlank, ?_, ?_⟩
    · simp [TagLine.dropWhile]
    · simp only [TagLine.dropWhile, Text.byteSize_append, Nat.add_assoc]
  · exact ⟨[], rfl, rfl⟩

namespace DocTag

/-- The lines of the tags are lines of the comment, in order. -/
theorem sublist_lines (lines : List TagLine) :
    ((allOf lines).flatMap DocTag.lines).Sublist (lines.map TagLine.content) := by
  -- so are they behind the lines that go on an earlier tag
  have behind : ((lines.takeWhile fun next => !next.opensTag) ++ (allOf lines).flatMap DocTag.lines).Sublist
      (lines.map TagLine.content) := by
    induction lines with
    | nil => simp [allOf]
    | cons line lines ih =>
      rw [allOf, List.takeWhile_cons, List.map_cons]
      by_cases opens : line.opensTag
      · have kept :
            (((lines.takeWhile fun next => !next.opensTag).reverse.dropWhile TagLine.isEmpty).reverse).Sublist
            (lines.takeWhile fun next => !next.opensTag) := by
          rw [← List.reverse_sublist, List.reverse_reverse]
          exact List.dropWhile_sublist _
        have isFirst : (line.dropWhile fun c => !Text.isBlank c).dropWhile Text.isBlank = line.content := by
          rw [TagLine.content, if_pos opens]
        simp only [opens, Bool.not_true, Bool.false_eq_true, if_false, if_true, List.nil_append, List.flatMap_cons,
          ofLines, isFirst, List.cons_append]
        exact ((kept.append_right _).trans ih).cons_cons _
      · have same : line.content = line := by rw [TagLine.content, if_neg opens]
        simp only [opens, Bool.not_false, if_true, same, List.cons_append]
        exact ih.cons_cons _
  exact (List.sublist_append_right _ _).trans behind

theorem map_offset_allOf (lines : List TagLine) :
    (allOf lines).map DocTag.offset = (lines.filter TagLine.opensTag).map TagLine.start := by
  induction lines with
  | nil => rfl
  | cons line lines ih =>
    rw [allOf, List.filter_cons]
    split
    · rw [List.map_cons, List.map_cons, ih]
      rfl
    · exact ih

end DocTag

namespace DocComment

theorem standing_bodyLines (raw : List Char) (offset : Nat) : Standing offset raw (bodyLines raw offset) := by
  have same : List.Forall₂ Text.Reworded ((bodyLines raw offset).map TagLine.text)
      ((bodyLines raw offset).map TagLine.text) := List.forall₂_same.mpr fun text _ => .same text
  obtain ⟨now, _, refilled⟩ := exists_refilled same fun text member => by
    obtain ⟨line, isLine, rfl⟩ := List.mem_map.mp member
    exact bodyLines_free isLine
  exact refilled.standing

/-- The lines of all tags stand in the comment, one behind the other. -/
theorem standing_tags (raw : List Char) (offset : Nat) :
    Standing offset raw ((parse raw offset).tags.flatMap DocTag.lines) :=
  ((standing_bodyLines raw offset).map TagLine.exists_content).sublist (DocTag.sublist_lines _)

/-- Every tag starts with a line that is not empty. -/
theorem exists_opening {lines : List TagLine} {tag : DocTag} (isTag : tag ∈ DocTag.allOf lines) :
    ∃ line ∈ lines.filter TagLine.opensTag, tag.offset = line.start := by
  have member := List.mem_map_of_mem (f := DocTag.offset) isTag
  rw [DocTag.map_offset_allOf] at member
  obtain ⟨line, isLine, same⟩ := List.mem_map.mp member
  exact ⟨line, isLine, same.symm⟩

theorem start_lt_stop {line : TagLine} (opens : line.opensTag) : line.start < line.stop := by
  have nonempty : line.text ≠ [] := by
    intro empty
    simp [TagLine.opensTag, empty] at opens
  have positive := Text.byteSize_pos nonempty
  simp only [TagLine.stop]
  omega

/-- The tags start one behind the other. -/
theorem ascending_offsets (raw : List Char) (offset : Nat) :
    ((parse raw offset).tags.map DocTag.offset).Pairwise (· < ·) := by
  show ((DocTag.allOf (bodyLines raw offset)).map DocTag.offset).Pairwise (· < ·)
  rw [DocTag.map_offset_allOf, List.pairwise_map]
  refine ((standing_bodyLines raw offset).ordered.sublist List.filter_sublist).imp_of_mem ?_
  intro line other isLine _ ordered
  exact (start_lt_stop (List.mem_filter.mp isLine).2).trans_le ordered

/-- A tag starts within the comment. -/
theorem offset_within {raw : List Char} {offset : Nat} {tag : DocTag} (isTag : tag ∈ (parse raw offset).tags) :
    offset ≤ tag.offset ∧ tag.offset < offset + Text.byteSize raw := by
  have standing := standing_bodyLines raw offset
  obtain ⟨line, isOpening, same⟩ := exists_opening isTag
  obtain ⟨isLine, opens⟩ := List.mem_filter.mp isOpening
  rw [same]
  exact ⟨standing.start_le isLine, (start_lt_stop opens).trans_le (standing.stop_le isLine)⟩

end DocComment

namespace Php

/-- The comment as a stretch of the source. -/
def Comment.stretch (comment : Comment) : TagLine :=
  ⟨comment.span.start, comment.text⟩

/-- Comments that are stretches of a source, none of them empty, one behind the other. -/
structure WellPlaced (offset : Nat) (source : List Char) (comments : List Comment) : Prop where
  standing : Standing offset source (comments.map Comment.stretch)
  nonempty : ∀ comment ∈ comments, comment.text ≠ []
  stop : ∀ comment ∈ comments, comment.span.stop = comment.stretch.stop

namespace WellPlaced

variable {offset : Nat} {cs : List Char} {comments : List Comment}

theorem prepend {front : List Char} (placed : WellPlaced (offset + Text.byteSize front) cs comments) :
    WellPlaced offset (front ++ cs) comments :=
  ⟨placed.standing.prepend, placed.nonempty, placed.stop⟩

theorem cons {comment : Comment} (nonempty : comment.text ≠ []) (stop : comment.span.stop = comment.stretch.stop)
    (placed : WellPlaced comment.span.stop cs comments) :
    WellPlaced comment.span.start (comment.text ++ cs) (comment :: comments) := by
  have behind : Standing comment.stretch.stop cs (comments.map Comment.stretch) := stop ▸ placed.standing
  exact ⟨behind.cons, List.forall_mem_cons.mpr ⟨nonempty, placed.nonempty⟩,
    List.forall_mem_cons.mpr ⟨stop, placed.stop⟩⟩

end WellPlaced

/-- Comments that are stretches of a source, none of them empty, and do not overlap. -/
structure Separate (source : List Char) (comments : List Comment) : Prop where
  found : ∀ comment ∈ comments, ∃ before after,
    source = before ++ (comment.text ++ after) ∧ comment.span.start = Text.byteSize before
  stop : ∀ comment ∈ comments, comment.span.stop = comment.span.start + Text.byteSize comment.text
  nonempty : ∀ comment ∈ comments, comment.text ≠ []
  apart : comments.Pairwise fun comment other =>
    comment.span.stop ≤ other.span.start ∨ other.span.stop ≤ comment.span.start

theorem Separate.distinct {source : List Char} {comments : List Comment} (separate : Separate source comments) :
    (comments.map (·.span.start)).Nodup := by
  refine List.pairwise_map.mpr (separate.apart.imp_of_mem ?_)
  intro comment other isComment isOther apart same
  have positive := Text.byteSize_pos (separate.nonempty comment isComment)
  have positiveOther := Text.byteSize_pos (separate.nonempty other isOther)
  rw [separate.stop comment isComment, separate.stop other isOther] at apart
  omega

theorem WellPlaced.separate {source : List Char} {comments : List Comment} (placed : WellPlaced 0 source comments) :
    Separate source comments := by
  refine ⟨fun comment member => ?_, placed.stop, placed.nonempty, ?_⟩
  · obtain ⟨before, after, split, starts⟩ := placed.standing.found _ (List.mem_map_of_mem member)
    exact ⟨before, after, split, starts.trans (Nat.zero_add _)⟩
  · refine (List.pairwise_map.mp placed.standing.ordered).imp_of_mem fun {comment other} isComment _ ordered => ?_
    exact Or.inl (placed.stop comment isComment ▸ ordered)

namespace Scan

theorem wellPlaced_piecesFrom (offset : Nat) (modes : List Mode) (cs : List Char) :
    WellPlaced offset cs (piecesFrom offset modes cs).comments := by
  have split : ∀ (c : Char) (rest : List Char) (n : Nat), c :: rest = (c :: rest.take n) ++ rest.drop n := by simp
  fun_induction piecesFrom offset modes cs with
  | case1 => exact ⟨⟨by simp, .nil⟩, by simp, by simp⟩
  | case2 offset modes c rest n _ text span _ _ ih =>
    rw [split c rest (n - 1)]
    exact ih.prepend
  | case3 offset modes c rest n _ text span _ isDoc _ ih =>
    have behind : WellPlaced (Comment.mk span text isDoc).span.stop _ _ := ih
    rw [split c rest (n - 1)]
    exact behind.cons (List.cons_ne_nil _ _) rfl
  | case4 offset modes c rest n _ text span _ _ _ ih =>
    rw [split c rest (n - 1)]
    exact ih.prepend

end Scan

/-- The comments of a source are well placed in it. -/
theorem wellPlaced_comments (source : List Char) : WellPlaced 0 source (Program.ofSource source).comments := by
  have lexed : WellPlaced 0 source (lex source).comments := Scan.wellPlaced_piecesFrom 0 [.html] source
  unfold Program.ofSource
  dsimp only
  split <;> exact lexed

end Php

end DocTypes
