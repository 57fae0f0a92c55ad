import DocTypes.Proofs.CommentRoundTrip
import DocTypes.Proofs.EditSelection
import DocTypes.Proofs.SourcePlaces

namespace DocTypes

/-- The contents of lines from byte `start` on, with a line feed between two lines. -/
inductive Contents : Nat → List (List Char) → List TagLine → Prop
  | nil (start : Nat) : Contents start [] []
  | cons {start : Nat} {lead content trail : List Char} {lines : List (List Char)} {contents : List TagLine}
      (parts : LineParts lead content trail)
      (more : Contents (start + Text.byteSize (lead ++ (content ++ trail)) + 1) lines contents) :
      Contents start ((lead ++ (content ++ trail)) :: lines) (⟨start + Text.byteSize lead, content⟩ :: contents)

namespace Contents

variable {start : Nat} {lines : List (List Char)} {contents : List TagLine}

theorem start_le (isContents : Contents start lines contents) : ∀ line ∈ contents, start ≤ line.start := by
  induction isContents with
  | nil => simp
  | cons _ _ ih =>
    refine List.forall_mem_cons.mpr ⟨Nat.le_add_right .., fun line member => ?_⟩
    have behind := ih line member
    omega

/-- A line feed stands between two contents. -/
theorem apart (isContents : Contents start lines contents) :
    contents.Pairwise fun line other => line.stop < other.start := by
  induction isContents with
  | nil => exact .nil
  | cons _ more ih =>
    refine List.pairwise_cons.mpr ⟨fun other member => ?_, ih⟩
    have behind := more.start_le other member
    simp only [TagLine.stop, Text.byteSize_append] at behind ⊢
    omega

theorem trimmed (isContents : Contents start lines contents) :
    ∀ line ∈ contents, ∀ c ∈ line.text.getLast?, ¬ Text.isLineSpace c := by
  induction isContents with
  | nil => simp
  | cons parts _ ih => exact List.forall_mem_cons.mpr ⟨parts.ends, ih⟩

end Contents

namespace DocComment

theorem contents_stripped (start : Nat) (lines : List (List Char)) :
    Contents start lines (stripped start lines) := by
  induction lines generalizing start with
  | nil => exact .nil start
  | cons line lines ih =>
    obtain ⟨lead, content, trail, rfl, parts⟩ := exists_lineParts line
    rw [stripped_cons, parts.strip]
    exact .cons parts (ih _)

/-- The lines of a comment are the contents of what stands between its marks. -/
theorem Marks.contents {opening inside closing : List Char} (marks : Marks opening inside closing) (offset : Nat) :
    Contents (offset + Text.byteSize opening) (Text.splitChars '\n' inside)
      (bodyLines (opening ++ (inside ++ closing)) offset) := by
  rw [marks.bodyLines_eq]
  exact contents_stripped _ _

end DocComment

/-- A line that opens a tag, and the lines that go on the tag. -/
structure TagGroup where
  opening : TagLine
  following : List TagLine
  opens : opening.opensTag
  continues : ∀ line ∈ following, ¬ line.opensTag

namespace TagGroup

def lines (group : TagGroup) : List TagLine :=
  group.opening :: group.following

def tag (group : TagGroup) : DocTag :=
  DocTag.ofLines group.opening group.following

/-- The tag of a group: it starts at the `@`, its name goes up to the first blank, and its lines are what stands
behind the name and the lines that follow, up to the last that is not empty. -/
def Makes (group : TagGroup) (tag : DocTag) : Prop :=
  ∃ name gap first more blank, group.opening.text = name ++ (gap ++ first) ∧ group.following = more ++ blank ∧
    TagText name gap first (more.map TagLine.text) (blank.map TagLine.text) ∧
    tag = ⟨String.ofList name, group.opening.start,
      ⟨group.opening.start + Text.byteSize (name ++ gap), first⟩ :: more⟩

theorem makes_tag (group : TagGroup) : group.Makes group.tag :=
  DocTag.exists_tagText group.opens group.continues

theorem opens_head (groups : List TagGroup) : ∀ line ∈ (groups.flatMap lines).head?, line.opensTag := by
  cases groups with
  | nil => simp
  | cons group groups =>
    intro line isHead
    obtain rfl : group.opening = line := by simpa [lines] using isHead
    exact group.opens

end TagGroup

namespace DocTag

/-- Lines fall into those before the first tag and a group for every tag. -/
theorem exists_groups (lines : List TagLine) :
    ∃ (preamble : List TagLine) (groups : List TagGroup), lines = preamble ++ groups.flatMap TagGroup.lines ∧
      (∀ line ∈ preamble, ¬ line.opensTag) ∧
      allOf lines = groups.map TagGroup.tag := by
  induction lines with
  | nil => exact ⟨[], [], rfl, by simp, rfl⟩
  | cons line lines ih =>
    obtain ⟨preamble, groups, rfl, continues, tags⟩ := ih
    by_cases opens : line.opensTag
    · -- what was before the first tag goes on the new one
      have next := TagGroup.opens_head groups
      have isTag := @allOf_tag [] preamble _ line opens continues next
      rw [allOf_append next, allOf_eq_nil continues, List.nil_append] at tags
      refine ⟨[], ⟨line, preamble, opens, continues⟩ :: groups, rfl, by simp, ?_⟩
      rw [List.map_cons, ← tags]
      exact isTag
    · refine ⟨line :: preamble, groups, rfl, List.forall_mem_cons.mpr ⟨opens, continues⟩, ?_⟩
      rw [allOf, if_neg opens, tags]

end DocTag

/-- A stretch of the comment at byte `offset`: both its ends are between characters of the comment, and its text
is what stands there. -/
structure CutFrom (raw : List Char) (offset : Nat) (line : TagLine) : Prop where
  start_le : offset ≤ line.start
  stop_le : line.stop ≤ offset + Text.byteSize raw
  startsAt : Text.isBoundary (line.start - offset) raw
  stopsAt : Text.isBoundary (line.stop - offset) raw
  slice : Text.slice (line.start - offset) (line.stop - offset) raw = line.text

theorem cutFrom_append (before text after : List Char) (offset : Nat) :
    CutFrom (before ++ (text ++ after)) offset ⟨offset + Text.byteSize before, text⟩ := by
  have starts : offset + Text.byteSize before - offset = Text.byteSize before := by omega
  have stops : offset + Text.byteSize before + Text.byteSize text - offset = Text.byteSize (before ++ text) := by
    rw [Text.byteSize_append]
    omega
  constructor <;> simp only [TagLine.stop, starts, stops]
  case start_le => omega
  case stop_le =>
    simp only [Text.byteSize_append]
    omega
  case startsAt => exact Text.isBoundary_append before _
  case stopsAt =>
    rw [← List.append_assoc]
    exact Text.isBoundary_append (before ++ text) after
  case slice =>
    refine Text.slice_middle rfl ?_
    rw [Text.byteSize_append]
    omega

theorem Standing.cutFrom {raw : List Char} {offset : Nat} {lines : List TagLine}
    (standing : Standing offset raw lines) {line : TagLine} (member : line ∈ lines) : CutFrom raw offset line := by
  obtain ⟨before, after, rfl, starts⟩ := standing.found line member
  have cut := cutFrom_append before line.text after offset
  rwa [← starts] at cut

namespace TagLine

theorem stop_content (line : TagLine) : line.content.stop = line.stop := by
  obtain ⟨part, isText, isStart⟩ := line.exists_content
  simp only [stop, isText, isStart, Text.byteSize_append, Nat.add_assoc]

theorem start_le_content (line : TagLine) : line.start ≤ line.content.start := by
  obtain ⟨part, _, isStart⟩ := line.exists_content
  omega

theorem content_suffix (line : TagLine) : line.content.text <:+ line.text := by
  obtain ⟨part, isText, _⟩ := line.exists_content
  exact ⟨part, isText.symm⟩

end TagLine

/-- A tag of the comment at byte `offset`: its name and its lines are cut from the comment, the lines one behind
the other. No line has a line feed in it or a blank at its end, and the content is what the lines say. -/
structure DocTag.InPlace (raw : List Char) (offset : Nat) (tag : DocTag) : Prop where
  name : CutFrom raw offset ⟨tag.offset, tag.name.toList⟩
  lines : ∀ line ∈ tag.lines, CutFrom raw offset line
  apart : tag.lines.Pairwise fun line other => line.stop < other.start
  free : ∀ line ∈ tag.lines, '\n' ∉ line.text
  trimmed : ∀ line ∈ tag.lines, ∀ c ∈ line.text.getLast?, ¬ Text.isLineSpace c
  content : tag.content.toList = Text.joinChars '\n'
    (tag.lines.map fun line => Text.slice (line.start - offset) (line.stop - offset) raw)

namespace DocComment

section Tags

variable {raw : List Char} {offset : Nat} {tag : DocTag}

theorem bodyLines_apart (raw : List Char) (offset : Nat) :
    (bodyLines raw offset).Pairwise fun line other => line.stop < other.start := by
  obtain ⟨opening, inside, closing, rfl, marks⟩ := exists_marks raw
  exact (marks.contents offset).apart

theorem bodyLines_trimmed {line : TagLine} (isLine : line ∈ bodyLines raw offset) :
    ∀ c ∈ line.text.getLast?, ¬ Text.isLineSpace c := by
  obtain ⟨opening, inside, closing, rfl, marks⟩ := exists_marks raw
  exact (marks.contents offset).trimmed line isLine

/-- The lines of all tags are apart. -/
theorem tags_apart (raw : List Char) (offset : Nat) :
    ((parse raw offset).tags.flatMap DocTag.lines).Pairwise fun line other => line.stop < other.start := by
  refine List.Pairwise.sublist (DocTag.sublist_lines _) (List.pairwise_map.mpr ?_)
  refine (bodyLines_apart raw offset).imp fun {line other} apart => ?_
  have behind := other.start_le_content
  rw [line.stop_content]
  omega

/-- A line of a tag comes from a line of the comment. -/
theorem exists_bodyLine (isTag : tag ∈ (parse raw offset).tags) {line : TagLine} (isLine : line ∈ tag.lines) :
    ∃ whole ∈ bodyLines raw offset, whole.content = line :=
  List.mem_map.mp ((DocTag.sublist_lines _).subset (List.mem_flatMap.mpr ⟨tag, isTag, isLine⟩))

/-- The name of a tag stands at its `@`. -/
theorem cutFrom_name (isTag : tag ∈ (parse raw offset).tags) :
    CutFrom raw offset ⟨tag.offset, tag.name.toList⟩ := by
  obtain ⟨preamble, groups, lines, _, tags⟩ := DocTag.exists_groups (bodyLines raw offset)
  rw [parse, tags] at isTag
  obtain ⟨group, isGroup, rfl⟩ := List.mem_map.mp isTag
  have isLine : group.opening ∈ bodyLines raw offset := by
    rw [lines]
    exact List.mem_append_right _ (List.mem_flatMap.mpr ⟨group, isGroup, List.mem_cons_self⟩)
  obtain ⟨name, gap, first, more, blank, isText, _, _, isTagOf⟩ := group.makes_tag
  obtain ⟨before, after, split, starts⟩ := (standing_bodyLines raw offset).found _ isLine
  have cut := cutFrom_append before name (gap ++ first ++ after) offset
  rw [isTagOf, String.toList_ofList, starts, split, isText]
  simpa using cut

theorem inPlace (isTag : tag ∈ (parse raw offset).tags) : tag.InPlace raw offset where
  name := cutFrom_name isTag
  lines line isLine := (standing_tags raw offset).cutFrom (List.mem_flatMap.mpr ⟨tag, isTag, isLine⟩)
  apart := (List.pairwise_flatMap.mp (tags_apart raw offset)).1 tag isTag
  free line isLine := by
    obtain ⟨whole, isWhole, rfl⟩ := exists_bodyLine isTag isLine
    exact fun member => bodyLines_free isWhole (whole.content_suffix.subset member)
  trimmed line isLine c isLast := by
    obtain ⟨whole, isWhole, rfl⟩ := exists_bodyLine isTag isLine
    obtain ⟨part, isText⟩ := whole.content_suffix
    refine bodyLines_trimmed isWhole c ?_
    rw [← isText, List.getLast?_append, isLast]
    rfl
  content := by
    rw [DocTag.content, String.toList_ofList]
    refine congrArg (Text.joinChars '\n') (List.map_congr_left fun line isLine => ?_)
    exact ((standing_tags raw offset).cutFrom (List.mem_flatMap.mpr ⟨tag, isTag, isLine⟩)).slice.symm

end Tags

end DocComment

/-- The line further behind. -/
def TagLine.shift (distance : Nat) (line : TagLine) : TagLine :=
  ⟨distance + line.start, line.text⟩

/-- The tag further behind. -/
def DocTag.shift (distance : Nat) (tag : DocTag) : DocTag :=
  ⟨tag.name, distance + tag.offset, tag.lines.map (TagLine.shift distance)⟩

/-- The comment further behind. -/
def DocComment.shift (distance : Nat) (comment : DocComment) : DocComment :=
  ⟨distance + comment.offset, distance + comment.stop, comment.tags.map (DocTag.shift distance)⟩

section Shift

variable (distance : Nat)

theorem TagLine.dropWhile_shift (p : Char → Bool) (line : TagLine) :
    (line.shift distance).dropWhile p = (line.dropWhile p).shift distance := by
  simp only [shift, dropWhile, Nat.add_assoc]

theorem TagLine.strip_shift (line : TagLine) : (line.shift distance).strip = line.strip.shift distance := by
  obtain ⟨start, text⟩ := line
  obtain ⟨lead, content, trail, rfl, parts⟩ := exists_lineParts text
  rw [shift, parts.strip, parts.strip, shift, Nat.add_assoc]

theorem DocTag.ofLines_shift (opening : TagLine) (following : List TagLine) :
    ofLines (opening.shift distance) (following.map (TagLine.shift distance)) =
      (ofLines opening following).shift distance := by
  have more : ((following.map (TagLine.shift distance)).reverse.dropWhile TagLine.isEmpty).reverse =
      (following.reverse.dropWhile TagLine.isEmpty).reverse.map (TagLine.shift distance) := by
    rw [← List.map_reverse, List.dropWhile_map, List.map_reverse]
    rfl
  rw [ofLines, ofLines, more, TagLine.dropWhile_shift, TagLine.dropWhile_shift]
  rfl

theorem DocTag.allOf_shift (lines : List TagLine) :
    allOf (lines.map (TagLine.shift distance)) = (allOf lines).map (DocTag.shift distance) := by
  have following : ∀ lines : List TagLine,
      (lines.map (TagLine.shift distance)).takeWhile (fun next => !next.opensTag) =
        (lines.takeWhile fun next => !next.opensTag).map (TagLine.shift distance) := by
    intro lines
    rw [List.takeWhile_map]
    rfl
  induction lines with
  | nil => rfl
  | cons line lines ih =>
    have opens : (line.shift distance).opensTag = line.opensTag := rfl
    rw [List.map_cons, allOf, allOf, opens, following, ih]
    split
    · rw [ofLines_shift, List.map_cons]
    · rfl

theorem DocComment.place_shift (start : Nat) (lines : List (List Char)) :
    place (distance + start) lines = (place start lines).map (TagLine.shift distance) := by
  induction lines generalizing start with
  | nil => rfl
  | cons line lines ih =>
    rw [place, place, List.map_cons, ← ih, Nat.add_assoc, Nat.add_assoc, Nat.add_assoc]
    rfl

theorem DocComment.bodyLines_shift (raw : List Char) :
    bodyLines raw distance = (bodyLines raw 0).map (TagLine.shift distance) := by
  obtain ⟨opening, inside, closing, rfl, marks⟩ := exists_marks raw
  rw [marks.bodyLines_eq, marks.bodyLines_eq, Nat.zero_add, place_shift, List.map_map, List.map_map]
  exact List.map_congr_left fun line _ => line.strip_shift distance

/-- Where a comment stands only shifts what is read from it. -/
theorem DocComment.parse_shift (raw : List Char) : parse raw distance = (parse raw 0).shift distance := by
  rw [parse, parse, shift, bodyLines_shift, DocTag.allOf_shift, Nat.zero_add]
  rfl

end Shift

namespace DocComment

/-- Every line of a comment belongs to the tag that was opened last before it. The lines are the contents of what
stands between the marks of the comment, and are cut from it between characters. Those that start with `@` open
the tags, one each, and the lines up to the next one go on the tag, without the empty lines at the end. Names and
lines of the tags are cut from the comment in order, and so the tags of a name stand in order. The place of the
comment only shifts them. -/
theorem parse_assigns_lines (raw : List Char) (offset : Nat) :
    (∃ (opening inside closing : List Char) (preamble : List TagLine) (groups : List TagGroup),
      raw = opening ++ (inside ++ closing) ∧ Marks opening inside closing ∧
      Contents (offset + Text.byteSize opening) (Text.splitChars '\n' inside)
        (preamble ++ groups.flatMap TagGroup.lines) ∧
      (∀ line ∈ preamble ++ groups.flatMap TagGroup.lines, CutFrom raw offset line) ∧
      (∀ line ∈ preamble, ¬ line.opensTag) ∧
      List.Forall₂ TagGroup.Makes groups (parse raw offset).tags) ∧
    (∀ tag ∈ (parse raw offset).tags, tag.InPlace raw offset) ∧
    (∀ name, ((parse raw offset).named name).Pairwise fun tag other => tag.offset < other.offset) ∧
    parse raw offset = (parse raw 0).shift offset := by
  refine ⟨?_, fun tag isTag => inPlace isTag, fun name => ?_, parse_shift offset raw⟩
  · obtain ⟨opening, inside, closing, split, marks⟩ := exists_marks raw
    obtain ⟨preamble, groups, lines, continues, tags⟩ := DocTag.exists_groups (bodyLines raw offset)
    have contents := marks.contents offset
    have makes : List.Forall₂ TagGroup.Makes groups (parse raw offset).tags := by
      rw [parse, tags, List.forall₂_map_right_iff, List.forall₂_same]
      exact fun group _ => group.makes_tag
    rw [← split, lines] at contents
    refine ⟨opening, inside, closing, preamble, groups, split, marks, contents, ?_, continues, makes⟩
    rw [← lines]
    exact fun line isLine => (standing_bodyLines raw offset).cutFrom isLine
  · exact (List.pairwise_map.mp (ascending_offsets raw offset)).sublist List.filter_sublist

end DocComment

end DocTypes
