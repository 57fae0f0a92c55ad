import DocTypes.Proofs.FixedLines
import DocTypes.Proofs.TagLayout

namespace DocTypes

open Text (Reworded)

/-- The text of a tag: its name, the gap behind it, the content on the line of the name and on those that
follow, and the empty lines at the end. -/
structure TagText (name gap first : List Char) (more blank : List (List Char)) : Prop where
  opens : name.head? = some '@'
  named : ∀ c ∈ name, !Text.isBlank c
  gapBlank : ∀ c ∈ gap, Text.isBlank c
  separated : gap = [] → first = []
  stops : ∀ c ∈ first.head?, ¬ Text.isBlank c
  follows : ∀ text ∈ more, text.head? ≠ some '@'
  filled : ∀ text ∈ more.getLast?, text ≠ []
  empty : ∀ text ∈ blank, text = []

namespace TagText

variable {name gap first : List Char} {more blank : List (List Char)}

/-- The name ends where the gap starts. -/
theorem nameStops (tagText : TagText name gap first more blank) :
    ∀ c ∈ (gap ++ first).head?, ¬ (!Text.isBlank c) = true := by
  intro c isHead
  cases gap with
  | nil =>
    rw [tagText.separated rfl] at isHead
    simp at isHead
  | cons d gap =>
    obtain rfl : d = c := by simpa using isHead
    simpa using tagText.gapBlank d (by simp)

theorem outlineOf_eq (tagText : TagText name gap first more blank) :
    DocTag.outlineOf (name ++ (gap ++ first)) (more ++ blank) =
      (String.ofList name, String.ofList (Text.joinChars '\n' (first :: more))) := by
  have lastFilled : more.reverse.dropWhile List.isEmpty = more.reverse := by
    refine List.dropWhile_eq_self_iff.mpr fun nonempty => ?_
    have isLast : more.reverse.head? = some (more.reverse.head (List.ne_nil_of_length_pos nonempty)) :=
      List.head?_eq_some_head _
    rw [List.head?_reverse] at isLast
    rw [← List.head_eq_getElem_zero (List.ne_nil_of_length_pos nonempty), List.isEmpty_iff]
    exact tagText.filled _ isLast
  have isMore : ((more ++ blank).reverse.dropWhile List.isEmpty).reverse = more := by
    rw [List.reverse_append, List.dropWhile_append_of_pos (by simpa using tagText.empty), lastFilled,
      List.reverse_reverse]
  rw [DocTag.outlineOf, isMore, Text.takeWhile_append_stop tagText.named tagText.nameStops,
    Text.dropWhile_append_stop tagText.named tagText.nameStops,
    Text.dropWhile_append_stop tagText.gapBlank tagText.stops]

/-- A letter is no blank. -/
theorem isBlank_of_isAlpha {c : Char} (letter : c.isAlpha) : ¬ Text.isBlank c := by
  rw [Text.isAlpha_eq, Text.isUpper_eq, Text.isLower_eq] at letter
  simp only [Bool.or_eq_true, Bool.and_eq_true, decide_eq_true_eq, ge_iff_le, UInt32.le_iff_toNat_le] at letter
  have code : 65 ≤ c.toNat ∧ c.toNat ≤ 90 ∨ 97 ≤ c.toNat ∧ c.toNat ≤ 122 := letter
  simp only [Text.isBlank, Bool.or_eq_true, Bool.and_eq_true, decide_eq_true_eq, beq_iff_eq]
  omega

/-- New contents that are reworded ones make a tag of the same name. -/
theorem reworded (tagText : TagText name gap first more blank) {firstNow : List Char} {moreNow : List (List Char)}
    (rewordedFirst : Reworded first firstNow) (rewordedMore : List.Forall₂ Reworded more moreNow) :
    TagText name gap firstNow moreNow blank where
  opens := tagText.opens
  named := tagText.named
  gapBlank := tagText.gapBlank
  separated noGap := rewordedFirst.eq_nil_iff.mpr (tagText.separated noGap)
  stops c isHead := by
    rcases rewordedFirst.head c isHead with same | letter
    · exact tagText.stops c same
    · exact isBlank_of_isAlpha letter
  follows := by
    intro textNow member opens
    obtain ⟨i, inside, rfl⟩ := List.getElem_of_mem member
    have rewordedText := (List.forall₂_iff_get.mp rewordedMore).2 i (rewordedMore.length_eq ▸ inside) inside
    rcases rewordedText.head '@' opens with same | letter
    · exact tagText.follows _ (List.get_mem _ _) same
    · exact absurd letter (by decide)
  filled := by
    have reversed := List.forall₂_reverse_iff.mpr rewordedMore
    have lastFilled := tagText.filled
    rw [← List.head?_reverse] at lastFilled ⊢
    revert lastFilled
    generalize more.reverse = lasts, moreNow.reverse = lastsNow at reversed
    intro lastFilled
    cases reversed with
    | nil => simp
    | cons rewordedLast _ => simpa [rewordedLast.eq_nil_iff] using lastFilled
  empty := tagText.empty

end TagText

/-- The tags of lines among which a tag's text stands. -/
theorem TagText.outline_allOf {name gap first : List Char} {more blank : List (List Char)}
    (tagText : TagText name gap first more blank) {lines before after : List TagLine}
    (next : ∀ line ∈ after.head?, line.opensTag)
    (texts : lines.map TagLine.text = before.map TagLine.text ++
      (name ++ (gap ++ first)) :: ((more ++ blank) ++ after.map TagLine.text)) :
    (DocTag.allOf lines).map DocTag.outline = (DocTag.allOf before).map DocTag.outline ++
      (String.ofList name, String.ofList (Text.joinChars '\n' (first :: more))) ::
        (DocTag.allOf after).map DocTag.outline := by
  -- where the lines of the tag stand does not matter
  have same : lines.map TagLine.text = (before ++ ⟨0, name ++ (gap ++ first)⟩ ::
      ((more ++ blank).map (TagLine.mk 0) ++ after)).map TagLine.text := by
    simp [texts, Function.comp_def]
  have opens : TagLine.opensTag ⟨0, name ++ (gap ++ first)⟩ := by
    simp [TagLine.opensTag, List.head?_append, tagText.opens]
  have none : ∀ line ∈ (more ++ blank).map (TagLine.mk 0), ¬ line.opensTag := by
    intro line isLine
    obtain ⟨text, member, rfl⟩ := List.mem_map.mp isLine
    rcases List.mem_append.mp member with isMore | isBlank
    · simpa [TagLine.opensTag] using tagText.follows text isMore
    · simp [TagLine.opensTag, tagText.empty text isBlank]
  have sameTexts : ((more ++ blank).map (TagLine.mk 0)).map TagLine.text = more ++ blank := by
    simp [Function.comp_def]
  rw [DocTag.outline_allOf_congr same, DocTag.allOf_tag opens none next, List.map_append, List.map_cons,
    DocTag.outline_ofLines, sameTexts, tagText.outlineOf_eq]

/-- The text of the tag that a line opens. -/
theorem DocTag.exists_tagText {opening : TagLine} {following : List TagLine} (opens : opening.opensTag)
    (none : ∀ line ∈ following, ¬ line.opensTag) :
    ∃ name gap first more blank, opening.text = name ++ (gap ++ first) ∧ following = more ++ blank ∧
      TagText name gap first (more.map TagLine.text) (blank.map TagLine.text) ∧
      ofLines opening following =
        ⟨String.ofList name, opening.start, ⟨opening.start + Text.byteSize (name ++ gap), first⟩ :: more⟩ := by
  obtain ⟨start, text⟩ := opening
  obtain ⟨name, behind, rfl, named, nameStops⟩ := Text.exists_dropWhile (fun c => !Text.isBlank c) text
  obtain ⟨gap, first, rfl, gapBlank, stops⟩ := Text.exists_dropWhile Text.isBlank behind
  obtain ⟨blank, more, reversed, empty, filled⟩ := Text.exists_dropWhile TagLine.isEmpty following.reverse
  obtain rfl : following = more.reverse ++ blank.reverse := by
    rw [← List.reverse_append, ← reversed, List.reverse_reverse]
  refine ⟨name, gap, first, more.reverse, blank.reverse, rfl, rfl, ?_, ?_⟩
  · constructor
    case opens =>
      have isAt : (name ++ (gap ++ first)).head? = some '@' := by simpa [TagLine.opensTag] using opens
      cases name with
      | nil => exact absurd (nameStops '@' isAt) (by decide)
      | cons c name => exact isAt
    case separated =>
      rintro rfl
      cases first with
      | nil => rfl
      | cons c first => exact absurd (stops c rfl) (by simpa using nameStops c rfl)
    case follows =>
      intro text member isAt
      obtain ⟨line, isLine, rfl⟩ := List.mem_map.mp member
      exact none line (List.mem_append_left _ isLine) (by simp [TagLine.opensTag, isAt])
    case filled =>
      intro text isLast
      rw [List.getLast?_map, List.getLast?_reverse] at isLast
      obtain ⟨line, isLine, rfl⟩ := Option.map_eq_some_iff.mp isLast
      simpa [TagLine.isEmpty] using filled line isLine
    case empty =>
      intro text member
      obtain ⟨line, isLine, rfl⟩ := List.mem_map.mp member
      simpa [TagLine.isEmpty] using empty line (List.mem_reverse.mp isLine)
    all_goals assumption
  · have atName := TagLine.dropWhile_append named nameStops start
    have atGap := TagLine.dropWhile_append gapBlank stops (start + Text.byteSize name)
    have isMore : ((more.reverse ++ blank.reverse).reverse.dropWhile TagLine.isEmpty).reverse = more.reverse := by
      rw [reversed, Text.dropWhile_append_stop empty filled]
    simp only [ofLines, atName, atGap, isMore, Text.takeWhile_append_stop named nameStops, Text.byteSize_append,
      Nat.add_assoc]

namespace DocComment

variable {raw : List Char} {offset : Nat} {tag : DocTag} {classes : ClassTable} {scope : Scope} {fixed : String}

/-- The content of a tag falls into its lines. -/
theorem splitChars_content (isTag : tag ∈ (parse raw offset).tags) :
    Text.splitChars '\n' tag.content.toList = tag.lines.map TagLine.text := by
  obtain ⟨i, isTag⟩ := List.getElem?_of_mem isTag
  obtain ⟨before, opening, following, after, lines, opens, none, _, rfl, _⟩ := DocTag.exists_lines_of_tag isTag
  obtain ⟨name, gap, first, more, blank, openingText, rfl, _, isOf⟩ := DocTag.exists_tagText opens none
  have free : ∀ line ∈ before ++ opening :: ((more ++ blank) ++ after), '\n' ∉ line.text :=
    fun line isLine => bodyLines_free (lines ▸ isLine)
  rw [isOf]
  refine DocTag.splitChars_content (List.cons_ne_nil _ _) (List.forall_mem_cons.mpr ⟨?_, fun line isMore => ?_⟩)
  · have openingFree := free opening (by simp)
    rw [openingText] at openingFree
    exact fun member => openingFree (by simp [member])
  · exact free line (by simp [isMore])

/-- A fix of a tag's content rewords its lines. -/
theorem reworded_lines (isTag : tag ∈ (parse raw offset).tags)
    (suggests : classes.Suggests scope tag.content fixed) :
    List.Forall₂ Reworded (tag.lines.map TagLine.text) (Text.splitChars '\n' fixed.toList) := by
  rw [← splitChars_content isTag]
  exact suggests.rewordedLines

/-- A fix of a tag's content can be written back. -/
theorem withContent_of_suggests (isTag : tag ∈ (parse raw offset).tags)
    (suggests : classes.Suggests scope tag.content fixed) :
    tag.withContent fixed = .ok (DocTag.changes tag.lines (Text.splitChars '\n' fixed.toList)) := by
  refine DocTag.withContent_eq_ok ?_
  exact (List.forall₂_map_left_iff.mp (reworded_lines isTag suggests)).imp fun _ _ reworded => reworded.eq_nil_iff

/-- The edits of some lines among others that stay. -/
theorem rewrites_among {before lines after : List TagLine} {texts : List (List Char)} {cs now : List Char}
    (refilled : Refilled offset (before ++ (lines ++ after))
      (before.map TagLine.text ++ (texts ++ after.map TagLine.text)) cs now)
    (reworded : List.Forall₂ Reworded (lines.map TagLine.text) texts) :
    Edit.Rewrites offset (DocTag.changes lines texts) cs now := by
  have same : ∀ lines : List TagLine,
      List.Forall₂ (fun line text => text = [] ↔ line.text = []) lines (lines.map TagLine.text) :=
    fun lines => List.forall₂_map_right_iff.mpr (List.forall₂_same.mpr fun _ _ => Iff.rfl)
  have filled : List.Forall₂ (fun line text => text = [] ↔ line.text = []) lines texts :=
    (List.forall₂_map_left_iff.mp reworded).imp fun _ _ reworded => reworded.eq_nil_iff
  have all := List.rel_append (same before) (List.rel_append filled (same after))
  have rewrites := DocTag.rewrites_changes refilled all
  rwa [DocTag.changes_append (by simp), DocTag.changes_append filled.length_eq, DocTag.changes_same,
    DocTag.changes_same, List.nil_append, List.append_nil] at rewrites

/-- A comment with one tag's content reworded. -/
theorem exists_fixed {before more rest : List TagLine} {start : Nat} {part first firstNow : List Char}
    {moreNow : List (List Char)} (lines : bodyLines raw offset = before ++ ⟨start, part ++ first⟩ :: (more ++ rest))
    (rewordedFirst : Reworded first firstNow) (rewordedMore : List.Forall₂ Reworded (more.map TagLine.text) moreNow)
    (textsFree : ∀ text ∈ firstNow :: moreNow, '\n' ∉ text) :
    ∃ now, (bodyLines now offset).map TagLine.text =
        before.map TagLine.text ++ (part ++ firstNow) :: (moreNow ++ rest.map TagLine.text) ∧
      Refilled offset (before ++ ⟨start + Text.byteSize part, first⟩ :: (more ++ rest))
        (before.map TagLine.text ++ firstNow :: (moreNow ++ rest.map TagLine.text)) raw now := by
  have same : ∀ lines : List TagLine, List.Forall₂ Reworded (lines.map TagLine.text) (lines.map TagLine.text) :=
    fun lines => List.forall₂_same.mpr fun text _ => .same text
  have reworded : List.Forall₂ Reworded ((bodyLines raw offset).map TagLine.text)
      (before.map TagLine.text ++ (part ++ firstNow) :: (moreNow ++ rest.map TagLine.text)) := by
    rw [lines, List.map_append, List.map_cons, List.map_append]
    exact List.rel_append (same before)
      (.cons (rewordedFirst.append_left part) (List.rel_append rewordedMore (same rest)))
  have free : ∀ text ∈ before.map TagLine.text ++ (part ++ firstNow) :: (moreNow ++ rest.map TagLine.text),
      '\n' ∉ text := by
    have linesFree : ∀ line ∈ before ++ ⟨start, part ++ first⟩ :: (more ++ rest), '\n' ∉ line.text :=
      fun line isLine => bodyLines_free (lines ▸ isLine)
    simp only [List.mem_append, List.mem_cons, List.mem_map]
    rintro text (⟨line, isLine, rfl⟩ | rfl | isMore | ⟨line, isLine, rfl⟩)
    · exact linesFree line (by simp [isLine])
    · have opening := linesFree ⟨start, part ++ first⟩ (by simp)
      have firstFree := textsFree firstNow (by simp)
      simp only [List.mem_append, not_or] at opening ⊢
      exact ⟨opening.1, firstFree⟩
    · exact textsFree text (by simp [isMore])
    · exact linesFree line (by simp [isLine])
  obtain ⟨now, texts, refilled⟩ := exists_refilled reworded free
  rw [lines] at refilled
  exact ⟨now, texts, refilled.narrow (by simp)⟩

/-- Writing a fix of a tag back into the source and reading the comment again gives the same tags, and only
the content of the fixed one is another. -/
theorem fix_round_trip {i : Nat} (isTag : (parse raw offset).tags[i]? = some tag)
    (suggests : classes.Suggests scope tag.content fixed) :
    ∃ edits now, tag.withContent fixed = .ok edits ∧
      (∀ before after, Text.byteSize before = offset →
        Edit.applyAll (before ++ (raw ++ after)) edits = before ++ (now ++ after)) ∧
      (parse now offset).tags.map DocTag.outline =
        ((parse raw offset).tags.map DocTag.outline).set i (tag.name, fixed) := by
  have member := List.mem_of_getElem? isTag
  have reworded := reworded_lines member suggests
  have written := withContent_of_suggests member suggests
  obtain ⟨before, ⟨start, text⟩, following, after, lines, opens, none, next, rfl, placed⟩ :=
    DocTag.exists_lines_of_tag isTag
  obtain ⟨name, gap, first, more, blank, isText, rfl, tagText, isOf⟩ := DocTag.exists_tagText opens none
  obtain rfl : text = name ++ (gap ++ first) := isText
  simp only [isOf] at reworded written ⊢
  -- the lines of the fix
  have isFixed := Text.joinChars_splitChars '\n' fixed.toList
  obtain ⟨firstNow, moreNow, split⟩ := Text.exists_splitChars '\n' fixed.toList
  have textsFree : ∀ text ∈ firstNow :: moreNow, '\n' ∉ text :=
    fun text isText => Text.not_mem_of_mem_splitChars (split ▸ isText)
  rw [split] at reworded written isFixed
  obtain ⟨rewordedFirst, rewordedMore⟩ := List.forall₂_cons.mp reworded
  have tags : (DocTag.allOf (bodyLines raw offset)).map DocTag.outline =
      (DocTag.allOf before).map DocTag.outline ++ _ :=
    tagText.outline_allOf next (by simp [lines])
  rw [← List.append_assoc name, List.append_assoc more] at lines
  obtain ⟨now, texts, refilled⟩ := exists_fixed lines rewordedFirst rewordedMore textsFree
  refine ⟨_, now, written, fun front back placedFront => Edit.applyAll_of_rewrites (.refl _) ?_, ?_⟩
  · refine Edit.Rewrites.prepend ?_
    rw [Nat.zero_add, placedFront]
    exact rewrites_among (refilled.append_right back) reworded
  · have tagsNow := (tagText.reworded rewordedFirst rewordedMore).outline_allOf next (by simpa using texts)
    rw [isFixed, String.ofList_toList] at tagsNow
    show (DocTag.allOf (bodyLines now offset)).map DocTag.outline =
      ((DocTag.allOf (bodyLines raw offset)).map DocTag.outline).set i (String.ofList name, fixed)
    rw [tags, tagsNow, List.set_append_right _ _ (by simp [placed])]
    simp [placed]

theorem fix_round_trip_lines :
    ∃ tag, (parse "/** @var\n * @param Array<INT,\n *\n *   String> $x\n\n@return Bool*/".toList 5).tags[1]? =
      some tag ∧
      ClassTable.Suggests .empty .root tag.content "array<int,\n\nstring> $x" ∧
      ∃ edits now, tag.withContent "array<int,\n\nstring> $x" = .ok edits ∧
        (∀ before after, Text.byteSize before = 5 →
          Edit.applyAll (before ++
              ("/** @var\n * @param Array<INT,\n *\n *   String> $x\n\n@return Bool*/".toList ++ after)) edits =
            before ++ (now ++ after)) ∧
        (parse now 5).tags.map DocTag.outline =
          [("@var", ""), ("@param", "array<int,\n\nstring> $x"), ("@return", "Bool")] := by
  have isTag : (parse "/** @var\n * @param Array<INT,\n *\n *   String> $x\n\n@return Bool*/".toList 5).tags[1]? =
      some ⟨"@param", 17, [⟨24, "Array<INT,".toList⟩, ⟨37, []⟩, ⟨43, "String> $x".toList⟩]⟩ := by decide +kernel
  have isFixed : (ClassTable.readTypedName .empty .root "Array<INT,\n\nString> $x" .withPassMode false).fixed =
      some "array<int,\n\nstring> $x" := by decide +kernel
  have tags : ((parse "/** @var\n * @param Array<INT,\n *\n *   String> $x\n\n@return Bool*/".toList 5).tags.map
      DocTag.outline) = [("@var", ""), ("@param", "Array<INT,\n\nString> $x"), ("@return", "Bool")] := by
      decide +kernel
  have suggests : ClassTable.Suggests .empty .root "Array<INT,\n\nString> $x" "array<int,\n\nstring> $x" :=
    Or.inl ⟨_, _, isFixed⟩
  obtain ⟨edits, now, written, applied, tagsNow⟩ := fix_round_trip isTag suggests
  rw [tags] at tagsNow
  exact ⟨_, isTag, suggests, edits, now, written, applied, tagsNow⟩

end DocComment

end DocTypes
