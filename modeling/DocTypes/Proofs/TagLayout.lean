import DocTypes.Proofs.CommentLines
import DocTypes.Proofs.EditedText

namespace DocTypes

open Text (Reworded RewordedLines)

/-- A text from byte `offset` on, and what it becomes when some lines in it get new contents: what stands
before, between and behind them stays. -/
inductive Refilled : Nat → List TagLine → List (List Char) → List Char → List Char → Prop
  | done (offset : Nat) (rest : List Char) : Refilled offset [] [] rest rest
  | line {offset : Nat} {line : TagLine} {lines : List TagLine} {text : List Char} {texts : List (List Char)}
      {rest now : List Char} (gap : List Char) (starts : line.start = offset + Text.byteSize gap)
      (more : Refilled line.stop lines texts rest now) :
      Refilled offset (line :: lines) (text :: texts) (gap ++ (line.text ++ rest)) (gap ++ (text ++ now))

namespace Refilled

variable {offset : Nat} {lines : List TagLine} {texts : List (List Char)} {cs now : List Char}

theorem prepend {front : List Char} (refilled : Refilled (offset + Text.byteSize front) lines texts cs now) :
    Refilled offset lines texts (front ++ cs) (front ++ now) := by
  cases refilled with
  | done => exact .done _ _
  | line gap starts more =>
    rw [← List.append_assoc front, ← List.append_assoc front]
    refine .line (front ++ gap) ?_ more
    rw [starts, Text.byteSize_append, Nat.add_assoc]

theorem append_right (refilled : Refilled offset lines texts cs now) (back : List Char) :
    Refilled offset lines texts (cs ++ back) (now ++ back) := by
  induction refilled with
  | done => exact .done _ _
  | line gap starts _ ih =>
    simp only [List.append_assoc]
    exact .line gap starts ih

/-- A line whose first part stays may be taken without it. -/
theorem narrow {before : List TagLine} {beforeTexts : List (List Char)} {start : Nat}
    {part content text : List Char} (asMany : before.length = beforeTexts.length)
    (refilled : Refilled offset (before ++ ⟨start, part ++ content⟩ :: lines)
      (beforeTexts ++ (part ++ text) :: texts) cs now) :
    Refilled offset (before ++ ⟨start + Text.byteSize part, content⟩ :: lines) (beforeTexts ++ text :: texts) cs
      now := by
  induction before generalizing offset beforeTexts cs now with
  | nil =>
    obtain rfl : beforeTexts = [] := List.length_eq_zero_iff.mp asMany.symm
    cases refilled with
    | @line _ _ _ _ _ rest now gap starts more =>
      have startsBehind : start + Text.byteSize part = offset + Text.byteSize (gap ++ part) := by
        rw [Text.byteSize_append, show start = _ from starts, Nat.add_assoc]
      have sameStop : TagLine.stop ⟨start + Text.byteSize part, content⟩ =
          TagLine.stop ⟨start, part ++ content⟩ := by
        simp only [TagLine.stop, Text.byteSize_append, Nat.add_assoc]
      have narrowed : Refilled offset (⟨start + Text.byteSize part, content⟩ :: lines) (text :: texts)
          (gap ++ part ++ (content ++ rest)) (gap ++ part ++ (text ++ now)) :=
        .line (gap ++ part) startsBehind (sameStop ▸ more)
      simpa using narrowed
  | cons line before ih =>
    cases beforeTexts with
    | nil => simp at asMany
    | cons _ beforeTexts =>
      cases refilled with
      | line gap starts more => exact .line gap starts (ih (by simpa using asMany) more)

end Refilled

namespace DocTag

/-- The edits that give lines new contents, where the contents change. -/
def changes (lines : List TagLine) (texts : List (List Char)) : List Edit :=
  ((lines.zip texts).filter fun (line, text) => line.text != text).map fun (line, text) =>
    ⟨line.start, Text.byteSize line.text, String.ofList text⟩

theorem changes_append {lines more : List TagLine} {texts others : List (List Char)}
    (asMany : lines.length = texts.length) :
    changes (lines ++ more) (texts ++ others) = changes lines texts ++ changes more others := by
  simp [changes, List.zip_append asMany]

theorem changes_same (lines : List TagLine) : changes lines (lines.map TagLine.text) = [] := by
  induction lines with
  | nil => rfl
  | cons line lines ih => simpa [changes] using ih

theorem changes_cons (line : TagLine) (lines : List TagLine) (text : List Char) (texts : List (List Char)) :
    changes (line :: lines) (text :: texts) =
      if line.text = text then changes lines texts
      else ⟨line.start, Text.byteSize line.text, String.ofList text⟩ :: changes lines texts := by
  by_cases same : line.text = text <;> simp [changes, same]

/-- The edits of lines that are not empty make the text what the lines make of it. -/
theorem rewrites_changes {offset : Nat} {lines : List TagLine} {texts : List (List Char)} {cs now : List Char}
    (refilled : Refilled offset lines texts cs now)
    (filled : List.Forall₂ (fun line text => text = [] ↔ line.text = []) lines texts) :
    Edit.Rewrites offset (changes lines texts) cs now := by
  induction refilled with
  | done => exact .done _ _
  | @line offset line lines text texts rest now gap starts more ih =>
    obtain ⟨first, others⟩ := List.forall₂_cons.mp filled
    rw [changes_cons]
    by_cases same : line.text = text
    · rw [if_pos same, ← same, ← List.append_assoc, ← List.append_assoc]
      refine Edit.Rewrites.prepend ?_
      rw [Text.byteSize_append, ← Nat.add_assoc, ← starts]
      exact ih others
    · have nonempty : line.text ≠ [] := fun empty => same (empty.trans (first.mpr empty).symm)
      have behind : Edit.Rewrites (Edit.stop ⟨line.start, Text.byteSize line.text, String.ofList text⟩)
          (changes lines texts) rest now := ih others
      have replaced := behind.replace gap line.text starts rfl nonempty
      rw [String.toList_ofList] at replaced
      rwa [if_neg same]

end DocTag

theorem Text.joinChars_cons_cons (sep : Char) (part next : List Char) (parts : List (List Char)) :
    joinChars sep (part :: next :: parts) = part ++ sep :: joinChars sep (next :: parts) := by
  rw [joinChars]
  simp

theorem Text.reworded_joinChars {lines nows : List (List Char)} (reworded : List.Forall₂ Reworded lines nows) :
    Reworded (joinChars '\n' lines) (joinChars '\n' nows) := by
  induction reworded with
  | nil => exact .same []
  | @cons line now lines nows first others ih =>
    cases others with
    | nil => exact first
    | cons =>
      rw [joinChars_cons_cons, joinChars_cons_cons]
      exact first.append (ih.append_left ['\n'])

namespace DocComment

/-- The lines of a text at byte `start`, each without its margins. -/
def stripped (start : Nat) (lines : List (List Char)) : List TagLine :=
  (place start lines).map TagLine.strip

theorem stripped_cons (start : Nat) (line : List Char) (lines : List (List Char)) :
    stripped start (line :: lines) =
      TagLine.strip ⟨start, line⟩ :: stripped (start + Text.byteSize line + 1) lines :=
  rfl

/-- No line of a comment holds a line feed. -/
theorem bodyLines_free {raw : List Char} {offset : Nat} {line : TagLine} (isLine : line ∈ bodyLines raw offset) :
    '\n' ∉ line.text := by
  have placed : ∀ {lines : List (List Char)} {start : Nat} {line : TagLine},
      line ∈ place start lines → line.text ∈ lines := by
    intro lines
    induction lines with
    | nil => simp [place]
    | cons text lines ih =>
      intro start line member
      rcases List.mem_cons.mp member with rfl | member
      · exact List.mem_cons_self
      · exact List.mem_cons_of_mem _ (ih member)
  obtain ⟨whole, isWhole, rfl⟩ := List.mem_map.mp isLine
  have free := Text.not_mem_of_mem_splitChars (placed isWhole)
  obtain ⟨lead, content, trail, margins⟩ := exists_margins whole.text
  have strip := margins.strip content (.same content) whole.start
  rw [← margins.split] at strip
  rw [margins.split] at free
  rw [show whole.strip = _ from strip]
  simp only [List.mem_append, not_or] at free
  exact free.2.1

/-- Lines with reworded contents: the margins stay, and the lines are stripped to the new contents. -/
structure Relined (start : Nat) (lines : List (List Char)) (texts nows : List (List Char)) : Prop where
  reworded : List.Forall₂ Reworded lines nows
  stripped : ∀ other, (stripped other nows).map TagLine.text = texts
  free : ∀ now ∈ nows, '\n' ∉ now
  refilled : Refilled start (DocComment.stripped start lines) texts (Text.joinChars '\n' lines)
    (Text.joinChars '\n' nows)

theorem Relined.cons {start : Nat} {lines texts nows : List (List Char)} {lead content trail text : List Char}
    (margins : Margins (lead ++ (content ++ trail)) lead content trail) (reworded : Reworded content text)
    (free : '\n' ∉ lead ++ (text ++ trail))
    (relined : Relined (start + Text.byteSize (lead ++ (content ++ trail)) + 1) lines texts nows) :
    Relined start ((lead ++ (content ++ trail)) :: lines) (text :: texts) ((lead ++ (text ++ trail)) :: nows) := by
  have strip := margins.strip content (.same content) start
  refine ⟨.cons ((reworded.append_right trail).append_left lead) relined.reworded, fun other => ?_,
    List.forall_mem_cons.mpr ⟨free, relined.free⟩, ?_⟩
  · rw [stripped_cons, margins.strip text reworded, List.map_cons, relined.stripped]
  · rw [stripped_cons, strip]
    have asMany := relined.reworded.length_eq
    cases lines with
    | nil =>
      obtain rfl : nows = [] := List.length_eq_zero_iff.mp asMany.symm
      obtain rfl : texts = [] := (relined.stripped 0).symm
      exact .line lead rfl (.done _ _)
    | cons next lines =>
      cases nows with
      | nil => simp at asMany
      | cons nextNow nows =>
        have behind := relined.refilled
        have placed : TagLine.stop ⟨start + Text.byteSize lead, content⟩ + Text.byteSize (trail ++ ['\n']) =
            start + Text.byteSize (lead ++ (content ++ trail)) + 1 := by
          have newline : Text.byteSize ['\n'] = 1 := by decide
          simp only [TagLine.stop, Text.byteSize_append, newline]
          omega
        rw [← placed] at behind
        have joined : Refilled start _ (text :: texts) (lead ++ (content ++ _)) (lead ++ (text ++ _)) :=
          .line lead rfl behind.prepend
        simpa [Text.joinChars_cons_cons, placed] using joined

/-- Lines can be given reworded contents. -/
theorem exists_relined {lines texts : List (List Char)} {start : Nat}
    (reworded : List.Forall₂ Reworded ((stripped start lines).map TagLine.text) texts)
    (free : ∀ line ∈ lines, '\n' ∉ line) (textsFree : ∀ text ∈ texts, '\n' ∉ text) :
    ∃ nows, Relined start lines texts nows := by
  induction lines generalizing start texts with
  | nil =>
    obtain rfl : texts = [] := List.forall₂_nil_left_iff.mp reworded
    exact ⟨[], .nil, fun _ => rfl, by simp, .done _ _⟩
  | cons line lines ih =>
    obtain ⟨lead, content, trail, margins⟩ := exists_margins line
    have strip := margins.strip content (.same content) start
    rw [← margins.split] at strip
    rw [stripped_cons, strip, List.map_cons, List.forall₂_cons_left_iff] at reworded
    obtain ⟨text, others, first, more, rfl⟩ := reworded
    obtain ⟨lineFree, linesFree⟩ := List.forall_mem_cons.mp free
    obtain ⟨textFree, othersFree⟩ := List.forall_mem_cons.mp textsFree
    obtain ⟨nows, relined⟩ := ih more linesFree othersFree
    obtain rfl := margins.split
    refine ⟨_, Relined.cons margins first ?_ relined⟩
    simp only [List.mem_append, not_or] at lineFree ⊢
    exact ⟨lineFree.1, textFree, lineFree.2.2⟩

/-- The lines of a comment can be given reworded contents: there is a comment with just these lines, and
nothing else changes. -/
theorem exists_refilled {raw : List Char} {offset : Nat} {texts : List (List Char)}
    (reworded : List.Forall₂ Reworded ((bodyLines raw offset).map TagLine.text) texts)
    (textsFree : ∀ text ∈ texts, '\n' ∉ text) :
    ∃ now, (bodyLines now offset).map TagLine.text = texts ∧
      Refilled offset (bodyLines raw offset) texts raw now := by
  obtain ⟨opening, inside, closing, framed⟩ := exists_framed raw
  have lines := framed.lines inside (.same inside) offset
  rw [← framed.split] at lines
  rw [lines] at reworded ⊢
  have free : ∀ line ∈ Text.splitChars '\n' inside, '\n' ∉ line := fun _ => Text.not_mem_of_mem_splitChars
  obtain ⟨nows, relined⟩ := exists_relined reworded free textsFree
  have nonempty : nows ≠ [] := by
    have asMany := relined.reworded.length_eq
    rintro rfl
    exact Text.splitChars_ne_nil '\n' inside (List.length_eq_zero_iff.mp asMany)
  have whole : Reworded inside (Text.joinChars '\n' nows) := by
    rw [← Text.joinChars_splitChars '\n' inside]
    exact Text.reworded_joinChars relined.reworded
  refine ⟨opening ++ (Text.joinChars '\n' nows ++ closing), ?_, ?_⟩
  · rw [framed.lines _ whole, Text.splitChars_joinChars nonempty relined.free]
    exact relined.stripped _
  · have refilled := relined.refilled.append_right closing
    rw [Text.joinChars_splitChars] at refilled
    rw [framed.split]
    exact refilled.prepend

end DocComment

namespace DocTag

/-- Name and content of a tag, which do not depend on where it stands. -/
def outline (tag : DocTag) : String × String :=
  (tag.name, tag.content)

/-- The content of a tag falls into its lines. -/
theorem splitChars_content {tag : DocTag} (nonempty : tag.lines ≠ [])
    (free : ∀ line ∈ tag.lines, '\n' ∉ line.text) :
    Text.splitChars '\n' tag.content.toList = tag.lines.map TagLine.text := by
  rw [content, String.toList_ofList]
  exact Text.splitChars_joinChars (by simpa using nonempty) (by simpa using free)

/-- A new content whose lines are empty where the tag's are is taken. -/
theorem withContent_eq_ok {tag : DocTag} {replacement : String}
    (filled : List.Forall₂ (fun line text => text = [] ↔ line.text = []) tag.lines
      (Text.splitChars '\n' replacement.toList)) :
    tag.withContent replacement = .ok (changes tag.lines (Text.splitChars '\n' replacement.toList)) := by
  have fits : ∀ {lines : List TagLine} {texts : List (List Char)},
      List.Forall₂ (fun line text => text = [] ↔ line.text = []) lines texts → firstMisfit lines texts = none := by
    intro lines texts filled
    induction filled with
    | nil => rfl
    | @cons line text _ _ first _ ih =>
      have same : line.isEmpty = text.isEmpty := by
        rw [Bool.eq_iff_iff, TagLine.isEmpty, List.isEmpty_iff, List.isEmpty_iff, first]
      rw [firstMisfit, same, beq_self_eq_true, if_pos rfl, ih]
      rfl
  have asMany : ¬ (Text.splitChars '\n' replacement.toList).length ≠ tag.lines.length := by
    rw [filled.length_eq, ne_eq, not_not]
  unfold withContent
  simp only [asMany, if_false, fits filled]
  rfl

section Lines

variable {lines rest : List TagLine}

/-- What follows a tag's lines starts a tag of its own. -/
theorem allOf_append (opens : ∀ line ∈ rest.head?, line.opensTag) :
    allOf (lines ++ rest) = allOf lines ++ allOf rest := by
  induction lines with
  | nil => rfl
  | cons line lines ih =>
    have same : (lines ++ rest).takeWhile (fun next => !next.opensTag) =
        lines.takeWhile fun next => !next.opensTag := by
      rw [List.takeWhile_append]
      split
      next whole =>
        have stop : rest.takeWhile (fun next => !next.opensTag) = [] := by
          cases rest with
          | nil => rfl
          | cons next rest => simp [opens next rfl]
        have all : lines.takeWhile (fun next => !next.opensTag) = lines :=
          (List.takeWhile_prefix _).eq_of_length whole
        rw [stop, List.append_nil, all]
      next => rfl
    rw [List.cons_append, allOf, allOf, same, ih]
    split <;> rfl

theorem allOf_eq_nil (none : ∀ line ∈ lines, ¬ line.opensTag) : allOf lines = [] := by
  induction lines with
  | nil => rfl
  | cons line lines ih =>
    obtain ⟨first, others⟩ := List.forall_mem_cons.mp none
    rw [allOf, if_neg first, ih others]

/-- A tag line, the lines that follow it and all else. -/
theorem allOf_tag {before following after : List TagLine} {opening : TagLine} (opens : opening.opensTag)
    (none : ∀ line ∈ following, ¬ line.opensTag) (next : ∀ line ∈ after.head?, line.opensTag) :
    allOf (before ++ opening :: (following ++ after)) =
      allOf before ++ ofLines opening following :: allOf after := by
  have taken : (following ++ after).takeWhile (fun next => !next.opensTag) = following := by
    rw [List.takeWhile_append_of_pos (by simpa using none)]
    cases after with
    | nil => simp
    | cons line after => simp [next line rfl]
  have first : ∀ line ∈ (opening :: (following ++ after)).head?, line.opensTag := by
    intro line isFirst
    obtain rfl : opening = line := by simpa using isFirst
    exact opens
  rw [allOf_append first, allOf, if_pos opens, taken, allOf_append next, allOf_eq_nil none, List.nil_append]

/-- Where a tag comes from. -/
theorem exists_lines_of_tag {i : Nat} {tag : DocTag} (isTag : (allOf lines)[i]? = some tag) :
    ∃ before opening following after, lines = before ++ opening :: (following ++ after) ∧ opening.opensTag ∧
      (∀ line ∈ following, ¬ line.opensTag) ∧ (∀ line ∈ after.head?, line.opensTag) ∧
      tag = ofLines opening following ∧ (allOf before).length = i := by
  induction lines generalizing i with
  | nil => simp [allOf] at isTag
  | cons line lines ih =>
    by_cases opens : line.opensTag
    · rw [allOf, if_pos opens] at isTag
      cases i with
      | zero =>
        refine ⟨[], line, lines.takeWhile fun next => !next.opensTag, lines.dropWhile fun next => !next.opensTag,
          by simp, opens, ?_, ?_, ?_, rfl⟩
        · intro next member
          simpa using List.mem_takeWhile_imp member
        · intro next isNext
          have notHolds := List.head?_dropWhile_not (fun next : TagLine => !next.opensTag) lines
          rw [isNext] at notHolds
          simpa using notHolds
        · simpa using isTag.symm
      | succ i =>
        obtain ⟨before, opening, following, after, rfl, rest⟩ := ih (by simpa using isTag)
        refine ⟨line :: before, opening, following, after, rfl, rest.1, rest.2.1, rest.2.2.1, rest.2.2.2.1, ?_⟩
        rw [allOf, if_pos opens, List.length_cons, rest.2.2.2.2]
    · rw [allOf, if_neg opens] at isTag
      obtain ⟨before, opening, following, after, rfl, rest⟩ := ih isTag
      refine ⟨line :: before, opening, following, after, rfl, rest.1, rest.2.1, rest.2.2.1, rest.2.2.2.1, ?_⟩
      rw [allOf, if_neg opens, rest.2.2.2.2]

/-- Name and content of the tag that these lines make. -/
def outlineOf (opening : List Char) (following : List (List Char)) : String × String :=
  (String.ofList (opening.takeWhile fun c => !Text.isBlank c),
    String.ofList (Text.joinChars '\n' (((opening.dropWhile fun c => !Text.isBlank c).dropWhile Text.isBlank) ::
      (following.reverse.dropWhile List.isEmpty).reverse)))

theorem outline_ofLines (opening : TagLine) (following : List TagLine) :
    outline (ofLines opening following) = outlineOf opening.text (following.map TagLine.text) := by
  have more : (following.reverse.dropWhile TagLine.isEmpty).reverse.map TagLine.text =
      ((following.map TagLine.text).reverse.dropWhile List.isEmpty).reverse := by
    have reversed : (following.map TagLine.text).reverse = following.reverse.map TagLine.text :=
      List.map_reverse.symm
    rw [reversed, List.dropWhile_map, List.map_reverse]
    rfl
  simp only [outline, content, ofLines, outlineOf, TagLine.dropWhile, List.map_cons, more]

/-- Names and contents depend on the texts of the lines only. -/
theorem outline_allOf_congr {others : List TagLine} (same : lines.map TagLine.text = others.map TagLine.text) :
    (allOf lines).map outline = (allOf others).map outline := by
  have following : ∀ lines : List TagLine, (lines.takeWhile fun next => !next.opensTag).map TagLine.text =
      (lines.map TagLine.text).takeWhile fun text => !(text.head? == some '@') := by
    intro lines
    rw [List.takeWhile_map]
    rfl
  induction lines generalizing others with
  | nil =>
    obtain rfl : others = [] := by simpa using same.symm
    rfl
  | cons line lines ih =>
    cases others with
    | nil => simp at same
    | cons other others =>
      obtain ⟨first, more⟩ := List.cons.inj same
      have opens : other.opensTag = line.opensTag := by rw [TagLine.opensTag, TagLine.opensTag, first]
      rw [allOf, allOf, opens]
      split
      · rw [List.map_cons, List.map_cons, outline_ofLines, outline_ofLines, following, following, first, more,
          ih more]
      · exact ih more

end Lines

end DocTag

end DocTypes
