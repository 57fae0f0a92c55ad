import DocTypes.Proofs.FixedLines

namespace DocTypes

namespace Text

variable {cs now : List Char}

theorem Reworded.head (reworded : Reworded cs now) : ∀ c ∈ now.head?, cs.head? = some c ∨ c.isAlpha := by
  intro c isHead
  cases reworded with
  | same => exact Or.inl isHead
  | stretch before old new after _ first _ =>
    cases before with
    | cons b before => exact Or.inl (by simpa using isHead)
    | nil =>
      obtain ⟨a, isFirst, letter⟩ := (Option.any_eq_true _ _).mp first
      obtain rfl : a = c := by simpa [isFirst] using isHead
      exact Or.inr letter

theorem Reworded.last (reworded : Reworded cs now) : ∀ c ∈ now.getLast?, cs.getLast? = some c ∨ c.isAlpha := by
  intro c isLast
  cases reworded with
  | same => exact Or.inl isLast
  | stretch before old new after _ _ last =>
    cases final : after.getLast? with
    | some a => exact Or.inl (by simpa [List.getLast?_append, final] using isLast)
    | none =>
      obtain ⟨a, isFinal, letter⟩ := (Option.any_eq_true _ _).mp last
      obtain rfl : a = c := by simpa [List.getLast?_append, final, isFinal] using isLast
      exact Or.inr letter

/-- Reworded text starts with a text without letters only where the text does. -/
theorem Reworded.isPrefix (reworded : Reworded cs now) {start : List Char} (noLetter : ∀ c ∈ start, ¬ c.isAlpha)
    (starts : start <+: now) : start <+: cs := by
  cases reworded with
  | same => exact starts
  | stretch before old new after _ first _ =>
    obtain ⟨a, isFirst, letter⟩ := (Option.any_eq_true _ _).mp first
    obtain ⟨letters, rfl⟩ : ∃ letters, new = a :: letters := ⟨new.tail, (List.cons_head?_tail isFirst).symm⟩
    rcases List.prefix_or_prefix_of_prefix starts (List.prefix_append ..) with within | ⟨rest, rfl⟩
    · exact within.trans (List.prefix_append ..)
    · cases rest with
      | nil => simp
      | cons c rest =>
        obtain ⟨rfl, _⟩ := List.cons_prefix_cons.mp ((List.prefix_append_right_inj before).mp starts)
        exact absurd letter (noLetter c (by simp))

theorem Reworded.reverse (reworded : Reworded cs now) : Reworded cs.reverse now.reverse := by
  cases reworded with
  | same => exact .same _
  | stretch before old new after nonempty first last =>
    simp only [List.reverse_append, List.append_assoc]
    exact .stretch after.reverse old.reverse new.reverse before.reverse (by simpa using nonempty)
      (by simpa using last) (by simpa using first)

theorem Reworded.isSuffix (reworded : Reworded cs now) {stop : List Char} (noLetter : ∀ c ∈ stop, ¬ c.isAlpha)
    (stops : stop <:+ now) : stop <:+ cs := by
  rw [← List.reverse_prefix] at stops ⊢
  exact reworded.reverse.isPrefix (by simpa using noLetter) stops

theorem takeWhile_append_stop {α : Type} {p : α → Bool} {front rest : List α} (holds : ∀ c ∈ front, p c)
    (stops : ∀ c ∈ rest.head?, ¬ p c) : (front ++ rest).takeWhile p = front := by
  rw [List.takeWhile_append_of_pos holds]
  cases rest with
  | nil => simp
  | cons c rest => simp [stops c rfl]

theorem dropWhile_append_stop {α : Type} {p : α → Bool} {front rest : List α} (holds : ∀ c ∈ front, p c)
    (stops : ∀ c ∈ rest.head?, ¬ p c) : (front ++ rest).dropWhile p = rest := by
  rw [List.dropWhile_append_of_pos holds]
  cases rest with
  | nil => simp
  | cons c rest => simp [stops c rfl]

theorem dropWhileEnd_append_stop {p : Char → Bool} {front rest : List Char} (holds : ∀ c ∈ rest, p c)
    (stops : ∀ c ∈ front.getLast?, ¬ p c) : dropWhileEnd p (front ++ rest) = front := by
  rw [dropWhileEnd, List.reverse_append, dropWhile_append_stop (by simpa using holds) (by simpa using stops),
    List.reverse_reverse]

/-- A text falls into what its first characters `p` holds of and a rest that starts otherwise. -/
theorem exists_dropWhile {α : Type} (p : α → Bool) (cs : List α) :
    ∃ front rest, cs = front ++ rest ∧ (∀ c ∈ front, p c) ∧ ∀ c ∈ rest.head?, ¬ p c := by
  refine ⟨cs.takeWhile p, cs.dropWhile p, List.takeWhile_append_dropWhile.symm, ?_, ?_⟩
  · exact fun c member => List.mem_takeWhile_imp member
  · intro c isHead
    have notHolds := List.head?_dropWhile_not p cs
    rw [isHead] at notHolds
    simpa using notHolds

theorem exists_dropWhileEnd (p : Char → Bool) (cs : List Char) :
    ∃ front rest, cs = front ++ rest ∧ (∀ c ∈ rest, p c) ∧ ∀ c ∈ front.getLast?, ¬ p c := by
  obtain ⟨front, rest, split, holds, stops⟩ := exists_dropWhile p cs.reverse
  refine ⟨rest.reverse, front.reverse, ?_, by simpa using holds, by simpa using stops⟩
  rw [← List.reverse_append, ← split, List.reverse_reverse]

end Text

open Text (Reworded)

theorem TagLine.dropWhile_append {p : Char → Bool} {front rest : List Char} (holds : ∀ c ∈ front, p c)
    (stops : ∀ c ∈ rest.head?, ¬ p c) (start : Nat) :
    TagLine.dropWhile p ⟨start, front ++ rest⟩ = ⟨start + Text.byteSize front, rest⟩ := by
  rw [TagLine.dropWhile, Text.takeWhile_append_stop holds stops, Text.dropWhile_append_stop holds stops]

/-- A letter is no blank of any kind. -/
theorem isAlpha_plain {c : Char} (letter : c.isAlpha) : ¬ TagLine.isIndent c ∧ ¬ Text.isLineSpace c := by
  constructor
  · intro indent
    simp only [TagLine.isIndent, Bool.or_eq_true, beq_iff_eq] at indent
    rcases indent with rfl | rfl <;> exact absurd letter (by decide)
  · intro space
    simp only [Text.isLineSpace, Bool.or_eq_true, beq_iff_eq] at space
    rcases space with (((rfl | rfl) | rfl) | rfl) | rfl <;> exact absurd letter (by decide)

/-- A comment line: a lead, the content and blanks behind it. The lead is an indent, or an indent, one `*` and
one more indent. -/
structure LineParts (lead content trail : List Char) : Prop where
  leads : (∀ c ∈ lead, TagLine.isIndent c) ∧ (content ++ trail).head? ≠ some '*' ∨
    ∃ indent gap, lead = indent ++ '*' :: gap ∧ (∀ c ∈ indent, TagLine.isIndent c) ∧ ∀ c ∈ gap, TagLine.isIndent c
  starts : ∀ c ∈ (content ++ trail).head?, ¬ TagLine.isIndent c
  trails : ∀ c ∈ trail, Text.isLineSpace c
  ends : ∀ c ∈ content.getLast?, ¬ Text.isLineSpace c

/-- Every comment line has these parts. -/
theorem exists_lineParts (line : List Char) :
    ∃ lead content trail, line = lead ++ (content ++ trail) ∧ LineParts lead content trail := by
  obtain ⟨indent, inner, rfl, indented, stopsInner⟩ := Text.exists_dropWhile TagLine.isIndent line
  by_cases star : inner.head? = some '*'
  · obtain ⟨rest, rfl⟩ : ∃ rest, inner = '*' :: rest := ⟨inner.tail, (List.cons_head?_tail star).symm⟩
    obtain ⟨gap, body, rfl, gapIndent, stopsBody⟩ := Text.exists_dropWhile TagLine.isIndent rest
    obtain ⟨content, trail, rfl, spaces, stopsContent⟩ := Text.exists_dropWhileEnd Text.isLineSpace body
    exact ⟨indent ++ '*' :: gap, content, trail, by simp,
      .inr ⟨indent, gap, rfl, indented, gapIndent⟩, stopsBody, spaces, stopsContent⟩
  · obtain ⟨content, trail, rfl, spaces, stopsContent⟩ := Text.exists_dropWhileEnd Text.isLineSpace inner
    exact ⟨indent, content, trail, rfl, .inl ⟨indented, star⟩, stopsInner, spaces, stopsContent⟩

namespace LineParts

variable {lead content trail now : List Char}

/-- The line is stripped to its content. -/
theorem strip (parts : LineParts lead content trail) (start : Nat) :
    TagLine.strip ⟨start, lead ++ (content ++ trail)⟩ = ⟨start + Text.byteSize lead, content⟩ := by
  have trimmed := Text.dropWhileEnd_append_stop parts.trails parts.ends
  rcases parts.leads with ⟨indented, noStar⟩ | ⟨indent, gap, rfl, indented, gapIndent⟩
  · rw [TagLine.strip, TagLine.dropWhile_append indented parts.starts]
    simp only
    split
    next rest isInner => exact absurd (by rw [isInner]; rfl) noStar
    next => rw [trimmed]
  · have stopsStar : ∀ c ∈ ('*' :: (gap ++ (content ++ trail))).head?, ¬ TagLine.isIndent c := by
      intro c isHead
      obtain rfl : '*' = c := by simpa using isHead
      decide
    rw [List.append_assoc, List.cons_append, TagLine.strip, TagLine.dropWhile_append indented stopsStar]
    simp only
    rw [TagLine.dropWhile_append gapIndent parts.starts, trimmed, Text.byteSize_append]
    simp only [Text.byteSize, TagLine.mk.injEq, and_true]
    rw [show '*'.utf8Size = 1 by decide]
    omega

/-- The other parts stay when the content is reworded. -/
theorem reworded (parts : LineParts lead content trail) (reworded : Reworded content now) :
    LineParts lead now trail where
  leads := by
    refine parts.leads.imp_left fun ⟨indented, noStar⟩ => ⟨indented, fun star => ?_⟩
    rcases (reworded.append_right trail).head '*' star with same | letter
    · exact noStar same
    · exact absurd letter (by decide)
  starts c isHead := by
    rcases (reworded.append_right trail).head c isHead with same | letter
    · exact parts.starts c same
    · exact (isAlpha_plain letter).1
  trails := parts.trails
  ends c isLast := by
    rcases reworded.last c isLast with same | letter
    · exact parts.ends c same
    · exact (isAlpha_plain letter).2

end LineParts

/-- A comment line: its content, and the margins that stay when the content is reworded. -/
structure Margins (line lead content trail : List Char) : Prop where
  split : line = lead ++ (content ++ trail)
  strip : ∀ now, Reworded content now → ∀ start,
    TagLine.strip ⟨start, lead ++ (now ++ trail)⟩ = ⟨start + Text.byteSize lead, now⟩

/-- Every comment line has margins. -/
theorem exists_margins (line : List Char) : ∃ lead content trail, Margins line lead content trail := by
  obtain ⟨lead, content, trail, split, parts⟩ := exists_lineParts line
  exact ⟨lead, content, trail, split, fun now reworded => (parts.reworded reworded).strip⟩

/-- A comment: its body, and the marks at its two ends that stay when the body is reworded. -/
structure Framed (raw opening inside closing : List Char) : Prop where
  split : raw = opening ++ (inside ++ closing)
  lines : ∀ now, Reworded inside now → ∀ offset,
    DocComment.bodyLines (opening ++ (now ++ closing)) offset =
      (DocComment.place (offset + Text.byteSize opening) (Text.splitChars '\n' now)).map TagLine.strip

namespace DocComment

theorem withoutClose_append (cs : List Char) : withoutClose (cs ++ ['*', '/']) = cs := by
  simp [withoutClose]

theorem withoutClose_of_not_closed {cs : List Char} (unclosed : ¬ ['*', '/'] <:+ cs) : withoutClose cs = cs := by
  unfold withoutClose
  split
  next rest reversed =>
    refine absurd ⟨rest.reverse, ?_⟩ unclosed
    simpa using (congrArg List.reverse reversed).symm
  next => rfl

/-- The marks at the two ends of a comment: `/**` and `*/`, where the comment has them. A `*` belongs to one of
them only. -/
structure Marks (opening inside closing : List Char) : Prop where
  opens : opening = ['/', '*', '*'] ∨ opening = [] ∧ ¬ ['/', '*', '*'] <+: inside ++ closing
  closes : closing = ['*', '/'] ∨ closing = [] ∧ ¬ ['*', '/'] <:+ inside

theorem exists_closing (cs : List Char) :
    ∃ inside closing, cs = inside ++ closing ∧ (closing = ['*', '/'] ∨ closing = [] ∧ ¬ ['*', '/'] <:+ inside) := by
  by_cases closed : ['*', '/'] <:+ cs
  · obtain ⟨inside, rfl⟩ := closed
    exact ⟨inside, ['*', '/'], rfl, .inl rfl⟩
  · exact ⟨cs, [], by simp, .inr ⟨rfl, closed⟩⟩

/-- Every comment stands between its marks. -/
theorem exists_marks (raw : List Char) :
    ∃ opening inside closing, raw = opening ++ (inside ++ closing) ∧ Marks opening inside closing := by
  by_cases opens : ['/', '*', '*'] <+: raw
  · obtain ⟨body, rfl⟩ := opens
    obtain ⟨inside, closing, rfl, closes⟩ := exists_closing body
    exact ⟨['/', '*', '*'], inside, closing, rfl, .inl rfl, closes⟩
  · obtain ⟨inside, closing, rfl, closes⟩ := exists_closing raw
    exact ⟨[], inside, closing, rfl, .inr ⟨rfl, opens⟩, closes⟩

namespace Marks

variable {opening inside closing now : List Char}

theorem withoutClose_eq (marks : Marks opening inside closing) : withoutClose (inside ++ closing) = inside := by
  rcases marks.closes with rfl | ⟨rfl, unclosed⟩
  · exact withoutClose_append inside
  · rw [List.append_nil]
    exact withoutClose_of_not_closed unclosed

/-- The lines of the comment are those between its marks. -/
theorem bodyLines_eq (marks : Marks opening inside closing) (offset : Nat) :
    bodyLines (opening ++ (inside ++ closing)) offset =
      (place (offset + Text.byteSize opening) (Text.splitChars '\n' inside)).map TagLine.strip := by
  have withoutMark := marks.withoutClose_eq
  rcases marks.opens with rfl | ⟨rfl, unopened⟩
  · have starts : ['/', '*', '*'].isPrefixOf (['/', '*', '*'] ++ (inside ++ closing)) := by
      rw [List.isPrefixOf_iff_prefix]
      exact List.prefix_append ..
    have dropped : (['/', '*', '*'] ++ (inside ++ closing)).drop 3 = inside ++ closing := rfl
    rw [bodyLines, if_pos starts, dropped]
    simp only
    rw [withoutMark]
    rfl
  · rw [← List.isPrefixOf_iff_prefix] at unopened
    rw [List.nil_append, bodyLines, if_neg unopened]
    simp only
    rw [withoutMark]
    rfl

/-- The marks stay when what is between them is reworded. -/
theorem reworded (marks : Marks opening inside closing) (reworded : Reworded inside now) :
    Marks opening now closing where
  opens := marks.opens.imp_right fun ⟨empty, unopened⟩ =>
    ⟨empty, fun starts => unopened ((reworded.append_right closing).isPrefix (by simp) starts)⟩
  closes := marks.closes.imp_right fun ⟨empty, unclosed⟩ =>
    ⟨empty, fun stops => unclosed (reworded.isSuffix (by simp) stops)⟩

end Marks

/-- Every comment is framed. -/
theorem exists_framed (raw : List Char) : ∃ opening inside closing, Framed raw opening inside closing := by
  obtain ⟨opening, inside, closing, split, marks⟩ := exists_marks raw
  exact ⟨opening, inside, closing, split, fun now reworded => (marks.reworded reworded).bodyLines_eq⟩

end DocComment

end DocTypes
