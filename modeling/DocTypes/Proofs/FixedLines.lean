import DocTypes.DocComment.Fix
import DocTypes.Proofs.StyleFix

namespace DocTypes

namespace Text

/-- A text that is the same, or has a stretch replaced by one that starts and ends with a letter. -/
inductive Reworded : List Char → List Char → Prop
  | same (cs : List Char) : Reworded cs cs
  | stretch (before old new after : List Char) (nonempty : old ≠ []) (first : new.head?.any Char.isAlpha)
      (last : new.getLast?.any Char.isAlpha) : Reworded (before ++ (old ++ after)) (before ++ (new ++ after))

namespace Reworded

variable {cs now : List Char}

theorem append_left (reworded : Reworded cs now) (front : List Char) : Reworded (front ++ cs) (front ++ now) := by
  cases reworded with
  | same => exact .same _
  | stretch before old new after nonempty first last =>
    rw [← List.append_assoc front, ← List.append_assoc front]
    exact .stretch (front ++ before) old new after nonempty first last

theorem append_right (reworded : Reworded cs now) (back : List Char) : Reworded (cs ++ back) (now ++ back) := by
  cases reworded with
  | same => exact .same _
  | stretch before old new after nonempty first last =>
    simp only [List.append_assoc]
    exact .stretch before old new (after ++ back) nonempty first last

theorem append {cs' now' : List Char} (left : Reworded cs now) (right : Reworded cs' now') :
    Reworded (cs ++ cs') (now ++ now') := by
  cases left with
  | same => exact right.append_left _
  | stretch before old new after nonempty first last =>
    cases right with
    | same => exact (Reworded.stretch before old new after nonempty first last).append_right _
    | stretch before' old' new' after' nonempty' first' last' =>
      -- one stretch from the start of the first to the end of the second
      obtain ⟨a, isFirst, _⟩ := (Option.any_eq_true _ _).mp first
      obtain ⟨b, isLast, _⟩ := (Option.any_eq_true _ _).mp last'
      have joined := Reworded.stretch before (old ++ (after ++ (before' ++ old')))
        (new ++ (after ++ (before' ++ new'))) after' (by simp [nonempty])
        (by simpa [isFirst] using first) (by simpa [isLast] using last')
      simpa only [List.append_assoc] using joined

theorem eq_nil_iff (reworded : Reworded cs now) : now = [] ↔ cs = [] := by
  cases reworded with
  | same => rfl
  | stretch before old new after nonempty first _ => cases new <;> simp_all

end Reworded

/-- A first part without separators joins the first line behind it. -/
theorem splitChars_append {sep : Char} {part cs line : List Char} {lines : List (List Char)} (free : sep ∉ part)
    (split : splitChars sep cs = line :: lines) : splitChars sep (part ++ cs) = (part ++ line) :: lines := by
  induction part with
  | nil => exact split
  | cons c part ih =>
    rw [List.mem_cons, not_or] at free
    rw [List.cons_append, splitChars, if_neg (Ne.symm free.1), ih free.2, consFirst, List.cons_append]

theorem exists_splitChars (sep : Char) (cs : List Char) : ∃ line lines, splitChars sep cs = line :: lines :=
  List.exists_cons_of_ne_nil (splitChars_ne_nil sep cs)

/-- The lines of two texts, each made from the other's by rewording. -/
abbrev RewordedLines (cs now : List Char) : Prop :=
  List.Forall₂ Reworded (splitChars '\n' cs) (splitChars '\n' now)

namespace RewordedLines

variable {cs now : List Char}

theorem refl (cs : List Char) : RewordedLines cs cs :=
  List.forall₂_same.mpr fun line _ => .same line

/-- Words in front of the first lines. -/
theorem append_free {word right : List Char} (reworded : Reworded word right) (free : '\n' ∉ word)
    (rightFree : '\n' ∉ right) (lines : RewordedLines cs now) : RewordedLines (word ++ cs) (right ++ now) := by
  obtain ⟨line, more, split⟩ := exists_splitChars '\n' cs
  obtain ⟨lineNow, moreNow, splitNow⟩ := exists_splitChars '\n' now
  rw [RewordedLines, split, splitNow] at lines
  rw [RewordedLines, splitChars_append free split, splitChars_append rightFree splitNow]
  obtain ⟨first, others⟩ := List.forall₂_cons.mp lines
  exact .cons (reworded.append first) others

/-- The same text, whatever it holds, in front of both. -/
theorem append_same (front : List Char) (lines : RewordedLines cs now) :
    RewordedLines (front ++ cs) (front ++ now) := by
  induction front with
  | nil => exact lines
  | cons c front ih =>
    by_cases newline : c = '\n'
    · rw [RewordedLines, newline, List.cons_append, List.cons_append, splitChars, splitChars, if_pos rfl]
      exact .cons (.same []) ih
    · have free : '\n' ∉ [c] := by simpa using Ne.symm newline
      have longer := append_free (.same [c]) free free ih
      exact longer

end RewordedLines

end Text

namespace Grammar

open Token (scanFrom)

theorem keyword_last : ∀ word ∈ keywords, word.toList.getLast?.any Char.isAlpha := by decide +kernel

/-- A keyword holds no line feed. -/
theorem keyword_free {word : String} (isKeyword : word ∈ keywords) : '\n' ∉ word.toList := by
  intro newline
  have letters := List.all_eq_true.mp (keyword_chars word isKeyword).2 _ newline
  exact absurd letters (by decide)

/-- Nor does a token that is a word. -/
theorem word_free {first : Char} {tail rest : List Char} (isWord : Token.isWordStart first)
    (length : Token.tailLength first (tail ++ rest) = some tail.length) : '\n' ∉ first :: tail := by
  rw [Token.tailLength_eq, if_pos isWord, Option.some.injEq, Token.length_takeWhile_append] at length
  rw [List.mem_cons, not_or]
  refine ⟨?_, fun newline => ?_⟩
  · rintro rfl
    exact absurd isWord (by decide)
  · have continues := length.1 _ newline
    simp [Token.continuesWord] at continues

/-- The right spelling of a text has its lines, each as it was or reworded. -/
theorem rewordedLines_respell {scope : Scope} {offset : Nat} {spaced : Bool} {cs : List Char}
    {used : List (Token × String)} {rest : List Token} {ending : Ending}
    (scanned : scanFrom offset spaced cs = ⟨used.map Prod.fst ++ rest, ending⟩)
    (spelled : ∀ pair ∈ used, Respelled scope pair.1.text pair.2) :
    Text.RewordedLines cs (respell used cs) := by
  induction used generalizing offset spaced cs with
  | nil => exact .refl cs
  | cons pair used ih =>
    obtain ⟨token, right⟩ := pair
    simp only [List.map_cons, List.cons_append] at scanned
    obtain ⟨blanks, first, tail, behindToken, cut, chars, _, others⟩ := Token.cut_of_scanFrom scanned
    obtain ⟨respelled, spelled⟩ := List.forall_mem_cons.mp spelled
    have inner := ih others spelled
    rw [respell_cut cut chars, cut.split]
    refine Text.RewordedLines.append_same blanks ?_
    rw [← List.cons_append]
    by_cases same : right = token.text
    · rw [same, chars]
      exact inner.append_same _
    · obtain ⟨isKeyword, _⟩ := corrected_word chars cut.length respelled same
      have isWord := corrected_isWordStart chars cut.length respelled same
      have reworded := Text.Reworded.stretch [] (first :: tail) right.toList [] (by simp)
        (keyword_chars right isKeyword).1 (keyword_last right isKeyword)
      simp only [List.nil_append, List.append_nil] at reworded
      exact inner.append_free reworded (word_free isWord cut.length) (keyword_free isKeyword)

/-- Making the corrections noted since the start of a text gives its right spelling. -/
theorem toList_fixed_respell {scope : Scope} {text fixed : String} {after : Cursor} {used : List (Token × String)}
    (spent : Spent scope (Cursor.ofText text.toList) after used) (isFixed : after.fixed? = some fixed) :
    scanFrom 0 false text.toList = ⟨used.map Prod.fst ++ after.ahead, after.ending⟩ ∧
      fixed.toList = respell used text.toList := by
  have scanned : scanFrom 0 false text.toList = ⟨used.map Prod.fst ++ after.ahead, after.ending⟩ := by
    rw [← spent.ahead, spent.ending]
    rfl
  refine ⟨scanned, ?_⟩
  rw [toList_fixed isFixed, spent.corrections, spent.text]
  exact foldr_splice [] scanned

end Grammar

namespace ClassTable

open Grammar

/-- A text that a reading of the tag's content, or of a template parameter, proposes in its place. -/
def Suggests (classes : ClassTable) (scope : Scope) (text fixed : String) : Prop :=
  (∃ extent wide, (classes.readTypedName scope text extent wide).fixed = some fixed) ∨
    (classes.readTemplate scope text).fixed = some fixed

/-- What is proposed is noted while a type is read, somewhere in the text. -/
theorem Suggests.exists_spent {classes : ClassTable} {scope : Scope} {text fixed : String}
    (suggests : classes.Suggests scope text fixed) :
    ∃ after used, Spent scope (Cursor.ofText text.toList) after used ∧ after.fixed? = some fixed := by
  have readAt : ∀ {n : Nat} {wide : Bool} {found : DocType} {after : Cursor},
      Reads (delimitedType { classes, scope, wide }) ((Cursor.ofText text.toList).skip n) found after →
      ∃ used, Spent scope (Cursor.ofText text.toList) after used := by
    intro n wide found after reads
    obtain ⟨used, spent, _⟩ :=
      (level_rereads { classes, scope, wide } 64).anyType false _ found after (reads_delimitedType.mp reads).1
    exact ⟨_, (spent_skip scope _ n).trans spent⟩
  rcases suggests with ⟨extent, wide, isFixed⟩ | isFixed
  · obtain ⟨found, after, reads, noted⟩ := readTypedName_fixed isFixed
    obtain ⟨used, spent⟩ := readAt (n := 0) reads
    exact ⟨after, used, spent, noted⟩
  · obtain ⟨n, name, failures, named⟩ := attempt_templateName (Cursor.ofText text.toList)
    obtain ⟨_, found, after, reads, noted⟩ := readTemplate_fixed (named _ rfl rfl) rfl isFixed
    rw [← Cursor.skip_one, Cursor.skip_skip] at reads
    obtain ⟨used, spent⟩ := readAt reads
    exact ⟨after, used, spent, noted⟩

/-- A fix keeps the lines of a text, each as it was or reworded. -/
theorem Suggests.rewordedLines {classes : ClassTable} {scope : Scope} {text fixed : String}
    (suggests : classes.Suggests scope text fixed) : Text.RewordedLines text.toList fixed.toList := by
  obtain ⟨after, used, spent, noted⟩ := suggests.exists_spent
  obtain ⟨scanned, respelled⟩ := toList_fixed_respell spent noted
  rw [respelled]
  exact rewordedLines_respell scanned spent.spelled

end ClassTable

end DocTypes
