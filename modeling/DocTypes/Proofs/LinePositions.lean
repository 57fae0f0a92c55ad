import DocTypes.Position
import DocTypes.Proofs.ByteScanning
import Mathlib.Data.List.DropRight
import Mathlib.Data.Prod.Lex

namespace DocTypes

namespace Text

/-- The bytes of a text in UTF-8. -/
def utf8 (cs : List Char) : List UInt8 :=
  cs.flatMap String.utf8EncodeChar

theorem utf8_toList (text : String) : utf8 text.toList = text.toUTF8.data.toList := by
  have encoded : text.toUTF8 = (String.ofList text.toList).toUTF8 := by rw [String.ofList_toList]
  rw [encoded, String.toUTF8, String.toByteArray_ofList, List.utf8Encode, List.toList_data_toByteArray]
  rfl

theorem utf8_append (as bs : List Char) : utf8 (as ++ bs) = utf8 as ++ utf8 bs :=
  List.flatMap_append

theorem length_utf8 (text : String) : (utf8 text.toList).length = text.utf8ByteSize := by
  rw [utf8_toList]
  rfl

/-- Only the line feed has the byte of a line feed in it. -/
theorem eq_newline_of_mem {c : Char} (member : 10 ∈ String.utf8EncodeChar c) : c = '\n' := by
  have isByte : '\n' ∈ charBytes c := List.mem_map.mpr ⟨10, member, rfl⟩
  by_cases ascii : c.toNat < 128
  · rw [charBytes_ascii ascii, List.mem_singleton] at isByte
    exact isByte.symm
  · have beyond := charBytes_wide (by omega : 128 ≤ c.toNat) '\n' isByte
    exact absurd beyond (by decide)

/-- The first byte of a character can be told from the others. -/
theorem exists_utf8EncodeChar (c : Char) :
    ∃ first more, String.utf8EncodeChar c = first :: more ∧ first.IsUTF8FirstByte ∧
      ∀ byte ∈ more, ¬ byte.IsUTF8FirstByte := by
  have nonempty : String.utf8EncodeChar c ≠ [] := by
    intro empty
    have length := String.length_utf8EncodeChar c
    rw [empty, List.length_nil] at length
    exact absurd c.utf8Size_pos (by omega)
  obtain ⟨first, more, split⟩ := List.exists_cons_of_ne_nil nonempty
  have starts (i : Nat) (bound : i < (first :: more).length) : (first :: more)[i].IsUTF8FirstByte ↔ i = 0 := by
    have inside : i < (String.utf8EncodeChar c).length := split ▸ bound
    have told := @UInt8.isUTF8FirstByte_getElem_utf8EncodeChar c i inside
    simpa only [split] using told
  refine ⟨first, more, split, (starts 0 (Nat.succ_pos _)).mpr rfl, fun byte member isFirst => ?_⟩
  obtain ⟨i, bound, rfl⟩ := List.mem_iff_getElem.mp member
  have zero := (starts (i + 1) (Nat.succ_lt_succ bound)).mp isFirst
  omega

end Text

namespace Position

/-- The position reached from `here` by the next `offset` bytes. A character counts as passed once the offset lies
beyond its first byte. -/
def advance (here : Position) : Nat → List Char → Position
  | _, [] => here
  | 0, _ :: _ => here
  | offset, c :: cs =>
    if c = '\n' then advance ⟨here.line + 1, 1⟩ (offset - 1) cs
    else advance ⟨here.line, here.column + 1⟩ (offset - c.utf8Size) cs

section Lines

theorem charIndices_add (start shift : Nat) (cs : List Char) :
    charIndices (shift + start) cs = (charIndices start cs).map fun (index, c) => (shift + index, c) := by
  induction cs generalizing start with
  | nil => rfl
  | cons c cs ih => rw [charIndices, Nat.add_assoc, ih, charIndices, List.map_cons]

theorem charsBefore_zero (line : List Char) : charsBefore line 0 = 0 := by
  cases line <;> rfl

theorem charsBefore_cons (c : Char) (line : List Char) {byte : Nat} (positive : byte ≠ 0) :
    charsBefore (c :: line) byte = charsBefore line (byte - c.utf8Size) + 1 := by
  have later : ((charIndices c.utf8Size line).takeWhile fun (index, _) => decide (index < byte)).length =
      charsBefore line (byte - c.utf8Size) := by
    have shifted := charIndices_add 0 c.utf8Size line
    rw [Nat.add_zero] at shifted
    rw [shifted, List.takeWhile_map, List.length_map, charsBefore]
    congr 2
    funext entry
    simp only [Function.comp_apply, decide_eq_decide]
    omega
  rw [charsBefore, charIndices, List.takeWhile_cons_of_pos (by simpa using Nat.pos_of_ne_zero positive),
    List.length_cons, Nat.zero_add, later]

theorem charsBefore_of_le (line : List Char) {byte : Nat} (le : Text.byteSize line ≤ byte) :
    charsBefore line byte = line.length := by
  induction line generalizing byte with
  | nil => rfl
  | cons c line ih =>
    have size := c.utf8Size_pos
    rw [Text.byteSize] at le
    rw [charsBefore_cons c line (by omega), ih (by omega), List.length_cons]

theorem advance_zero (here : Position) (cs : List Char) : here.advance 0 cs = here := by
  cases cs <;> rfl

/-- Within a line only the column grows. -/
theorem advance_line {line : List Char} (free : '\n' ∉ line) (here : Position) (offset : Nat) (rest : List Char) :
    here.advance offset (line ++ rest) =
      advance ⟨here.line, here.column + charsBefore line offset⟩ (offset - Text.byteSize line) rest := by
  induction line generalizing here offset with
  | nil => rfl
  | cons c line ih =>
    obtain ⟨notFirst, notLater⟩ := List.ne_and_not_mem_of_not_mem_cons free
    by_cases none : offset = 0
    · subst none
      rw [advance_zero, charsBefore_zero, Nat.zero_sub, advance_zero]
      rfl
    · rw [List.cons_append, advance, if_neg (Ne.symm notFirst), ih notLater, charsBefore_cons c line none,
        Text.byteSize, Nat.sub_sub, Nat.add_assoc, Nat.add_comm 1]
      exact none

/-- The search through the lines comes to where going on by characters does, whether it finds a line or not. -/
theorem inLines?_getD {lines : List (List Char)} (some : lines ≠ []) (free : ∀ line ∈ lines, '\n' ∉ line)
    {offset start : Nat} (ahead : start ≤ offset) (number : Nat) :
    (inLines? offset (number + 1) start lines).getD ⟨number + lines.length, (lines.getLastD []).length + 1⟩ =
      advance ⟨number + 1, 1⟩ (offset - start) (Text.joinChars '\n' lines) := by
  induction lines generalizing number start with
  | nil => exact absurd rfl some
  | cons line lines ih =>
    obtain ⟨freeLine, freeLines⟩ := List.forall_mem_cons.mp free
    obtain ⟨rest, whole⟩ : ∃ rest, Text.joinChars '\n' (line :: lines) = line ++ rest := by
      cases lines with
      | nil => exact ⟨[], (List.append_nil line).symm⟩
      | cons => exact ⟨_, rfl⟩
    rw [inLines?]
    by_cases inside : offset ≤ start + Text.byteSize line
    · have within : offset - start - Text.byteSize line = 0 := by omega
      rw [if_pos inside, whole, advance_line freeLine, within, advance_zero, Nat.add_comm 1]
      rfl
    · have all : charsBefore line (offset - start) = line.length := charsBefore_of_le line (by omega)
      rw [if_neg inside]
      cases lines with
      | nil =>
        rw [Text.joinChars, ← List.append_nil line, advance_line freeLine, all, List.append_nil, Nat.add_comm 1]
        rfl
      | cons next others =>
        have passed : offset - start - Text.byteSize line ≠ 0 := by omega
        have onward := ih (List.cons_ne_nil next others) freeLines
          (by omega : start + Text.byteSize line + 1 ≤ offset) (number + 1)
        have joined : Text.joinChars '\n' (line :: next :: others) =
            line ++ '\n' :: Text.joinChars '\n' (next :: others) := rfl
        have count : number + (line :: next :: others).length = number + 1 + (next :: others).length := by
          rw [List.length_cons, Nat.add_right_comm, Nat.add_assoc]
        rw [joined, advance_line freeLine, advance, if_pos rfl, Nat.sub_sub, Nat.sub_sub, ← Nat.add_assoc, ← onward,
          count]
        · rfl
        · exact passed

theorem ofOffset_eq_advance (text : List Char) (offset : Nat) :
    ofOffset text offset = advance ⟨1, 1⟩ offset text := by
  have found := inLines?_getD (Text.splitChars_ne_nil '\n' text) (fun _ => Text.not_mem_of_mem_splitChars)
    (Nat.zero_le offset) 0
  rw [Text.joinChars_splitChars, Nat.zero_add, Nat.zero_add, Nat.sub_zero] at found
  exact found

end Lines

/-- Positions in the order of the text: by line, and in a line by column. -/
def place (here : Position) : ℕ ×ₗ ℕ :=
  toLex (here.line, here.column)

/-- The position one byte further on. -/
def behind (here : Position) (byte : UInt8) : Position :=
  if byte = 10 then ⟨here.line + 1, 1⟩
  else if byte.IsUTF8FirstByte then ⟨here.line, here.column + 1⟩
  else here

theorem behind_inner {byte : UInt8} (inner : ¬ byte.IsUTF8FirstByte) (here : Position) :
    here.behind byte = here := by
  have notNewline : byte ≠ 10 := by
    rintro rfl
    exact inner (by decide)
  rw [behind, if_neg notNewline, if_neg inner]

theorem foldl_behind_inner {bytes : List UInt8} (inner : ∀ byte ∈ bytes, ¬ byte.IsUTF8FirstByte) (here : Position) :
    bytes.foldl behind here = here := by
  induction bytes with
  | nil => rfl
  | cons byte bytes ih =>
    obtain ⟨first, others⟩ := List.forall_mem_cons.mp inner
    rw [List.foldl_cons, behind_inner first, ih others]

/-- A character is passed with its first byte. -/
theorem foldl_behind_char {c : Char} (notNewline : c ≠ '\n') (here : Position) (n : Nat) :
    ((String.utf8EncodeChar c).take (n + 1)).foldl behind here = ⟨here.line, here.column + 1⟩ := by
  obtain ⟨first, more, split, isFirst, inner⟩ := Text.exists_utf8EncodeChar c
  have other : first ≠ 10 := by
    rintro rfl
    exact notNewline (Text.eq_newline_of_mem (by rw [split]; exact List.mem_cons_self ..))
  have rest : ∀ byte ∈ more.take n, ¬ byte.IsUTF8FirstByte :=
    fun byte member => inner byte (List.mem_of_mem_take member)
  rw [split, List.take_succ_cons, List.foldl_cons, foldl_behind_inner rest, behind, if_neg other, if_pos isFirst]

/-- Going on by characters comes to where going on by bytes comes to. -/
theorem advance_eq_foldl (here : Position) (offset : Nat) (cs : List Char) :
    here.advance offset cs = ((Text.utf8 cs).take offset).foldl behind here := by
  have cut (offset : Nat) (c : Char) (cs : List Char) : (Text.utf8 (c :: cs)).take offset =
      (String.utf8EncodeChar c).take offset ++ (Text.utf8 cs).take (offset - c.utf8Size) := by
    rw [Text.utf8, List.flatMap_cons, List.take_append, String.length_utf8EncodeChar]
    rfl
  fun_induction advance here offset cs with
  | case1 => simp [Text.utf8]
  | case2 => rfl
  | case3 here offset cs positive ih =>
    obtain ⟨n, rfl⟩ := Nat.exists_eq_succ_of_ne_zero positive
    have encoded : String.utf8EncodeChar '\n' = [10] := by decide
    rw [ih, cut, encoded, List.take_succ_cons, List.take_nil, List.foldl_append]
    rfl
  | case4 here offset c cs positive notNewline ih =>
    obtain ⟨n, rfl⟩ := Nat.exists_eq_succ_of_ne_zero positive
    rw [ih, cut, List.foldl_append, foldl_behind_char notNewline]

/-- The line feeds make the line, and the characters begun behind the last of them the column. -/
theorem foldl_behind_start (bytes : List UInt8) :
    bytes.foldl behind ⟨1, 1⟩ =
      ⟨1 + bytes.count 10, 1 + (bytes.rtakeWhile (· ≠ 10)).countP (·.IsUTF8FirstByte)⟩ := by
  induction bytes using List.reverseRecOn with
  | nil => rfl
  | append_singleton bytes byte ih =>
    rw [List.foldl_append, ih, List.foldl_cons, List.foldl_nil, List.count_append, List.rtakeWhile_concat]
    by_cases newline : byte = 10
    · subst newline
      rfl
    · have sameLine : decide (byte ≠ 10) = true := decide_eq_true newline
      have noNewline : List.count 10 [byte] = 0 := List.count_eq_zero.mpr (by simpa using Ne.symm newline)
      rw [behind, if_neg newline, if_pos sameLine, noNewline, List.countP_append, List.countP_singleton]
      by_cases first : byte.IsUTF8FirstByte
      · rw [if_pos first, if_pos (decide_eq_true first)]
        rfl
      · rw [if_neg first, if_neg (by simpa using first)]
        rfl

/-- The first byte of a character moves the position on. -/
theorem place_lt_behind {byte : UInt8} (first : byte.IsUTF8FirstByte) (here : Position) :
    here.place < (here.behind byte).place := by
  rw [place, place, Prod.Lex.toLex_lt_toLex]
  by_cases newline : byte = 10
  · rw [behind, if_pos newline]
    exact Or.inl (Nat.lt_succ_self _)
  · rw [behind, if_neg newline, if_pos first]
    exact Or.inr ⟨rfl, Nat.lt_succ_self _⟩

theorem place_le_foldl (here : Position) (bytes : List UInt8) : here.place ≤ (bytes.foldl behind here).place := by
  induction bytes generalizing here with
  | nil => exact le_rfl
  | cons byte bytes ih =>
    have onward : here.place ≤ (here.behind byte).place := by
      by_cases first : byte.IsUTF8FirstByte
      · exact (place_lt_behind first here).le
      · rw [behind_inner first]
    exact onward.trans (ih (here.behind byte))

theorem ofOffset_eq_foldl (cs : List Char) (offset : Nat) :
    ofOffset cs offset = ((Text.utf8 cs).take offset).foldl behind ⟨1, 1⟩ :=
  (ofOffset_eq_advance cs offset).trans (advance_eq_foldl _ offset cs)

theorem monotone_place (cs : List Char) : Monotone fun offset => (ofOffset cs offset).place := by
  intro offset later le
  have further : (Text.utf8 cs).take later =
      (Text.utf8 cs).take offset ++ ((Text.utf8 cs).take later).drop offset := by
    have shorter : ((Text.utf8 cs).take later).take offset = (Text.utf8 cs).take offset := by
      rw [List.take_take, Nat.min_eq_left le]
    rw [← shorter, List.take_append_drop]
  dsimp only
  rw [ofOffset_eq_foldl, ofOffset_eq_foldl, further, List.foldl_append]
  exact place_le_foldl _ _

/-- Behind some whole characters the next byte begins a character. -/
theorem place_lt_of_boundary (before after : List Char) {later : Nat} (lt : (Text.utf8 before).length < later)
    (nonempty : after ≠ []) :
    (ofOffset (before ++ after) (Text.utf8 before).length).place < (ofOffset (before ++ after) later).place := by
  obtain ⟨c, cs, rfl⟩ := List.exists_cons_of_ne_nil nonempty
  obtain ⟨first, more, split, isFirst, _⟩ := Text.exists_utf8EncodeChar c
  obtain ⟨n, rfl⟩ : ∃ n, later = (Text.utf8 before).length + (n + 1) :=
    ⟨later - (Text.utf8 before).length - 1, by omega⟩
  have ahead : Text.utf8 (c :: cs) = first :: (more ++ Text.utf8 cs) := by
    rw [Text.utf8, List.flatMap_cons, split]
    rfl
  rw [ofOffset_eq_foldl, ofOffset_eq_foldl, Text.utf8_append, List.take_left, List.take_length_add_append, ahead,
    List.take_succ_cons, List.foldl_append, List.foldl_cons]
  exact (place_lt_behind isFirst _).trans_le (place_le_foldl _ _)

theorem injOn_boundaries (text : String) :
    Set.InjOn (ofOffset text.toList) {offset | String.Pos.Raw.IsValid text ⟨offset⟩} := by
  have strict : ∀ {offset later : Nat}, String.Pos.Raw.IsValid text ⟨offset⟩ → String.Pos.Raw.IsValid text ⟨later⟩ →
      offset < later → (ofOffset text.toList offset).place < (ofOffset text.toList later).place := by
    intro offset later valid validLater lt
    obtain ⟨before, after, whole, atOffset⟩ := String.Pos.Raw.isValid_iff_exists_append.mp valid
    have length : (Text.utf8 before.toList).length = offset := by
      rw [Text.length_utf8]
      exact (congrArg String.Pos.Raw.byteIdx atOffset).symm
    have nonempty : after.toList ≠ [] := by
      intro empty
      have within : later ≤ text.utf8ByteSize := validLater.le_rawEndPos
      rw [← Text.length_utf8, whole, String.toList_append, empty, List.append_nil, length] at within
      omega
    rw [whole, String.toList_append, ← length]
    exact place_lt_of_boundary _ _ (by omega) nonempty
  intro offset valid later validLater same
  rcases Nat.lt_trichotomy offset later with lt | eq | gt
  · exact absurd (congrArg place same) (strict valid validLater lt).ne
  · exact eq
  · exact absurd (congrArg place same) (strict validLater valid gt).ne'

/-- The position of an offset tells exactly the line feeds among the bytes before it and the characters that begin
behind the last of them. Positions never go back, and no two places between characters have the same one. -/
theorem ofOffset_exact (text : String) :
    (∀ offset, ofOffset text.toList offset =
      let bytes := text.toUTF8.data.toList.take (min offset text.utf8ByteSize)
      ⟨1 + bytes.count 10, 1 + (bytes.rtakeWhile (· ≠ 10)).countP (·.IsUTF8FirstByte)⟩) ∧
    (Monotone fun offset => (ofOffset text.toList offset).place) ∧
    Set.InjOn (ofOffset text.toList) {offset | String.Pos.Raw.IsValid text ⟨offset⟩} := by
  refine ⟨fun offset => ?_, monotone_place _, injOn_boundaries text⟩
  dsimp only
  rw [ofOffset_eq_foldl, ← foldl_behind_start, ← Text.utf8_toList, ← Text.length_utf8, List.take_eq_take_min]

end Position

end DocTypes
