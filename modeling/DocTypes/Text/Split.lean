namespace DocTypes.Text

/-- Puts a character in front of the first part. -/
def consFirst (c : Char) : List (List Char) → List (List Char)
  | [] => [[c]]
  | part :: parts => (c :: part) :: parts

/-- The parts of a text between the occurrences of `sep`; there is always at least one. -/
def splitChars (sep : Char) : List Char → List (List Char)
  | [] => [[]]
  | c :: cs => if c = sep then [] :: splitChars sep cs else consFirst c (splitChars sep cs)

def split (sep : Char) (s : String) : List String :=
  (splitChars sep s.toList).map String.ofList

/-- The parts one after the other, `sep` between any two. -/
def joinChars (sep : Char) : List (List Char) → List Char
  | [] => []
  | [part] => part
  | part :: parts => part ++ sep :: joinChars sep parts

def join (sep : Char) (parts : List String) : String :=
  String.ofList (joinChars sep (parts.map String.toList))

theorem splitChars_ne_nil (sep : Char) (cs : List Char) : splitChars sep cs ≠ [] := by
  induction cs with
  | nil => simp [splitChars]
  | cons c cs ih =>
    unfold splitChars
    split
    · simp
    · cases h : splitChars sep cs with
      | nil => exact absurd h ih
      | cons part parts => simp [consFirst]

theorem joinChars_splitChars (sep : Char) (cs : List Char) :
    joinChars sep (splitChars sep cs) = cs := by
  induction cs with
  | nil => rfl
  | cons c cs ih =>
    unfold splitChars
    cases h : splitChars sep cs with
    | nil => exact absurd h (splitChars_ne_nil sep cs)
    | cons part parts =>
      rw [h] at ih
      split
      · next same => simp [joinChars, ih, same]
      · cases parts <;> simp_all [joinChars, consFirst]

theorem splitChars_of_not_mem {sep : Char} {cs : List Char} (free : sep ∉ cs) :
    splitChars sep cs = [cs] := by
  induction cs with
  | nil => rfl
  | cons c cs ih =>
    rw [List.mem_cons, not_or] at free
    simp [splitChars, Ne.symm free.1, ih free.2, consFirst]

theorem splitChars_append_sep {sep : Char} {part : List Char} (free : sep ∉ part) (cs : List Char) :
    splitChars sep (part ++ sep :: cs) = part :: splitChars sep cs := by
  induction part with
  | nil => simp [splitChars]
  | cons c part ih =>
    rw [List.mem_cons, not_or] at free
    simp [splitChars, Ne.symm free.1, ih free.2, consFirst]

theorem splitChars_joinChars {sep : Char} {parts : List (List Char)} (some : parts ≠ [])
    (free : ∀ part ∈ parts, sep ∉ part) : splitChars sep (joinChars sep parts) = parts := by
  induction parts with
  | nil => exact absurd rfl some
  | cons part parts ih =>
    have partFree := free part (List.mem_cons_self ..)
    cases parts with
    | nil => exact splitChars_of_not_mem partFree
    | cons next parts =>
      have rest := ih (by simp) fun other member => free other (List.mem_cons_of_mem _ member)
      rw [joinChars, splitChars_append_sep partFree, rest]
      simp

theorem not_mem_of_mem_splitChars {sep : Char} {cs part : List Char} (member : part ∈ splitChars sep cs) :
    sep ∉ part := by
  induction cs generalizing part with
  | nil =>
    rw [splitChars, List.mem_singleton] at member
    simp [member]
  | cons c cs ih =>
    unfold splitChars at member
    split at member
    next =>
      rcases List.mem_cons.mp member with rfl | rest
      · simp
      · exact ih rest
    next different =>
      cases parts : splitChars sep cs with
      | nil => exact absurd parts (splitChars_ne_nil sep cs)
      | cons first others =>
        rw [parts, consFirst] at member
        rcases List.mem_cons.mp member with rfl | rest
        · have firstFree : sep ∉ first := ih (parts ▸ List.mem_cons_self ..)
          simp [Ne.symm different, firstFree]
        · exact ih (parts ▸ List.mem_cons_of_mem _ rest)

theorem mem_joinChars (sep : Char) {c : Char} {part : List Char} {parts : List (List Char)} (member : part ∈ parts)
    (inPart : c ∈ part) : c ∈ joinChars sep parts := by
  induction parts with
  | nil => simp at member
  | cons first rest ih =>
    rcases List.mem_cons.mp member with rfl | inRest
    · cases rest <;> simp [joinChars, inPart]
    · cases rest with
      | nil => simp at inRest
      | cons second rest => simp [joinChars, ih inRest]

theorem eq_or_mem_of_mem_joinChars {sep c : Char} {parts : List (List Char)} (member : c ∈ joinChars sep parts) :
    c = sep ∨ ∃ part ∈ parts, c ∈ part := by
  induction parts with
  | nil => simp [joinChars] at member
  | cons first rest ih =>
    cases rest with
    | nil => exact Or.inr ⟨first, List.mem_cons_self .., by simpa [joinChars] using member⟩
    | cons second rest =>
      rw [joinChars, List.mem_append, List.mem_cons] at member
      · rcases member with inFirst | same | inRest
        · exact Or.inr ⟨first, List.mem_cons_self .., inFirst⟩
        · exact Or.inl same
        · obtain same | ⟨part, isPart, inPart⟩ := ih inRest
          · exact Or.inl same
          · exact Or.inr ⟨part, List.mem_cons_of_mem _ isPart, inPart⟩
      · simp

theorem split_ne_nil (sep : Char) (s : String) : split sep s ≠ [] := by
  simp [split, splitChars_ne_nil]

theorem split_of_not_mem {sep : Char} {s : String} (free : sep ∉ s.toList) : split sep s = [s] := by
  simp [split, splitChars_of_not_mem free]

theorem join_split (sep : Char) (s : String) : join sep (split sep s) = s := by
  simp [join, split, Function.comp_def, joinChars_splitChars]

theorem split_join {sep : Char} {parts : List String} (some : parts ≠ [])
    (free : ∀ part ∈ parts, sep ∉ part.toList) : split sep (join sep parts) = parts := by
  have cut : splitChars sep (joinChars sep (parts.map String.toList)) = parts.map String.toList :=
    splitChars_joinChars (by simpa using some) (by simpa using free)
  simp [split, join, cut, Function.comp_def]

theorem not_mem_of_mem_split {sep : Char} {s part : String} (member : part ∈ split sep s) :
    sep ∉ part.toList := by
  obtain ⟨chars, isPart, rfl⟩ := List.mem_map.mp member
  rw [String.toList_ofList]
  exact not_mem_of_mem_splitChars isPart

theorem mem_of_mem_split {sep c : Char} {s part : String} (member : part ∈ split sep s)
    (inPart : c ∈ part.toList) : c ∈ s.toList := by
  obtain ⟨chars, isPart, rfl⟩ := List.mem_map.mp member
  rw [String.toList_ofList] at inPart
  have joined := mem_joinChars sep isPart inPart
  rwa [joinChars_splitChars] at joined

theorem eq_or_mem_of_mem_join {sep c : Char} {parts : List String} (member : c ∈ (join sep parts).toList) :
    c = sep ∨ ∃ part ∈ parts, c ∈ part.toList := by
  rw [join, String.toList_ofList] at member
  obtain same | ⟨chars, isPart, inPart⟩ := eq_or_mem_of_mem_joinChars member
  · exact Or.inl same
  · obtain ⟨part, listed, rfl⟩ := List.mem_map.mp isPart
    exact Or.inr ⟨part, listed, inPart⟩

@[simp]
theorem join_singleton (sep : Char) (s : String) : join sep [s] = s := by
  simp [join, joinChars]

end DocTypes.Text
