namespace DocTypes.Text

/-- The text with its ASCII capitals made small. -/
def lower (s : String) : String :=
  String.ofList (s.toList.map Char.toLower)

/-- Whether two texts differ at most in the case of ASCII letters. -/
def sameWord (a b : String) : Bool :=
  lower a == lower b

theorem isUpper_eq (c : Char) : c.isUpper = decide (c.val ≥ 'A'.val ∧ c.val ≤ 'Z'.val) := rfl

theorem isLower_eq (c : Char) : c.isLower = (decide (c.val ≥ 'a'.val) && decide (c.val ≤ 'z'.val)) := rfl

theorem isAlpha_eq (c : Char) : c.isAlpha = (c.isUpper || c.isLower) := rfl

theorem toLower_of_not_isUpper {c : Char} (small : ¬ c.isUpper) : c.toLower = c := by
  unfold Char.toLower
  exact dif_neg fun upper => small (decide_eq_true upper)

/-- A capital becomes a small letter. -/
theorem isLower_toLower {c : Char} (capital : c.isUpper) : c.toLower.isLower := by
  simp only [isUpper_eq, decide_eq_true_eq] at capital
  unfold Char.toLower
  rw [dif_pos capital]
  simp only [isLower_eq]
  simp only [ge_iff_le, UInt32.le_iff_toNat_le] at capital ⊢
  simp at capital ⊢
  omega

theorem toLower_toLower (c : Char) : c.toLower.toLower = c.toLower := by
  by_cases capital : c.isUpper
  · apply toLower_of_not_isUpper
    have small := isLower_toLower capital
    simp only [isUpper_eq, isLower_eq, decide_eq_true_eq, ge_iff_le, UInt32.le_iff_toNat_le] at small ⊢
    simp at small ⊢
    omega
  · rw [toLower_of_not_isUpper capital]
    exact toLower_of_not_isUpper capital

theorem isAlpha_toLower (c : Char) : c.toLower.isAlpha = c.isAlpha := by
  by_cases capital : c.isUpper
  · simp [isAlpha_eq, capital, isLower_toLower capital]
  · rw [toLower_of_not_isUpper capital]

theorem isDigit_of_isAlpha {c : Char} (letter : c.isAlpha) : c.isDigit = false := by
  simp only [isAlpha_eq, isUpper_eq, isLower_eq, Char.isDigit, Bool.or_eq_true, decide_eq_true_eq,
    ge_iff_le, UInt32.le_iff_toNat_le] at letter ⊢
  simp at letter ⊢
  omega

theorem isDigit_toLower (c : Char) : c.toLower.isDigit = c.isDigit := by
  by_cases capital : c.isUpper
  · have letter : c.isAlpha := by simp [isAlpha_eq, capital]
    rw [isDigit_of_isAlpha letter, isDigit_of_isAlpha ((isAlpha_toLower c).trans letter)]
  · rw [toLower_of_not_isUpper capital]

/-- Only letters become letters. -/
theorem toLower_eq_iff {c d : Char} (other : ¬ d.isAlpha) : c.toLower = d ↔ c = d := by
  by_cases capital : c.isUpper
  · have letter : c.isAlpha := by simp [isAlpha_eq, capital]
    constructor
    · rintro rfl
      exact absurd ((isAlpha_toLower c).trans letter) other
    · rintro rfl
      exact absurd letter other
  · rw [toLower_of_not_isUpper capital]

/-- A text without letters is the same word as no other. -/
theorem eq_of_sameWord {s mark : String} (noLetter : ∀ c ∈ mark.toList, ¬ c.isAlpha) (same : sameWord s mark) :
    s = mark := by
  have lists : s.toList.map Char.toLower = mark.toList.map Char.toLower := by
    have lowered : lower s = lower mark := by simpa [sameWord] using same
    simpa [lower] using congrArg String.toList lowered
  have each : ∀ as bs : List Char, as.map Char.toLower = bs.map Char.toLower →
      (∀ c ∈ bs, ¬ c.isAlpha) → as = bs := by
    intro as
    induction as with
    | nil => intro bs lowered _; simpa [eq_comm] using lowered
    | cons a as ih =>
      intro bs lowered plain
      cases bs with
      | nil => simp at lowered
      | cons b bs =>
        rw [List.map_cons, List.map_cons, List.cons.injEq] at lowered
        have plainHead : ¬ b.isAlpha := plain b (List.mem_cons_self ..)
        have headSmall : b.toLower = b := (toLower_eq_iff plainHead).mpr rfl
        rw [headSmall, toLower_eq_iff plainHead] at lowered
        rw [lowered.1, ih bs lowered.2 fun c member => plain c (List.mem_cons_of_mem _ member)]
  exact String.toList_injective (each _ _ lists noLetter)

theorem lower_lower (s : String) : lower (lower s) = lower s := by
  have twice : Char.toLower ∘ Char.toLower = Char.toLower := funext toLower_toLower
  rw [lower, lower, String.toList_ofList, List.map_map, twice]

end DocTypes.Text
