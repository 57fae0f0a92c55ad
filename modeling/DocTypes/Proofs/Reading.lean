import DocTypes.TypeText.Fields

namespace DocTypes

/-- Noting a spelling takes no token. -/
theorem Cursor.correct_ahead (c : Cursor) (right : String) : (c.correct right).ahead = c.ahead := by
  unfold Cursor.correct
  split
  · rfl
  · split <;> rfl

namespace Grammar

/-- The reading succeeds at a cursor, with this value and this cursor after it. -/
def Reads {α : Type} (reading : Reading α) (c : Cursor) (value : α) (after : Cursor) : Prop :=
  reading c = .ok (value, after)

variable {α β : Type} {c after : Cursor}

@[simp]
theorem reads_pure {given value : α} : Reads (pure given) c value after ↔ value = given ∧ after = c := by
  have unfolded : (pure given : Reading α) c = .ok (given, c) := rfl
  simp [Reads, unfolded, eq_comm]

@[simp]
theorem reads_bind {reading : Reading α} {next : α → Reading β} {value : β} :
    Reads (reading >>= next) c value after ↔
      ∃ first middle, Reads reading c first middle ∧ Reads (next first) middle value after := by
  have unfolded : (reading >>= next) c = reading c >>= fun step => next step.1 step.2 := rfl
  unfold Reads
  rw [unfolded]
  cases reading c with
  | error error => simp [bind, Except.bind]
  | ok step =>
    obtain ⟨first, middle⟩ := step
    simp [bind, Except.bind, and_assoc]

@[simp]
theorem reads_map {reading : Reading α} {f : α → β} {value : β} :
    Reads (f <$> reading) c value after ↔ ∃ first, Reads reading c first after ∧ value = f first := by
  rw [← bind_pure_comp, reads_bind]
  simp [and_comm, and_assoc]

@[simp]
theorem reads_throw {error : ParseError} {value : α} : ¬ Reads (throw error) c value after := by
  simp [Reads, throw, throwThe, MonadExceptOf.throw, StateT.lift, bind, Except.bind]

@[simp]
theorem reads_get {value : Cursor} : Reads get c value after ↔ value = c ∧ after = c := by
  simp [Reads, get, getThe, MonadStateOf.get, StateT.get, pure, Except.pure, eq_comm]

@[simp]
theorem reads_lift {result : Except ParseError α} {value : α} :
    Reads (liftM result) c value after ↔ result = .ok value ∧ after = c := by
  cases result with
  | error error => simp [Reads, liftM, monadLift, MonadLift.monadLift, StateT.lift, bind, Except.bind]
  | ok found =>
    simp [Reads, liftM, monadLift, MonadLift.monadLift, StateT.lift, bind, Except.bind, pure, Except.pure, eq_comm]

@[simp]
theorem reads_discard {reading : Reading α} {value : Unit} :
    Reads (discard reading) c value after ↔ ∃ found, Reads reading c found after := by
  have unfolded : discard reading = reading >>= fun _ => pure () := rfl
  rw [unfolded, reads_bind]
  simp

@[simp]
theorem reads_ite {found : Prop} [Decidable found] {yes no : Reading α} {value : α} :
    Reads (if found then yes else no) c value after ↔
      found ∧ Reads yes c value after ∨ ¬ found ∧ Reads no c value after := by
  by_cases holds : found <;> simp [holds]

@[simp]
theorem reads_peek {n : Nat} {value : Option String} :
    Reads (peek n) c value after ↔ value = c.peek n ∧ after = c := by
  simp [peek, and_assoc, and_comm]

/-- Looking ahead leaves the cursor where it is. -/
theorem reads_peek_bind {n : Nat} {next : Option String → Reading α} {value : α} :
    Reads (peek n >>= next) c value after ↔ Reads (next (c.peek n)) c value after :=
  Iff.rfl

theorem reads_get_bind {next : Cursor → Reading α} {value : α} :
    Reads (get >>= next) c value after ↔ Reads (next c) c value after :=
  Iff.rfl

@[simp]
theorem reads_take {value : String} :
    Reads take c value after ↔ c.peek 0 = some value ∧ after = c.advance := by
  unfold Reads take Cursor.take
  cases c.peek 0 <;> simp [eq_comm]

@[simp]
theorem reads_expect {wanted : String} {value : Unit} :
    Reads (expect wanted) c value after ↔
      (∃ found, c.peek 0 = some found ∧ Text.sameWord found wanted) ∧ after = c.advance := by
  have unfolded : Reads (expect wanted) c value after ↔ ∃ found, Cursor.expect c wanted = .ok (found, after) :=
    reads_discard
  rw [unfolded, Cursor.expect]
  cases c.peek 0 with
  | none => simp
  | some found =>
    by_cases same : Text.sameWord found wanted = true
    · simp only [same, if_true, Except.ok.injEq, Prod.mk.injEq, Option.some.injEq]
      grind
    · simp [same]

@[simp]
theorem reads_eat {text : String} {value : Bool} :
    Reads (eat text) c value after ↔
      value = decide (c.peek 0 = some text) ∧ after = if c.peek 0 = some text then c.advance else c := by
  unfold Reads eat Cursor.eat
  by_cases found : c.peek 0 = some text <;> simp [found, eq_comm]

@[simp]
theorem reads_keyword {canonical : String} {value : Unit} :
    Reads (keyword canonical) c value after ↔
      (∃ found, c.peek 0 = some found) ∧ after = (c.correct canonical).advance := by
  have unfolded : keyword canonical = correct canonical >>= fun _ => discard take := rfl
  have corrects : ∀ value middle, Reads (correct canonical) c value middle ↔ middle = c.correct canonical := by
    intro value middle
    have corrected : correct canonical c = .ok ((), c.correct canonical) := rfl
    simp [Reads, corrected, eq_comm]
  have same : (c.correct canonical).peek 0 = c.peek 0 := by
    rw [Cursor.peek, Cursor.correct_ahead, Cursor.peek]
  rw [unfolded, reads_bind]
  simp [corrects, same]

/-- A word that passes a test and stands where `ends` lets a name end behind it. -/
def fieldName (test : String → Bool) (expected : String → ParseError) (ends : Cursor → Bool) : Reading String := do
  let found ← peek 0
  unless found.any test do throw (expected (found.getD ""))
  let name ← take
  unless ends (← get) do throw .noSpaceAfterName
  return name

theorem variableName_eq (extent : Extent) :
    variableName extent = fieldName Token.isVariable .expectedVariable fun c =>
      (extent.includes .withDefault && c.peek 0 = some "=") || c.atFieldEnd :=
  rfl

theorem templateName_eq : templateName = fieldName Token.startsName .expectedTemplateName Cursor.atFieldEnd :=
  rfl

theorem attempt_fieldName (field : Field) (test : String → Bool) (expected : String → ParseError)
    (ends : Cursor → Bool) (c : Cursor) :
    attempt field (fieldName test expected ends) c =
      if (c.peek 0).any test then
        if ends c.advance then (some ((c.peek 0).getD ""), c.advance, [])
        else (none, c, [⟨field, .noSpaceAfterName⟩])
      else (none, c, [⟨field, expected ((c.peek 0).getD "")⟩]) := by
  have read : fieldName test expected ends c =
      if (c.peek 0).any test then
        if ends c.advance then .ok ((c.peek 0).getD "", c.advance) else .error .noSpaceAfterName
      else .error (expected ((c.peek 0).getD "")) := by
    change (if (c.peek 0).any test then _ else _ : Reading String) c = _
    cases front : c.peek 0 with
    | none => rfl
    | some name =>
      have taken : c.take = .ok (name, c.advance) := by rw [Cursor.take, front]
      by_cases passes : (some name).any test
      · rw [if_pos passes, if_pos passes]
        change (c.take >>= fun step => (if ends step.2 then _ else _ : Reading String) step.2) = _
        rw [taken]
        by_cases atEnd : ends c.advance
        · rw [if_pos atEnd]
          exact congrFun (if_pos atEnd) c.advance
        · rw [if_neg atEnd]
          exact congrFun (if_neg atEnd) c.advance
      · rw [if_neg passes, if_neg passes]
        rfl
  rw [attempt, read]
  by_cases passes : (c.peek 0).any test
  · by_cases atEnd : ends c.advance <;> simp [passes, atEnd]
  · simp [passes]

theorem attempt_of_reads {reading : Reading α} {value : α} (field : Field)
    (reads : Reads reading c value after) : attempt field reading c = (some value, after, []) := by
  rw [attempt, show reading c = .ok (value, after) from reads]

theorem attempt_of_error {reading : Reading α} {c : Cursor} {error : ParseError} (field : Field)
    (fails : reading c = .error error) : attempt field reading c = (none, c, [⟨field, error⟩]) := by
  rw [attempt, fails]

/-- A type and the end of its field. -/
theorem reads_delimitedType {ctx : Context} {found : DocType} :
    Reads (delimitedType ctx) c found after ↔ Reads (type ctx) c found after ∧ after.atFieldEnd := by
  rw [delimitedType, reads_bind]
  simp only [reads_get_bind]
  constructor
  · rintro ⟨value, middle, reads, rest⟩
    by_cases atEnd : middle.atFieldEnd
    · rw [if_pos atEnd] at rest
      obtain ⟨rfl, rfl⟩ := reads_pure.mp rest
      exact ⟨reads, atEnd⟩
    · rw [if_neg atEnd, reads_bind] at rest
      obtain ⟨_, _, thrown, _⟩ := rest
      exact absurd thrown reads_throw
  · rintro ⟨reads, atEnd⟩
    exact ⟨found, after, reads, by rw [if_pos atEnd]; exact reads_pure.mpr ⟨rfl, rfl⟩⟩

end Grammar

end DocTypes
