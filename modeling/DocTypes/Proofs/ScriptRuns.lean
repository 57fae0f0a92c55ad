import DocTypes.Proofs.ExtentLevels
import DocTypes.Proofs.Scripts

namespace DocTypes

namespace Cursor

/-- The second cursor is the first one some tokens later, with what was noted on the way. -/
structure Further (c later : Cursor) : Prop extends Onward c later where
  corrections : c.corrections <+: later.corrections

variable {c later : Cursor}

theorem Further.refl (c : Cursor) : Further c c :=
  ⟨Onward.refl c, List.prefix_rfl⟩

theorem Further.trans {last : Cursor} (first : Further c later) (second : Further later last) : Further c last :=
  ⟨first.toOnward.trans second.toOnward, first.corrections.trans second.corrections⟩

theorem further_advance (c : Cursor) : Further c c.advance :=
  ⟨c.onward_advance, List.prefix_rfl⟩

theorem further_correct (c : Cursor) (right : String) : Further c (c.correct right) := by
  unfold correct
  split
  · exact Further.refl c
  · split
    · exact Further.refl c
    · exact ⟨⟨rfl, rfl, List.suffix_rfl⟩, List.prefix_append ..⟩

/-- Going back to a mark undoes all that came after it. -/
theorem Further.reset (further : Further c later) : later.reset c.mark = c := by
  obtain ⟨⟨text, ending, _⟩, corrections⟩ := further
  have noted : later.corrections.take c.corrections.length = c.corrections :=
    (List.prefix_iff_eq_take.mp corrections).symm
  simp only [Cursor.reset, mark, text, ending, noted]

/-- A cursor is told from an earlier one by the number of tokens between them. -/
theorem Onward.ahead_eq_drop (onward : Onward c later) :
    later.ahead = c.ahead.drop (c.ahead.length - later.ahead.length) :=
  List.suffix_iff_eq_drop.mp onward.ahead

end Cursor

namespace Grammar

open Cursor (Further further_advance further_correct)

variable {α β σ : Type} {ctx : Context} {m after : Machine}

/-- An action that succeeds leaves the cursor where it is or takes the current token. -/
theorem Action.further {action : Action α} {c later : Cursor} {value : α}
    (acts : action.reading c = .ok (value, later)) : Further c later := by
  cases action with
  | peek n =>
    obtain ⟨_, rfl⟩ := reads_peek.mp acts
    exact Further.refl _
  | take =>
    obtain ⟨_, rfl⟩ := reads_take.mp acts
    exact further_advance c
  | expect wanted =>
    obtain ⟨_, rfl⟩ := reads_expect.mp acts
    exact further_advance c
  | eat text =>
    obtain ⟨_, rfl⟩ := reads_eat.mp acts
    split
    · exact further_advance c
    · exact Further.refl c
  | keyword canonical =>
    obtain ⟨_, rfl⟩ := reads_keyword.mp acts
    exact (further_correct c canonical).trans (further_advance _)

namespace Runs

variable {script : Script α} {outcome : Except ParseError α}

/-- A relation between machines holds from the start to the end of each run if it can be chained and holds across
each action and each level. -/
theorem relates (rel : Machine → Machine → Prop) (refl : ∀ m, rel m m)
    (trans : ∀ {m between after}, rel m between → rel between after → rel m after)
    (acted : ∀ {m : Machine} {later : Cursor}, Further m.cursor later → rel m { m with cursor := later })
    (nested : ∀ {m after : Machine}, m.depth < ctx.limit → rel m.enter after → rel m after.leave)
    (runs : Runs ctx script m outcome after) : rel m after := by
  induction runs with
  | done | fail | refused | tooDeep => exact refl _
  | acted acts => exact acted (Action.further acts)
  | next _ _ ihFirst ihRest => exact trans ihFirst ihRest
  | again _ _ ihBody ihLoop => exact trans ihBody ihLoop
  | broken _ ih | left _ ih | stuck _ ih | plain _ _ ih => exact ih
  | nested _ room _ ih => exact nested room ih

/-- Whether a run succeeds or fails, all levels that it opens are closed again. -/
theorem depth_eq (runs : Runs ctx script m outcome after) : after.depth = m.depth := by
  refine runs.relates (fun m after => after.depth = m.depth) (fun _ => rfl) (fun first second => second.trans first)
    (fun _ => rfl) fun {m after} _ inner => ?_
  change after.depth - 1 = m.depth
  rw [inner]
  rfl

/-- No run has more levels open than the limit allows. -/
theorem deepest_le (runs : Runs ctx script m outcome after) :
    m.deepest ≤ after.deepest ∧ after.deepest ≤ max m.deepest ctx.limit := by
  refine runs.relates (fun m after => m.deepest ≤ after.deepest ∧ after.deepest ≤ max m.deepest ctx.limit)
    (fun m => ⟨le_rfl, le_max_left ..⟩) (fun first second => ?_) (fun _ => ⟨le_rfl, le_max_left ..⟩)
    fun {m after} room inner => ?_
  · omega
  · change max m.deepest (m.depth + 1) ≤ after.deepest ∧
      after.deepest ≤ max (max m.deepest (m.depth + 1)) ctx.limit at inner
    change m.deepest ≤ after.deepest ∧ after.deepest ≤ max m.deepest ctx.limit
    omega

/-- Whether a run succeeds or fails, its cursor only goes on. -/
theorem further (runs : Runs ctx script m outcome after) : Further m.cursor after.cursor :=
  runs.relates (fun m after => Further m.cursor after.cursor) (fun _ => Further.refl _) Further.trans id
    fun _ inner => inner

/-- A run that does not fail for its depth does not depend on the limit. -/
theorem of_limit_le (runs : Runs ctx script m outcome after) (notTooDeep : outcome ≠ .error (.tooDeep ctx.limit))
    {limit : Nat} (larger : ctx.limit ≤ limit) : Runs { ctx with limit } script m outcome after := by
  have sameScript : ∀ {α : Type} (production : Production α),
      production.script { ctx with limit } = production.script ctx := by
    intro α production
    cases production <;> rfl
  induction runs with
  | done value m => exact .done value m
  | fail error m => exact .fail error m
  | acted acts => exact .acted acts
  | refused refuses => exact .refused refuses
  | next _ _ ihFirst ihRest => exact .next (ihFirst nofun) (ihRest notTooDeep)
  | broken _ ih => exact .broken (ih fun same => notTooDeep (by rw [Except.error.inj same]))
  | again _ _ ihBody ihLoop => exact .again (ihBody nofun) (ihLoop notTooDeep)
  | left _ ih => exact .left (ih nofun)
  | stuck _ ih => exact .stuck (ih fun same => notTooDeep (by rw [Except.error.inj same]))
  | plain flat _ ih => exact .plain flat ((sameScript _).symm ▸ ih notTooDeep)
  | nested nests room _ ih =>
    exact .nested nests (Nat.lt_of_lt_of_le room larger) ((sameScript _).symm ▸ ih notTooDeep)
  | tooDeep => exact absurd rfl notTooDeep

end Runs

/-- Each successful run of the script takes a token. -/
def Takes (ctx : Context) (script : Script α) : Prop :=
  ∀ (m after : Machine) (value : α), Runs ctx script m (.ok value) after →
    after.cursor.ahead.length < m.cursor.ahead.length

namespace Takes

theorem fail (error : ParseError) : Takes ctx (.fail error : Script α) := by
  intro m after value runs
  cases runs

theorem bind_first {first : Script α} (takes : Takes ctx first) (rest : α → Script β) :
    Takes ctx (first >>= rest) := by
  intro m after value runs
  cases runs with
  | next starts goesOn =>
    have before := takes _ _ _ starts
    have behind := goesOn.further.ahead.length_le
    omega

theorem bind_rest (first : Script α) {rest : α → Script β} (takes : ∀ value, Takes ctx (rest value)) :
    Takes ctx (first >>= rest) := by
  intro m after value runs
  cases runs with
  | next starts goesOn =>
    have before := starts.further.ahead.length_le
    have behind := takes _ _ _ _ goesOn
    omega

theorem ite {found : Prop} [Decidable found] {yes no : Script α} (ifYes : Takes ctx yes) (ifNo : Takes ctx no) :
    Takes ctx (if found then yes else no) := by
  by_cases holds : found
  · rw [if_pos holds]
    exact ifYes
  · rw [if_neg holds]
    exact ifNo

theorem call {production : Production α} (takes : Takes ctx (production.script ctx)) :
    Takes ctx (.call production) := by
  intro m after value runs
  cases runs with
  | plain _ runs => exact takes m after value runs
  | nested _ _ runs =>
    have inside := takes _ _ value runs
    exact inside

/-- A loop takes what its body takes each time. -/
theorem loop {body : σ → Script (σ ⊕ α)} (takes : ∀ value, Takes ctx (body value)) (start : σ) :
    Takes ctx (.loop body start) := by
  intro m after value runs
  generalize isLoop : Script.loop body start = script at runs
  cases runs with
  | again starts goesOn =>
    cases isLoop
    have first := takes _ _ _ _ starts
    have others := goesOn.further.ahead.length_le
    omega
  | left leaves =>
    cases isLoop
    exact takes _ _ _ _ leaves
  | _ => cases isLoop

theorem advance {c : Cursor} {token : String} (front : c.peek 0 = some token) :
    c.advance.ahead.length < c.ahead.length := by
  unfold Cursor.peek at front
  unfold Cursor.advance
  cases ahead : c.ahead with
  | nil => simp [ahead] at front
  | cons first more => exact Nat.lt_succ_self _

theorem take : Takes ctx Script.take := by
  intro m after value runs
  cases runs with
  | acted acts =>
    obtain ⟨front, rfl⟩ := reads_take.mp acts
    exact advance front

theorem expect (wanted : String) : Takes ctx (Script.expect wanted) := by
  intro m after value runs
  cases runs with
  | acted acts =>
    obtain ⟨⟨found, front, _⟩, rfl⟩ := reads_expect.mp acts
    exact advance front

theorem keyword (canonical : String) : Takes ctx (Script.keyword canonical) := by
  intro m after value runs
  cases runs with
  | acted acts =>
    obtain ⟨⟨found, front⟩, rfl⟩ := reads_keyword.mp acts
    have corrected : (m.cursor.correct canonical).peek 0 = some found := by
      rw [Cursor.peek, Cursor.correct_ahead]
      exact front
    have taken := advance corrected
    rwa [Cursor.correct_ahead] at taken

end Takes

section Types

variable (ctx)

/-- Every basic type starts with a token of its own. -/
theorem takes_basicHead (token : String) : Takes ctx (Script.basicHead ctx token) := by
  unfold Script.basicHead
  split
  case h_19 => exact Takes.take.bind_first _
  case h_20 => exact Takes.fail _
  all_goals first
    | exact (Takes.keyword _).bind_first _
    | exact (Takes.take.bind_first _).bind_first _

theorem takes_basicType : Takes ctx (.call .basicType) := by
  refine Takes.call (Takes.bind_rest _ fun front => ?_)
  cases front with
  | none => exact Takes.fail _
  | some token => exact (takes_basicHead ctx token).bind_first _

theorem takes_singleType : Takes ctx (.call .singleType) := by
  refine Takes.call (Takes.bind_rest _ fun front => Takes.ite ?_ ?_)
  · exact (Takes.expect "(").bind_first _
  · exact (takes_basicType ctx).bind_first _

theorem takes_intersection : Takes ctx (Script.intersection ctx) :=
  Takes.bind_first (Takes.loop (fun _ => (takes_singleType ctx).bind_first _) _) _

theorem takes_anyType (bracketed : Bool) : Takes ctx (.call (.anyType bracketed)) := by
  have union : Takes ctx (Script.union ctx) :=
    Takes.bind_first (Takes.loop (fun _ => (takes_intersection ctx).bind_first _) _) _
  have nullable : Takes ctx Script.nullable := (Takes.expect "?").bind_first _
  have conditional : Takes ctx Script.conditional := (Takes.take.bind_first _).bind_first _
  refine Takes.call (Takes.bind_rest _ fun first => Takes.bind_rest _ fun second => ?_)
  exact Takes.ite (conditional.bind_first _) (Takes.ite (nullable.bind_first _) (union.bind_first _))

end Types

end Grammar

end DocTypes
