import DocTypes.Cli.Options

namespace DocTypes.Cli

def fixFlag : String :=
  "--fix"

def pathsMark : String :=
  "--"

/-- Whether an argument is an option that takes the next argument as its value. -/
def awaitsValue (text : String) : Bool :=
  match Argument.ofText text with
  | .long name none => Options.takesValue name
  | _ => false

/-- A place between arguments where the flag for fixing is read as such: no option before it waits for a
value, only options and paths came before, and the flag is not given otherwise. -/
structure FlagPlace (front back : List String) : Prop where
  noMark : pathsMark ∉ front
  ready : ∀ last ∈ front.getLast?, awaitsValue last = false
  absentBefore : fixFlag ∉ front
  absentBehind : fixFlag ∉ back.takeWhile (· ≠ pathsMark)

namespace Options

def withFix (fix : Bool) (options : Options) : Options :=
  { options with fix }

@[simp] theorem fix_withFix (fix : Bool) (options : Options) : (options.withFix fix).fix = fix :=
  rfl

theorem withFix_self (options : Options) : options.withFix options.fix = options :=
  rfl

variable (fix : Bool) (options : Options)

theorem addPath_withFix (path : String) :
    (options.withFix fix).addPath path = (options.addPath path).map (withFix fix) := by
  unfold addPath
  split <;> rfl

theorem setValue_withFix (name value : String) :
    (options.withFix fix).setValue name value = (options.setValue name value).map (withFix fix) := by
  fun_cases setValue options name value <;> simp [setValue, withFix, Except.map, *]

theorem setFlag?_withFix {name : String} (other : name ≠ "fix") :
    (options.withFix fix).setFlag? name = (options.setFlag? name).map (Except.map (withFix fix)) := by
  fun_cases setFlag? options name
  case case1 => exact absurd rfl other
  case case2 => by_cases given : options.strict <;> simp [setFlag?, withFix, Except.map, given]
  case case3 => simp [setFlag?, *]

theorem foldlM_addPath_withFix (paths : List String) :
    paths.foldlM addPath (options.withFix fix) = (paths.foldlM addPath options).map (withFix fix) := by
  induction paths generalizing options with
  | nil => rfl
  | cons path paths ih =>
    rw [List.foldlM_cons, List.foldlM_cons, addPath_withFix]
    cases options.addPath path with
    | error error => rfl
    | ok next => exact ih next

end Options

namespace Argument

theorem ofText_eq_pathsOnly_iff {text : String} : ofText text = .pathsOnly ↔ text = pathsMark := by
  constructor
  · intro isMark
    unfold ofText at isMark
    split at isMark
    next same => exact String.toList_inj.mp same
    next => split at isMark <;> cases isMark
    next => cases isMark
    next => cases isMark
  · rintro rfl
    rfl

theorem eq_fixFlag_of_ofText {text : String} (isFix : ofText text = .long "fix" none) : text = fixFlag := by
  unfold ofText at isFix
  split at isFix
  next => cases isFix
  next rest _ same =>
    split at isFix
    next atEnd =>
      have named : rest.takeWhile (· != '=') = "fix".toList := by
        simp only [long.injEq, and_true] at isFix
        rw [← isFix, String.toList_ofList]
      have whole : rest = "fix".toList := by
        rw [← named, ← List.append_nil (rest.takeWhile _), ← atEnd, List.takeWhile_append_dropWhile]
      exact String.toList_inj.mp (by rw [same, whole]; rfl)
    next => simp at isFix
  next => cases isFix
  next => cases isFix

end Argument

namespace Reading

def withFix (fix : Bool) : Reading → Reading
  | next options pending => .next (options.withFix fix) pending
  | pathsOnly options => .pathsOnly (options.withFix fix)
  | other => other

theorem made_map (fix : Bool) (result : Except UsageError Options) :
    made (result.map (Options.withFix fix)) = (made result).withFix fix := by
  cases result <;> rfl

theorem made_eq_next {result : Except UsageError Options} {options : Options} {pending : Option String}
    (isNext : made result = .next options pending) : pending = none := by
  cases result <;> cases isNext
  rfl

theorem made_ne_pathsOnly {result : Except UsageError Options} {options : Options} :
    made result ≠ .pathsOnly options := by
  cases result <;> nofun

end Reading

def Request.withFix (fix : Bool) : Request → Request
  | .check options => .check (options.withFix fix)
  | other => other

variable {fix : Bool} {options options' : Options} {pending pending' : Option String} {text : String}

theorem readArgument_withFix (other : text ≠ fixFlag) :
    readArgument (options.withFix fix) pending text = (readArgument options pending text).withFix fix := by
  have notFix {name : String} (isLong : Argument.ofText text = .long name none) : name ≠ "fix" := by
    rintro rfl
    exact other (Argument.eq_fixFlag_of_ofText isLong)
  fun_cases readArgument options pending text
  case case11 isLong _ _ made =>
    simp [readArgument, Options.setFlag?_withFix fix options (notFix isLong), Reading.made_map, *]
  case case12 isLong _ _ =>
    simp [readArgument, Options.setFlag?_withFix fix options (notFix isLong), Reading.withFix, *]
  all_goals
    simp only [readArgument, *]
    simp [Options.setValue_withFix, Options.addPath_withFix, Reading.made_map, Reading.withFix]

theorem readArgument_eq_next (isNext : readArgument options pending text = .next options' pending') :
    text ≠ pathsMark ∧ (awaitsValue text = false → pending' = none) := by
  rw [Ne, ← Argument.ofText_eq_pathsOnly_iff]
  revert isNext
  fun_cases readArgument options pending text
  case case10 isLong takes =>
    exact fun _ => ⟨by simp [isLong], by simp [awaitsValue, isLong, takes]⟩
  all_goals
    intro isNext
    first
    | cases isNext
    | exact ⟨by simp [*], fun _ => Reading.made_eq_next isNext⟩

theorem readArgument_eq_pathsOnly (isRest : readArgument options pending text = .pathsOnly options') :
    text = pathsMark := by
  rw [← Argument.ofText_eq_pathsOnly_iff]
  revert isRest
  fun_cases readArgument options pending text
  case case4 isMark => exact fun _ => isMark
  all_goals
    intro isRest
    first
    | cases isRest
    | exact absurd isRest Reading.made_ne_pathsOnly

/-- The field of the flag is only copied by arguments without it. -/
theorem readArguments_withFix {rest : List String} (absent : fixFlag ∉ rest.takeWhile (· ≠ pathsMark)) :
    readArguments (options.withFix fix) pending rest =
      (readArguments options pending rest).map (Request.withFix fix) := by
  induction rest generalizing options pending with
  | nil => cases pending <;> rfl
  | cons text rest ih =>
    have other : text ≠ fixFlag := by
      rintro rfl
      exact absent (by simp [fixFlag, pathsMark])
    simp only [readArguments, readArgument_withFix other]
    cases isReading : readArgument options pending text with
    | next options' pending' =>
      have notMark := (readArgument_eq_next isReading).1
      refine ih fun given => absent ?_
      rw [List.takeWhile_cons_of_pos (by simp [notMark])]
      exact .tail _ given
    | pathsOnly options' =>
      simp only [Reading.withFix, Options.foldlM_addPath_withFix]
      cases rest.foldlM Options.addPath options' <;> rfl
    | help | version | failed => rfl

theorem readArguments_fixFlag (notYet : options.fix = false) (back : List String) :
    readArguments options none (fixFlag :: back) = readArguments (options.withFix true) none back := by
  have isFlag : readArgument options none fixFlag = .next (options.withFix true) none := by
    simp [readArgument, show Argument.ofText fixFlag = .long "fix" none from rfl, Options.takesValue,
      Options.setFlag?, notYet, Reading.made, Options.withFix]
  simp only [readArguments, isFlag]

theorem fix_eq_of_readArgument (other : text ≠ fixFlag)
    (isNext : readArgument options pending text = .next options' pending') : options'.fix = options.fix := by
  have same : readArgument (options.withFix options.fix) pending text = _ := readArgument_withFix other
  rw [Options.withFix_self, isNext, Reading.withFix, Reading.next.injEq] at same
  rw [same.1, Options.fix_withFix]

/-- Adding the flag. The arguments before it are read as they were, up to it. -/
theorem readArguments_insert {front back : List String} (place : FlagPlace front back)
    (notYet : options.fix = false) (noneWaits : front = [] → pending = none) :
    readArguments options pending (front ++ fixFlag :: back) =
      (readArguments options pending (front ++ back)).map (Request.withFix true) := by
  induction front generalizing options pending with
  | nil =>
    obtain rfl := noneWaits rfl
    rw [List.nil_append, List.nil_append, readArguments_fixFlag notYet, readArguments_withFix place.absentBehind]
  | cons text front ih =>
    have other : text ≠ fixFlag := fun same => place.absentBefore (same ▸ List.mem_cons_self)
    simp only [List.cons_append, readArguments]
    cases isReading : readArgument options pending text with
    | next options' pending' =>
      have waits := (readArgument_eq_next isReading).2
      -- The last argument decides whether a value is waited for where the flag stands.
      refine ih ⟨fun given => place.noMark (.tail _ given), fun last isLast => ?_,
        fun given => place.absentBefore (.tail _ given), place.absentBehind⟩
        ((fix_eq_of_readArgument other isReading).trans notYet) fun atEnd => ?_
      · exact place.ready last (by rw [List.getLast?_cons, isLast]; rfl)
      · exact waits (place.ready text (by simp [atEnd]))
    | pathsOnly options' =>
      exact absurd (readArgument_eq_pathsOnly isReading) fun same => place.noMark (same ▸ List.mem_cons_self)
    | help | version | failed => rfl

/-- The second command line asks for all that the first one asks for, and for fixing. -/
structure AddsFix (request : List String → Except UsageError Request) (plain fixing : List String) : Prop where
  absent : ∀ options, request plain = .ok (.check options) → options.fix = false
  added : request fixing = (request plain).map (Request.withFix true)

namespace FlagPlace

variable {front back : List String}

theorem absent (place : FlagPlace front back) : fixFlag ∉ (front ++ back).takeWhile (· ≠ pathsMark) := by
  have unmarked : ∀ text ∈ front, decide (text ≠ pathsMark) := by
    intro text member
    exact decide_eq_true (ne_of_mem_of_not_mem member place.noMark)
  rw [List.takeWhile_append_of_pos unmarked]
  intro given
  cases List.mem_append.mp given with
  | inl before => exact place.absentBefore before
  | inr behind => exact place.absentBehind behind

theorem fix_of_check (place : FlagPlace front back) {options : Options}
    (isCheck : Request.ofArguments (front ++ back) = .ok (.check options)) : options.fix = false := by
  have copied : readArguments (Options.withFix false {}) none (front ++ back) = _ :=
    readArguments_withFix place.absent
  have same : Request.ofArguments (front ++ back) =
      (Request.ofArguments (front ++ back)).map (Request.withFix false) :=
    copied
  simp only [isCheck, Except.map, Request.withFix, Except.ok.injEq, Request.check.injEq] at same
  rw [same, Options.fix_withFix]

/-- The flag for fixing asks for nothing else. -/
theorem addsFix (place : FlagPlace front back) :
    AddsFix Request.ofArguments (front ++ back) (front ++ fixFlag :: back) :=
  ⟨fun _ isCheck => place.fix_of_check isCheck, readArguments_insert place rfl fun _ => rfl⟩

end FlagPlace

end DocTypes.Cli
