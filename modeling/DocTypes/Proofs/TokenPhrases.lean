import DocTypes.Proofs.Rereading
import DocTypes.Proofs.TypeGrammar

namespace DocTypes.Grammar

/-- What stands ahead, what is found there, and what is left. -/
abbrev Meaning (α : Type) := List String → α → List String → Prop

/-- Where the texts ahead are in the domain, a reading finds a value and leaves a rest just if its meaning
says so. -/
def DenotesOn {α : Type} (domain : List String → Prop) (reading : Reading α) (meaning : Meaning α) : Prop :=
  ∀ c : Cursor, domain c.texts → ∀ value rest,
    (∃ after, Reads reading c value after ∧ after.texts = rest) ↔ meaning c.texts value rest

abbrev Denotes {α : Type} (reading : Reading α) (meaning : Meaning α) : Prop :=
  DenotesOn (fun _ => True) reading meaning

section Rules

variable {α β : Type} {domain : List String → Prop}

theorem DenotesOn.mono {wider : List String → Prop} {reading : Reading α} {meaning : Meaning α}
    (denotes : DenotesOn wider reading meaning) (within : ∀ before, domain before → wider before) :
    DenotesOn domain reading meaning :=
  fun c holds => denotes c (within c.texts holds)

theorem DenotesOn.on {reading : Reading α} {meaning : Meaning α} (denotes : Denotes reading meaning) :
    DenotesOn domain reading meaning :=
  denotes.mono fun _ _ => trivial

theorem DenotesOn.congrOn {reading : Reading α} {meaning same : Meaning α}
    (denotes : DenotesOn domain reading meaning)
    (iff : ∀ before, domain before → ∀ value rest, meaning before value rest ↔ same before value rest) :
    DenotesOn domain reading same :=
  fun c holds value rest => (denotes c holds value rest).trans (iff c.texts holds value rest)

theorem DenotesOn.congr {reading : Reading α} {meaning same : Meaning α} (denotes : Denotes reading meaning)
    (iff : ∀ before value rest, meaning before value rest ↔ same before value rest) : Denotes reading same :=
  denotes.congrOn fun before _ => iff before

theorem denotes_pure (given : α) :
    DenotesOn domain (pure given) fun before value rest => value = given ∧ rest = before := by
  intro c _ value rest
  simp [eq_comm]

/-- One reading after another. What the first leaves is in the domain of the second. -/
theorem DenotesOn.bindOn {onward : List String → Prop} {reading : Reading α} {next : α → Reading β}
    {first : Meaning α} {second : α → Meaning β} (denotes : DenotesOn domain reading first)
    (later : ∀ found, DenotesOn onward (next found) (second found))
    (fits : ∀ before found rest, domain before → first before found rest → onward rest) :
    DenotesOn domain (reading >>= next) fun before value rest =>
      ∃ found middle, first before found middle ∧ second found middle value rest := by
  intro c holds value rest
  constructor
  · rintro ⟨after, reads, left⟩
    obtain ⟨found, middle, readsFirst, readsNext⟩ := reads_bind.mp reads
    have isFirst := (denotes c holds found middle.texts).mp ⟨middle, readsFirst, rfl⟩
    have onward := fits c.texts found middle.texts holds isFirst
    exact ⟨found, middle.texts, isFirst, (later found middle onward value rest).mp ⟨after, readsNext, left⟩⟩
  · rintro ⟨found, middle, isFirst, isSecond⟩
    obtain ⟨cursor, readsFirst, rfl⟩ := (denotes c holds found middle).mpr isFirst
    have onward := fits c.texts found cursor.texts holds isFirst
    obtain ⟨after, readsNext, left⟩ := (later found cursor onward value rest).mpr isSecond
    exact ⟨after, reads_bind.mpr ⟨found, cursor, readsFirst, readsNext⟩, left⟩

theorem DenotesOn.bind {reading : Reading α} {next : α → Reading β} {first : Meaning α} {second : α → Meaning β}
    (denotes : DenotesOn domain reading first) (later : ∀ found, Denotes (next found) (second found)) :
    DenotesOn domain (reading >>= next) fun before value rest =>
      ∃ found middle, first before found middle ∧ second found middle value rest :=
  denotes.bindOn later fun _ _ _ _ _ => trivial

theorem denotes_throw (error : ParseError) : DenotesOn domain (throw error : Reading α) fun _ _ _ => False := by
  intro c _ value rest
  simp

theorem denotes_throw_bind (error : ParseError) (next : α → Reading β) :
    DenotesOn domain (throw error >>= next) fun _ _ _ => False := by
  intro c _ value rest
  simp

theorem DenotesOn.discard {reading : Reading α} {meaning : Meaning α} (denotes : DenotesOn domain reading meaning) :
    DenotesOn domain (discard reading) fun before _ rest => ∃ value, meaning before value rest := by
  intro c holds value rest
  simp only [reads_discard, ← denotes c holds _ rest]
  grind

theorem denotes_lift (result : Except ParseError α) :
    DenotesOn domain (liftM result) fun before value rest => result = .ok value ∧ rest = before := by
  intro c _ value rest
  simp only [reads_lift]
  grind

theorem denotes_ite {found : Prop} [Decidable found] {yes no : Reading α} {ifYes ifNo : Meaning α}
    (isYes : found → DenotesOn domain yes ifYes) (isNo : ¬ found → DenotesOn domain no ifNo) :
    DenotesOn domain (if found then yes else no) fun before value rest =>
      found ∧ ifYes before value rest ∨ ¬ found ∧ ifNo before value rest := by
  intro c holds value rest
  by_cases isFound : found
  · simpa [isFound] using isYes isFound c holds value rest
  · simpa [isFound] using isNo isFound c holds value rest

/-- A check that the reading goes on from only if it holds. -/
theorem denotes_check {check : Prop} [Decidable check] {error : ParseError} {next : Reading α} {meaning : Meaning α}
    (denotes : Denotes next meaning) :
    Denotes (if check then next else throw error >>= fun _ : Unit => next) fun before value rest =>
      check ∧ meaning before value rest :=
  (denotes_ite (fun _ => denotes) fun _ => denotes_throw_bind error _).congr fun _ _ _ => by simp

/-- A check that the reading goes on from only if it fails. -/
theorem denotes_refuse {check : Prop} [Decidable check] {error : ParseError} {skipped : β → Reading α}
    {next : Reading α} {meaning : Meaning α} (denotes : Denotes next meaning) :
    Denotes (if check then throw error >>= skipped else next) fun before value rest =>
      ¬ check ∧ meaning before value rest :=
  (denotes_ite (fun _ => denotes_throw_bind error _) fun _ => denotes).congr fun _ _ _ => by simp

/-- A loop that is given the number of tokens ahead. -/
theorem denotes_ahead {next : Nat → Reading α} {meaning : Meaning α}
    (denotes : ∀ n, DenotesOn (·.length ≤ n) (next n) meaning) :
    Denotes (get >>= fun c => next c.ahead.length) meaning := by
  intro c _ value rest
  have bound : c.texts.length ≤ c.ahead.length := by simp [Cursor.texts]
  exact denotes c.ahead.length c bound value rest

theorem denotes_peekOn (n : Nat) {next : Option String → Reading α} {meaning : Option String → Meaning α}
    (denotes : ∀ seen, DenotesOn (fun before => domain before ∧ before[n]? = seen) (next seen) (meaning seen)) :
    DenotesOn domain (peek n >>= next) fun before value rest => meaning before[n]? before value rest := by
  intro c holds value rest
  change _ ↔ meaning c.texts[n]? c.texts value rest
  have seen := c.peek_eq n
  rw [← seen]
  exact denotes (c.peek n) c ⟨holds, seen.symm⟩ value rest

theorem denotes_peek (n : Nat) {next : Option String → Reading α} {meaning : Option String → Meaning α}
    (denotes : ∀ seen, DenotesOn domain (next seen) (meaning seen)) :
    DenotesOn domain (peek n >>= next) fun before value rest => meaning before[n]? before value rest :=
  denotes_peekOn n fun seen => (denotes seen).mono fun _ holds => holds.1

theorem texts_advance (c : Cursor) : c.advance.texts = c.texts.tail := by
  simp [Cursor.advance, Cursor.texts]

theorem denotes_take : Denotes take fun before value rest => before = value :: rest := by
  intro c _ value rest
  simp only [reads_take, Cursor.peek_zero]
  constructor
  · rintro ⟨after, ⟨front, rfl⟩, rfl⟩
    rw [texts_advance]
    exact (List.cons_head?_tail front).symm
  · intro texts
    exact ⟨c.advance, ⟨by rw [texts]; rfl, rfl⟩, by rw [texts_advance, texts]; rfl⟩

theorem denotes_expect (wanted : String) :
    Denotes (expect wanted) fun before _ rest => ∃ found, before = found :: rest ∧ Text.sameWord found wanted := by
  intro c _ value rest
  simp only [reads_expect, Cursor.peek_zero]
  constructor
  · rintro ⟨after, ⟨⟨found, front, same⟩, rfl⟩, rfl⟩
    rw [texts_advance]
    exact ⟨found, (List.cons_head?_tail front).symm, same⟩
  · rintro ⟨found, texts, same⟩
    exact ⟨c.advance, ⟨⟨found, by rw [texts]; rfl, same⟩, rfl⟩, by rw [texts_advance, texts]; rfl⟩

/-- A mark without letters is asked for as it stands. -/
theorem denotes_mark (mark : String) (noLetter : ∀ c ∈ mark.toList, ¬ c.isAlpha) :
    Denotes (expect mark) fun before _ rest => before = mark :: rest := by
  refine (denotes_expect mark).congr fun before _ rest => ⟨?_, ?_⟩
  · rintro ⟨found, texts, same⟩
    rw [texts, Text.eq_of_sameWord noLetter same]
  · intro texts
    exact ⟨mark, texts, by simp [Text.sameWord]⟩

theorem denotes_keyword (canonical : String) :
    Denotes (keyword canonical) fun before _ rest => ∃ token, before = token :: rest := by
  intro c _ value rest
  have texts : (c.correct canonical).texts = c.texts := by rw [Cursor.texts, Cursor.correct_ahead, Cursor.texts]
  simp only [reads_keyword, Cursor.peek_zero]
  constructor
  · rintro ⟨after, ⟨⟨found, front⟩, rfl⟩, rfl⟩
    rw [texts_advance, texts]
    exact ⟨found, (List.cons_head?_tail front).symm⟩
  · rintro ⟨token, ahead⟩
    refine ⟨(c.correct canonical).advance, ⟨⟨token, by rw [ahead]; rfl⟩, rfl⟩, ?_⟩
    rw [texts_advance, texts, ahead, List.tail_cons]

theorem denotes_eat (text : String) :
    Denotes (eat text) fun before value rest =>
      value = decide (before.head? = some text) ∧
        rest = if before.head? = some text then before.tail else before := by
  intro c _ value rest
  simp only [reads_eat, Cursor.peek_zero]
  by_cases found : c.texts.head? = some text
  · simp [found, texts_advance, eq_comm]
  · simp [found, eq_comm]

/-- A mark that may be there. -/
theorem denotes_option (mark : String) :
    Denotes (discard (eat mark)) fun before _ rest => ∃ option, before = option ++ rest ∧
      Optional (· = mark) option ∧ (option = [] → rest.head? ≠ some mark) := by
  refine (denotes_eat mark).discard.congr fun before _ rest => ⟨?_, ?_⟩
  · rintro ⟨found, _, left⟩
    by_cases isMark : before.head? = some mark
    · rw [if_pos isMark] at left
      subst left
      exact ⟨[mark], (List.cons_head?_tail isMark).symm, .some rfl, by simp⟩
    · rw [if_neg isMark] at left
      subst left
      exact ⟨[], rfl, .none, fun _ => isMark⟩
  · rintro ⟨option, rfl, _ | isMark, other⟩
    · exact ⟨false, by simp [other rfl], by simp [other rfl]⟩
    · subst isMark
      exact ⟨true, by simp, by simp⟩

/-- A name that may be there. -/
theorem denotes_optionalName {test : String → Bool} {next : Reading α} {meaning : Meaning α}
    (denotes : Denotes next meaning) :
    Denotes (peek 0 >>= fun first => if first.any test = true then discard take >>= fun _ => next else next)
      fun before value rest => ∃ name middle, before = name ++ middle ∧ Optional (test ·) name ∧
        (name = [] → ¬ middle[0]?.any test) ∧ meaning middle value rest := by
  refine (denotes_peek 0 fun first => denotes_ite (fun _ => denotes_take.discard.bind fun _ => denotes) fun _ =>
    denotes).congr fun before value rest => ⟨?_, ?_⟩
  · rintro (⟨named, _, middle, ⟨name, rfl⟩, isMeant⟩ | ⟨unnamed, isMeant⟩)
    · exact ⟨[name], middle, rfl, .some (by simpa using named), by simp, isMeant⟩
    · exact ⟨[], before, rfl, .none, fun _ => unnamed, isMeant⟩
  · rintro ⟨name, middle, rfl, _ | isNamed, unnamed, isMeant⟩
    · exact .inr ⟨unnamed rfl, isMeant⟩
    · exact .inl ⟨by simpa using isNamed, (), middle, ⟨_, rfl⟩, isMeant⟩

end Rules

/-- Tokens with a derivation, and a rest that does not go on with them. -/
def Phrase {α γ : Type} (stops : γ → List String → Prop) (derives : List String → α → γ → Prop) : Meaning α :=
  fun before value rest => ∃ p grip, before = p ++ rest ∧ derives p value grip ∧ stops grip rest

section Ends

variable {grip : List Suffix} {rest : List String}

/-- The marks that suffixes start with. -/
def suffixMarks : List String :=
  ["<", "\x7b", "(", "::", "*", "["]

theorem ends_nil : Ends [] rest := by
  simp [Ends]

theorem ends_cons {suffix : Suffix} : Ends (suffix :: grip) rest ↔ ¬ suffix.opening <+: rest ∧ Ends grip rest := by
  simp [Ends]

theorem ends_append {more : List Suffix} : Ends (grip ++ more) rest ↔ Ends grip rest ∧ Ends more rest := by
  simp only [Ends, List.mem_append]
  grind

theorem opens_iff {mark : String} : [mark] <+: rest ↔ rest[0]? = some mark := by
  cases rest <;> simp [eq_comm]

theorem ends_singleton {suffix : Suffix} {mark : String} (opening : suffix.opening = [mark]) :
    Ends [suffix] rest ↔ rest[0]? ≠ some mark := by
  rw [ends_cons, opening, opens_iff]
  exact and_iff_left ends_nil

theorem brackets_iff : ["[", "]"] <+: rest ↔ rest[0]? = some "[" ∧ rest[1]? = some "]" := by
  rcases rest with _ | ⟨first, _ | ⟨second, more⟩⟩
  · simp
  · simp
  · simp only [List.cons_prefix_cons, List.nil_prefix, and_true, List.getElem?_cons_zero, List.getElem?_cons_succ,
      Option.some.injEq, eq_comm]

theorem ends_mark {mark : String} (other : mark ∉ suffixMarks) (grip : List Suffix) (rest : List String) :
    Ends grip (mark :: rest) := by
  intro suffix _ opens
  cases suffix <;> simp_all [Suffix.opening, suffixMarks]

theorem not_goesOn {mark separator : String} {joins : List String → Prop} (other : mark ≠ separator) :
    ¬ GoesOn separator joins (mark :: rest) := by
  rintro ⟨more, same, _⟩
  exact other (List.cons.inj same).1

theorem Grip.ends_mark {mark : String} (other : mark ∉ "&" :: "|" :: suffixMarks) (grip : Grip)
    (rest : List String) :
    grip.Ends (mark :: rest) := by
  simp only [List.mem_cons, not_or] at other
  exact ⟨Grammar.ends_mark other.2.2 _ _, fun _ => ⟨not_goesOn other.1, not_goesOn other.2.1⟩⟩

/-- What may follow an `&` for a reference does not go on a type. -/
theorem Grip.ends_of_marksReference (grip : Grip) (marks : marksReference rest.head?) : grip.Ends rest := by
  have others : ∀ mark ∈ "&" :: "|" :: suffixMarks, ¬ marksReference (some mark) := by decide
  cases rest with
  | nil => exact ⟨fun suffix _ => by cases suffix <;> simp [Suffix.opening], fun _ => by simp [GoesOn]⟩
  | cons mark rest => exact Grip.ends_mark (fun member => others mark member marks) grip rest

theorem Grip.ends_reference (grip : Grip) (marks : marksReference rest.head?) : grip.Ends ("&" :: rest) := by
  refine ⟨Grammar.ends_mark (by decide) _ _, fun _ => ⟨?_, not_goesOn (by decide)⟩⟩
  rintro ⟨more, same, joins⟩
  obtain rfl := (List.cons.inj same).2
  exact joins marks

/-- Whether a suffix starts shows within two tokens. -/
theorem ends_append_right {q : List String} (two : 2 ≤ q.length) : Ends grip (q ++ rest) ↔ Ends grip q := by
  have short : ∀ suffix : Suffix, suffix.opening.length ≤ 2 := by
    intro suffix
    cases suffix <;> decide
  have same : ∀ suffix : Suffix, suffix.opening <+: q ++ rest ↔ suffix.opening <+: q := by
    intro suffix
    refine ⟨fun opens => ?_, fun opens => opens.trans (List.prefix_append q rest)⟩
    exact List.prefix_of_prefix_length_le opens (List.prefix_append q rest) (Nat.le_trans (short suffix) two)
  simp only [Ends, same]

end Ends

section Loops

variable {α γ : Type} {mark : String} {joins : List String → Prop}

/-- A separator, where it goes on a series. -/
def Separates (mark : String) (joins : List String → Prop) : Meaning Bool :=
  fun before found rest => found = true ∧ before = mark :: rest ∧ joins rest ∨
    found = false ∧ rest = before ∧ ¬ GoesOn mark joins before

theorem denotes_separator (mark : String) : Denotes (eat mark) (Separates mark Anything) := by
  refine (denotes_eat mark).congr fun before found rest => ?_
  cases before with
  | nil => simp [Separates, GoesOn]
  | cons first more =>
    by_cases same : first = mark
    · subst same
      simp [Separates, GoesOn, Anything, eq_comm]
    · simp [Separates, GoesOn, same]

theorem denotes_continuesIntersection : Denotes continuesIntersection (Separates "&" Conjoins) := by
  refine (denotes_peek 0 fun first => denotes_peek 1 fun second =>
    denotes_ite (fun _ => denotes_eat "&") fun _ => denotes_pure false).congr fun before found rest => ?_
  cases before with
  | nil => simp [Separates, GoesOn]
  | cons first more =>
    by_cases same : first = "&"
    · subst same
      have second : ("&" :: more)[1]? = more.head? := by rw [List.getElem?_cons_succ, List.head?_eq_getElem?]
      simp only [Separates, GoesOn, Conjoins, second]
      grind
    · simp [Separates, GoesOn, same]

theorem Series.ne_nil {item : List String → α → γ → Prop} (nonempty : ∀ p value grip, item p value grip → p ≠ [])
    {p : List String} {values : List α} {grip : γ} (series : Series mark joins item p values grip) : p ≠ [] := by
  cases series with
  | one first => exact nonempty _ _ _ first
  | more first joined others => simp

section

variable {stops : γ → List String → Prop} {derives : List String → α → γ → Prop} {item : Reading α}
  {more : Reading Bool} (ofItem : Denotes item (Phrase stops derives))
  (ofMore : Denotes more (Separates mark joins)) (nonempty : ∀ p value grip, derives p value grip → p ≠ [])
  (closed : ∀ grip q, joins q → stops grip (mark :: q)) (near : ∀ p rest, p ≠ [] → (joins (p ++ rest) ↔ joins p))
include ofItem ofMore nonempty closed near

/-- Each item takes a token, so the loop goes round often enough. -/
theorem denotes_separated (n : Nat) :
    DenotesOn (·.length ≤ n) (separated item more n)
      (Phrase (fun grip rest => stops grip rest ∧ ¬ GoesOn mark joins rest) (Series mark joins derives)) := by
  induction n with
  | zero =>
    refine (ofItem.on.bind fun first => denotes_pure [first]).congrOn ?_
    intro before bound values rest
    obtain rfl : before = [] := List.length_eq_zero_iff.mp (Nat.le_zero.mp bound)
    constructor
    · rintro ⟨first, middle, ⟨p, grip, ahead, derived, _⟩, _⟩
      exact absurd (List.append_eq_nil_iff.mp ahead.symm).1 (nonempty p first grip derived)
    · rintro ⟨p, grip, ahead, series, _⟩
      exact absurd (List.append_eq_nil_iff.mp ahead.symm).1 (series.ne_nil nonempty)
  | succ n ih =>
    have separatorFits : ∀ before found rest, before.length ≤ n → Separates mark joins before found rest →
        rest.length ≤ n := by
      rintro before found rest bound (⟨_, rfl, _⟩ | ⟨_, rfl, _⟩)
      · exact Nat.le_of_succ_le bound
      · exact bound
    -- the item takes a token, so the bound of the loop still covers what it leaves
    have itemFits : ∀ before first rest, before.length ≤ n + 1 → Phrase stops derives before first rest →
        rest.length ≤ n := by
      rintro before first rest bound ⟨p, grip, rfl, derived, _⟩
      have := List.length_pos_iff.mpr (nonempty p first grip derived)
      rw [List.length_append] at bound
      omega
    refine (ofItem.on.bindOn (fun first => ofMore.on.bindOn (fun found =>
      denotes_ite (fun _ => ih.bind fun others =>
      denotes_pure (first :: others)) fun _ => denotes_pure [first]) separatorFits) itemFits).congrOn ?_
    rintro before _ values rest
    constructor
    · rintro ⟨first, _, ⟨p, grip, rfl, derived, stopped⟩, found, _, separates, others⟩
      rcases separates with ⟨rfl, rfl, joined⟩ | ⟨rfl, rfl, ends⟩
      · obtain ⟨_, others, _, ⟨q, gripLast, rfl, series, ended⟩, rfl, rfl⟩ | ⟨no, _⟩ := others
        · have joinedItem := (near q _ (series.ne_nil nonempty)).mp joined
          exact ⟨p ++ mark :: q, gripLast, by simp, .more derived joinedItem series, ended⟩
        · exact absurd rfl no
      · obtain ⟨yes, _⟩ | ⟨_, rfl, rfl⟩ := others
        · exact absurd yes Bool.false_ne_true
        · exact ⟨p, grip, rfl, .one derived, stopped, ends⟩
    · rintro ⟨p, grip, rfl, series, stopped, ends⟩
      cases series with
      | @one _ value _ derived =>
        exact ⟨value, rest, ⟨p, grip, rfl, derived, stopped⟩, false, rest, .inr ⟨rfl, rfl, ends⟩,
          .inr ⟨Bool.false_ne_true, rfl, rfl⟩⟩
      | @more p q value others gripFirst _ derived joined series =>
        have goesOn : joins (q ++ rest) := (near q rest (series.ne_nil nonempty)).mpr joined
        exact ⟨value, mark :: (q ++ rest), ⟨p, gripFirst, by simp, derived, closed _ _ goesOn⟩, true, q ++ rest,
          .inl ⟨rfl, rfl, goesOn⟩, .inl ⟨rfl, others, rest, ⟨q, grip, rfl, series, stopped, ends⟩, rfl, rfl⟩⟩

theorem denotes_sepBy :
    Denotes (sepBy item more)
      (Phrase (fun grip rest => stops grip rest ∧ ¬ GoesOn mark joins rest) (Series mark joins derives)) := by
  exact denotes_ahead (denotes_separated ofItem ofMore nonempty closed near)

end

/-- Items with commas between them, up to a closing mark. -/
theorem denotes_list (close : String) {stops : γ → List String → Prop} {derives : List String → α → γ → Prop}
    {item : Reading α} (ofItem : Denotes item (Phrase stops derives))
    (nonempty : ∀ p value grip, derives p value grip → p ≠ [])
    (noLetter : ∀ c ∈ close.toList, ¬ c.isAlpha) (other : close ≠ ",")
    (stopsComma : ∀ grip rest, stops grip ("," :: rest)) (stopsClose : ∀ grip rest, stops grip (close :: rest)) :
    Denotes (discard (sepBy item (eat ",")) >>= fun _ => expect close) fun before _ rest =>
      ∃ p values grip, before = p ++ close :: rest ∧ Series "," Anything derives p values grip := by
  have items := denotes_sepBy ofItem (denotes_separator ",") nonempty
    (fun grip rest _ => stopsComma grip rest) fun _ _ _ => Iff.rfl
  refine (items.discard.bind fun _ => denotes_mark close noLetter).congr fun before _ rest => ⟨?_, ?_⟩
  · rintro ⟨_, _, ⟨values, p, grip, rfl, series, _⟩, rfl⟩
    exact ⟨p, values, grip, rfl, series⟩
  · rintro ⟨p, values, grip, rfl, series⟩
    have ended : stops grip (close :: rest) ∧ ¬ GoesOn "," Anything (close :: rest) :=
      ⟨stopsClose grip rest, not_goesOn other⟩
    exact ⟨(), _, ⟨values, p, grip, rfl, series, ended⟩, rfl⟩

/-- The pairs of brackets here are taken, and no more follow. -/
theorem denotes_arraySuffix (n : Nat) :
    DenotesOn (·.length ≤ n) (arraySuffix n) fun before found rest =>
      ∃ pairs, before = bracketPairs pairs ++ rest ∧ found = decide (0 < pairs) ∧ Ends [.brackets] rest := by
  induction n with
  | zero =>
    refine (denotes_pure false).congrOn fun before bound found rest => ?_
    obtain rfl : before = [] := List.length_eq_zero_iff.mp (Nat.le_zero.mp bound)
    constructor
    · rintro ⟨rfl, rfl⟩
      exact ⟨0, rfl, rfl, by simp [Ends, Suffix.opening]⟩
    · rintro ⟨pairs, ahead, rfl, _⟩
      cases pairs with
      | zero => exact ⟨rfl, ahead.symm⟩
      | succ pairs => exact absurd ahead (by simp [bracketPairs])
  | succ n ih =>
    have openMark := denotes_mark "[" (by simp)
    have closeMark := denotes_mark "]" (by simp)
    have openFits : ∀ (before : List String) (_ : Unit) rest, before.length ≤ n + 1 → before = "[" :: rest →
        rest.length ≤ n := by
      rintro before _ rest bound rfl
      exact Nat.le_of_succ_le_succ bound
    have closeFits : ∀ (before : List String) (_ : Unit) rest, before.length ≤ n → before = "]" :: rest →
        rest.length ≤ n := by
      rintro before _ rest bound rfl
      exact Nat.le_of_succ_le bound
    refine (denotes_peek 0 fun first => denotes_peek 1 fun second =>
      denotes_ite (fun _ => openMark.on.bindOn (fun _ =>
      closeMark.on.bindOn (fun _ => ih.discard.bind fun _ => denotes_pure true) closeFits) openFits) fun _ =>
        denotes_pure false).congrOn ?_
    intro before _ found rest
    constructor
    · rintro (⟨_, _, _, rfl, _, _, rfl, _, _, ⟨_, pairs, rfl, _, ends⟩, rfl, rfl⟩ | ⟨other, rfl, isRest⟩)
      · exact ⟨pairs + 1, rfl, by simp, ends⟩
      · have ends : ¬ ["[", "]"] <+: before := by simpa [brackets_iff] using other
        exact ⟨0, isRest.symm, rfl, ends_cons.mpr ⟨isRest ▸ ends, ends_nil⟩⟩
    · rintro ⟨pairs, rfl, rfl, ends⟩
      cases pairs with
      | zero =>
        have other : ¬ ["[", "]"] <+: rest := (ends_cons.mp ends).1
        refine .inr ⟨fun both => ?_, rfl, rfl⟩
        rw [Bool.and_eq_true, decide_eq_true_eq, decide_eq_true_eq] at both
        exact other (brackets_iff.mpr both)
      | succ pairs =>
        exact .inl ⟨by simp [bracketPairs], (), _, rfl, (), _, rfl, (), rest, ⟨_, pairs, rfl, rfl, ends⟩, rfl, rfl⟩

end Loops

end DocTypes.Grammar
