import DocTypes.Proofs.Spelling
import Mathlib.Data.List.Forall2

namespace DocTypes

namespace Cursor

/-- The texts of the tokens ahead. -/
def texts (c : Cursor) : List String :=
  c.ahead.map Token.text

/-- The cursor some tokens further on. -/
def skip (c : Cursor) (n : Nat) : Cursor :=
  { c with ahead := c.ahead.drop n }

theorem peek_eq (c : Cursor) (n : Nat) : c.peek n = c.texts[n]? := by
  simp [peek, texts]

theorem peek_zero (c : Cursor) : c.peek 0 = c.texts.head? := by
  rw [peek_eq, List.head?_eq_getElem?]

theorem skip_skip (c : Cursor) (m n : Nat) : (c.skip m).skip n = c.skip (m + n) := by
  simp [skip]

theorem skip_zero (c : Cursor) : c.skip 0 = c := rfl

theorem skip_one (c : Cursor) : c.skip 1 = c.advance := by
  simp [skip, advance]

theorem texts_skip (c : Cursor) (n : Nat) : (c.skip n).texts = c.texts.drop n := by
  simp [skip, texts]

end Cursor

namespace Grammar

/-- The correction of a token, if it is spelled otherwise. -/
def correction? (pair : Token × String) : Option Correction :=
  if pair.1.text = pair.2 then none
  else some ⟨pair.1.start, Text.byteSize pair.1.text.toList, pair.2⟩

theorem correct_eq {c : Cursor} {token : Token} {more : List Token} (ahead : c.ahead = token :: more)
    (right : String) :
    c.correct right = { c with corrections := c.corrections ++ [(token, right)].filterMap correction? } := by
  obtain ⟨text, tokens, ending, corrections⟩ := c
  obtain rfl : tokens = token :: more := ahead
  by_cases same : token.text = right <;> simp [Cursor.correct, correction?, same]

/-- Between two cursors these tokens were taken, each with its right spelling. -/
structure Spent (scope : Scope) (c after : Cursor) (used : List (Token × String)) : Prop where
  text : after.text = c.text
  ending : after.ending = c.ending
  ahead : c.ahead = used.map Prod.fst ++ after.ahead
  corrections : after.corrections = c.corrections ++ used.filterMap correction?
  spelled : ∀ pair ∈ used, Respelled scope pair.1.text pair.2

theorem Spent.refl (scope : Scope) (c : Cursor) : Spent scope c c [] :=
  ⟨rfl, rfl, rfl, by simp, by simp⟩

theorem Spent.trans {scope : Scope} {c middle after : Cursor} {first second : List (Token × String)}
    (left : Spent scope c middle first) (right : Spent scope middle after second) :
    Spent scope c after (first ++ second) := by
  refine ⟨right.text.trans left.text, right.ending.trans left.ending, ?_, ?_, ?_⟩
  · rw [left.ahead, right.ahead, List.map_append, List.append_assoc]
  · rw [right.corrections, left.corrections, List.filterMap_append, List.append_assoc]
  · intro pair member
    exact (List.mem_append.mp member).elim (left.spelled pair) (right.spelled pair)

/-- Conditions on the tokens ahead in a text and their texts in its right spelling. -/
abbrev Tails := List Token → List String → Prop

/-- Each token as it was or in its right spelling. -/
def Alike (scope : Scope) : Tails :=
  List.Forall₂ fun token now => Respelled scope token.text now

/-- Whether a word right before the token would not run into it. -/
def Detached (token : Token) : Prop :=
  token.spaced ∨ token.text.toList.head? ∉ [some '-', some '\\']

/-- The next token is spelled right and would not run into a word before it. -/
def Settled : Tails := fun ahead now =>
  (∀ token ∈ ahead.head?, Detached token) ∧ now.head? = ahead.head?.map Token.text

/-- What may follow a type. -/
structure Following (scope : Scope) (ahead : List Token) (now : List String) : Prop where
  alike : Alike scope ahead now
  settled : Settled ahead now
  reference : now.head? = some "&" → marksReference now[1]? = marksReference (ahead[1]?.map Token.text)

/-- After each corrected token stands one that is settled. -/
def Clear : List (Token × String) → Tails
  | [], _, _ => True
  | (token, right) :: more, rest, now =>
    (right ≠ token.text → Settled (more.map Prod.fst ++ rest) (more.map Prod.snd ++ now)) ∧ Clear more rest now

theorem clear_append {first second : List (Token × String)} {rest : List Token} {now : List String} :
    Clear (first ++ second) rest now ↔
      Clear first (second.map Prod.fst ++ rest) (second.map Prod.snd ++ now) ∧ Clear second rest now := by
  induction first with
  | nil => simp [Clear]
  | cons pair first ih => simp [Clear, ih, and_assoc]

/-- A reading takes some tokens. Where `post` holds of what is ahead afterwards, `pre` holds of what was
ahead before, and a cursor with the right spellings of the tokens ahead is read to the same value. -/
def Rereads {α : Type} (scope : Scope) (pre : Tails) (reading : Reading α) (c : Cursor) (post : α → Tails) :
    Prop :=
  ∀ value after, Reads reading c value after → ∃ used, Spent scope c after used ∧
    (scope.KeepsWords → ∀ now, post value after.ahead now →
      Clear used after.ahead now ∧ pre c.ahead (used.map Prod.snd ++ now) ∧
        ∀ again : Cursor, again.texts = used.map Prod.snd ++ now →
          Reads reading again value (again.skip used.length))

section Rules

variable {α β : Type} {scope : Scope} {pre : Tails} {c : Cursor}

theorem rereads_pure {value : α} {post : α → Tails} : Rereads scope (post value) (pure value) c post := by
  intro found after reads
  obtain ⟨rfl, rfl⟩ := reads_pure.mp reads
  refine ⟨[], Spent.refl scope _, fun _ now holds => ⟨trivial, holds, fun again _ => ?_⟩⟩
  exact reads_pure.mpr ⟨rfl, again.skip_zero⟩

theorem rereads_throw {error : ParseError} {post : α → Tails} : Rereads scope pre (throw error) c post := by
  intro found after reads
  exact absurd reads reads_throw

theorem rereads_throw_bind {error : ParseError} {next : α → Reading β} {post : β → Tails} :
    Rereads scope pre (throw error >>= next) c post := by
  intro found after reads
  obtain ⟨_, _, thrown, _⟩ := reads_bind.mp reads
  exact absurd thrown reads_throw

theorem rereads_lift {result : Except ParseError α} {post : Tails} :
    Rereads scope post (liftM result) c fun _ => post := by
  intro found after reads
  obtain ⟨isOk, rfl⟩ := reads_lift.mp reads
  refine ⟨[], Spent.refl scope _, fun _ now holds => ⟨trivial, holds, fun again _ => ?_⟩⟩
  exact reads_lift.mpr ⟨isOk, again.skip_zero⟩

/-- The condition before may also rest on what was read and on the condition after. -/
theorem Rereads.given {pre' : Tails} {post post' : α → Tails} {reading : Reading α}
    (rereads : Rereads scope pre reading c post)
    (weaker : ∀ value after, Reads reading c value after → ∀ now, post' value after.ahead now →
      ∀ before, pre c.ahead before → pre' c.ahead before)
    (stronger : ∀ value ahead now, post' value ahead now → post value ahead now) :
    Rereads scope pre' reading c post' := by
  intro value after reads
  obtain ⟨used, spent, respelled⟩ := rereads value after reads
  refine ⟨used, spent, fun keeps now holds => ?_⟩
  obtain ⟨clear, before, again⟩ := respelled keeps now (stronger value _ now holds)
  exact ⟨clear, weaker value after reads now holds _ before, again⟩

theorem Rereads.mono {pre' : Tails} {post post' : α → Tails} {reading : Reading α}
    (rereads : Rereads scope pre reading c post) (weaker : ∀ now, pre c.ahead now → pre' c.ahead now)
    (stronger : ∀ value ahead now, post' value ahead now → post value ahead now) :
    Rereads scope pre' reading c post' :=
  rereads.given (fun _ _ _ _ _ => weaker) stronger

theorem Rereads.weaken (stronger : Tails) {pre : Tails} {post : α → Tails} {reading : Reading α}
    (weaker : ∀ now, stronger c.ahead now → pre c.ahead now) (rereads : Rereads scope stronger reading c post) :
    Rereads scope pre reading c post :=
  rereads.mono weaker fun _ _ _ => id

theorem Rereads.bind {middle : α → Tails} {post : β → Tails} {reading : Reading α} {next : α → Reading β}
    (first : Rereads scope pre reading c middle)
    (second : ∀ value between, Reads reading c value between →
      Rereads scope (middle value) (next value) between post) :
    Rereads scope pre (reading >>= next) c post := by
  intro value after reads
  obtain ⟨found, between, readsFirst, readsSecond⟩ := reads_bind.mp reads
  obtain ⟨firstUsed, firstSpent, firstAgain⟩ := first found between readsFirst
  obtain ⟨secondUsed, secondSpent, secondAgain⟩ := second found between readsFirst value after readsSecond
  refine ⟨firstUsed ++ secondUsed, firstSpent.trans secondSpent, fun keeps now holds => ?_⟩
  obtain ⟨secondClear, holdsBetween, secondRun⟩ := secondAgain keeps now holds
  obtain ⟨firstClear, holdsBefore, firstRun⟩ := firstAgain keeps _ holdsBetween
  rw [secondSpent.ahead] at firstClear
  refine ⟨clear_append.mpr ⟨firstClear, secondClear⟩, by simpa using holdsBefore, ?_⟩
  intro again texts
  rw [List.map_append, List.append_assoc] at texts
  have rest : (again.skip firstUsed.length).texts = secondUsed.map Prod.snd ++ now := by
    rw [Cursor.texts_skip, texts]
    simp
  have run := secondRun _ rest
  rw [Cursor.skip_skip] at run
  rw [List.length_append]
  exact reads_bind.mpr ⟨found, _, firstRun again texts, run⟩

theorem Rereads.discard {post : Tails} {reading : Reading α} (rereads : Rereads scope pre reading c fun _ => post) :
    Rereads scope pre (discard reading) c fun _ => post := by
  change Rereads scope pre (reading >>= fun _ => Pure.pure ()) c fun _ => post
  exact rereads.bind fun _ _ _ => rereads_pure

theorem rereads_ite {found : Prop} [Decidable found] {post : α → Tails} {yes no : Reading α}
    (ifYes : found → Rereads scope pre yes c post) (ifNo : ¬ found → Rereads scope pre no c post) :
    Rereads scope pre (if found then yes else no) c post := by
  by_cases holds : found
  · rw [if_pos holds]
    exact ifYes holds
  · rw [if_neg holds]
    exact ifNo holds

/-- A reading that first looks ahead. What it decides has to come out the same on the right spelling. -/
theorem rereads_look {reading : Reading α} (look : Cursor → Reading α) (looks : ∀ c, reading c = look c c)
    {post : α → Tails} (rereads : Rereads scope pre (look c) c post)
    (same : scope.KeepsWords → ∀ again : Cursor, pre c.ahead again.texts →
      (∃ value after, Reads (look c) c value after) → look again = look c) :
    Rereads scope pre reading c post := by
  intro value after reads
  have looked : Reads (look c) c value after := (looks c).symm.trans reads
  obtain ⟨used, spent, respelled⟩ := rereads value after looked
  refine ⟨used, spent, fun keeps now holds => ?_⟩
  obtain ⟨clear, before, run⟩ := respelled keeps now holds
  refine ⟨clear, before, fun again texts => (looks again).trans ?_⟩
  rw [same keeps again (texts ▸ before) ⟨value, after, looked⟩]
  exact run again texts

theorem rereads_get {next : Cursor → Reading α} {post : α → Tails} (rereads : Rereads scope pre (next c) c post)
    (same : ∀ again : Cursor, pre c.ahead again.texts → next again = next c) :
    Rereads scope pre (get >>= next) c post :=
  rereads_look next (fun _ => rfl) rereads fun _ again before _ => same again before

theorem rereads_peek {n : Nat} {next : Option String → Reading α} {post : α → Tails}
    (rereads : Rereads scope pre (next (c.peek n)) c post)
    (same : ∀ now, pre c.ahead now → next now[n]? = next (c.peek n)) :
    Rereads scope pre (peek n >>= next) c post := by
  refine rereads_look (fun c => next (c.peek n)) (fun _ => rfl) rereads fun _ again before _ => ?_
  rw [Cursor.peek_eq again]
  exact same again.texts before

theorem rereads_peekTwo {next : Option String → Option String → Reading α} {post : α → Tails}
    (rereads : Rereads scope pre (next (c.peek 0) (c.peek 1)) c post)
    (same : ∀ now, pre c.ahead now → next now[0]? now[1]? = next (c.peek 0) (c.peek 1)) :
    Rereads scope pre (peek 0 >>= fun first => peek 1 >>= next first) c post := by
  refine rereads_look (fun c => next (c.peek 0) (c.peek 1)) (fun _ => rfl) rereads fun _ again before _ => ?_
  rw [Cursor.peek_eq again, Cursor.peek_eq again]
  exact same again.texts before

theorem rereads_peekThree {next : Option String → Option String → Option String → Reading α} {post : α → Tails}
    (rereads : Rereads scope pre (next (c.peek 0) (c.peek 1) (c.peek 2)) c post)
    (same : ∀ now, pre c.ahead now → next now[0]? now[1]? now[2]? = next (c.peek 0) (c.peek 1) (c.peek 2)) :
    Rereads scope pre (peek 0 >>= fun first => peek 1 >>= fun second => peek 2 >>= next first second) c post := by
  refine rereads_look (fun c => next (c.peek 0) (c.peek 1) (c.peek 2)) (fun _ => rfl) rereads ?_
  intro _ again before _
  rw [Cursor.peek_eq again, Cursor.peek_eq again, Cursor.peek_eq again]
  exact same again.texts before

end Rules

section Tokens

variable {scope : Scope} {c : Cursor}

theorem Alike.length {ahead : List Token} {now : List String} (alike : Alike scope ahead now) :
    now.length = ahead.length :=
  (List.Forall₂.length_eq alike).symm

/-- The number of tokens ahead is the same in the right spelling. -/
theorem Alike.ahead_length {again : Cursor} (alike : Alike scope c.ahead again.texts) :
    again.ahead.length = c.ahead.length := by
  rw [← alike.length, Cursor.texts, List.length_map]

theorem Alike.mark {ahead : List Token} {now : List String} (alike : Alike scope ahead now) {mark : String}
    (isMark : mark ∈ marks) (n : Nat) : now[n]? = some mark ↔ ahead[n]?.map Token.text = some mark := by
  induction alike generalizing n with
  | nil => simp
  | cons respelled _ ih =>
    cases n with
    | zero => simpa using respelled.mark isMark
    | succ n => simpa using ih n

/-- The next token stays as it is, and behind it `rest` holds. -/
def Kept (rest : Tails) : Tails := fun ahead now =>
  ∃ token more nowMore, ahead = token :: more ∧ now = token.text :: nowMore ∧ rest more nowMore

/-- The next token is `mark`, and behind it `rest` holds. -/
def Led (mark : String) (rest : Tails) : Tails := fun ahead now =>
  ∃ token more nowMore, ahead = token :: more ∧ token.text = mark ∧ now = mark :: nowMore ∧ rest more nowMore

theorem Kept.alike {rest : Tails} {ahead : List Token} {now : List String} (kept : Kept rest ahead now)
    (restAlike : ∀ ahead now, rest ahead now → Alike scope ahead now) : Alike scope ahead now := by
  obtain ⟨token, more, nowMore, rfl, rfl, holds⟩ := kept
  exact .cons (Or.inl rfl) (restAlike _ _ holds)

theorem Kept.peek {rest : Tails} {now : List String} (kept : Kept rest c.ahead now) : now[0]? = c.peek 0 := by
  obtain ⟨token, more, nowMore, ahead, rfl, _⟩ := kept
  simp [Cursor.peek, ahead]

theorem Led.following {ahead : List Token} {now : List String} {mark : String}
    (led : Led mark (Alike scope) ahead now) (isCloser : mark ∈ closers) : Following scope ahead now := by
  obtain ⟨token, more, nowMore, rfl, rfl, rfl, alike⟩ := led
  have detached : ∀ mark ∈ closers, mark.toList.head? ∉ [some '-', some '\\'] ∧ mark ≠ "&" := by decide
  refine ⟨.cons (Or.inl rfl) alike, ⟨?_, rfl⟩, ?_⟩
  · intro first isFirst
    cases Option.some.inj isFirst
    exact Or.inr (detached _ isCloser).1
  · intro isAnd
    exact absurd (Option.some.inj isAnd) (detached _ isCloser).2

theorem rereads_take {post : Tails} : Rereads scope (Kept post) take c fun _ => post := by
  intro value after reads
  obtain ⟨front, rfl⟩ := reads_take.mp reads
  match ahead : c.ahead with
  | [] => simp [Cursor.peek, ahead] at front
  | token :: more =>
    have text : token.text = value := by simpa [Cursor.peek, ahead] using front
    refine ⟨[(token, token.text)], ⟨rfl, rfl, by simp [ahead, Cursor.advance], ?_, ?_⟩, ?_⟩
    · simp [correction?, Cursor.advance]
    · simp [Respelled]
    · intro _ now holds
      refine ⟨⟨fun different => absurd rfl different, trivial⟩, ⟨token, more, now, rfl, rfl, ?_⟩, ?_⟩
      · simpa [Cursor.advance, ahead] using holds
      · intro again texts
        rw [reads_take, Cursor.peek_zero, texts]
        exact ⟨by simp [text], again.skip_one⟩

theorem rereads_expect {post : Tails} (wanted : String) :
    Rereads scope (Kept post) (expect wanted) c fun _ => post := by
  intro value after reads
  obtain ⟨⟨found, front, same⟩, rfl⟩ := reads_expect.mp reads
  have taken : Reads take c found c.advance := reads_take.mpr ⟨front, rfl⟩
  have rule : Rereads scope (Kept post) take c fun _ => post := rereads_take
  obtain ⟨used, spent, respelled⟩ := rule found c.advance taken
  refine ⟨used, spent, fun keeps now holds => ?_⟩
  obtain ⟨clear, kept, run⟩ := respelled keeps now holds
  refine ⟨clear, kept, fun again texts => ?_⟩
  obtain ⟨frontAgain, skipped⟩ := reads_take.mp (run again texts)
  exact reads_expect.mpr ⟨⟨found, frontAgain, same⟩, skipped⟩

/-- A mark is expected as it stands. -/
theorem rereads_expectMark {post : Tails} {mark : String} (isCloser : mark ∈ closers) :
    Rereads scope (Led mark post) (expect mark) c fun _ => post := by
  intro value after reads
  obtain ⟨⟨found, front, same⟩, _⟩ := reads_expect.mp reads
  have noLetter : ∀ mark ∈ closers, ∀ c ∈ mark.toList, ¬ c.isAlpha := by simp [closers]
  have isFound : found = mark := Text.eq_of_sameWord (noLetter mark isCloser) same
  have rule : Rereads scope (Led mark post) (expect mark) c fun _ => post := by
    refine (rereads_expect mark).mono ?_ fun _ _ _ holds => holds
    rintro now ⟨token, more, nowMore, ahead, rfl, holds⟩
    have text : token.text = mark := by
      rw [Cursor.peek, ahead] at front
      simpa [isFound] using front
    exact ⟨token, more, nowMore, ahead, text, by rw [text], holds⟩
  exact rule value after reads

/-- A mark after a type. -/
theorem rereads_close {post : Tails} {mark : String} (isCloser : mark ∈ closers)
    (alike : ∀ ahead now, post ahead now → Alike scope ahead now) :
    Rereads scope (Following scope) (expect mark) c fun _ => post := by
  refine (rereads_expectMark isCloser).mono ?_ fun _ _ _ holds => holds
  rintro now ⟨token, more, nowMore, ahead, text, isNow, holds⟩
  exact Led.following ⟨token, more, nowMore, ahead, text, isNow, alike _ _ holds⟩ isCloser

/-- A mark where a type may start. -/
theorem rereads_open {post : Tails} {mark : String} (isCloser : mark ∈ closers)
    (alike : ∀ ahead now, post ahead now → Alike scope ahead now) :
    Rereads scope (Alike scope) (expect mark) c fun _ => post :=
  (rereads_close isCloser alike).mono (fun _ following => following.alike) fun _ _ _ holds => holds

theorem Alike.peek {now : List String} (alike : Alike scope c.ahead now) (mark : String) (n : Nat)
    (isMark : mark ∈ marks) : now[n]? = some mark ↔ c.peek n = some mark :=
  alike.mark isMark n

/-- A decision on whether a mark stands ahead. -/
theorem rereads_ifMark {α : Type} {pre : Tails} {post : α → Tails} {n : Nat} {mark : String}
    {yes no : Reading α} (isMark : mark ∈ marks) (alike : ∀ now, pre c.ahead now → Alike scope c.ahead now)
    (ifYes : c.peek n = some mark → Rereads scope pre yes c post)
    (ifNo : c.peek n ≠ some mark → Rereads scope pre no c post) :
    Rereads scope pre (peek n >>= fun front => if front = some mark then yes else no) c post := by
  refine rereads_peek (rereads_ite ifYes ifNo) fun now before => ?_
  simp only [(alike now before).peek mark n isMark]

/-- A mark that is stepped over if it is there, which `pre` has to tell. -/
theorem rereads_eat {pre : Tails} {post : Bool → Tails} {mark : String}
    (stepped : ∀ now, Led mark (post true) c.ahead now → pre c.ahead now)
    (stayed : c.peek 0 ≠ some mark → ∀ now, post false c.ahead now → pre c.ahead now)
    (told : ∀ now, pre c.ahead now → (now[0]? = some mark ↔ c.peek 0 = some mark)) :
    Rereads scope pre (eat mark) c post := by
  intro value after reads
  obtain ⟨rfl, afterIs⟩ := reads_eat.mp reads
  by_cases front : c.peek 0 = some mark
  · rw [if_pos front] at afterIs
    subst afterIs
    have taken : Reads take c mark c.advance := reads_take.mpr ⟨front, rfl⟩
    have rule : Rereads scope (Kept (post true)) take c fun _ => post true := rereads_take
    obtain ⟨used, spent, respelled⟩ := rule mark c.advance taken
    refine ⟨used, spent, fun keeps now holds => ?_⟩
    rw [decide_eq_true front] at holds ⊢
    obtain ⟨clear, ⟨token, more, nowMore, ahead, isNow, rest⟩, run⟩ := respelled keeps now holds
    have text : token.text = mark := by simpa [Cursor.peek, ahead] using front
    refine ⟨clear, stepped _ ⟨token, more, nowMore, ahead, text, by rw [isNow, text], rest⟩, ?_⟩
    intro again texts
    obtain ⟨frontAgain, skipped⟩ := reads_take.mp (run again texts)
    exact reads_eat.mpr ⟨by simp [frontAgain], by rw [if_pos frontAgain, skipped]⟩
  · rw [if_neg front] at afterIs
    subst afterIs
    rw [decide_eq_false front]
    refine ⟨[], Spent.refl scope _, fun _ now holds => ?_⟩
    have before := stayed front now holds
    refine ⟨trivial, before, fun again texts => ?_⟩
    have frontAgain : ¬ again.peek 0 = some mark := by
      rw [Cursor.peek_eq, texts]
      exact fun isMark => front ((told _ before).mp isMark)
    exact reads_eat.mpr ⟨by simp [frontAgain], by rw [if_neg frontAgain]; rfl⟩

/-- A keyword is read alike in its right spelling. -/
theorem rereads_keyword {token : Token} {more : List Token} (ahead : c.ahead = token :: more) {right : String}
    (spelled : (Head.ofToken scope token.text).spelling = some right) :
    Rereads scope (fun _ now => ∃ nowMore, now = right :: nowMore ∧ Alike scope more nowMore) (keyword right) c
      fun _ => Following scope := by
  intro value after reads
  obtain ⟨_, rfl⟩ := reads_keyword.mp reads
  rw [correct_eq ahead right]
  refine ⟨[(token, right)], ⟨rfl, rfl, by simp [ahead, Cursor.advance], rfl, ?_⟩, fun _ now following => ?_⟩
  · simp [Respelled, spelled]
  have rest : Following scope more now := by simpa [Cursor.advance, ahead] using following
  refine ⟨⟨fun _ => following.settled, trivial⟩, ⟨now, rfl, rest.alike⟩, fun again texts => ?_⟩
  match nowAhead : again.ahead with
  | [] => simp [Cursor.texts, nowAhead] at texts
  | first :: others =>
    have text : first.text = right := by
      have heads := congrArg List.head? texts
      simpa [Cursor.texts, nowAhead] using heads
    have front : again.peek 0 = some right := by simp [Cursor.peek, nowAhead, text]
    rw [reads_keyword, correct_eq nowAhead]
    exact ⟨⟨right, front⟩, by simp [correction?, text, Cursor.skip, Cursor.advance]⟩

end Tokens

end Grammar

end DocTypes
