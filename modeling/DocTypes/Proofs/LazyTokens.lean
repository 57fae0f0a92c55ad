import DocTypes.Proofs.TokenSpans

namespace DocTypes

namespace Text

theorem take_bytes (before after : List Char) :
    (bytes (before ++ after)).take (byteSize before) = bytes before := by
  rw [bytes_append, ← length_bytes, List.take_left]

/-- The last byte of a text is a blank if the last character is. -/
theorem endsBlank_bytes (cs : List Char) : endsBlank (bytes cs) = endsBlank cs := by
  rcases List.eq_nil_or_concat cs with rfl | ⟨init, c, rfl⟩
  · rfl
  · obtain ⟨first, more, split⟩ := exists_charBytes c
    have nonempty : charBytes c ≠ [] := by rw [split]; exact List.cons_ne_nil first more
    have last : bytes [c] = charBytes c := List.append_nil _
    rw [List.concat_eq_append, bytes_append, last, endsBlank_append _ nonempty,
      endsBlank_append _ (List.cons_ne_nil c [])]
    by_cases narrow : c.toNat < 128
    · rw [charBytes_ascii narrow]
    · have wide := charBytes_wide (Nat.not_lt.mp narrow)
      rw [endsBlank_of_forall fun d member isBlank =>
          Nat.not_lt.mpr (wide d member) (Token.ascii_of_isTypeSpace isBlank),
        endsBlank_of_forall]
      intro d member isBlank
      exact narrow (List.mem_singleton.mp member ▸ Token.ascii_of_isTypeSpace isBlank)

theorem endsBlank_append_blanks (before : List Char) {blanks : List Char} (blank : ∀ c ∈ blanks, isTypeSpace c) :
    endsBlank (before ++ blanks) = (endsBlank before || !blanks.isEmpty) := by
  rcases List.eq_nil_or_concat blanks with rfl | ⟨init, c, rfl⟩
  · simp
  · have isBlank : isTypeSpace c := blank c (by simp)
    simp [endsBlank, isBlank]

end Text

namespace Cursor

/-- What stands `n` places ahead. -/
def found (c : Cursor) (n : Nat) : Found :=
  ⟨(c.spanAt n).1, (c.spanAt n).2, c.peek n⟩

/-- Takes the current token, and stays where it is if that is not the one wanted. -/
def consume (c : Cursor) (wanted : Option String) : Except ParseError String × Cursor :=
  match wanted.elim c.take c.expect with
  | .ok (found, after) => (.ok found, after)
  | .error e => (.error e, c)

theorem found_eq_get (c : Cursor) (n : Nat) : c.found n = (⟨c.ahead, c.ending⟩ : TokenStream).get n := by
  unfold found spanAt peek TokenStream.get
  cases c.ahead[n]? with
  | some token => rfl
  | none => by_cases atEnd : n = c.ahead.length <;> simp [atEnd]

theorem consume_eq (c : Cursor) (wanted : Option String) :
    c.consume wanted =
      match c.peek 0, wanted with
      | none, _ => (.error .unexpectedEnd, c)
      | some found, none => (.ok found, c.advance)
      | some found, some wanted =>
        if Text.sameWord found wanted then (.ok found, c.advance) else (.error (.expected wanted found), c) := by
  cases wanted with
  | none =>
    simp only [consume, Option.elim_none, take]
    cases c.peek 0 <;> rfl
  | some wanted =>
    simp only [consume, Option.elim_some, expect]
    cases c.peek 0 with
    | none => rfl
    | some found => by_cases same : Text.sameWord found wanted = true <;> simp [same]

theorem correct_eq (c : Cursor) (canonical : String) :
    c.correct canonical =
      match (c.found 0).text with
      | none => c
      | some text =>
        if text = canonical then c
        else
          let fix := ⟨(c.found 0).start, Text.byteSize text.toList, canonical⟩
          { c with corrections := c.corrections ++ [fix] } := by
  cases ahead : c.ahead <;> simp [correct, found, spanAt, peek, ahead]

theorem atFieldEnd_eq (c : Cursor) :
    c.atFieldEnd =
      match c.peek 0 with
      | none => true
      | some text => if [",", ";", ":", "."].contains text then true else c.spaced := by
  cases ahead : c.ahead with
  | nil => simp [atFieldEnd, peek, ahead]
  | cons token more =>
    simp only [atFieldEnd, peek, spaced, ahead, List.getElem?_cons_zero, Option.map_some]
    cases [",", ";", ":", "."].contains token.text <;> rfl

end Cursor

namespace Tokenizer

/-- The cursor that stands where a tokenizer stands. -/
def cursor (t : Tokenizer) : Cursor :=
  let stream := Token.scan t.text
  ⟨t.text, stream.tokens.drop t.position, stream.ending, t.corrections⟩

/-- A tokenizer of a text that remembers its tokens and has not passed their end. -/
structure Sound (text : List Char) (t : Tokenizer) : Prop where
  text_eq : t.text = text
  remembers : t.Remembers
  bound : t.position ≤ (Token.scan text).tokens.length

/-- An answer of a tokenizer that a cursor gives too, with both at the same place afterwards. -/
def Matches {α : Type} (text : List Char) (ran : α × Tokenizer) (answer : α) (cursor : Cursor) : Prop :=
  ∃ t, ran = (answer, t) ∧ t.Sound text ∧ t.cursor = cursor

variable {text : List Char} {t : Tokenizer}

theorem sound_ofText (text : List Char) : (ofText text).Sound text :=
  ⟨rfl, remembers_ofText text, Nat.zero_le _⟩

theorem Sound.found_cursor (sound : t.Sound text) (n : Nat) :
    t.cursor.found n = (Token.scan text).get (t.position + n) := by
  rw [Cursor.found_eq_get, cursor, sound.text_eq]
  exact TokenStream.get_drop sound.bound n

theorem Sound.token (sound : t.Sound text) (n : Nat) : Matches text (t.token n) (t.cursor.found n) t.cursor := by
  refine ⟨(t.token n).2, ?_, ⟨?_, sound.remembers.findMore _, ?_⟩, ?_⟩
  · rw [sound.found_cursor, ← sound.text_eq, ← sound.remembers.token]
  · rw [Tokenizer.token, findMore_text, sound.text_eq]
  · rw [Tokenizer.token, findMore_position]
    exact sound.bound
  · simp only [Tokenizer.token, cursor, findMore_text, findMore_position, findMore_corrections]

theorem Sound.next (sound : t.Sound text) (n : Nat) : Matches text (t.next n) (t.cursor.peek n) t.cursor := by
  obtain ⟨t', ran, sound', same⟩ := sound.token n
  exact ⟨t', by rw [Tokenizer.next, ran]; rfl, sound', same⟩

/-- A step over a token does not pass the end. -/
theorem Sound.advance (sound : t.Sound text) {found : String} (isToken : t.cursor.peek 0 = some found) :
    t.advance.Sound text ∧ t.advance.cursor = t.cursor.advance := by
  have inside : t.position < (Token.scan text).tokens.length := by
    by_contra beyond
    rw [cursor, Cursor.peek, sound.text_eq, List.drop_eq_nil_of_le (by omega)] at isToken
    simp at isToken
  refine ⟨⟨sound.text_eq, sound.remembers, inside⟩, ?_⟩
  simp only [cursor, Cursor.advance, Tokenizer.advance, List.tail_drop]

theorem Sound.consume (sound : t.Sound text) (wanted : Option String) :
    Matches text (t.consume wanted) (t.cursor.consume wanted).1 (t.cursor.consume wanted).2 := by
  obtain ⟨t', ran, sound', same⟩ := sound.next 0
  rw [Cursor.consume_eq, Tokenizer.consume, ran, ← same]
  cases isToken : t'.cursor.peek 0 with
  | none => exact ⟨t', rfl, sound', rfl⟩
  | some found =>
    have next := sound'.advance isToken
    cases wanted with
    | none => exact ⟨t'.advance, rfl, next⟩
    | some wanted =>
      dsimp only
      split
      · exact ⟨t'.advance, rfl, next⟩
      · exact ⟨t', rfl, sound', rfl⟩

theorem Sound.eat (sound : t.Sound text) (word : String) :
    Matches text (t.eat word) (t.cursor.eat word).1 (t.cursor.eat word).2 := by
  obtain ⟨t', ran, sound', same⟩ := sound.next 0
  rw [Cursor.eat, Tokenizer.eat, ran, ← same]
  dsimp only
  split
  next isWord => exact ⟨t'.advance, rfl, sound'.advance isWord⟩
  next => exact ⟨t', rfl, sound', rfl⟩

theorem Sound.skip (sound : t.Sound text) : t.skip.Sound text ∧ t.skip.cursor = t.cursor.advance := by
  obtain ⟨t', ran, sound', same⟩ := sound.next 0
  rw [Tokenizer.skip, ran, ← same]
  cases isToken : t'.cursor.peek 0 with
  | some found => exact sound'.advance isToken
  | none =>
    have stays : t'.cursor.ahead.tail = t'.cursor.ahead := by
      rw [show t'.cursor.ahead = [] by simpa [Cursor.peek] using isToken]
      rfl
    exact ⟨sound', by rw [Cursor.advance, stays]; rfl⟩

theorem Sound.correct (sound : t.Sound text) (canonical : String) :
    (t.correct canonical).Sound text ∧ (t.correct canonical).cursor = t.cursor.correct canonical := by
  obtain ⟨t', ran, sound', same⟩ := sound.token 0
  rw [Cursor.correct_eq, Tokenizer.correct, ran, ← same]
  dsimp only
  cases (t'.cursor.found 0).text with
  | none => exact ⟨sound', rfl⟩
  | some word =>
    dsimp only
    split
    · exact ⟨sound', rfl⟩
    · exact ⟨⟨sound'.text_eq, sound'.remembers, sound'.bound⟩, rfl⟩

/-- The byte before the current token tells whether a blank stands there. -/
theorem Sound.precededBySpace (sound : t.Sound text) :
    Matches text t.precededBySpace t.cursor.spaced t.cursor := by
  obtain ⟨t', ran, sound', same⟩ := sound.token 0
  refine ⟨t', ?_, sound', same⟩
  have spaced : t.cursor.spaced =
      (⟨(Token.scan text).tokens.drop t.position, (Token.scan text).ending⟩ : TokenStream).spaced := by
    rw [cursor, sound.text_eq]
    rfl
  obtain ⟨before, rest, cut⟩ := exists_cutBefore text sound.bound
  obtain ⟨blanks, after, split, blank, start, isSpaced⟩ := Token.exists_blanks before rest (Text.endsBlank before)
  have bytes : (Text.bytes text).take (Text.byteSize (before ++ blanks)) = Text.bytes (before ++ blanks) := by
    rw [cut.split, split, ← List.append_assoc, Text.take_bytes]
  rw [Tokenizer.precededBySpace, ran]
  dsimp only
  rw [sound'.text_eq, sound.found_cursor, Nat.add_zero, cut.get_eq sound.bound, start, bytes, spaced, ← cut.scan,
    isSpaced, ← Text.endsBlank_append_blanks before blank, ← Text.endsBlank_bytes]
  rfl

theorem Sound.atFieldEnd (sound : t.Sound text) : Matches text t.atFieldEnd t.cursor.atFieldEnd t.cursor := by
  obtain ⟨t', ran, sound', same⟩ := sound.next 0
  rw [Cursor.atFieldEnd_eq, Tokenizer.atFieldEnd, ran, ← same]
  cases t'.cursor.peek 0 with
  | none => exact ⟨t', rfl, sound', rfl⟩
  | some word =>
    dsimp only
    split
    · exact ⟨t', rfl, sound', rfl⟩
    · exact sound'.precededBySpace

theorem Sound.restFrom (sound : t.Sound text) (n : Nat) :
    Matches text (t.restFrom n) (t.cursor.restFrom n) t.cursor := by
  obtain ⟨t', ran, sound', same⟩ := sound.token n
  refine ⟨t', ?_, sound', same⟩
  rw [Tokenizer.restFrom, ran]
  dsimp only
  rw [sound'.text_eq, ← sound.text_eq]
  rfl

theorem Sound.rewind (sound : t.Sound text) {checkpoint : Checkpoint}
    (bound : checkpoint.position ≤ (Token.scan text).tokens.length) :
    (t.rewind checkpoint).Sound text ∧ (t.rewind checkpoint).cursor =
      t.cursor.reset ⟨(Token.scan text).tokens.drop checkpoint.position, checkpoint.corrections⟩ := by
  refine ⟨⟨sound.text_eq, sound.remembers, bound⟩, ?_⟩
  rw [← sound.text_eq]
  rfl

/-- Where a tokenizer stands is told by the cursor that stands there. -/
theorem Sound.eq_of_cursor {t' : Tokenizer} (sound : t.Sound text) (sound' : t'.Sound text)
    (same : t.cursor = t'.cursor) : t.position = t'.position ∧ t.corrections = t'.corrections := by
  have ahead := congrArg (List.length ∘ Cursor.ahead) same
  simp only [cursor, Function.comp_apply, List.length_drop, sound.text_eq, sound'.text_eq] at ahead
  have bound := sound.bound
  have bound' := sound'.bound
  exact ⟨by omega, congrArg Cursor.corrections same⟩

/-- What is asked for is found, and nothing else changes. -/
theorem next_snd (t : Tokenizer) (n : Nat) :
    (t.next n).2.position = t.position ∧ (t.next n).2.corrections = t.corrections :=
  ⟨findMore_position .., findMore_corrections ..⟩

theorem consume_failed {wanted : Option String} {e : ParseError} (failed : (t.consume wanted).1 = .error e) :
    (t.consume wanted).2.position = t.position ∧ (t.consume wanted).2.corrections = t.corrections := by
  have kept := t.next_snd 0
  unfold consume at failed ⊢
  generalize t.next 0 = ran at failed kept ⊢
  obtain ⟨current, t'⟩ := ran
  cases current with
  | none => exact kept
  | some found =>
    cases wanted with
    | none => simp at failed
    | some wanted =>
      dsimp only at failed ⊢
      split at failed
      · simp at failed
      next other =>
        rw [if_neg other]
        exact kept

theorem eat_failed {word : String} (failed : (t.eat word).1 = false) :
    (t.eat word).2.position = t.position ∧ (t.eat word).2.corrections = t.corrections := by
  have kept := t.next_snd 0
  unfold eat at failed ⊢
  generalize t.next 0 = ran at failed kept ⊢
  obtain ⟨current, t'⟩ := ran
  dsimp only at failed ⊢
  split at failed
  · simp at failed
  next other =>
    rw [if_neg other]
    exact kept

end Tokenizer

/-- A cursor over all tokens of a text and the marks taken so far. -/
structure PlainSession where
  cursor : Cursor
  marks : List Mark

namespace PlainSession

def ofText (text : List Char) : PlainSession :=
  ⟨.ofText text, []⟩

def answer (s : PlainSession) : Request → Answer × PlainSession
  | .next n => (.text (s.cursor.peek n), s)
  | .token n => (.found (s.cursor.found n), s)
  | .consume wanted => let (result, c) := s.cursor.consume wanted; (.taken result, { s with cursor := c })
  | .eat text => let (eaten, c) := s.cursor.eat text; (.holds eaten, { s with cursor := c })
  | .skip => (.done, { s with cursor := s.cursor.advance })
  | .checkpoint => (.done, { s with marks := s.marks ++ [s.cursor.mark] })
  | .rewind number =>
    match s.marks[number]? with
    | some mark => (.done, { s with cursor := s.cursor.reset mark })
    | none => (.done, s)
  | .correct canonical => (.done, { s with cursor := s.cursor.correct canonical })
  | .precededBySpace => (.holds s.cursor.spaced, s)
  | .atFieldEnd => (.holds s.cursor.atFieldEnd, s)
  | .restFrom n => (.rest (s.cursor.restFrom n), s)

def run (s : PlainSession) : List Request → List Answer × PlainSession
  | [] => ([], s)
  | request :: requests =>
    let (first, s) := s.answer request
    let (others, s) := s.run requests
    (first :: others, s)

/-- A session later on, with nothing taken back. -/
structure Grows (s later : PlainSession) : Prop where
  text : later.cursor.text = s.cursor.text
  ending : later.cursor.ending = s.cursor.ending
  corrections : s.cursor.corrections <+: later.cursor.corrections
  marks : s.marks <+: later.marks

variable {s : PlainSession}

theorem Grows.refl (s : PlainSession) : s.Grows s :=
  ⟨rfl, rfl, List.prefix_rfl, List.prefix_rfl⟩

theorem Grows.trans {later last : PlainSession} (first : s.Grows later) (second : later.Grows last) :
    s.Grows last :=
  ⟨second.text.trans first.text, second.ending.trans first.ending, first.corrections.trans second.corrections,
    first.marks.trans second.marks⟩

theorem grows_advance (s : PlainSession) : s.Grows { s with cursor := s.cursor.advance } :=
  ⟨rfl, rfl, List.prefix_rfl, List.prefix_rfl⟩

/-- Only a rewind takes something back. -/
theorem grows_answer (s : PlainSession) {request : Request} (onward : ∀ number, request ≠ .rewind number) :
    s.Grows (s.answer request).2 := by
  cases request with
  | consume wanted =>
    rw [answer, Cursor.consume_eq]
    cases s.cursor.peek 0 with
    | none => exact .refl s
    | some found =>
      cases wanted with
      | none => exact s.grows_advance
      | some wanted =>
        dsimp only
        split
        · exact s.grows_advance
        · exact .refl s
  | eat text =>
    rw [answer, Cursor.eat]
    by_cases isNext : s.cursor.peek 0 = some text
    · rw [if_pos isNext]
      exact s.grows_advance
    · rw [if_neg isNext]
      exact .refl s
  | skip => exact s.grows_advance
  | checkpoint => exact ⟨rfl, rfl, List.prefix_rfl, List.prefix_append ..⟩
  | rewind number => exact absurd rfl (onward number)
  | correct canonical =>
    rw [answer, Cursor.correct_eq]
    cases (s.cursor.found 0).text with
    | none => exact .refl s
    | some text =>
      dsimp only
      split
      · exact .refl s
      · exact ⟨rfl, rfl, List.prefix_append .., List.prefix_rfl⟩
  | next n | token n | restFrom n => exact .refl s
  | precededBySpace | atFieldEnd => exact .refl s

theorem grows_run (s : PlainSession) {requests : List Request} (onward : ∀ number, .rewind number ∉ requests) :
    s.Grows (s.run requests).2 := by
  induction requests generalizing s with
  | nil => exact .refl s
  | cons request requests ih =>
    have first : ∀ number, request ≠ .rewind number :=
      fun number same => onward number (same ▸ List.mem_cons_self ..)
    have others : ∀ number, Request.rewind number ∉ requests :=
      fun number member => onward number (List.mem_cons_of_mem _ member)
    exact (s.grows_answer first).trans (ih _ others)

theorem run_append (s : PlainSession) (first second : List Request) :
    (s.run (first ++ second)).2 = ((s.run first).2.run second).2 := by
  induction first generalizing s with
  | nil => rfl
  | cons request first ih => exact ih _

theorem answer_rewind {number : Nat} {mark : Mark} (taken : s.marks[number]? = some mark) :
    s.answer (.rewind number) = (.done, { s with cursor := s.cursor.reset mark }) := by
  simp only [answer, taken]

/-- Going back to a checkpoint undoes all that was done since it was taken. -/
theorem cursor_rewound (s : PlainSession) {requests : List Request} (onward : ∀ number, .rewind number ∉ requests) :
    (s.run (.checkpoint :: requests ++ [.rewind s.marks.length])).2.cursor = s.cursor := by
  have whole : (s.run (.checkpoint :: requests ++ [.rewind s.marks.length])).2 =
      (((s.answer .checkpoint).2.run requests).2.answer (.rewind s.marks.length)).2 :=
    run_append (s.answer .checkpoint).2 requests [.rewind s.marks.length]
  obtain ⟨text, ending, corrections, ⟨more, marks⟩⟩ := grows_run (s.answer .checkpoint).2 onward
  have taken : ((s.answer .checkpoint).2.run requests).2.marks[s.marks.length]? = some s.cursor.mark := by
    rw [← marks]
    simp [answer]
  rw [whole, answer_rewind taken]
  simp only [Cursor.reset, Cursor.mark, text, ending]
  exact congrArg (Cursor.mk _ _ _) (List.prefix_iff_eq_take.mp corrections).symm

end PlainSession

namespace Session

/-- The mark that brings a cursor to a checkpoint. -/
def markOf (text : List Char) (checkpoint : Checkpoint) : Mark :=
  ⟨(Token.scan text).tokens.drop checkpoint.position, checkpoint.corrections⟩

/-- A session and a plain one that stand at the same place, with the same places to come back to. -/
structure Follows (text : List Char) (s : Session) (plain : PlainSession) : Prop where
  sound : s.tokenizer.Sound text
  cursor : s.tokenizer.cursor = plain.cursor
  bound : ∀ checkpoint ∈ s.checkpoints, checkpoint.position ≤ (Token.scan text).tokens.length
  marks : s.checkpoints.map (markOf text) = plain.marks

variable {text : List Char} {s : Session} {plain : PlainSession}

theorem follows_ofText (text : List Char) : Follows text (.ofText text) (.ofText text) :=
  ⟨Tokenizer.sound_ofText text, rfl, List.forall_mem_nil _, rfl⟩

theorem Follows.withTokenizer (follows : Follows text s plain) {t : Tokenizer} {c : Cursor}
    (both : t.Sound text ∧ t.cursor = c) : Follows text { s with tokenizer := t } { plain with cursor := c } :=
  ⟨both.1, both.2, follows.bound, follows.marks⟩

/-- What a tokenizer and a cursor answer alike, their sessions do. -/
theorem Follows.withAnswer {α : Type} (follows : Follows text s plain) {ran : α × Tokenizer} {answer : α}
    {c : Cursor} (alike : Tokenizer.Matches text ran answer c) (wrap : α → Answer) :
    wrap ran.1 = wrap answer ∧ Follows text { s with tokenizer := ran.2 } { plain with cursor := c } := by
  obtain ⟨t, rfl, both⟩ := alike
  exact ⟨rfl, follows.withTokenizer both⟩

/-- Each request is answered alike, and the sessions stay together. -/
theorem Follows.answer (follows : Follows text s plain) (request : Request) :
    (s.answer request).1 = (plain.answer request).1 ∧
    Follows text (s.answer request).2 (plain.answer request).2 := by
  obtain ⟨c, marks⟩ := plain
  obtain rfl : s.tokenizer.cursor = c := follows.cursor
  have sound := follows.sound
  cases request with
  | next n => exact follows.withAnswer (sound.next n) .text
  | token n => exact follows.withAnswer (sound.token n) .found
  | consume wanted => exact follows.withAnswer (sound.consume wanted) .taken
  | eat word => exact follows.withAnswer (sound.eat word) .holds
  | skip => exact ⟨rfl, follows.withTokenizer sound.skip⟩
  | checkpoint =>
    refine ⟨rfl, sound, rfl, ?_, ?_⟩
    · simp only [Session.answer, List.mem_append, List.mem_singleton]
      rintro checkpoint (taken | rfl)
      · exact follows.bound checkpoint taken
      · exact sound.bound
    · simp only [Session.answer, PlainSession.answer, List.map_append, List.map_singleton, follows.marks]
      rw [markOf, Cursor.mark, Tokenizer.cursor, sound.text_eq]
      rfl
  | rewind number =>
    have places : marks[number]? = s.checkpoints[number]?.map (markOf text) := by
      rw [← List.getElem?_map, follows.marks]
    simp only [Session.answer, PlainSession.answer, places]
    cases taken : s.checkpoints[number]? with
    | none => exact ⟨rfl, follows⟩
    | some checkpoint =>
      exact ⟨rfl, follows.withTokenizer (sound.rewind (follows.bound checkpoint (List.mem_of_getElem? taken)))⟩
  | correct canonical => exact ⟨rfl, follows.withTokenizer (sound.correct canonical)⟩
  | precededBySpace => exact follows.withAnswer sound.precededBySpace .holds
  | atFieldEnd => exact follows.withAnswer sound.atFieldEnd .holds
  | restFrom n => exact follows.withAnswer (sound.restFrom n) .rest

theorem Follows.run (follows : Follows text s plain) (requests : List Request) :
    (s.run requests).1 = (plain.run requests).1 ∧ Follows text (s.run requests).2 (plain.run requests).2 := by
  induction requests generalizing s plain with
  | nil => exact ⟨rfl, follows⟩
  | cons request requests ih =>
    obtain ⟨same, next⟩ := follows.answer request
    obtain ⟨others, after⟩ := ih next
    exact ⟨List.cons_eq_cons.mpr ⟨same, others⟩, after⟩

theorem Follows.rewound (follows : Follows text s plain) {requests : List Request}
    (onward : ∀ number, .rewind number ∉ requests) :
    let back := (s.run (.checkpoint :: requests ++ [.rewind s.checkpoints.length])).2.tokenizer
    back.position = s.tokenizer.position ∧ back.corrections = s.tokenizer.corrections := by
  have number : s.checkpoints.length = plain.marks.length := by rw [← follows.marks, List.length_map]
  obtain ⟨_, back⟩ := follows.run (.checkpoint :: requests ++ [.rewind s.checkpoints.length])
  refine back.sound.eq_of_cursor follows.sound (back.cursor.trans ?_)
  rw [number, PlainSession.cursor_rewound plain onward, follows.cursor]

/-- A tokenizer in use finds exactly the tokens of its text. After any row of requests every answer was that of a
cursor over all tokens, each token is the one that stands there in the text, and the current place has not passed
the end of the tokens. What fails changes nothing, and going back to a checkpoint undoes all that was done since. -/
theorem lazy_tokens_refine (text : List Char) (requests : List Request) :
    let s := ((Session.ofText text).run requests).2
    ((Session.ofText text).run requests).1 = ((PlainSession.ofText text).run requests).1 ∧
      (∀ n, (s.tokenizer.token n).1 = (Token.scan text).get (s.tokenizer.position + n)) ∧
      s.tokenizer.position ≤ (Token.scan text).tokens.length ∧
      (∀ wanted e, (s.tokenizer.consume wanted).1 = .error e →
        (s.tokenizer.consume wanted).2.position = s.tokenizer.position ∧
          (s.tokenizer.consume wanted).2.corrections = s.tokenizer.corrections) ∧
      (∀ word, (s.tokenizer.eat word).1 = false → (s.tokenizer.eat word).2.position = s.tokenizer.position ∧
        (s.tokenizer.eat word).2.corrections = s.tokenizer.corrections) ∧
      ∀ others, (∀ number, .rewind number ∉ others) →
        let back := (s.run (.checkpoint :: others ++ [.rewind s.checkpoints.length])).2.tokenizer
        back.position = s.tokenizer.position ∧ back.corrections = s.tokenizer.corrections := by
  obtain ⟨same, follows⟩ := (follows_ofText text).run requests
  have sound := follows.sound
  refine ⟨same, fun n => ?_, sound.bound, fun wanted e => Tokenizer.consume_failed,
    fun word => Tokenizer.eat_failed, fun others onward => follows.rewound onward⟩
  rw [sound.remembers.token, sound.text_eq]

/-- A session that looks ahead, goes back to the start and from there to a later checkpoint. -/
def detour : Session :=
  ((Session.ofText "bool 'é\\'' $x".toList).run
    [.token 4, .checkpoint, .skip, .checkpoint, .correct "''", .rewind 0, .eat "int", .rewind 1, .correct "$x"]).2

theorem lazy_tokens_refine_detour :
    detour.tokenizer.position = 1 ∧ detour.tokenizer.corrections = [⟨5, 6, "$x"⟩] ∧
      (detour.tokenizer.token 1).1 = (Token.scan "bool 'é\\'' $x".toList).get (detour.tokenizer.position + 1) ∧
      (detour.tokenizer.consume (some "(")).1 = .error (.expected "(" "'é\\''") ∧
      (detour.tokenizer.consume (some "(")).2.position = detour.tokenizer.position ∧
      (detour.tokenizer.eat "bool").1 = false ∧ (detour.tokenizer.eat "bool").2.position =
        detour.tokenizer.position ∧
      (∀ number, .rewind number ∉ [Request.skip, .correct "$y", .token 7]) ∧
      (detour.run (.checkpoint :: [.skip, .correct "$y", .token 7] ++
        [.rewind detour.checkpoints.length])).2.tokenizer.corrections = detour.tokenizer.corrections := by
  have refined := lazy_tokens_refine "bool 'é\\'' $x".toList
    [.token 4, .checkpoint, .skip, .checkpoint, .correct "''", .rewind 0, .eat "int", .rewind 1, .correct "$x"]
  dsimp only at refined
  rw [← detour] at refined
  obtain ⟨_, tokens, _, consume, eat, rewound⟩ := refined
  have failed : (detour.tokenizer.consume (some "(")).1 = .error (.expected "(" "'é\\''") := by decide +kernel
  have other : (detour.tokenizer.eat "bool").1 = false := by decide +kernel
  have onward : ∀ number, .rewind number ∉ [Request.skip, .correct "$y", .token 7] := by simp
  exact ⟨by decide +kernel, by decide +kernel, tokens 1, failed, (consume _ _ failed).1, other, (eat _ other).1,
    onward, (rewound _ onward).2⟩

end Session

end DocTypes
