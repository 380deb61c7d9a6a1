import Survey.Cursor.Session
import Survey.Proofs.Places

set_option autoImplicit false

/-!
# Sessions keep their place

A session mixes reading by tokens and by characters, keeps a copy of its cursor and puts it
back. Every action but putting back skips some characters, maybe none, so the cursor always
stands before the text that is left, at the place that counting gives. In a text that is
small enough such a place is made of counters, and no action fails.
-/

namespace Survey

/-- The sum that the action makes of its numbers is a counter. -/
def Action.IsCounted : Action → Prop
  | .tokenText first size => first + size < Counter.limit
  | _ => True

namespace Cursor

/-- What is left ends the text, and the place is what counting in the text before it gives. -/
def IsTrueIn (text : List Char) (cursor : Cursor) : Prop :=
  ∃ before : List Char, text = before ++ cursor.rest ∧
    cursor.place = ⟨1 + before.count '\n', 1 + (before.reverse.takeWhile (· != '\n')).length,
      Text.byteLength before⟩

theorem isTrueIn_iff (text : List Char) (cursor : Cursor) :
    cursor.IsTrueIn text ↔ ∃ before, text = before ++ cursor.rest ∧ cursor.place = .ofText before := by
  have counted : ∀ before : List Char, Position.ofText before =
      ⟨1 + before.count '\n', 1 + (before.reverse.takeWhile (· != '\n')).length,
        Text.byteLength before⟩ := by
    intro before
    rw [← Position.ofText_line, ← Position.ofText_column, ← Position.ofText_offset]
  unfold IsTrueIn
  simp only [counted]

theorem ofText_isTrueIn (text : List Char) : (ofText text).IsTrueIn text :=
  ⟨[], rfl, rfl⟩

variable {text : List Char} {cursor : Cursor}

theorem IsTrueIn.skip (isTrue : cursor.IsTrueIn text) (count : Nat) :
    (cursor.skip count).IsTrueIn text := by
  rw [isTrueIn_iff] at isTrue ⊢
  obtain ⟨before, split, place⟩ := isTrue
  refine ⟨before ++ cursor.rest.take count, ?_, ?_⟩
  · rw [split, List.append_assoc, skip_rest, List.take_append_drop]
  · unfold Cursor.skip Position.ofText
    rw [place, Position.pastAll_append]
    rfl

theorem IsTrueIn.place_isTrueIn (isTrue : cursor.IsTrueIn text) : cursor.place.IsTrueIn text := by
  obtain ⟨before, split, place⟩ := isTrue
  refine ⟨before, cursor.rest, split, ?_⟩
  rw [place]
  exact ⟨rfl, rfl, rfl⟩

theorem offset_lt_skip {count : Nat} (positive : 0 < count) (filled : cursor.rest ≠ []) :
    cursor.place.offset < (cursor.skip count).place.offset := by
  have further := offset_skip_lt cursor positive (by rwa [skip_zero])
  rwa [skip_zero] at further

theorem exists_nextToken (cursor : Cursor) :
    ∃ token count, cursor.nextToken = (token, cursor.skip count) := by
  cases read : Token.read? cursor.rest with
  | none => exact ⟨_, 0, by rw [nextToken_of_end read, skip_zero]⟩
  | some pair => exact ⟨_, _, nextToken_of_read read⟩

theorem exists_nextSignificant (cursor : Cursor) :
    ∃ token count, cursor.nextSignificant = (token, cursor.skip count) := by
  unfold nextSignificant
  cases cursor.significant? with
  | none => exact ⟨_, _, rfl⟩
  | some pair => exact ⟨_, _, rfl⟩

end Cursor

namespace Session

/-- Do actions one after the other, up to a fault, and collect what they answer. -/
def runAll (session : Session) : List Action → Except Fault (List Reply × Session)
  | [] => .ok ([], session)
  | action :: later => do
      let (reply, next) ← session.run action
      let (replies, last) ← next.runAll later
      pure (reply :: replies, last)

/-- Both cursors of the session stand at true places of the text. -/
structure Sound (text : List Char) (session : Session) : Prop where
  text_eq : session.text = text
  cursor : session.cursor.IsTrueIn text
  saved : session.saved.IsTrueIn text

/-- What an answered action does to the cursor of a session on the text. -/
structure Steps (text : List Char) (session : Session) (action : Action) (reply : Reply)
    (next : Session) : Prop where
  isTrue : next.cursor.IsTrueIn text
  /-- Only putting back a copy leads backwards. -/
  forward : action ≠ .restore → session.cursor.place.offset ≤ next.cursor.place.offset
  restored : action = .restore → next.cursor = session.saved
  /-- What is not there is not stepped over, and what is there is not empty. -/
  unit : action = .skipComment ∨ action = .skipString →
    (reply = .flag false ∧ next = session) ∨
      (reply = .flag true ∧ session.cursor.place.offset < next.cursor.place.offset)
  quote : action = .skipQuote →
    (reply = .nothing ∧ next = session) ∨
      ((∃ found, reply = .quote found) ∧ session.cursor.place.offset < next.cursor.place.offset)

variable {text : List Char} {session : Session}

theorem start_sound (text : List Char) : (start text).Sound text where
  text_eq := rfl
  cursor := Cursor.ofText_isTrueIn text
  saved := Cursor.ofText_isTrueIn text

theorem Sound.skip (sound : session.Sound text) (count : Nat) :
    Sound text { session with cursor := session.cursor.skip count } where
  text_eq := sound.text_eq
  cursor := sound.cursor.skip count
  saved := sound.saved

/-- Skipping leads to a true place, which is made of counters. -/
theorem Sound.move_skip (sound : session.Sound text) (small : Text.byteLength text ≤ 2 ^ 32 - 2)
    (reply : Reply) (count : Nat) :
    session.move reply (session.cursor.skip count) =
      .ok (reply, { session with cursor := session.cursor.skip count }) := by
  have fits := (sound.cursor.skip count).place_isTrueIn.fits small
  unfold move Position.checked
  rw [if_pos fits]
  rfl

/-- The action is answered. It skips some characters, maybe none, and keeps the copy of the
cursor or makes a new one. -/
def Skips (session : Session) (action : Action) : Prop :=
  ∃ reply count saved,
    session.run action = .ok (reply, ⟨session.text, session.cursor.skip count, saved⟩) ∧
      (saved = session.saved ∨ saved = session.cursor)

theorem skips_of_ok {action : Action} {reply : Reply}
    (ran : session.run action = .ok (reply, session)) : session.Skips action :=
  ⟨reply, 0, session.saved, by rw [ran, Cursor.skip_zero], .inl rfl⟩

theorem Sound.skips_of_move (sound : session.Sound text)
    (small : Text.byteLength text ≤ 2 ^ 32 - 2) {action : Action} {reply : Reply} {count : Nat}
    (ran : session.run action = session.move reply (session.cursor.skip count)) :
    session.Skips action :=
  ⟨reply, count, session.saved, by rw [ran, sound.move_skip small], .inl rfl⟩

/-- Every action but putting back skips some characters, maybe none. -/
theorem Sound.skips (sound : session.Sound text) (small : Text.byteLength text ≤ 2 ^ 32 - 2)
    {action : Action} (counted : action.IsCounted) (onward : action ≠ .restore) :
    session.Skips action := by
  have moves := @Sound.skips_of_move _ _ sound small action
  cases action with
  | nextToken =>
      obtain ⟨token, count, next⟩ := session.cursor.exists_nextToken
      exact moves (by rw [run, next])
  | nextSignificant =>
      obtain ⟨token, count, next⟩ := session.cursor.exists_nextSignificant
      exact moves (by rw [run, next])
  | nextBeforeEnd =>
      cases next : session.cursor.token? with
      | none => exact skips_of_ok (by rw [run, next])
      | some pair => exact moves (by rw [run, next])
  | tokenText first size =>
      apply skips_of_ok
      rw [run, Counter.add_of_lt counted]
      rfl
  | skipComment =>
      cases found : Comment.length? session.cursor.rest with
      | none => exact skips_of_ok (by rw [run, found, skipUnit])
      | some length => exact moves (by rw [run, found, skipUnit])
  | skipString =>
      cases found : Literal.stringLength? session.cursor.rest with
      | none => exact skips_of_ok (by rw [run, found, skipUnit])
      | some length => exact moves (by rw [run, found, skipUnit])
  | skipQuote =>
      cases found : Literal.quote? session.cursor.rest with
      | none => exact skips_of_ok (by rw [run, found])
      | some pair => exact moves (by rw [run, found])
  | skipLine => exact moves (by rw [run, Cursor.skipLine_eq])
  | takeChar | dropChar | skipWhile | skipBlanks | skipWordParts => exact moves rfl
  | look | isAtEnd | isAtRawString | offset | remaining | slice | sliceFrom => exact skips_of_ok rfl
  | save => exact ⟨_, 0, session.cursor, by rw [Cursor.skip_zero]; rfl, .inr rfl⟩
  | restore => exact absurd rfl onward

/-- A unit that is not there is not stepped over; one that is there has characters. -/
theorem Sound.skipUnit_cases (sound : session.Sound text)
    (small : Text.byteLength text ≤ 2 ^ 32 - 2) {measure : List Char → Option Nat}
    (nothing : measure [] = none)
    (positive : ∀ {rest length}, measure rest = some length → 0 < length) :
    ∃ reply next, session.skipUnit (measure session.cursor.rest) = .ok (reply, next) ∧
      ((reply = .flag false ∧ next = session) ∨
        (reply = .flag true ∧ session.cursor.place.offset < next.cursor.place.offset)) := by
  cases found : measure session.cursor.rest with
  | none => exact ⟨_, _, rfl, .inl ⟨rfl, rfl⟩⟩
  | some length =>
      have filled : session.cursor.rest ≠ [] := by
        intro atEnd
        rw [atEnd, nothing] at found
        cases found
      have further := Cursor.offset_lt_skip (positive found) filled
      exact ⟨_, _, sound.move_skip small _ _, .inr ⟨rfl, further⟩⟩

theorem Sound.skipQuote_cases (sound : session.Sound text)
    (small : Text.byteLength text ≤ 2 ^ 32 - 2) :
    ∃ reply next, session.run .skipQuote = .ok (reply, next) ∧
      ((reply = .nothing ∧ next = session) ∨ ((∃ found, reply = .quote found) ∧
        session.cursor.place.offset < next.cursor.place.offset)) := by
  cases found : Literal.quote? session.cursor.rest with
  | none => exact ⟨_, _, by rw [run, found], .inl ⟨rfl, rfl⟩⟩
  | some pair =>
      have filled : session.cursor.rest ≠ [] := by
        intro atEnd
        rw [atEnd] at found
        cases found
      have further := Cursor.offset_lt_skip (Literal.quote?_pos found) filled
      refine ⟨.quote pair.1, { session with cursor := session.cursor.skip pair.2 }, ?_,
        .inr ⟨⟨pair.1, rfl⟩, further⟩⟩
      rw [run, found]
      exact sound.move_skip small _ _

/-- An action on a sound session is answered, and the session stays sound. -/
theorem Sound.run (sound : session.Sound text) (small : Text.byteLength text ≤ 2 ^ 32 - 2)
    {action : Action} (counted : action.IsCounted) :
    ∃ reply next, session.run action = .ok (reply, next) ∧ next.Sound text ∧
      session.Steps text action reply next := by
  by_cases restores : action = .restore
  · subst restores
    refine ⟨.nothing, _, rfl, ⟨sound.text_eq, sound.saved, sound.saved⟩, ?_⟩
    exact ⟨sound.saved, absurd rfl, fun _ => rfl, nofun, nofun⟩
  · obtain ⟨reply, count, saved, ran, kept⟩ := sound.skips small counted restores
    have isTrue := sound.cursor.skip count
    have savedTrue : saved.IsTrueIn text := by
      rcases kept with rfl | rfl
      · exact sound.saved
      · exact sound.cursor
    refine ⟨reply, _, ran, ⟨sound.text_eq, isTrue, savedTrue⟩, isTrue,
      fun _ => session.cursor.offset_le_skip count, fun isRestore => absurd isRestore restores,
      ?_, ?_⟩
    · rintro (rfl | rfl)
      · obtain ⟨answer, next, answered, cases⟩ :=
          sound.skipUnit_cases small Comment.length?_nil Comment.length?_pos
        cases ran.symm.trans answered
        exact cases
      · have nothing : Literal.stringLength? [] = none := rfl
        obtain ⟨answer, next, answered, cases⟩ :=
          sound.skipUnit_cases small nothing Literal.stringLength?_pos
        cases ran.symm.trans answered
        exact cases
    · rintro rfl
      obtain ⟨answer, next, answered, cases⟩ := sound.skipQuote_cases small
      cases ran.symm.trans answered
      exact cases

theorem runAll_cons {action : Action} {later : List Action} {reply : Reply} {next last : Session}
    {replies : List Reply} (ran : session.run action = .ok (reply, next))
    (more : next.runAll later = .ok (replies, last)) :
    session.runAll (action :: later) = .ok (reply :: replies, last) := by
  rw [runAll, ran]
  change (next.runAll later >>= _) = _
  rw [more]
  rfl

/-- Actions behind others go on with the session that those leave. -/
theorem runAll_append {first second : List Action} {middle last : Session}
    {replies more : List Reply} (before : session.runAll first = .ok (replies, middle))
    (after : middle.runAll second = .ok (more, last)) :
    session.runAll (first ++ second) = .ok (replies ++ more, last) := by
  induction first generalizing session replies with
  | nil =>
      cases before
      exact after
  | cons action first ih =>
      rw [runAll] at before
      cases ran : session.run action with
      | error fault =>
          rw [ran] at before
          cases before
      | ok answered =>
          obtain ⟨reply, next⟩ := answered
          rw [ran] at before
          change (next.runAll first >>= _) = _ at before
          cases all : next.runAll first with
          | error fault =>
              rw [all] at before
              cases before
          | ok done =>
              rw [all] at before
              cases before
              exact runAll_cons ran (ih all)

/-- Any actions. -/
theorem Sound.runAll (sound : session.Sound text) (small : Text.byteLength text ≤ 2 ^ 32 - 2)
    (history : List Action) (counted : ∀ action ∈ history, action.IsCounted) :
    ∃ replies last, session.runAll history = .ok (replies, last) ∧ last.Sound text := by
  induction history generalizing session with
  | nil => exact ⟨[], session, rfl, sound⟩
  | cons action later ih =>
      rw [List.forall_mem_cons] at counted
      obtain ⟨reply, next, ran, nextSound, -⟩ := sound.run small counted.1
      obtain ⟨replies, last, all, lastSound⟩ := ih nextSound counted.2
      exact ⟨reply :: replies, last, runAll_cons ran all, lastSound⟩

/-- In a text of at most 2^32 - 2 bytes no history of actions fails, and each action leaves
the cursor at a true place. Only putting back a copy leads backwards; a comment, a string or a
quote is stepped over, or the session stays as it is. -/
theorem runAll_keeps_place (text : List Char) (small : Text.byteLength text ≤ 2 ^ 32 - 2)
    (history : List Action) (counted : ∀ action ∈ history, action.IsCounted) :
    (∃ replies last, (start text).runAll history = .ok (replies, last)) ∧
      ∀ before action after, history = before ++ action :: after →
        ∃ replies session reply next,
          (start text).runAll before = .ok (replies, session) ∧
          session.run action = .ok (reply, next) ∧
          (start text).runAll (before ++ [action]) = .ok (replies ++ [reply], next) ∧
          session.Steps text action reply next := by
  have sound := start_sound text
  constructor
  · obtain ⟨replies, last, all, -⟩ := sound.runAll small history counted
    exact ⟨replies, last, all⟩
  · rintro before action after rfl
    rw [List.forall_mem_append, List.forall_mem_cons] at counted
    obtain ⟨replies, session, all, sessionSound⟩ := sound.runAll small before counted.1
    obtain ⟨reply, next, ran, -, steps⟩ := sessionSound.run small counted.2.1
    exact ⟨replies, session, reply, next, all, ran, runAll_append all (runAll_cons ran rfl), steps⟩

/-- A wide character, a line feed and an unclosed string, read by tokens and by characters. -/
theorem runAll_keeps_place_mixed :
    let history : List Action := [.skipQuote, .nextToken, .save, .takeChar, .skipQuote,
      .nextSignificant, .restore, .skipLine, .tokenText 0 2]
    Text.byteLength "é\n'a \"b".toList ≤ 2 ^ 32 - 2 ∧
      (∀ action ∈ history, action.IsCounted) ∧
      ∃ replies last, (start "é\n'a \"b".toList).runAll history = .ok (replies, last) := by
  intro history
  have small : Text.byteLength "é\n'a \"b".toList ≤ 2 ^ 32 - 2 := by
    decide
  have counted : ∀ action ∈ history, action.IsCounted := by
    simp [history, Action.IsCounted, Counter.limit]
  exact ⟨small, counted, (runAll_keeps_place _ small history counted).1⟩

end Session
end Survey
