import Survey.Proofs.Sessions

set_option autoImplicit false

/-!
# Places of joined texts

Passing one text and then another leads where rebasing the end of the second onto the end of
the first leads. So rebasing acts like joining texts: a place that is measured from a place
which is itself measured from an origin may be rebased onto that place first, or onto the
rebased place at once. Each step looks at the line to know whether the column moves; a place
that is moved twice is on the first line both times, or leaves it for good.
-/

namespace Survey

namespace Position

/-- The sums that rebasing the place onto the origin makes are counters. -/
def AddsUp (place origin : Position) : Prop :=
  (place.line = 1 → origin.column + place.column < Counter.limit) ∧
    origin.line + place.line < Counter.limit ∧ origin.offset + place.offset < Counter.limit

instance (place origin : Position) : Decidable (place.AddsUp origin) := by
  unfold AddsUp
  infer_instance

variable {place middle origin : Position}

/-- A sum of two counters, less one, is refused only as a sum. -/
private theorem add_sub_one (left : Nat) {right : Nat} (positive : 1 ≤ right) :
    (Counter.add left right >>= (Counter.sub · 1)) =
      if left + right < Counter.limit then .ok (left + right - 1)
      else .error .additionOverflow := by
  by_cases fits : left + right < Counter.limit
  · have ordered : 1 ≤ left + right := by omega
    rw [Counter.add_of_lt fits, if_pos fits]
    exact Counter.sub_of_le ordered
  · rw [Counter.add, if_neg fits, if_neg fits]
    rfl

/-- Behind the column, the line and the offset are checked one after the other. -/
private theorem add_line_offset (positive : 1 ≤ place.line) (column : Nat) :
    (do
      let line ← Counter.add origin.line place.line >>= (Counter.sub · 1)
      let offset ← Counter.add origin.offset place.offset
      pure (⟨line, column, offset⟩ : Position)) =
      if origin.line + place.line < Counter.limit ∧
          origin.offset + place.offset < Counter.limit then
        .ok ⟨origin.line + place.line - 1, column, origin.offset + place.offset⟩
      else .error .additionOverflow := by
  rw [add_sub_one _ positive, Counter.add]
  by_cases line : origin.line + place.line < Counter.limit
  · by_cases offset : origin.offset + place.offset < Counter.limit
    · rw [if_pos line, if_pos offset, if_pos ⟨line, offset⟩]
      rfl
    · rw [if_pos line, if_neg offset, if_neg (not_and_of_not_right _ offset)]
      rfl
  · rw [if_neg line, if_neg (not_and_of_not_left _ line)]
    rfl

/-- Rebasing fails exactly where a sum is no counter, and always in the same way. -/
theorem Counted.rebase_eq (counted : place.Counted) (origin : Position) :
    place.rebase origin =
      if place.AddsUp origin then .ok (place.shift origin) else .error .additionOverflow := by
  obtain ⟨linePositive, columnPositive⟩ := counted
  unfold rebase shift
  by_cases first : place.line = 1
  · rw [if_pos first, if_pos first, add_sub_one _ columnPositive]
    by_cases column : origin.column + place.column < Counter.limit
    · rw [if_pos column]
      refine (add_line_offset linePositive _).trans (if_congr ?_ rfl rfl)
      exact ⟨fun both => ⟨fun _ => column, both⟩, And.right⟩
    · have refused : ¬ place.AddsUp origin := fun adds => column (adds.1 first)
      rw [if_neg column, if_neg refused]
      rfl
  · rw [if_neg first, if_neg first]
    refine (add_line_offset linePositive _).trans (if_congr ?_ rfl rfl)
    exact ⟨fun both => ⟨fun isFirst => absurd isFirst first, both⟩, And.right⟩

/-! ### Moving twice -/

theorem Counted.shift (counted : place.Counted) (origined : origin.Counted) :
    (place.shift origin).Counted := by
  obtain ⟨line, column⟩ := counted
  obtain ⟨originLine, originColumn⟩ := origined
  unfold Position.shift
  constructor
  · dsimp only
    omega
  · dsimp only
    split <;> omega

/-- A place that is moved twice stands on the line of its origin only if it was on the first
line both times. -/
theorem Counted.shift_shift (counted : place.Counted) (middled : middle.Counted)
    (origin : Position) :
    (place.shift middle).shift origin = place.shift (middle.shift origin) := by
  obtain ⟨line, column⟩ := counted
  obtain ⟨middleLine, middleColumn⟩ := middled
  unfold Position.shift
  simp only [mk.injEq]
  refine ⟨by omega, ?_, by omega⟩
  split_ifs <;> omega

/-- Once the place in the middle can be rebased, both ways make sums of the same size. -/
theorem Counted.addsUp_shift_iff (counted : place.Counted) (middled : middle.Counted)
    (origined : origin.Counted) (adds : middle.AddsUp origin) :
    place.AddsUp middle ∧ (place.shift middle).AddsUp origin ↔
      place.AddsUp (middle.shift origin) := by
  obtain ⟨line, column⟩ := counted
  obtain ⟨middleLine, middleColumn⟩ := middled
  obtain ⟨originLine, originColumn⟩ := origined
  unfold AddsUp at adds ⊢
  unfold Position.shift
  dsimp only
  split_ifs <;> omega

/-- Rebasing twice and rebasing onto the rebased place have the same outcome. -/
theorem Counted.rebase_rebase (counted : place.Counted) (middled : middle.Counted)
    (origined : origin.Counted) {outer : Position} (rebased : middle.rebase origin = .ok outer) :
    (place.rebase middle >>= (·.rebase origin)) = place.rebase outer := by
  rw [middled.rebase_eq] at rebased
  split at rebased
  · rename_i adds
    cases rebased
    have both := counted.addsUp_shift_iff middled origined adds
    rw [counted.rebase_eq, counted.rebase_eq, ← counted.shift_shift middled]
    by_cases inner : place.AddsUp middle
    · rw [if_pos inner]
      change (place.shift middle).rebase origin = _
      rw [(counted.shift middled).rebase_eq]
      exact if_congr (by rw [← both, and_iff_right inner]) rfl rfl
    · rw [if_neg inner, if_neg (fun adds => inner (both.mpr adds).1)]
      rfl
  · cases rebased

/-! ### Joined texts -/

theorem ofText_append (before after : List Char) :
    ofText (before ++ after) = (ofText after).shift (ofText before) := by
  rw [shift_ofText]
  exact pastAll_append start before after

end Position

namespace Session

variable {text : List Char} {session : Session}

/-- Characters are taken one by one up to the place behind them. -/
theorem Sound.runAll_takeChar (sound : session.Sound text)
    (small : Text.byteLength text ≤ 2 ^ 32 - 2) (count : Nat) :
    ∃ replies, session.runAll (List.replicate count .takeChar) =
      .ok (replies, { session with cursor := session.cursor.skip count }) := by
  induction count generalizing session with
  | zero => exact ⟨[], by rw [Cursor.skip_zero]; rfl⟩
  | succ count ih =>
      obtain ⟨replies, all⟩ := ih (sound.skip 1)
      rw [Cursor.skip_skip, Nat.add_comm 1] at all
      exact ⟨_, runAll_cons (sound.move_skip small (.char (session.cursor.ahead 0)) 1) all⟩

/-- The place of the cursor of a new session on the text when every character was taken. -/
def placeBehind (text : List Char) : Except Fault Position := do
  let (_, last) ← (start text).runAll (List.replicate text.length .takeChar)
  pure last.cursor.place

theorem placeBehind_eq {text : List Char} (small : Text.byteLength text ≤ 2 ^ 32 - 2) :
    placeBehind text = .ok (.ofText text) := by
  obtain ⟨replies, all⟩ := (start_sound text).runAll_takeChar small text.length
  have whole : ((Cursor.ofText text).skip text.length).place = .ofText text := by
    unfold Cursor.skip Cursor.ofText
    rw [List.take_length]
    rfl
  unfold placeBehind
  rw [all, ← whole]
  rfl

/-- The end of two joined texts of at most 2^32 - 3 bytes is the end of the second, rebased
onto the end of the first. Rebasing fails only where a sum is no counter, and where a place
can be rebased, rebasing onto it first and rebasing onto what it becomes are the same. -/
theorem rebase_joins :
    (∀ before after : List Char, Text.byteLength (before ++ after) ≤ 2 ^ 32 - 3 →
      ∃ origin inner whole, placeBehind before = .ok origin ∧ placeBehind after = .ok inner ∧
        placeBehind (before ++ after) = .ok whole ∧ inner.rebase origin = .ok whole) ∧
    ∀ place middle origin : Position, place.Counted → middle.Counted → origin.Counted →
      ((∃ moved, middle.rebase origin = .ok moved) ↔ middle.AddsUp origin) ∧
      ∀ outer, middle.rebase origin = .ok outer →
        (place.rebase middle >>= (·.rebase origin)) = place.rebase outer := by
  constructor
  · intro before after small
    have isTrue : (Position.ofText after).IsTrueIn after := by
      simpa using Position.ofText_isTrueIn after []
    have parts := Text.byteLength_append before after
    refine ⟨.ofText before, .ofText after, .ofText (before ++ after), placeBehind_eq (by omega),
      placeBehind_eq (by omega), placeBehind_eq (by omega), ?_⟩
    rw [isTrue.rebase small, Position.ofText_append]
  · intro place middle origin counted middled origined
    refine ⟨?_, fun outer rebased => counted.rebase_rebase middled origined rebased⟩
    rw [middled.rebase_eq]
    split <;> simp [*]

/-- A cut behind a wide character and a line feed, and a body that starts in the last line
that has a number. -/
theorem rebase_joins_last_line :
    let place : Position := ⟨1, 3, 2⟩
    let middle : Position := ⟨1, 7, 6⟩
    let origin : Position := ⟨4294967294, 5, 4294967000⟩
    Text.byteLength ("é\nf".toList ++ "n g\n(".toList) ≤ 2 ^ 32 - 3 ∧
      (∃ behind inner whole, placeBehind "é\nf".toList = .ok behind ∧
        placeBehind "n g\n(".toList = .ok inner ∧
        placeBehind ("é\nf".toList ++ "n g\n(".toList) = .ok whole ∧
        inner.rebase behind = .ok whole) ∧
      place.Counted ∧ middle.Counted ∧ origin.Counted ∧
      middle.rebase origin = .ok ⟨4294967294, 11, 4294967006⟩ ∧
      (place.rebase middle >>= (·.rebase origin)) = .ok ⟨4294967294, 13, 4294967008⟩ := by
  intro place middle origin
  have small : Text.byteLength ("é\nf".toList ++ "n g\n(".toList) ≤ 2 ^ 32 - 3 := by
    decide
  have counted : place.Counted ∧ middle.Counted ∧ origin.Counted := by
    refine ⟨⟨?_, ?_⟩, ⟨?_, ?_⟩, ⟨?_, ?_⟩⟩ <;> decide
  have rebased : middle.rebase origin = .ok ⟨4294967294, 11, 4294967006⟩ := by
    decide
  have twice := (rebase_joins.2 place middle origin counted.1 counted.2.1 counted.2.2).2 _ rebased
  have onto : place.rebase ⟨4294967294, 11, 4294967006⟩ =
      .ok ⟨4294967294, 13, 4294967008⟩ := by
    decide
  exact ⟨small, rebase_joins.1 _ _ small, counted.1, counted.2.1, counted.2.2, rebased,
    twice.trans onto⟩

end Session
end Survey
