import Survey.Cursor.Basic
import Mathlib.Algebra.Ring.Nat
import Mathlib.Data.List.Induction

set_option autoImplicit false

/-!
# True places

A place is true in a text when its line, column and offset are what counting in the
text gives. The count below looks at the text before the place as a whole, while
`Position.past` goes over it character by character; the two agree. A cursor that
only skips and narrows what it was given therefore always stands at a true place.

Rebasing a place checks every sum. `Position.shift` is the same move on plain
numbers, and the two agree as long as the numbers are counters.
-/

namespace Survey

namespace Text

theorem length_le_byteLength (text : List Char) : text.length ≤ byteLength text := by
  induction text with
  | nil => exact Nat.le_refl 0
  | cons c rest ih =>
      have wide := c.utf8Size_pos
      simp only [List.length_cons, byteLength_cons]
      omega

theorem byteLength_take_le (text : List Char) {first last : Nat} (ordered : first ≤ last) :
    byteLength (text.take first) ≤ byteLength (text.take last) := by
  obtain ⟨more, rfl⟩ := Nat.exists_eq_add_of_le ordered
  rw [List.take_add, byteLength_append]
  omega

theorem byteLength_take_lt (text : List Char) {first last : Nat} (ordered : first < last)
    (inside : text.drop first ≠ []) :
    byteLength (text.take first) < byteLength (text.take last) := by
  obtain ⟨more, rfl⟩ := Nat.exists_eq_add_of_lt ordered
  cases remaining : text.drop first with
  | nil => exact absurd remaining inside
  | cons c rest =>
      have wide := c.utf8Size_pos
      rw [Nat.add_assoc, List.take_add, byteLength_append, remaining,
        List.take_succ_cons, byteLength_cons]
      omega

end Text

namespace Position

/-- The numbers of the place are those that counting in the text gives: it lies
between two characters, with its offset in bytes, one line more than there are line
feeds before it, and one column more than there are characters since the last. -/
def IsTrueIn (text : List Char) (place : Position) : Prop :=
  ∃ before after : List Char, text = before ++ after ∧
    place.offset = Text.byteLength before ∧
    place.line = 1 + before.count '\n' ∧
    place.column = 1 + (before.reverse.takeWhile (· != '\n')).length

theorem ofText_concat (text : List Char) (c : Char) :
    ofText (text ++ [c]) = (ofText text).past c := by
  unfold ofText
  rw [pastAll_append]
  rfl

@[simp] theorem ofText_offset (text : List Char) :
    (ofText text).offset = Text.byteLength text := by
  unfold ofText
  rw [pastAll_offset]
  exact Nat.zero_add _

theorem past_of_ne (place : Position) {c : Char} (other : c ≠ '\n') :
    place.past c = ⟨place.line, place.column + 1, place.offset + c.utf8Size⟩ :=
  if_neg other

theorem ofText_line (text : List Char) : (ofText text).line = 1 + text.count '\n' := by
  induction text using List.reverseRecOn with
  | nil => rfl
  | append_singleton before c ih =>
      rw [ofText_concat]
      by_cases feed : c = '\n'
      · subst feed
        simp only [past, if_pos, ih, List.count_append, List.count_singleton_self]
        omega
      · rw [past_of_ne _ feed, ih, List.count_append, List.count_singleton,
          if_neg (by simpa using feed), Nat.add_zero]

theorem ofText_column (text : List Char) :
    (ofText text).column = 1 + (text.reverse.takeWhile (· != '\n')).length := by
  induction text using List.reverseRecOn with
  | nil => rfl
  | append_singleton before c ih =>
      rw [ofText_concat, List.reverse_append, List.reverse_singleton, List.singleton_append]
      by_cases feed : c = '\n'
      · subst feed
        rfl
      · rw [past_of_ne _ feed, List.takeWhile_cons_of_pos (by simpa using feed),
          List.length_cons]
        change (ofText before).column + 1 = _
        omega

theorem ofText_isTrueIn (before after : List Char) :
    (ofText before).IsTrueIn (before ++ after) :=
  ⟨before, after, rfl, ofText_offset before, ofText_line before, ofText_column before⟩

/-- A true place is the one that passing the characters before it leads to. -/
theorem isTrueIn_iff (text : List Char) (place : Position) :
    place.IsTrueIn text ↔ ∃ before after, text = before ++ after ∧ place = ofText before := by
  constructor
  · rintro ⟨before, after, split, offset, line, column⟩
    refine ⟨before, after, split, ?_⟩
    cases place
    rw [← ofText_offset] at offset
    rw [← ofText_line] at line
    rw [← ofText_column] at column
    subst offset line column
    rfl
  · rintro ⟨before, after, rfl, rfl⟩
    exact ofText_isTrueIn before after

theorem IsTrueIn.offset_le {text : List Char} {place : Position}
    (isTrue : place.IsTrueIn text) : place.offset ≤ Text.byteLength text := by
  obtain ⟨before, after, rfl, offset, -, -⟩ := isTrue
  rw [Text.byteLength_append]
  omega

theorem IsTrueIn.line_le {text : List Char} {place : Position}
    (isTrue : place.IsTrueIn text) : place.line ≤ 1 + Text.byteLength text := by
  obtain ⟨before, after, rfl, -, line, -⟩ := isTrue
  have counted := List.count_le_length (a := '\n') (l := before)
  have sized := Text.length_le_byteLength before
  rw [Text.byteLength_append]
  omega

theorem IsTrueIn.column_le {text : List Char} {place : Position}
    (isTrue : place.IsTrueIn text) : place.column ≤ 1 + Text.byteLength text := by
  obtain ⟨before, after, rfl, -, -, column⟩ := isTrue
  have counted := (List.takeWhile_prefix (l := before.reverse) (· != '\n')).length_le
  have sized := Text.length_le_byteLength before
  rw [List.length_reverse] at counted
  rw [Text.byteLength_append]
  omega

/-- The true places of a text that is small enough are made of counters. -/
theorem IsTrueIn.fits {text : List Char} {place : Position} (isTrue : place.IsTrueIn text)
    (small : Text.byteLength text ≤ 2 ^ 32 - 2) : place.Fits := by
  have line := isTrue.line_le
  have column := isTrue.column_le
  have offset := isTrue.offset_le
  have limit : Counter.limit = 2 ^ 32 := rfl
  refine ⟨?_, ?_, ?_⟩ <;> omega

/-- The end of a text that is small enough is made of counters. -/
theorem ofText_fits {text : List Char} (small : Text.byteLength text ≤ 2 ^ 32 - 2) :
    (ofText text).Fits := by
  have isTrue : (ofText text).IsTrueIn text := by
    simpa using ofText_isTrueIn text []
  exact isTrue.fits small

/-! ### Moving places -/

/-- The place after the text that leads to `origin` and then to this place, on plain
numbers. -/
def shift (place origin : Position) : Position where
  line := origin.line + place.line - 1
  column := if place.line = 1 then origin.column + place.column - 1 else place.column
  offset := origin.offset + place.offset

/-- Lines and columns are counted from one. -/
structure Counted (place : Position) : Prop where
  line_pos : 1 ≤ place.line
  column_pos : 1 ≤ place.column

theorem start_counted : start.Counted := ⟨Nat.le_refl 1, Nat.le_refl 1⟩

theorem Counted.past {place : Position} (counted : place.Counted) (c : Char) :
    (place.past c).Counted := by
  have line := counted.line_pos
  unfold Position.past
  split
  · exact ⟨Nat.succ_le_succ (Nat.zero_le _), Nat.le_refl 1⟩
  · exact ⟨line, Nat.succ_le_succ (Nat.zero_le _)⟩

theorem Counted.pastAll {place : Position} (counted : place.Counted) (text : List Char) :
    (place.pastAll text).Counted := by
  induction text generalizing place with
  | nil => exact counted
  | cons c rest ih => exact ih (counted.past c)

theorem Counted.shift_past {place : Position} (counted : place.Counted) (origin : Position)
    (c : Char) : (place.past c).shift origin = (place.shift origin).past c := by
  obtain ⟨line, column⟩ := counted
  by_cases feed : c = '\n'
  · have below : ¬ place.line + 1 = 1 := by omega
    simp only [Position.past, if_pos feed, shift, if_neg below, mk.injEq, true_and]
    omega
  · simp only [Position.past, if_neg feed, shift, mk.injEq, true_and]
    split <;> omega

theorem Counted.shift_pastAll {place : Position} (counted : place.Counted) (origin : Position)
    (text : List Char) : (place.pastAll text).shift origin = (place.shift origin).pastAll text := by
  induction text generalizing place with
  | nil => rfl
  | cons c rest ih =>
      rw [pastAll_cons, pastAll_cons, ih (counted.past c), counted.shift_past]

@[simp] theorem shift_start (origin : Position) : start.shift origin = origin := rfl

/-- A text that starts at `origin` leads from there to where its own end is moved. -/
theorem shift_ofText (origin : Position) (text : List Char) :
    (ofText text).shift origin = origin.pastAll text :=
  start_counted.shift_pastAll origin text

@[simp] theorem shift_line (place origin : Position) :
    (place.shift origin).line = origin.line + place.line - 1 := rfl

@[simp] theorem shift_offset (place origin : Position) :
    (place.shift origin).offset = origin.offset + place.offset := rfl

/-- Checked rebasing is the plain move whenever no sum leaves the counters. -/
theorem rebase_eq_shift {place origin : Position} (counted : place.Counted)
    (line : origin.line + place.line < Counter.limit)
    (column : origin.column + place.column < Counter.limit)
    (offset : origin.offset + place.offset < Counter.limit) :
    place.rebase origin = .ok (place.shift origin) := by
  obtain ⟨linePositive, columnPositive⟩ := counted
  have lineOrdered : 1 ≤ origin.line + place.line := by omega
  have columnOrdered : 1 ≤ origin.column + place.column := by omega
  have checkedLine : (Counter.add origin.line place.line >>= (Counter.sub · 1)) =
      .ok (origin.line + place.line - 1) := by
    rw [Counter.add_of_lt line]
    exact Counter.sub_of_le lineOrdered
  have checkedColumn : (Counter.add origin.column place.column >>= (Counter.sub · 1)) =
      .ok (origin.column + place.column - 1) := by
    rw [Counter.add_of_lt column]
    exact Counter.sub_of_le columnOrdered
  unfold rebase shift
  rw [checkedLine, checkedColumn, Counter.add_of_lt offset]
  by_cases first : place.line = 1
  · rw [if_pos first, if_pos first]
    rfl
  · rw [if_neg first, if_neg first]
    rfl

/-- In a text of at most 2^32 - 3 bytes, what is true in the part that starts after
`before` is rebased onto the end of `before` without a fault. -/
theorem IsTrueIn.rebase {before piece : List Char} {place : Position}
    (isTrue : place.IsTrueIn piece)
    (small : Text.byteLength (before ++ piece) ≤ 2 ^ 32 - 3) :
    place.rebase (ofText before) = .ok (place.shift (ofText before)) := by
  obtain ⟨passed, rest, rfl, rfl⟩ := (isTrueIn_iff piece place).mp isTrue
  have counted : (ofText passed).Counted := start_counted.pastAll passed
  have beforeTrue : (ofText before).IsTrueIn before := by
    simpa using ofText_isTrueIn before []
  have passedTrue : (ofText passed).IsTrueIn passed := by
    simpa using ofText_isTrueIn passed []
  have limit : Counter.limit = 2 ^ 32 := rfl
  simp only [Text.byteLength_append] at small
  have lines := beforeTrue.line_le
  have columns := beforeTrue.column_le
  have offsets := beforeTrue.offset_le
  have linesPassed := passedTrue.line_le
  have columnsPassed := passedTrue.column_le
  have offsetsPassed := passedTrue.offset_le
  apply rebase_eq_shift counted <;> omega

end Position

namespace Cursor

theorem offset_skip (cursor : Cursor) (count : Nat) :
    (cursor.skip count).place.offset =
      cursor.place.offset + Text.byteLength (cursor.rest.take count) := by
  unfold skip
  exact Position.pastAll_offset _ _

theorem offset_skip_le (cursor : Cursor) {first last : Nat} (ordered : first ≤ last) :
    (cursor.skip first).place.offset ≤ (cursor.skip last).place.offset := by
  rw [offset_skip, offset_skip]
  have bytes := Text.byteLength_take_le cursor.rest ordered
  omega

theorem offset_skip_lt (cursor : Cursor) {first last : Nat} (ordered : first < last)
    (inside : (cursor.skip first).rest ≠ []) :
    (cursor.skip first).place.offset < (cursor.skip last).place.offset := by
  rw [offset_skip, offset_skip]
  have bytes := Text.byteLength_take_lt cursor.rest ordered inside
  omega

theorem offset_le_skip (cursor : Cursor) (count : Nat) :
    cursor.place.offset ≤ (cursor.skip count).place.offset := by
  rw [offset_skip]
  exact Nat.le_add_right _ _

theorem offset_skip_le_toEnd (cursor : Cursor) (count : Nat) :
    (cursor.skip count).place.offset ≤ cursor.toEnd.place.offset := by
  unfold toEnd
  rw [offset_skip, offset_skip, List.take_length]
  have split := congrArg Text.byteLength (List.take_append_drop count cursor.rest)
  rw [Text.byteLength_append] at split
  omega

/-- A window ends where skipping as many characters leads. -/
theorem offset_toEnd_skip_le (cursor : Cursor) (count : Nat) :
    (cursor.skip count).toEnd.place.offset ≤ cursor.toEnd.place.offset := by
  unfold toEnd
  rw [skip_skip]
  exact offset_skip_le_toEnd cursor _

theorem toEnd_window_place (cursor : Cursor) (count : Nat) :
    (cursor.window count).toEnd.place = (cursor.skip count).place := by
  unfold toEnd window skip
  rw [List.take_length]

/-- The remaining text of the cursor is a stretch of the text, and its place is where
that stretch starts. -/
def StandsIn (text : List Char) (cursor : Cursor) : Prop :=
  ∃ before after : List Char, text = before ++ (cursor.rest ++ after) ∧
    cursor.place = .ofText before

theorem ofText_toEnd_offset (text : List Char) :
    (ofText text).toEnd.place.offset = Text.byteLength text := by
  unfold toEnd ofText
  rw [offset_skip, List.take_length]
  exact Nat.zero_add _

theorem ofText_standsIn (text : List Char) : (ofText text).StandsIn text :=
  ⟨[], [], by simp [ofText], rfl⟩

namespace StandsIn

variable {text : List Char} {cursor : Cursor}

theorem skip (stands : cursor.StandsIn text) (count : Nat) :
    (cursor.skip count).StandsIn text := by
  obtain ⟨before, after, split, place⟩ := stands
  refine ⟨before ++ cursor.rest.take count, after, ?_, ?_⟩
  · rw [split, Cursor.skip_rest, List.append_assoc, ← List.append_assoc (cursor.rest.take count),
      List.take_append_drop]
  · unfold Cursor.skip Position.ofText
    rw [place, Position.pastAll_append]
    rfl

theorem window (stands : cursor.StandsIn text) (count : Nat) :
    (cursor.window count).StandsIn text := by
  obtain ⟨before, after, split, place⟩ := stands
  refine ⟨before, cursor.rest.drop count ++ after, ?_, place⟩
  unfold Cursor.window
  rw [split, ← List.append_assoc (cursor.rest.take count), List.take_append_drop]

theorem isTrueIn (stands : cursor.StandsIn text) : cursor.place.IsTrueIn text := by
  obtain ⟨before, after, split, place⟩ := stands
  exact (Position.isTrueIn_iff text _).mpr ⟨before, _, split, place⟩

end StandsIn

/-- A significant token starts after some trivia, where text is left. -/
theorem significant?_start {cursor : Cursor} {token : Token} {length : Nat}
    (found : cursor.significant? = some (token, length)) :
    ∃ trivia, trivia < length ∧ token.start = (cursor.skip trivia).place ∧
      (cursor.skip trivia).rest ≠ [] := by
  fun_induction significant? cursor generalizing token length with
  | case1 => cases found
  | case2 cursor tag first read isTrivia ih =>
      cases later : significant? (cursor.skip first) with
      | none => simp only [later, Option.map_none, reduceCtorEq] at found
      | some pair =>
          obtain ⟨next, more⟩ := pair
          simp only [later, Option.map_some, Option.some.injEq, Prod.mk.injEq] at found
          obtain ⟨rfl, rfl⟩ := found
          obtain ⟨trivia, before, start, inside⟩ := ih later
          rw [skip_skip] at start inside
          exact ⟨first + trivia, by omega, start, inside⟩
  | case3 cursor tag first read significant =>
      obtain ⟨positive, nonempty⟩ := Token.read?_pos read
      simp only [Option.some.injEq, Prod.mk.injEq] at found
      obtain ⟨rfl, rfl⟩ := found
      exact ⟨0, positive, by rw [skip_zero], by rw [skip_zero]; exact nonempty⟩

theorem offset_le_token {cursor : Cursor} {token : Token} {length : Nat}
    (found : cursor.significant? = some (token, length)) :
    cursor.place.offset ≤ token.start.offset := by
  obtain ⟨trivia, -, start, -⟩ := significant?_start found
  rw [start]
  exact offset_le_skip cursor trivia

/-- Reading token by token comes to an end: what holds at the end of the text, and at
a cursor whenever it holds everywhere behind the next significant token, always
holds. -/
theorem significant_induction {motive : Cursor → Prop}
    (atEnd : ∀ cursor : Cursor, cursor.significant? = none → motive cursor)
    (onward : ∀ (cursor : Cursor) (token : Token) (length : Nat),
      cursor.significant? = some (token, length) →
        (∀ more, motive (cursor.skip (length + more))) → motive cursor)
    (cursor : Cursor) : motive cursor := by
  induction size : cursor.rest.length using Nat.strongRecOn generalizing cursor with
  | ind size ih =>
      cases next : cursor.significant? with
      | none => exact atEnd cursor next
      | some pair =>
          obtain ⟨token, length⟩ := pair
          apply onward cursor token length next
          intro more
          have shorter := length_skip_add_lt next more
          rw [size] at shorter
          exact ih _ shorter _ rfl

end Cursor

/-! ### Ends of lines

The end of a line is looked for among the bytes, and the characters before it are
counted afterwards. No character but the line feed has the line feed byte in its
encoding, so this is the same as going on character by character to the first line
feed. -/

namespace Text

private theorem mod_of_byte {n : Nat} (same : (0x0A : UInt8) = UInt8.ofNat n) : n % 256 = 10 := by
  have values := congrArg UInt8.toNat same
  rw [UInt8.toNat_ofNat'] at values
  exact values.symm

/-- Bytes of longer encodings have their high bit set. -/
theorem newline_mem_encode (c : Char) : (0x0A : UInt8) ∈ String.utf8EncodeChar c ↔ c = '\n' := by
  constructor
  · intro member
    have code : c.val.toNat = 10 := by
      unfold String.utf8EncodeChar at member
      dsimp only at member
      split at member
      · have value := mod_of_byte (List.mem_singleton.mp member)
        omega
      · split at member
        · simp only [List.mem_cons, List.not_mem_nil, or_false] at member
          rcases member with same | same <;> have value := mod_of_byte same <;> omega
        · split at member <;> simp only [List.mem_cons, List.not_mem_nil, or_false] at member
          · rcases member with same | same | same <;> have value := mod_of_byte same <;> omega
          · rcases member with same | same | same | same <;>
              have value := mod_of_byte same <;> omega
    exact Char.ext (UInt32.toNat_inj.mp code)
  · rintro rfl
    decide

private theorem newlineOffset_go (passed : Nat) (text : List Char) :
    newlineOffset.go passed text = passed + byteLength (text.takeWhile (· != '\n')) := by
  induction text generalizing passed with
  | nil => rfl
  | cons c rest ih =>
      unfold newlineOffset.go
      by_cases feed : c = '\n'
      · subst feed
        rfl
      · have absent : (String.utf8EncodeChar c).findIdx? (· == 0x0A) = none := by
          rw [List.findIdx?_eq_none_iff]
          intro byte member
          rw [beq_eq_false_iff_ne]
          intro same
          subst same
          exact feed ((newline_mem_encode c).mp member)
        rw [absent, List.takeWhile_cons_of_pos (by simpa using feed), byteLength_cons]
        exact (ih (passed + c.utf8Size)).trans (Nat.add_assoc _ _ _)

theorem newlineOffset_eq (text : List Char) :
    newlineOffset text = byteLength (text.takeWhile (· != '\n')) := by
  unfold newlineOffset
  rw [newlineOffset_go, Nat.zero_add]

private theorem charsWithin_go (counted : Nat) (line rest : List Char) :
    charsWithin.go (byteLength line) counted (line ++ rest) =
      charsWithin.go 0 (counted + line.length) rest := by
  induction line generalizing counted with
  | nil => rfl
  | cons c line ih =>
      have reaches : c.utf8Size ≤ byteLength (c :: line) := by
        rw [byteLength_cons]
        exact Nat.le_add_right _ _
      rw [List.cons_append, charsWithin.go, if_pos reaches, byteLength_cons, Nat.add_sub_cancel_left,
        ih, List.length_cons]
      congr 1
      omega

private theorem charsWithin_go_zero (counted : Nat) (text : List Char) :
    charsWithin.go 0 counted text = counted := by
  cases text with
  | nil => rfl
  | cons c rest =>
      have wide := c.utf8Size_pos
      rw [charsWithin.go, if_neg (by omega)]

/-- A line ends before the first line feed. -/
theorem lineLength_eq (text : List Char) :
    lineLength text = (text.takeWhile (· != '\n')).length := by
  have split := List.takeWhile_append_dropWhile (p := (· != '\n')) (l := text)
  have counted := charsWithin_go 0 (text.takeWhile (· != '\n')) (text.dropWhile (· != '\n'))
  rw [split, charsWithin_go_zero, Nat.zero_add] at counted
  unfold lineLength charsWithin
  rw [newlineOffset_eq]
  exact counted

end Text

namespace Position

theorem pastAll_of_line (place : Position) {line : List Char} (oneLine : '\n' ∉ line) :
    place.pastAll line =
      ⟨place.line, place.column + line.length, place.offset + Text.byteLength line⟩ := by
  induction line generalizing place with
  | nil => rfl
  | cons c rest ih =>
      rw [List.mem_cons, not_or] at oneLine
      rw [pastAll_cons, ih _ oneLine.2, past_of_ne _ (fun same => oneLine.1 same.symm),
        List.length_cons, Text.byteLength_cons]
      simp only [mk.injEq, true_and]
      omega

end Position

namespace Cursor

/-- Going to the end of a line in one step is going there character by character. -/
theorem skipLine_eq (cursor : Cursor) :
    cursor.skipLine = cursor.skip (Text.lineLength cursor.rest) := by
  have line : cursor.rest.take (Text.lineLength cursor.rest) =
      cursor.rest.takeWhile (· != '\n') := by
    rw [Text.lineLength_eq]
    exact List.prefix_iff_eq_take.mp (List.takeWhile_prefix _) |>.symm
  have oneLine : '\n' ∉ cursor.rest.takeWhile (· != '\n') := by
    intro member
    have passed := List.all_eq_true.mp (List.all_takeWhile) _ member
    simp at passed
  unfold skipLine skip
  dsimp only
  rw [line, Position.pastAll_of_line _ oneLine, Text.newlineOffset_eq, ← Text.lineLength_eq]

end Cursor
end Survey
