import Survey.Proofs.Sessions
import Survey.Proofs.Shapes

set_option autoImplicit false

/-!
# Searching for the end of a line

A line ends before the first line feed. It may be walked to character by character, with every
place on the way checked, or the bytes that are left may be searched for a line feed and the
characters before it counted afterwards. Wherever a session has led, the two ways end at the
same place: the search stops between two characters, as no other character has the byte of a
line feed in its encoding.
-/

namespace Survey

/-! ### Searching the bytes -/

namespace Text

/-- The bytes of the text. -/
def encoded (text : List Char) : List UInt8 := text.flatMap String.utf8EncodeChar

/-- The search tells where the byte stands for the first time, if it stands anywhere. -/
structure FindsFirst (search : List UInt8 → Option Nat) (byte : UInt8) : Prop where
  found : ∀ {bytes : List UInt8} {index : Nat}, search bytes = some index →
    bytes[index]? = some byte ∧ byte ∉ bytes.take index
  missed : ∀ {bytes : List UInt8}, search bytes = none → byte ∉ bytes

theorem findIdx?_findsFirst (byte : UInt8) : FindsFirst (·.findIdx? (· == byte)) byte where
  found {bytes index} found := by
    obtain ⟨inside, here, before⟩ := List.findIdx?_eq_some_iff_getElem.mp found
    refine ⟨by rw [List.getElem?_eq_getElem inside, beq_iff_eq.mp here], ?_⟩
    intro member
    obtain ⟨earlier, bound, same⟩ := List.mem_take_iff_getElem.mp member
    have apart := before earlier (by omega)
    rw [same, beq_self_eq_true] at apart
    exact apart rfl
  missed {bytes} absent := by
    intro member
    have apart := List.findIdx?_eq_none_iff.mp absent byte member
    rw [beq_self_eq_true] at apart
    cases apart

/-- A byte that does not stand in the first part and starts the second is found there. -/
theorem FindsFirst.append {search : List UInt8 → Option Nat} {byte : UInt8}
    (finds : FindsFirst search byte) {before : List UInt8} (absent : byte ∉ before)
    (after : List UInt8) : search (before ++ byte :: after) = some before.length := by
  cases result : search (before ++ byte :: after) with
  | none => exact absurd (List.mem_append_right _ List.mem_cons_self) (finds.missed result)
  | some index =>
      obtain ⟨here, first⟩ := finds.found result
      congr 1
      -- An earlier index lies in the first part, and a later one has the byte before it.
      rcases Nat.lt_trichotomy index before.length with earlier | same | later
      · rw [List.getElem?_append_left earlier] at here
        exact absurd (List.mem_of_getElem? here) absent
      · exact same
      · obtain ⟨more, rfl⟩ := Nat.exists_eq_add_of_lt later
        rw [Nat.add_assoc, List.take_length_add_append, List.take_succ_cons] at first
        exact absurd (List.mem_append_right _ List.mem_cons_self) first

theorem FindsFirst.eq_none {search : List UInt8 → Option Nat} {byte : UInt8}
    (finds : FindsFirst search byte) {bytes : List UInt8} (absent : byte ∉ bytes) :
    search bytes = none := by
  cases result : search bytes with
  | none => rfl
  | some index => exact absurd (List.mem_of_getElem? (finds.found result).1) absent

theorem length_encoded (text : List Char) : (encoded text).length = byteLength text := by
  induction text with
  | nil => rfl
  | cons c rest ih =>
      rw [byteLength_cons, ← ih, encoded, List.flatMap_cons, List.length_append,
        String.length_utf8EncodeChar]
      rfl

/-- The byte of a line feed stands in the encoding of no other character. -/
theorem newline_mem_encoded {text : List Char} : (0x0A : UInt8) ∈ encoded text ↔ '\n' ∈ text := by
  unfold encoded
  simp only [List.mem_flatMap, newline_mem_encode, exists_eq_right]

theorem newline_notMem_line (text : List Char) : '\n' ∉ text.takeWhile (· != '\n') := by
  intro member
  have passed := List.all_eq_true.mp List.all_takeWhile _ member
  simp at passed

/-- A text is its first line, with a line feed and more text behind it or with nothing. -/
theorem line_cases (text : List Char) :
    text.takeWhile (· != '\n') = text ∨
      ∃ after, text = text.takeWhile (· != '\n') ++ '\n' :: after := by
  have split := List.takeWhile_append_dropWhile (p := (· != '\n')) (l := text)
  have stops := List.head?_dropWhile_not (· != '\n') text
  cases behind : text.dropWhile (· != '\n') with
  | nil =>
      rw [behind, List.append_nil] at split
      exact .inl split
  | cons c after =>
      rw [behind] at split stops
      have feed : c = '\n' := by simpa using stops
      rw [feed] at split
      exact .inr ⟨after, split.symm⟩

theorem newlineOffset_le (text : List Char) : newlineOffset text ≤ byteLength text := by
  have split := List.takeWhile_append_dropWhile (p := (· != '\n')) (l := text)
  have joined := congrArg byteLength split
  rw [byteLength_append] at joined
  rw [newlineOffset_eq]
  omega

theorem lineLength_le_newlineOffset (text : List Char) :
    lineLength text ≤ newlineOffset text := by
  rw [lineLength_eq, newlineOffset_eq]
  exact length_le_byteLength _

/-- The bytes before the line feed are those of whole characters. -/
theorem charsBefore?_newlineOffset (text : List Char) :
    charsBefore? (newlineOffset text) text = some (lineLength text) := by
  have line := charsBefore?_append (text.takeWhile (· != '\n')) (text.dropWhile (· != '\n'))
  rw [List.takeWhile_append_dropWhile] at line
  rw [newlineOffset_eq, line, lineLength_eq]

/-- A search of the bytes leads behind the bytes of the first line. -/
theorem FindsFirst.search_encoded {search : List UInt8 → Option Nat}
    (finds : FindsFirst search 0x0A) (text : List Char) :
    (search (encoded text)).getD (encoded text).length =
      byteLength (text.takeWhile (· != '\n')) := by
  have absent : (0x0A : UInt8) ∉ encoded (text.takeWhile (· != '\n')) :=
    fun member => newline_notMem_line text (newline_mem_encoded.mp member)
  rcases line_cases text with whole | ⟨after, split⟩
  · rw [whole] at absent ⊢
    rw [finds.eq_none absent, Option.getD_none, length_encoded]
  · have bytes : encoded text =
        encoded (text.takeWhile (· != '\n')) ++ 0x0A :: encoded after := by
      conv_lhs => rw [split, encoded, List.flatMap_append, List.flatMap_cons]
      rfl
    rw [bytes, finds.append absent, Option.getD_some, length_encoded]

end Text

namespace Cursor

/-- The cursor at the end of its line, which is searched for among the bytes that are left:
the characters up to there are counted and added to the column, both as 32-bit numbers. There
is none if the search leads into a character, or to a place that is not made of counters. -/
def searchLine? (search : List UInt8 → Option Nat) (cursor : Cursor) : Option Cursor :=
  let bytes := Text.encoded cursor.rest
  let passed := (search bytes).getD bytes.length
  (Text.charsBefore? passed cursor.rest).bind fun chars =>
    let place : Position :=
      { cursor.place with
        column := cursor.place.column + chars % Counter.limit
        offset := cursor.place.offset + passed % Counter.limit }
    if place.Fits then some ⟨cursor.rest.drop chars, place⟩ else none

theorem skipWhile_of_end {cursor : Cursor} (keep : Char → Bool) (ended : cursor.rest = []) :
    cursor.skipWhile keep = cursor := by
  rw [skipWhile, ended, List.takeWhile_nil, List.length_nil, skip_zero]

theorem skipWhile_of_keep {cursor : Cursor} {keep : Char → Bool} {c : Char} {rest : List Char}
    (split : cursor.rest = c :: rest) (kept : keep c = true) :
    cursor.skipWhile keep = (cursor.skip 1).skipWhile keep := by
  have behind : (cursor.skip 1).rest = rest := by
    rw [skip_rest, split]
    rfl
  rw [skipWhile, skipWhile, behind, split, List.takeWhile_cons_of_pos kept, List.length_cons,
    skip_skip, Nat.add_comm]

theorem skipWhile_of_not_keep {cursor : Cursor} {keep : Char → Bool} {c : Char}
    {rest : List Char} (split : cursor.rest = c :: rest) (stops : ¬ keep c = true) :
    cursor.skipWhile keep = cursor := by
  rw [skipWhile, split, List.takeWhile_cons_of_neg stops, List.length_nil, skip_zero]

theorem skipLine_eq_skipWhile (cursor : Cursor) :
    cursor.skipLine = cursor.skipWhile (· != '\n') := by
  rw [skipLine_eq, Text.lineLength_eq]
  rfl

/-- The numbers that the search adds fit 32 bits, and it stops between two characters. -/
theorem IsTrueIn.searchLine?_eq {text : List Char} {cursor : Cursor}
    (isTrue : cursor.IsTrueIn text) (small : Text.byteLength text ≤ 2 ^ 32 - 2)
    {search : List UInt8 → Option Nat} (finds : Text.FindsFirst search 0x0A) :
    cursor.searchLine? search = some cursor.skipLine := by
  have fits : cursor.skipLine.place.Fits := by
    rw [skipLine_eq]
    exact (isTrue.skip _).place_isTrueIn.fits small
  obtain ⟨before, split, -⟩ := isTrue
  have left : Text.byteLength cursor.rest ≤ 2 ^ 32 - 2 := by
    rw [split, Text.byteLength_append] at small
    omega
  -- Neither number loses bits: both are at most the bytes that are left.
  have offset := Text.newlineOffset_le cursor.rest
  have chars := Text.lineLength_le_newlineOffset cursor.rest
  have charsFit : Text.lineLength cursor.rest % Counter.limit = Text.lineLength cursor.rest :=
    Nat.mod_eq_of_lt (by unfold Counter.limit; omega)
  have offsetFits : Text.newlineOffset cursor.rest % Counter.limit =
      Text.newlineOffset cursor.rest :=
    Nat.mod_eq_of_lt (by unfold Counter.limit; omega)
  unfold searchLine?
  dsimp only
  rw [finds.search_encoded, ← Text.newlineOffset_eq, Text.charsBefore?_newlineOffset,
    Option.bind_some, charsFit, offsetFits]
  exact if_pos fits

end Cursor

namespace Session

variable {text : List Char} {session next : Session} {action : Action} {reply : Reply}

/-! ### Reached sessions -/

/-- An action that is answered leads from a sound session to a sound one. -/
theorem Sound.of_run (sound : session.Sound text) (small : Text.byteLength text ≤ 2 ^ 32 - 2)
    (ran : session.run action = .ok (reply, next)) : next.Sound text := by
  by_cases counted : action.IsCounted
  · obtain ⟨_, _, answered, nextSound, -⟩ := sound.run small counted
    cases ran.symm.trans answered
    exact nextSound
  · cases action with
    -- Only the end of a token's text may be no counter, and then nothing is answered.
    | tokenText first size =>
        have refused : ¬ first + size < Counter.limit := counted
        rw [Session.run, Counter.add, if_neg refused] at ran
        cases ran
    | _ => exact absurd trivial counted

theorem Sound.of_runAll (sound : session.Sound text)
    (small : Text.byteLength text ≤ 2 ^ 32 - 2) {history : List Action} {replies : List Reply}
    (reached : session.runAll history = .ok (replies, next)) : next.Sound text := by
  induction history generalizing session replies with
  | nil =>
      cases reached
      exact sound
  | cons action later ih =>
      rw [Session.runAll] at reached
      cases ran : session.run action with
      | error fault =>
          rw [ran] at reached
          cases reached
      | ok answered =>
          rw [ran] at reached
          change (answered.2.runAll later >>= _) = _ at reached
          cases all : answered.2.runAll later with
          | error fault =>
              rw [all] at reached
              cases reached
          | ok done =>
              rw [all] at reached
              cases reached
              exact ih (sound.of_run small ran) all

/-! ### Walking character by character -/

theorem eq_of_move {answer : Reply} {cursor : Cursor}
    (moved : session.move answer cursor = .ok (reply, next)) :
    next = { session with cursor := cursor } := by
  unfold move Position.checked at moved
  split at moved <;> cases moved
  rfl

/-- A dropped character is no longer left. -/
theorem length_dropChar_lt (filled : ¬ session.cursor.isAtEnd = true)
    (dropped : session.run .dropChar = .ok (reply, next)) :
    next.cursor.rest.length < session.cursor.rest.length := by
  rw [eq_of_move dropped]
  have some := List.length_pos_iff.mpr (mt List.isEmpty_iff.mpr filled)
  rw [Cursor.skip_rest, List.length_drop]
  omega

/-- Drop characters while they are of a class, each by an action of its own. -/
def dropWhile (keep : Char → Bool) (session : Session) : Except Fault Session :=
  if _filled : session.cursor.isAtEnd then .ok session
  else if keep (session.cursor.ahead 0) then
    match _dropped : session.run .dropChar with
    | .ok (_, next) => next.dropWhile keep
    | .error fault => .error fault
  else .ok session
termination_by session.cursor.rest.length
decreasing_by exact length_dropChar_lt _filled _dropped

/-- In a small text every place on the way is made of counters. -/
theorem Sound.dropWhile_eq (sound : session.Sound text)
    (small : Text.byteLength text ≤ 2 ^ 32 - 2) (keep : Char → Bool) :
    session.dropWhile keep =
      .ok { session with cursor := session.cursor.skipWhile keep } := by
  fun_induction dropWhile keep session with
  | case1 session ended =>
      rw [Cursor.skipWhile_of_end keep (List.isEmpty_iff.mp ended)]
  | case2 session filled kept reply next dropped ih =>
      obtain ⟨c, rest, split⟩ := List.exists_cons_of_ne_nil (mt List.isEmpty_iff.mpr filled)
      rw [Cursor.ahead, split] at kept
      have moved := eq_of_move dropped
      subst moved
      rw [ih (sound.skip 1), Cursor.skipWhile_of_keep split kept]
  | case3 session filled kept fault failed =>
      cases failed.symm.trans (sound.move_skip small .nothing 1)
  | case4 session filled stops =>
      obtain ⟨c, rest, split⟩ := List.exists_cons_of_ne_nil (mt List.isEmpty_iff.mpr filled)
      rw [Cursor.ahead, split] at stops
      rw [Cursor.skipWhile_of_not_keep split stops]

/-- In a text of at most 2^32 - 2 bytes, wherever a history of actions has led, going to the
end of the line in one step leaves the session as dropping the characters before the line feed
one by one does, and as moving past them. The search for the line feed among the bytes leads
there too. -/
theorem skipLine_agrees (text : List Char) (small : Text.byteLength text ≤ 2 ^ 32 - 2)
    (search : List UInt8 → Option Nat) (finds : Text.FindsFirst search 0x0A)
    (history : List Action) (replies : List Reply) (session : Session)
    (reached : (start text).runAll history = .ok (replies, session)) :
    ∃ next, session.run .skipLine = .ok (.nothing, next) ∧
      session.dropWhile (· != '\n') = .ok next ∧
      session.run (.skipWhile (· != '\n')) = .ok (.nothing, next) ∧
      session.cursor.searchLine? search = some next.cursor := by
  have sound := (start_sound text).of_runAll small reached
  have moves := sound.move_skip small .nothing (Text.lineLength session.cursor.rest)
  rw [← Cursor.skipLine_eq] at moves
  have walks := sound.dropWhile_eq small (· != '\n')
  have searched := sound.cursor.searchLine?_eq small finds
  have same := session.cursor.skipLine_eq_skipWhile
  refine ⟨_, moves, ?_, ?_, searched⟩
  · rw [walks, same]
  · rw [run, ← same]
    exact moves

/-- Wide characters before the line feed, and a wide one already taken. -/
theorem skipLine_agrees_wide :
    let text := "é// ñ🦀\nb".toList
    let search := fun bytes : List UInt8 => bytes.findIdx? (· == 0x0A)
    let session : Session := ⟨text, ⟨text.drop 1, ⟨1, 2, 2⟩⟩, .ofText text⟩
    Text.byteLength text ≤ 2 ^ 32 - 2 ∧ Text.FindsFirst search 0x0A ∧
      (start text).runAll [.takeChar] = .ok ([.char 'é'], session) ∧
      ∃ next, next.cursor.place = ⟨1, 7, 11⟩ ∧ session.run .skipLine = .ok (.nothing, next) ∧
        session.dropWhile (· != '\n') = .ok next ∧
        session.run (.skipWhile (· != '\n')) = .ok (.nothing, next) ∧
        session.cursor.searchLine? search = some next.cursor := by
  intro text search session
  have small : Text.byteLength text ≤ 2 ^ 32 - 2 := by
    decide
  have finds : Text.FindsFirst search 0x0A := Text.findIdx?_findsFirst 0x0A
  have reached : (start text).runAll [.takeChar] = .ok ([.char 'é'], session) := by
    decide
  obtain ⟨next, moves, agrees⟩ := skipLine_agrees text small search finds _ _ _ reached
  have place : next.cursor.place = ⟨1, 7, 11⟩ := by
    rw [eq_of_move moves]
    decide
  exact ⟨small, finds, reached, next, place, moves, agrees⟩

end Session
end Survey
