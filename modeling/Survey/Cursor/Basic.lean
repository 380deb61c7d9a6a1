import Survey.Token.Lexer

set_option autoImplicit false

/-!
# Cursors

A cursor is the text that is still to be read together with the place where it
starts. It only ever moves forward over a number of characters, so its place is
always the place after the characters behind it. What decides how far to move looks
at the remaining text alone.
-/

namespace Survey

structure Cursor where
  rest : List Char
  place : Position
deriving DecidableEq, Repr

namespace Cursor

def ofText (text : List Char) : Cursor := ⟨text, .start⟩

def skip (cursor : Cursor) (count : Nat) : Cursor :=
  ⟨cursor.rest.drop count, cursor.place.pastAll (cursor.rest.take count)⟩

def toEnd (cursor : Cursor) : Cursor := cursor.skip cursor.rest.length

def window (cursor : Cursor) (count : Nat) : Cursor :=
  ⟨cursor.rest.take count, cursor.place⟩

def skipWhile (cursor : Cursor) (keep : Char → Bool) : Cursor :=
  cursor.skip (cursor.rest.takeWhile keep).length

/-- The cursor at the end of its line. No line feed is passed, so the column and
the offset are moved in one step each. -/
def skipLine (cursor : Cursor) : Cursor :=
  let chars := Text.lineLength cursor.rest
  ⟨cursor.rest.drop chars,
    { cursor.place with
      column := cursor.place.column + chars
      offset := cursor.place.offset + Text.newlineOffset cursor.rest }⟩

/-- The character some way ahead; past the end it is the zero character. -/
def ahead (cursor : Cursor) (distance : Nat) : Char := cursor.rest[distance]?.getD '\x00'

def isAtEnd (cursor : Cursor) : Bool := cursor.rest.isEmpty

/-! ### Tokens -/

def token? (cursor : Cursor) : Option (Token × Nat) :=
  (Token.read? cursor.rest).map fun (tag, length) =>
    (⟨tag, cursor.place, cursor.rest.take length⟩, length)

/-- The next token that is not trivia, and the number of characters up to its end. -/
def significant? (cursor : Cursor) : Option (Token × Nat) :=
  match _found : Token.read? cursor.rest with
  | none => none
  | some (tag, length) =>
      if tag.isTrivia then
        (significant? (cursor.skip length)).map fun (token, more) => (token, length + more)
      else some (⟨tag, cursor.place, cursor.rest.take length⟩, length)
termination_by cursor.rest.length
decreasing_by exact Token.length_drop_lt _found

/-- Move past the next token. At the end of the text the token there is returned
again and again. -/
def nextToken (cursor : Cursor) : Token × Cursor :=
  match cursor.token? with
  | some (token, length) => (token, cursor.skip length)
  | none => (.atEnd cursor.place, cursor)

def nextSignificant (cursor : Cursor) : Token × Cursor :=
  match cursor.significant? with
  | some (token, length) => (token, cursor.skip length)
  | none => (.atEnd cursor.toEnd.place, cursor.toEnd)

/-- All tokens from here on; the token at the end of the text is the last one. -/
def tokens (cursor : Cursor) : List Token :=
  match _found : Token.read? cursor.rest with
  | none => [.atEnd cursor.place]
  | some (tag, length) =>
      ⟨tag, cursor.place, cursor.rest.take length⟩ :: tokens (cursor.skip length)
termination_by cursor.rest.length
decreasing_by exact Token.length_drop_lt _found

theorem significant?_eq (cursor : Cursor) :
    cursor.significant? =
      match Token.read? cursor.rest with
      | none => none
      | some (tag, length) =>
          if tag.isTrivia then
            (significant? (cursor.skip length)).map fun (token, more) =>
              (token, length + more)
          else some (⟨tag, cursor.place, cursor.rest.take length⟩, length) := by
  rw [significant?]
  split <;> simp [*]

theorem tokens_eq (cursor : Cursor) :
    cursor.tokens =
      match Token.read? cursor.rest with
      | none => [.atEnd cursor.place]
      | some (tag, length) =>
          ⟨tag, cursor.place, cursor.rest.take length⟩ :: tokens (cursor.skip length) := by
  rw [tokens]
  split <;> simp [*]

theorem nextToken_of_read {cursor : Cursor} {tag : Tag} {length : Nat}
    (read : Token.read? cursor.rest = some (tag, length)) :
    cursor.nextToken = (⟨tag, cursor.place, cursor.rest.take length⟩, cursor.skip length) := by
  simp [nextToken, token?, read]

theorem nextToken_of_end {cursor : Cursor} (atEnd : Token.read? cursor.rest = none) :
    cursor.nextToken = (.atEnd cursor.place, cursor) := by
  simp [nextToken, token?, atEnd]

/-! ### Moving forward -/

@[simp] theorem skip_zero (cursor : Cursor) : cursor.skip 0 = cursor := by
  simp [skip]

@[simp] theorem skip_skip (cursor : Cursor) (first second : Nat) :
    (cursor.skip first).skip second = cursor.skip (first + second) := by
  simp only [skip, List.drop_drop, List.take_add, Position.pastAll_append]

@[simp] theorem skip_rest (cursor : Cursor) (count : Nat) :
    (cursor.skip count).rest = cursor.rest.drop count := rfl

theorem significant?_pos {cursor : Cursor} {token : Token} {length : Nat}
    (found : cursor.significant? = some (token, length)) :
    0 < length ∧ cursor.rest ≠ [] := by
  unfold significant? at found
  split at found
  · cases found
  · rename_i tag first read
    obtain ⟨positive, nonempty⟩ := Token.read?_pos read
    refine ⟨?_, nonempty⟩
    split at found
    · cases later : significant? (cursor.skip first) with
      | none => simp [later] at found
      | some pair =>
          simp only [later, Option.map_some, Option.some.injEq, Prod.mk.injEq] at found
          omega
    · simp only [Option.some.injEq, Prod.mk.injEq] at found
      omega

theorem length_skip_add_lt {cursor : Cursor} {token : Token} {length : Nat}
    (found : cursor.significant? = some (token, length)) (more : Nat) :
    (cursor.skip (length + more)).rest.length < cursor.rest.length := by
  obtain ⟨positive, nonempty⟩ := significant?_pos found
  have filled := List.length_pos_iff.mpr nonempty
  rw [skip_rest, List.length_drop]
  omega

theorem length_skip_lt {cursor : Cursor} {token : Token} {length : Nat}
    (found : cursor.significant? = some (token, length)) :
    (cursor.skip length).rest.length < cursor.rest.length :=
  length_skip_add_lt found 0

def significantTokens (cursor : Cursor) : List Token :=
  match _found : cursor.significant? with
  | none => [.atEnd cursor.toEnd.place]
  | some (token, length) => token :: significantTokens (cursor.skip length)
termination_by cursor.rest.length
decreasing_by exact length_skip_lt _found

end Cursor
end Survey
