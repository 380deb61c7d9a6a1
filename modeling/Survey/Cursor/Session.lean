import Survey.Cursor.Basic

set_option autoImplicit false

/-!
# Reading sessions

A session reads one text by tokens and by characters in any mixture. It keeps a
copy of the cursor that can be put back. Every action is checked: a cursor whose
place is not made of counters is a fault.
-/

namespace Survey

inductive Action where
  | nextToken
  | nextSignificant
  /-- Move past the next token unless the text is over. -/
  | nextBeforeEnd
  | tokenText (offset length : Nat)
  /-- The character some way ahead. -/
  | look (distance : Nat)
  | takeChar
  | dropChar
  | isAtEnd
  | skipComment
  | isAtRawString
  | skipString
  | skipQuote
  | offset
  | remaining
  | slice (start stop : Nat)
  /-- The text from an offset up to the cursor. -/
  | sliceFrom (start : Nat)
  | skipWhile (keep : Char → Bool)
  | skipBlanks
  | skipWordParts
  | skipLine
  /-- Keep a copy of the cursor. -/
  | save
  /-- Put the kept copy back. -/
  | restore

inductive Reply where
  | nothing
  | char (c : Char)
  | flag (value : Bool)
  | number (value : Nat)
  | text (value : List Char)
  | token (value : Token)
  | quote (value : Literal.Quote)
deriving DecidableEq, Repr

structure Session where
  text : List Char
  cursor : Cursor
  saved : Cursor
deriving DecidableEq, Repr

namespace Session

def start (text : List Char) : Session := ⟨text, .ofText text, .ofText text⟩

def move (session : Session) (reply : Reply) (cursor : Cursor) :
    Except Fault (Reply × Session) := do
  let _ ← cursor.place.checked
  pure (reply, { session with cursor := cursor })

/-- Step over a unit that may not be there, and say whether it was. -/
def skipUnit (session : Session) (length? : Option Nat) : Except Fault (Reply × Session) :=
  match length? with
  | some length => session.move (.flag true) (session.cursor.skip length)
  | none => .ok (.flag false, session)

/-- Do one action. A fault leaves the caller with the session as it was. -/
def run (session : Session) (action : Action) : Except Fault (Reply × Session) :=
  let cursor := session.cursor
  match action with
  | .nextToken =>
      let (token, cursor) := cursor.nextToken
      session.move (.token token) cursor
  | .nextSignificant =>
      let (token, cursor) := cursor.nextSignificant
      session.move (.token token) cursor
  | .nextBeforeEnd =>
      match cursor.token? with
      | some (token, length) => session.move (.token token) (cursor.skip length)
      | none => .ok (.nothing, session)
  | .tokenText offset length => do
      let stop ← Counter.add offset length
      pure (.text (Text.slice session.text offset stop), session)
  | .look distance => .ok (.char (cursor.ahead distance), session)
  | .takeChar => session.move (.char (cursor.ahead 0)) (cursor.skip 1)
  | .dropChar => session.move .nothing (cursor.skip 1)
  | .isAtEnd => .ok (.flag cursor.isAtEnd, session)
  | .skipComment => session.skipUnit (Comment.length? cursor.rest)
  | .isAtRawString => .ok (.flag (Literal.rawHashes? cursor.rest).isSome, session)
  | .skipString => session.skipUnit (Literal.stringLength? cursor.rest)
  | .skipQuote =>
      match Literal.quote? cursor.rest with
      | some (quote, length) => session.move (.quote quote) (cursor.skip length)
      | none => .ok (.nothing, session)
  | .offset => .ok (.number cursor.place.offset, session)
  | .remaining => .ok (.text cursor.rest, session)
  | .slice start stop => .ok (.text (Text.slice session.text start stop), session)
  | .sliceFrom start =>
      .ok (.text (Text.slice session.text start cursor.place.offset), session)
  | .skipWhile keep => session.move .nothing (cursor.skipWhile keep)
  | .skipBlanks => session.move .nothing (cursor.skipWhile Text.isBlank)
  | .skipWordParts => session.move .nothing (cursor.skipWhile Text.isWordPart)
  | .skipLine => session.move .nothing cursor.skipLine
  | .save => .ok (.nothing, { session with saved := cursor })
  | .restore => .ok (.nothing, { session with cursor := session.saved })

end Session
end Survey
