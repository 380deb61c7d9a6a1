import Survey.Position

set_option autoImplicit false

/-!
# Decoding

From the bytes of a file to its text, with the issues that the bytes have on the way.
-/

namespace Survey

/-! ### Reading UTF-8 piece by piece

A byte sequence is cut into pieces: a well-formed encoding of one character, or
the longest run of bytes that starts such an encoding and cannot be completed.
The reader goes over the bytes once. Between bytes it remembers the encoding it is
in the middle of, with the ranges that the bytes still to come must lie in. -/

namespace Encoding

/-- A part of the input: where it starts, how many bytes it takes, and the
character that it encodes, if it encodes one. -/
structure Piece where
  start : Nat
  width : Nat
  char? : Option Char
deriving DecidableEq, Repr

def Piece.shown (piece : Piece) : Char := piece.char?.getD '\uFFFD'

/-- An encoding that has begun and waits for more bytes. -/
structure Unfinished where
  start : Nat
  width : Nat
  /-- The bits of the code point read so far. -/
  code : Nat
  next : Nat × Nat
  /-- The ranges of the bytes after the next one. -/
  later : List (Nat × Nat)
deriving DecidableEq, Repr

def tail : Nat × Nat := (0x80, 0xBF)

/-- What the first byte of an encoding of several bytes says: the bits that it
carries and the ranges of the bytes that must follow. The second byte is held
tighter where a shorter encoding exists, where surrogates would lie, and where the
code points end. -/
def lead? (byte : Nat) : Option (Nat × (Nat × Nat) × List (Nat × Nat)) :=
  if 0xC2 ≤ byte && byte ≤ 0xDF then some (byte - 0xC0, tail, [])
  else if byte == 0xE0 then some (0, (0xA0, 0xBF), [tail])
  else if byte == 0xED then some (0xD, (0x80, 0x9F), [tail])
  else if 0xE1 ≤ byte && byte ≤ 0xEF then some (byte - 0xE0, tail, [tail])
  else if byte == 0xF0 then some (0, (0x90, 0xBF), [tail, tail])
  else if 0xF1 ≤ byte && byte ≤ 0xF3 then some (byte - 0xF0, tail, [tail, tail])
  else if byte == 0xF4 then some (4, (0x80, 0x8F), [tail, tail])
  else none

/-- The reader between two bytes: the bytes taken, the finished pieces with the
latest first, and the encoding in progress. -/
structure Reader where
  taken : Nat
  finished : List Piece
  inProgress : Option Unfinished
deriving DecidableEq, Repr

namespace Reader

def initial : Reader := ⟨0, [], none⟩

def begin (taken : Nat) (finished : List Piece) (byte : Nat) : Reader :=
  if byte < 0x80 then ⟨taken + 1, ⟨taken, 1, some (Char.ofNat byte)⟩ :: finished, none⟩
  else
    match lead? byte with
    | none => ⟨taken + 1, ⟨taken, 1, none⟩ :: finished, none⟩
    | some (code, next, later) =>
        ⟨taken + 1, finished, some ⟨taken, 1, code, next, later⟩⟩

/-- Take one byte. A byte that cannot go on with the encoding in progress ends it
as an ill-formed piece and starts the next piece itself. -/
def feed (reader : Reader) (byte : UInt8) : Reader :=
  match reader.inProgress with
  | none => begin reader.taken reader.finished byte.toNat
  | some ⟨start, width, code, (low, high), later⟩ =>
    if low ≤ byte.toNat && byte.toNat ≤ high then
      let code := code * 64 + (byte.toNat - 0x80)
      match later with
      | [] =>
          ⟨reader.taken + 1,
            ⟨start, width + 1, some (Char.ofNat code)⟩ :: reader.finished, none⟩
      | next :: later =>
          ⟨reader.taken + 1, reader.finished,
            some ⟨start, width + 1, code, next, later⟩⟩
    else begin reader.taken (⟨start, width, none⟩ :: reader.finished) byte.toNat

def finish (reader : Reader) : List Piece :=
  match reader.inProgress with
  | none => reader.finished.reverse
  | some ⟨start, width, _, _, _⟩ => (⟨start, width, none⟩ :: reader.finished).reverse

end Reader

def pieces (bytes : List UInt8) : List Piece :=
  (bytes.foldl Reader.feed Reader.initial).finish

/-! ### Decoded source text

Decoding never fails on content. What is ill-formed is replaced by U+FFFD, and all
that a reader of the text may want to know about the bytes is kept as issues: first
the byte order mark, then the zero bytes, then the ill-formed sequences. -/

inductive IssueKind where
  | utf8Mark
  | utf16LittleEndianMark
  | utf16BigEndianMark
  | zeroByte
  | illFormed
deriving DecidableEq, Repr

def IssueKind.name : IssueKind → String
  | .utf8Mark => "Utf8Bom"
  | .utf16LittleEndianMark => "Utf16LeBom"
  | .utf16BigEndianMark => "Utf16BeBom"
  | .zeroByte => "InteriorNull"
  | .illFormed => "InvalidUtf8"

structure Issue where
  kind : IssueKind
  offset : Nat
  length : Nat
deriving DecidableEq, Repr

structure Decoded where
  text : String
  issues : List Issue
deriving DecidableEq, Repr

def markIssues (bytes : List UInt8) : List Issue :=
  if [0xEF, 0xBB, 0xBF].isPrefixOf bytes then [⟨.utf8Mark, 0, 3⟩]
  else if [0xFF, 0xFE].isPrefixOf bytes then [⟨.utf16LittleEndianMark, 0, 2⟩]
  else if [0xFE, 0xFF].isPrefixOf bytes then [⟨.utf16BigEndianMark, 0, 2⟩]
  else []

def zeroIssues (bytes : List UInt8) : List Issue :=
  bytes.zipIdx.filterMap fun (byte, offset) =>
    if byte = 0 ∧ offset < Counter.limit then some ⟨.zeroByte, offset, 1⟩ else none

def illFormedIssues (pieces : List Piece) : List Issue :=
  pieces.filterMap fun piece =>
    if piece.char? = none ∧ piece.start < Counter.limit then
      some ⟨.illFormed, piece.start, piece.width⟩
    else none

def shownText (pieces : List Piece) : String := String.ofList (pieces.map Piece.shown)

def decode (bytes : List UInt8) : Decoded :=
  let pieces := pieces bytes
  ⟨shownText pieces, markIssues bytes ++ zeroIssues bytes ++ illFormedIssues pieces⟩

end Encoding

end Survey
