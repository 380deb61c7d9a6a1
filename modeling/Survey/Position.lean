import Survey.Text.Bytes

set_option autoImplicit false

/-!
# Positions and spans

Where a text is and what can be refused: counters of 32 bits, the places and spans that
are made of them, and the faults of checked operations.
-/

namespace Survey

/-! ### Faults

The checked operations of the library fail in four ways. A fault names its
cause; `Fault.message` is the only place where its wording is written. -/

inductive Fault where
  | additionOverflow
  | subtractionOverflow
  /-- A span was asked to end before it starts; both byte offsets are kept. -/
  | reversedSpan (start stop : Nat)
  /-- A record was addressed outside a list of the given length. -/
  | indexOutOfBounds (length index : Nat)
deriving DecidableEq, Repr

def Fault.message : Fault → String
  | .additionOverflow => "attempt to add with overflow"
  | .subtractionOverflow => "attempt to subtract with overflow"
  | .reversedSpan start stop =>
      "span start " ++ toString start ++ " exceeds end " ++ toString stop
  | .indexOutOfBounds length index =>
      "index out of bounds: the len is " ++ toString length ++
        " but the index is " ++ toString index

/-! ### Counters

Lines, columns, byte offsets and lengths are counters of 32 bits. They are kept
as natural numbers; the two operations here refuse a result outside the range. -/

namespace Counter

/-- The first number that no counter can hold. -/
def limit : Nat := 4294967296

def top : Nat := limit - 1

def add (left right : Nat) : Except Fault Nat :=
  if left + right < limit then .ok (left + right) else .error .additionOverflow

def sub (left right : Nat) : Except Fault Nat :=
  if right ≤ left then .ok (left - right) else .error .subtractionOverflow

def clamp (value : Nat) : Nat := min value top

theorem add_of_lt {left right : Nat} (fits : left + right < limit) :
    add left right = .ok (left + right) := by
  simp [add, fits]

theorem sub_of_le {left right : Nat} (ordered : right ≤ left) :
    sub left right = .ok (left - right) := by
  simp [sub, ordered]

theorem clamp_of_lt {value : Nat} (fits : value < limit) : clamp value = value := by
  unfold clamp top
  omega

end Counter

/-! ### Positions

A position is a place between two characters of a text: its line and column, both
counted from one, and the number of bytes before it. Columns count characters, and
only a line feed starts a new line. -/

structure Position where
  line : Nat
  column : Nat
  offset : Nat
deriving DecidableEq, Repr

namespace Position

def start : Position := ⟨1, 1, 0⟩

instance : Inhabited Position := ⟨start⟩

def past (place : Position) (c : Char) : Position :=
  if c = '\n' then ⟨place.line + 1, 1, place.offset + c.utf8Size⟩
  else ⟨place.line, place.column + 1, place.offset + c.utf8Size⟩

def pastAll (place : Position) (text : List Char) : Position :=
  text.foldl past place

def ofText (text : List Char) : Position := start.pastAll text

def Fits (place : Position) : Prop :=
  place.line < Counter.limit ∧ place.column < Counter.limit ∧
    place.offset < Counter.limit

instance (place : Position) : Decidable place.Fits := by
  unfold Fits
  infer_instance

def checked (place : Position) : Except Fault Position :=
  if place.Fits then .ok place else .error .additionOverflow

/-- A place measured inside a piece of text, as a place of the text that the piece
was cut from; `origin` is where the piece starts there. Only the first line of the
piece is shifted to the right. The numbers are checked one after the other. -/
def rebase (place origin : Position) : Except Fault Position := do
  let column ←
    if place.line = 1 then
      Counter.add origin.column place.column >>= (Counter.sub · 1)
    else pure place.column
  let line ← Counter.add origin.line place.line >>= (Counter.sub · 1)
  let offset ← Counter.add origin.offset place.offset
  pure ⟨line, column, offset⟩

def display (place : Position) : String :=
  toString place.line ++ ":" ++ toString place.column

@[simp] theorem pastAll_nil (place : Position) : place.pastAll [] = place := rfl

@[simp] theorem pastAll_cons (place : Position) (c : Char) (rest : List Char) :
    place.pastAll (c :: rest) = (place.past c).pastAll rest := rfl

theorem pastAll_append (place : Position) (left right : List Char) :
    place.pastAll (left ++ right) = (place.pastAll left).pastAll right := by
  simp [pastAll]

@[simp] theorem past_offset (place : Position) (c : Char) :
    (place.past c).offset = place.offset + c.utf8Size := by
  unfold past
  split <;> rfl

@[simp] theorem pastAll_offset (place : Position) (text : List Char) :
    (place.pastAll text).offset = place.offset + Text.byteLength text := by
  induction text generalizing place with
  | nil => simp
  | cons c rest ih => simp [ih, Nat.add_assoc]

end Position

/-! ### Spans

An extent is a pair of places: the one before the first character of a construct and
the one after its last. A span is an extent that does not end before it starts, which
is part of the type. An extent becomes a span where it is written down. -/

structure Span where
  start : Position
  stop : Position
  ordered : start.offset ≤ stop.offset
deriving DecidableEq, Repr

namespace Span

def atStart : Span := ⟨.start, .start, Nat.le_refl _⟩

instance : Inhabited Span := ⟨atStart⟩

def between (start stop : Position) : Except Fault Span :=
  if ordered : start.offset ≤ stop.offset then .ok ⟨start, stop, ordered⟩
  else .error (.reversedSpan start.offset stop.offset)

def length (span : Span) : Nat := span.stop.offset - span.start.offset

def isEmpty (span : Span) : Bool := span.start.offset == span.stop.offset

def contains (span other : Span) : Bool :=
  span.start.offset ≤ other.start.offset && other.stop.offset ≤ span.stop.offset

def range (span : Span) : Nat × Nat := (span.start.offset, span.stop.offset)

def display (span : Span) : String := span.start.display ++ "-" ++ span.stop.display

theorem between_of_le {start stop : Position} (ordered : start.offset ≤ stop.offset) :
    between start stop = .ok ⟨start, stop, ordered⟩ := by
  simp [between, ordered]

end Span

structure Extent where
  start : Position
  stop : Position
deriving DecidableEq, Repr

namespace Extent

def atStart : Extent := ⟨.start, .start⟩

def span (extent : Extent) : Except Fault Span := Span.between extent.start extent.stop

end Extent

end Survey
