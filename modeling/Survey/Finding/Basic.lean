import Survey.Cursor.Basic
import Survey.Inventory.Basic

set_option autoImplicit false

/-!
# Findings

What a survey comes across, and the two readers that all others use: that of unsafe
blocks and that of functions.
-/

namespace Survey

/-! ### Findings

A survey reads a text once and reports what it comes across, in order, as findings.
Some of them become records of the inventory, some only entries of the log, most
both. Places are places of the whole file, wherever a finding was made. -/

inductive Finding where
  | unsafeBlock (extent : Extent)
  /-- The text ends where an unsafe mark wants a block. -/
  | unsafeAtEnd
  /-- A function, with the number of unsafe blocks in its body. -/
  | function (draft : FunctionDraft) (blocks : Nat)
  /-- The text ends inside the signature of the function that starts on the line. -/
  | signatureAtEnd (line : Nat)
  | struct (name : String) (extent : Extent)
  | enumAtEnd (name : String)
  | enum (name : String) (variants : List String) (extent : Extent)
  | trait (name : String) (extent : Extent)
  /-- The body of a trait that starts on the line has been read. -/
  | traitBody (name : String) (line functions : Nat)
  /-- The text ends before the body of the implementation that starts on the line. -/
  | implementationAtEnd (line : Nat)
  /-- An implementation whose type has no name. -/
  | targetUnresolved (line : Nat)
  /-- An implementation mentions its type and its trait. -/
  | target (typeName : String) (traitName? : Option String)
  | implementationBody (typeName : String) (line methods : Nat)
  | test (name : String) (extent : Extent)
  | testModule (line : Nat)
deriving DecidableEq, Repr

namespace Finding

def isUnsafeBlock : Finding → Bool
  | .unsafeBlock _ => true
  | _ => false

def isFunction : Finding → Bool
  | .function _ _ => true
  | _ => false

end Finding

/-- What was found behind a cursor, and how many characters were read to find it. -/
structure Visit where
  found : List Finding
  length : Nat
deriving DecidableEq, Repr

def Visit.skipped (length : Nat) : Visit := ⟨[], length⟩

/-! ### Unsafe blocks

A block is found after an unsafe mark when nothing but trivia stands before its
brace. Bodies of functions are read token by token for such marks; attributes are
stepped over, and so is the inside of a block that has been found. -/

namespace Finding

/-- Look for a block after an unsafe mark. A mark that belongs to something else
leaves the text after it to others. -/
def afterUnsafe (cursor : Cursor) : Visit :=
  let trivia := Trivia.length cursor.rest
  match cursor.rest.drop trivia with
  | [] => ⟨[.unsafeAtEnd], 0⟩
  | c :: inner =>
      if c = '\x7b' then
        let length := trivia + 1 + Delimiter.brace.closeLength inner
        ⟨[.unsafeBlock ⟨(cursor.skip trivia).place, (cursor.skip length).place⟩], length⟩
      else .skipped 0

def inBody (token : Token) (cursor : Cursor) : Visit :=
  if token.tag = .hash then .skipped (Attribute.skipLength cursor.rest)
  else if token.keyword? = some .unsafeMark then afterUnsafe cursor
  else .skipped 0

def unsafeIn (cursor : Cursor) : List Finding :=
  match _next : cursor.significant? with
  | none => []
  | some (token, length) =>
    match inBody token (cursor.skip length) with
    | ⟨[], more⟩ => unsafeIn (cursor.skip (length + more))
    | ⟨found, more⟩ => found ++ unsafeIn (cursor.skip (length + more))
termination_by cursor.rest.length
decreasing_by all_goals exact Cursor.length_skip_add_lt _next _

theorem unsafeIn_of_none {cursor : Cursor} (atEnd : cursor.significant? = none) :
    unsafeIn cursor = [] := by
  rw [unsafeIn]
  split
  · rfl
  · simp_all

theorem unsafeIn_of_some {cursor : Cursor} {token : Token} {length : Nat}
    (next : cursor.significant? = some (token, length)) :
    unsafeIn cursor =
      (inBody token (cursor.skip length)).found ++
        unsafeIn (cursor.skip (length + (inBody token (cursor.skip length)).length)) := by
  rw [unsafeIn]
  split
  · simp_all
  · rename_i token' length' next'
    obtain ⟨rfl, rfl⟩ : token = token' ∧ length = length' := by simp_all
    cases visit : inBody token (cursor.skip length) with
    | mk found more => cases found <;> simp

/-! ### Functions

A function is read right after its keyword: the head up to its body, then the body
as one group. The body is read again for unsafe blocks. -/

def signatureGroups : List Delimiter := [.angle, .paren, .bracket]

/-- Does a parenthesis follow the keyword, as in the type of a function pointer? -/
def isPointerType (text : List Char) : Bool :=
  (text.drop (Trivia.blankLength text)).head? == some '('

/-- The findings of a function whose signature has been taken apart: first what its
body holds, then the function itself. -/
def ofFunction (owner : Owner) (extent : Extent) (parts : Signature.FunctionParts)
    (inside : List Finding) : List Finding :=
  inside ++
    [.function
      ⟨String.ofList parts.name, parts.parameters.map String.ofList,
        String.ofList parts.result, extent, owner⟩
      (inside.countP isUnsafeBlock)]

/-- Read a function after its keyword, which starts at the given place. A function
without a name is stepped over. -/
def afterFunction (owner : Owner) (start : Position) (cursor : Cursor) : Visit :=
  if isPointerType cursor.rest then .skipped 0
  else
    let head := Head.read signatureGroups cursor.rest
    let parts := Signature.functionParts (head.signature cursor.rest)
    let length := head.fullLength cursor.rest
    let notice := if head.ending = .endOfText then [.signatureAtEnd start.line] else []
    let function :=
      if parts.name.isEmpty then []
      else
        let body := (cursor.skip head.length).window (length - head.length)
        ofFunction owner ⟨start, (cursor.skip length).place⟩ parts (unsafeIn body)
    ⟨notice ++ function, length⟩

end Finding

end Survey
