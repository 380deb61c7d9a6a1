import Survey.Finding.Basic

set_option autoImplicit false

/-!
# Items

The readers of tests, enumerations, structs, traits and implementations, each right after
the keyword or the mark that announces it.
-/

namespace Survey

/-! ### Tests

A test is the function that follows a mark. Between the two there may be further
attributes, qualifiers and their arguments. -/

namespace Finding

/-- The name of a function, if there is one, and how many characters were read in
search of it. -/
structure NameSearch where
  name? : Option (List Char)
  length : Nat
deriving DecidableEq, Repr

/-- How many characters belong to a token that may stand between a mark and its
function, counted from behind the token; none if it may not stand there. -/
def qualifierLength? (token : Token) (cursor : Cursor) : Option Nat :=
  if token.tag = .hash then some (Attribute.skipLength cursor.rest)
  else if token.tag = .openParen then some (Delimiter.paren.closeLength cursor.rest)
  else if token.tag = .string then some 0
  else if token.tag = .word ∧ token.keyword? ≠ some .function then some 0
  else none

def nameAfterKeyword (cursor : Cursor) : NameSearch :=
  match cursor.significant? with
  | none => ⟨none, cursor.rest.length⟩
  | some (token, length) => ⟨if token.tag = .word then some token.lexeme else none, length⟩

def markedName (cursor : Cursor) : NameSearch :=
  match _next : cursor.significant? with
  | none => ⟨none, cursor.rest.length⟩
  | some (token, length) =>
    match qualifierLength? token (cursor.skip length) with
    | some more =>
        let later := markedName (cursor.skip (length + more))
        ⟨later.name?, length + more + later.length⟩
    | none =>
        if token.keyword? = some .function then
          let name := nameAfterKeyword (cursor.skip length)
          ⟨name.name?, length + name.length⟩
        else ⟨none, length⟩
termination_by cursor.rest.length
decreasing_by exact Cursor.length_skip_add_lt _next _

theorem markedName_eq (cursor : Cursor) :
    markedName cursor =
      match cursor.significant? with
      | none => ⟨none, cursor.rest.length⟩
      | some (token, length) =>
        match qualifierLength? token (cursor.skip length) with
        | some more =>
            let later := markedName (cursor.skip (length + more))
            ⟨later.name?, length + more + later.length⟩
        | none =>
            if token.keyword? = some .function then
              let name := nameAfterKeyword (cursor.skip length)
              ⟨name.name?, length + name.length⟩
            else ⟨none, length⟩ := by
  rw [markedName]
  split <;> simp [*]

/-- Read a test after its mark, which starts at the given place. What has been read
of something else stays read. -/
def afterTestMark (start : Position) (cursor : Cursor) : Visit :=
  match markedName cursor with
  | ⟨none, read⟩ => .skipped read
  | ⟨some name, read⟩ =>
      let behind := cursor.skip read
      let head := Head.read signatureGroups behind.rest
      let length := head.fullLength behind.rest
      let body := (behind.skip head.length).window (length - head.length)
      ⟨unsafeIn body ++
        [.test (String.ofList name) ⟨start, (behind.skip length).place⟩], read + length⟩

end Finding

/-! ### Enumerations

The body of an enumeration is cut into variants at its commas. Payloads are kept as
they are written; comments and attributes are left out. -/

structure VariantList where
  variants : List (List Char)
  length : Nat
  isClosed : Bool
deriving DecidableEq, Repr

namespace VariantList

/-- Note a variant, given backwards, behind those noted before, the latest of which
comes first. Blank variants are not noted. -/
def note (variant : List Char) (noted : List (List Char)) : List (List Char) :=
  let written := Text.trim variant.reverse
  if written.isEmpty then noted else written :: noted

/-- Go on reading a body of which `taken` characters are behind us. The variant in
progress is given backwards, the noted ones with the latest first. -/
def readFrom (variant : List Char) (noted : List (List Char)) (taken : Nat)
    (text : List Char) : VariantList :=
  match _found : Atom.read? text with
  | none => ⟨(note variant noted).reverse, taken, false⟩
  | some (.comment, length) => readFrom variant noted (taken + length) (text.drop length)
  | some (.literal written, length) =>
      readFrom (written.reverse ++ variant) noted (taken + length) (text.drop length)
  | some (.char c, length) =>
      if c = '\x7d' then ⟨(note variant noted).reverse, taken + length, true⟩
      else if c = ',' then
        readFrom [] (note variant noted) (taken + length) (text.drop length)
      else if c = '#' then
        let skipped := Attribute.skipLength (text.drop length)
        readFrom variant noted (taken + (length + skipped)) (text.drop (length + skipped))
      else
        match Delimiter.groupAfter? [.brace, .paren] c (text.drop length) with
        | some group =>
            readFrom (((text.drop length).take group).reverse ++ c :: variant) noted
              (taken + (length + group)) (text.drop (length + group))
        | none => readFrom (c :: variant) noted (taken + length) (text.drop length)
termination_by text.length
decreasing_by
  all_goals first
    | exact Atom.length_drop_lt _found
    | exact Atom.length_drop_add_lt _found _

theorem readFrom_eq (variant : List Char) (noted : List (List Char)) (taken : Nat)
    (text : List Char) :
    readFrom variant noted taken text =
      match Atom.read? text with
      | none => ⟨(note variant noted).reverse, taken, false⟩
      | some (.comment, length) =>
          readFrom variant noted (taken + length) (text.drop length)
      | some (.literal written, length) =>
          readFrom (written.reverse ++ variant) noted (taken + length) (text.drop length)
      | some (.char c, length) =>
          if c = '\x7d' then ⟨(note variant noted).reverse, taken + length, true⟩
          else if c = ',' then
            readFrom [] (note variant noted) (taken + length) (text.drop length)
          else if c = '#' then
            let skipped := Attribute.skipLength (text.drop length)
            readFrom variant noted (taken + (length + skipped))
              (text.drop (length + skipped))
          else
            match Delimiter.groupAfter? [.brace, .paren] c (text.drop length) with
            | some group =>
                readFrom (((text.drop length).take group).reverse ++ c :: variant) noted
                  (taken + (length + group)) (text.drop (length + group))
            | none => readFrom (c :: variant) noted (taken + length) (text.drop length) := by
  rw [readFrom]
  split <;> simp [*]

def read (text : List Char) : VariantList := readFrom [] [] 0 text

end VariantList

namespace Finding

/-- Read an enumeration after its keyword, which starts at the given place. Without
a name, its body is left to others. -/
def afterEnum (start : Position) (cursor : Cursor) : Visit :=
  let head := Head.read [.angle] cursor.rest
  let name := Signature.leadingName head.kept
  if name.isEmpty then .skipped head.length
  else
    let body :=
      if head.ending = .brace then VariantList.read (cursor.rest.drop head.length)
      else ⟨[], 0, true⟩
    let length := head.length + body.length
    let notice := if body.isClosed then [] else [.enumAtEnd (String.ofList name)]
    ⟨notice ++
      [.enum (String.ofList name) (body.variants.map String.ofList)
        ⟨start, (cursor.skip length).place⟩], length⟩

/-! ### Structs, traits and implementations

The bodies of traits and implementations are read item by item. Only functions are
found there; nested groups, attributes and macro bodies are stepped over. -/

def afterStruct (start : Position) (cursor : Cursor) : Visit :=
  let head := Head.read [.paren, .angle] cursor.rest
  let name := Signature.leadingName head.kept
  let length := head.fullLength cursor.rest
  ⟨if name.isEmpty then []
    else [.struct (String.ofList name) ⟨start, (cursor.skip length).place⟩], length⟩

def amongItems (owner : Owner) (token : Token) (cursor : Cursor) : Visit :=
  match token.tag with
  | .openBrace => .skipped (Delimiter.brace.closeLength cursor.rest)
  | .bang => .skipped (macroLength false cursor.rest)
  | .hash => .skipped (Attribute.skipLength cursor.rest)
  | _ =>
      if token.keyword? = some .function then afterFunction owner token.start cursor
      else .skipped 0

def items (owner : Owner) (cursor : Cursor) : Visit :=
  match _next : cursor.significant? with
  | none => .skipped cursor.rest.length
  | some (token, length) =>
    if token.tag = .closeBrace then .skipped length
    else
      let first := amongItems owner token (cursor.skip length)
      let later := items owner (cursor.skip (length + first.length))
      ⟨first.found ++ later.found, length + first.length + later.length⟩
termination_by cursor.rest.length
decreasing_by exact Cursor.length_skip_add_lt _next _

theorem items_of_none {cursor : Cursor} (atEnd : cursor.significant? = none)
    (owner : Owner) : items owner cursor = .skipped cursor.rest.length := by
  rw [items]
  split
  · rfl
  · simp_all

theorem items_of_close {cursor : Cursor} {token : Token} {length : Nat}
    (next : cursor.significant? = some (token, length)) (closes : token.tag = .closeBrace)
    (owner : Owner) : items owner cursor = .skipped length := by
  rw [items]
  split
  · simp_all
  · rename_i token' length' next'
    obtain ⟨rfl, rfl⟩ : token = token' ∧ length = length' := by simp_all
    rw [if_pos closes]

theorem items_of_some {cursor : Cursor} {token : Token} {length : Nat}
    (next : cursor.significant? = some (token, length)) (goesOn : token.tag ≠ .closeBrace)
    (owner : Owner) :
    items owner cursor =
      let first := amongItems owner token (cursor.skip length)
      let later := items owner (cursor.skip (length + first.length))
      ⟨first.found ++ later.found, length + first.length + later.length⟩ := by
  rw [items]
  split
  · simp_all
  · rename_i token' length' next'
    obtain ⟨rfl, rfl⟩ : token = token' ∧ length = length' := by simp_all
    rw [if_neg goesOn]

/-- Read a trait after its keyword, which starts at the given place. Its body is read
apart from what follows. -/
def afterTrait (start : Position) (cursor : Cursor) : Visit :=
  let head := Head.read [.angle, .paren] cursor.rest
  let name := String.ofList (Signature.leadingName head.kept)
  let length := head.fullLength cursor.rest
  if name.isEmpty then .skipped length
  else
    let declaration := Finding.trait name ⟨start, (cursor.skip length).place⟩
    match head.bodyLength? cursor.rest with
    | none => ⟨[declaration], length⟩
    | some bodyLength =>
        let body := (cursor.skip head.length).window bodyLength
        let inside := (items ⟨none, some name⟩ body).found
        ⟨declaration :: inside ++
          [.traitBody name start.line (inside.countP isFunction)], length⟩

/-- Read an implementation after its keyword, which starts at the given place. One
without a body mentions nothing. -/
def afterImplementation (start : Position) (cursor : Cursor) : Visit :=
  let head := Head.read signatureGroups cursor.rest
  match head.ending with
  | .endOfText => ⟨[.implementationAtEnd start.line], head.length⟩
  | .semicolon => .skipped head.length
  | .brace =>
    match Signature.target? (head.signature cursor.rest) with
    | none => ⟨[.targetUnresolved start.line], head.fullLength cursor.rest⟩
    | some resolved =>
        let name := String.ofList resolved.typeName
        let trait? := resolved.traitName?.map String.ofList
        let inside := items ⟨some name, trait?⟩ (cursor.skip head.length)
        ⟨.target name trait? :: inside.found ++
          [.implementationBody name start.line (inside.found.countP isFunction)],
          head.length + inside.length⟩

end Finding

end Survey
