import Survey.Text.Bytes

set_option autoImplicit false

/-!
# Comments, literals and atoms

Lengths of what stands at the start of a text, as numbers of characters. Comments and
literals hide the delimiters inside them, which is what atoms are for.
-/

namespace Survey

/-! ### Comments

A line comment runs to the end of its line and leaves the line feed. A block
comment runs to the closer that matches its opener; comments inside it nest. One
that is never closed runs to the end of the text. -/

namespace Comment

/-- How many characters belong to a block comment of which `taken` are behind us,
when `outer` other comments enclose the innermost one that is open. -/
def blockLength (outer taken : Nat) : List Char → Nat
  | '/' :: '*' :: rest => blockLength (outer + 1) (taken + 2) rest
  | '*' :: '/' :: rest =>
      match outer with
      | 0 => taken + 2
      | outer + 1 => blockLength outer (taken + 2) rest
  | _ :: rest => blockLength outer (taken + 1) rest
  | [] => taken

def length? : List Char → Option Nat
  | '/' :: '/' :: rest => some (Text.lineLength ('/' :: '/' :: rest))
  | '/' :: '*' :: rest => some (blockLength 0 2 rest)
  | _ => none

theorem le_blockLength (outer taken : Nat) (text : List Char) :
    taken ≤ blockLength outer taken text := by
  fun_induction blockLength outer taken text <;> omega

private theorem charsWithin_go_ge (bytes counted : Nat) (text : List Char) :
    counted ≤ Text.charsWithin.go bytes counted text := by
  induction text generalizing bytes counted with
  | nil => exact Nat.le_refl _
  | cons c rest ih =>
      unfold Text.charsWithin.go
      split
      · exact Nat.le_trans (Nat.le_succ _) (ih _ _)
      · exact Nat.le_refl _

private theorem newlineOffset_go_ge (passed : Nat) (text : List Char) :
    passed ≤ Text.newlineOffset.go passed text := by
  induction text generalizing passed with
  | nil => exact Nat.le_refl _
  | cons c rest ih =>
      unfold Text.newlineOffset.go
      split
      · exact Nat.le_add_right _ _
      · exact Nat.le_trans (Nat.le_add_right _ _) (ih _)

theorem lineLength_slash_pos (rest : List Char) :
    0 < Text.lineLength ('/' :: rest) := by
  have encoded : (String.utf8EncodeChar '/').findIdx? (· == 0x0A) = none := by decide
  have reach : 1 ≤ Text.newlineOffset ('/' :: rest) := by
    unfold Text.newlineOffset Text.newlineOffset.go
    rw [encoded]
    exact newlineOffset_go_ge 1 rest
  have size : ('/' : Char).utf8Size = 1 := by decide
  unfold Text.lineLength Text.charsWithin Text.charsWithin.go
  rw [size, if_pos reach]
  exact charsWithin_go_ge _ 1 rest

theorem length?_pos {text : List Char} {length : Nat} (found : length? text = some length) :
    0 < length := by
  unfold length? at found
  split at found
  · cases found
    exact lineLength_slash_pos _
  · cases found
    exact Nat.lt_of_lt_of_le (by decide) (le_blockLength 0 2 _)
  · cases found

theorem length?_nil : length? [] = none := rfl

end Comment

/-! ### Literals

The literals whose content must never be read as structure: plain and raw strings,
characters and lifetimes. All lengths are numbers of characters. A literal that is
never closed runs to the end of the text. -/

namespace Literal

def rawHashes? : List Char → Option Nat
  | 'r' :: rest =>
      let hashes := (rest.takeWhile (· == '#')).length
      if rest[hashes]? = some '"' then some hashes else none
  | _ => none

/-- How many characters belong to a raw string of which `taken` are behind us. It
ends at a quote followed by as many number signs as opened it. -/
def rawLength (hashes taken : Nat) : List Char → Nat
  | [] => taken
  | c :: rest =>
      if c = '"' ∧ rest.take hashes = List.replicate hashes '#' then taken + 1 + hashes
      else rawLength hashes (taken + 1) rest

/-- How many characters belong to a plain string of which `taken` are behind us. A
backslash takes the character after it along. -/
def plainLength (taken : Nat) : List Char → Nat
  | '\\' :: _ :: rest => plainLength (taken + 2) rest
  | '"' :: _ => taken + 1
  | _ :: rest => plainLength (taken + 1) rest
  | [] => taken

def stringLength? (text : List Char) : Option Nat :=
  match rawHashes? text with
  | some hashes => some (rawLength hashes (hashes + 2) (text.drop (hashes + 2)))
  | none =>
    match text with
    | '"' :: rest => some (plainLength 1 rest)
    | _ => none

inductive Quote where
  | character
  | lifetime
deriving DecidableEq, Repr

/-- How many characters a quoted escape has, given the text after its quote and
backslash. The closing quote must stand on the same line. -/
def escapeLength : List Char → Nat
  | [] => 2
  | _ :: rest =>
      let inner := (rest.takeWhile fun c => c != '\'' && c != '\n').length
      3 + inner + if rest[inner]? = some '\'' then 1 else 0

/-- What the quote at the start of the text introduces and how many characters
that has. A quoted character is neither a line feed nor a zero character; without
a closing quote in its place, the quote starts a lifetime. -/
def quote? : List Char → Option (Quote × Nat)
  | '\'' :: '\\' :: rest => some (.character, escapeLength rest)
  | '\'' :: rest =>
      match rest with
      | c :: '\'' :: _ =>
          if c ≠ '\n' ∧ c ≠ '\x00' then some (.character, 3)
          else some (.lifetime, 1)
      | _ => some (.lifetime, 1 + (rest.takeWhile Text.isWordPart).length)
  | _ => none

theorem le_rawLength (hashes taken : Nat) (text : List Char) :
    taken ≤ rawLength hashes taken text := by
  fun_induction rawLength hashes taken text <;> omega

theorem le_plainLength (taken : Nat) (text : List Char) :
    taken ≤ plainLength taken text := by
  fun_induction plainLength taken text <;> omega

theorem stringLength?_pos {text : List Char} {length : Nat}
    (found : stringLength? text = some length) : 0 < length := by
  unfold stringLength? at found
  split at found
  · cases found
    exact Nat.lt_of_lt_of_le (Nat.succ_pos _) (le_rawLength _ _ _)
  · split at found
    · cases found
      exact Nat.lt_of_lt_of_le (by decide) (le_plainLength 1 _)
    · cases found

theorem escapeLength_pos (text : List Char) : 0 < escapeLength text := by
  unfold escapeLength
  split
  · decide
  · dsimp only
    omega

theorem quote?_pos {text : List Char} {quote : Quote} {length : Nat}
    (found : quote? text = some (quote, length)) : 0 < length := by
  unfold quote? at found
  split at found
  · cases found
    exact escapeLength_pos _
  · split at found
    · split at found <;> cases found <;> decide
    · cases found
      omega
  · cases found

end Literal

/-! ### Blanks and trivia

Blank characters and comments stand between the parts of a declaration and mean
nothing there. -/

namespace Trivia

def blankLength (text : List Char) : Nat := (text.takeWhile Text.isBlank).length

private theorem afterComment_lt {text : List Char} {blanks length : Nat}
    (found : Comment.length? (text.drop blanks) = some length) :
    (text.drop (blanks + length)).length < text.length := by
  have positive := Comment.length?_pos found
  have filled : text ≠ [] := by
    intro empty
    rw [empty, List.drop_nil, Comment.length?_nil] at found
    cases found
  have remaining := List.length_pos_iff.mpr filled
  rw [List.length_drop]
  omega

def length (text : List Char) : Nat :=
  match _found : Comment.length? (text.drop (blankLength text)) with
  | none => blankLength text
  | some comment =>
      blankLength text + comment + length (text.drop (blankLength text + comment))
termination_by text.length
decreasing_by exact afterComment_lt _found

theorem length_eq (text : List Char) :
    length text =
      match Comment.length? (text.drop (blankLength text)) with
      | none => blankLength text
      | some comment =>
          blankLength text + comment +
            length (text.drop (blankLength text + comment)) := by
  rw [length]
  split <;> simp [*]

end Trivia

/-! ### Atoms

Whoever counts delimiters reads the text atom by atom: a comment or a literal is
one atom, and every other character is one of its own. A delimiter inside a comment
or a literal is therefore never seen. -/

/-- The smallest unit of a text for which delimiters count. -/
inductive Atom where
  | comment
  /-- A string, a character or a lifetime, as it is written. -/
  | literal (text : List Char)
  | char (c : Char)
deriving DecidableEq, Repr

namespace Atom

def read? : List Char → Option (Atom × Nat)
  | [] => none
  | c :: rest =>
    match Comment.length? (c :: rest) with
    | some length => some (.comment, length)
    | none =>
      match Literal.stringLength? (c :: rest) with
      | some length => some (.literal ((c :: rest).take length), length)
      | none =>
        match Literal.quote? (c :: rest) with
        | some (_, length) => some (.literal ((c :: rest).take length), length)
        | none => some (.char c, 1)

theorem read?_pos {text : List Char} {atom : Atom} {length : Nat}
    (found : read? text = some (atom, length)) : 0 < length ∧ text ≠ [] := by
  cases text with
  | nil => cases found
  | cons c rest =>
      refine ⟨?_, List.cons_ne_nil c rest⟩
      rw [read?] at found
      split at found
      · rename_i commented
        cases found
        exact Comment.length?_pos commented
      · split at found
        · rename_i quoted
          cases found
          exact Literal.stringLength?_pos quoted
        · split at found
          · rename_i quoted
            cases found
            exact Literal.quote?_pos quoted
          · cases found
            decide

theorem read?_eq_none_iff (text : List Char) : read? text = none ↔ text = [] := by
  cases text with
  | nil => simp [read?]
  | cons c rest =>
      rw [read?]
      split
      · simp
      · split
        · simp
        · split <;> simp

theorem length_drop_lt {text : List Char} {atom : Atom} {length : Nat}
    (found : read? text = some (atom, length)) :
    (text.drop length).length < text.length := by
  obtain ⟨positive, nonempty⟩ := read?_pos found
  have filled := List.length_pos_iff.mpr nonempty
  rw [List.length_drop]
  omega

theorem length_drop_add_lt {text : List Char} {atom : Atom} {length : Nat}
    (found : read? text = some (atom, length)) (more : Nat) :
    (text.drop (length + more)).length < text.length := by
  have shorter := length_drop_lt found
  simp only [List.length_drop] at shorter ⊢
  omega

end Atom

end Survey
