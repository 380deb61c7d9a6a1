import Survey.Text.Characters

set_option autoImplicit false

/-!
# Texts by bytes and by characters

Texts are walked by characters, while offsets and lengths count the bytes of their UTF-8
form. Trimming goes by white space alone.
-/

namespace Survey

/-! ### Bytes

Offsets and lengths are measured in the bytes of the UTF-8 form of a text, while
texts are walked by characters. This module converts between the two. -/

namespace Text

def byteLength (text : List Char) : Nat :=
  text.foldl (fun total c => total + c.utf8Size) 0

/-- How many characters lie before the given byte offset, if a character ends or
starts there. -/
def charsBefore? (offset : Nat) (text : List Char) : Option Nat :=
  go offset 0 text
where
  go (offset taken : Nat) : List Char → Option Nat
    | [] => if offset = 0 then some taken else none
    | c :: rest =>
        if offset = 0 then some taken
        else if c.utf8Size ≤ offset then go (offset - c.utf8Size) (taken + 1) rest
        else none

/-- The characters between two byte offsets. There are none if the offsets are
reversed, lie outside the text, or cut a character. -/
def slice (text : List Char) (start stop : Nat) : List Char :=
  match charsBefore? start text, charsBefore? stop text with
  | some first, some last => (text.drop first).take (last - first)
  | _, _ => []

def newlineOffset (text : List Char) : Nat :=
  go 0 text
where
  go (passed : Nat) : List Char → Nat
    | [] => passed
    | c :: rest =>
        match (String.utf8EncodeChar c).findIdx? (· == 0x0A) with
        | some index => passed + index
        | none => go (passed + c.utf8Size) rest

/-- How many characters lie wholly within the first bytes of the text. -/
def charsWithin (bytes : Nat) (text : List Char) : Nat :=
  go bytes 0 text
where
  go (bytes counted : Nat) : List Char → Nat
    | [] => counted
    | c :: rest =>
        if c.utf8Size ≤ bytes then go (bytes - c.utf8Size) (counted + 1) rest
        else counted

/-- How many characters the current line has left, its line feed not counted. The
line feed is looked for among the bytes; the characters before it are counted
afterwards. -/
def lineLength (text : List Char) : Nat := charsWithin (newlineOffset text) text

private theorem foldl_utf8Size (text : List Char) (total : Nat) :
    text.foldl (fun total c => total + c.utf8Size) total =
      total + byteLength text := by
  induction text generalizing total with
  | nil => simp [byteLength]
  | cons c rest ih =>
      simp only [byteLength, List.foldl_cons]
      rw [ih, ih (0 + c.utf8Size)]
      omega

@[simp] theorem byteLength_nil : byteLength [] = 0 := rfl

@[simp] theorem byteLength_cons (c : Char) (rest : List Char) :
    byteLength (c :: rest) = c.utf8Size + byteLength rest := by
  rw [byteLength, List.foldl_cons, foldl_utf8Size]
  omega

@[simp] theorem byteLength_append (left right : List Char) :
    byteLength (left ++ right) = byteLength left + byteLength right := by
  induction left with
  | nil => simp
  | cons c rest ih => simp [ih, Nat.add_assoc]

/-! ### Trimming

Texts lose white space at one end or at both. Characters inside stay as they are. -/

def trimStart (text : List Char) : List Char := text.dropWhile isWhiteSpace

def trimEnd (text : List Char) : List Char :=
  (text.reverse.dropWhile isWhiteSpace).reverse

def trim (text : List Char) : List Char := trimEnd (trimStart text)

def withoutWhiteSpace (text : List Char) : List Char :=
  text.filter fun c => !isWhiteSpace c

theorem trimStart_isSuffix (text : List Char) : trimStart text <:+ text :=
  List.dropWhile_suffix isWhiteSpace

theorem trimEnd_isPrefix (text : List Char) : trimEnd text <+: text := by
  have ending := List.dropWhile_suffix (l := text.reverse) isWhiteSpace
  simpa [trimEnd] using List.reverse_prefix.mpr ending

end Text

end Survey
