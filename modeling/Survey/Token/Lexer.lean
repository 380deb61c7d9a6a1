import Survey.Atom
import Survey.Token.Basic

set_option autoImplicit false

/-!
# Reading a token

`Token.read?` classifies what stands at the start of a text and says how many
characters belong to it. Reading never fails: an unclosed literal runs to the end
of the text and a stray character is a token of its own.
-/

namespace Survey
namespace Token

def punctuationTag (c : Char) : Tag :=
  match c with
  | '\x7b' => .openBrace
  | '\x7d' => .closeBrace
  | '(' => .openParen
  | ')' => .closeParen
  | '[' => .openBracket
  | ']' => .closeBracket
  | '<' => .less
  | '>' => .greater
  | '!' => .bang
  | '#' => .hash
  | ';' => .semicolon
  | ',' => .comma
  | ':' => .colon
  | '=' => .equal
  | '-' => .minus
  | _ => if Text.isAsciiPunctuation c then .punctuation else .unknown

/-- How many characters belong to a number of which `taken` are behind us. A point
belongs to it when a digit follows. -/
def numberLength (taken : Nat) : List Char → Nat
  | [] => taken
  | c :: rest =>
      if Text.isWordPart c || (c == '.' && rest.head?.any Text.isAsciiDigit) then
        numberLength (taken + 1) rest
      else taken

def slash (text : List Char) : Tag × Nat :=
  match Comment.length? text with
  | some length =>
      (if text.tail.head? = some '/' then .lineComment else .blockComment, length)
  | none => (.slash, 1)

/-- What a single quote starts. The text is expected to begin with one. -/
def quoted (text : List Char) : Tag × Nat :=
  match Literal.quote? text with
  | some (.lifetime, length) => (.lifetime, length)
  | some (.character, length) => (.character, length)
  | none => (.character, 0)

/-- The literal that a word may be the opening of: the words `b`, `c`, `br` and `cr`
go before strings, and `b` before a quoted character. The given text is what follows
the word; the length counts from there. -/
def literalAfter? (word text : List Char) : Option (Tag × Nat) :=
  if word = ['b'] ∨ word = ['c'] ∨ word = ['b', 'r'] ∨ word = ['c', 'r'] then
    match text with
    | '"' :: rest => some (.string, Literal.plainLength 1 rest)
    | '#' :: _ =>
        let hashes := (text.takeWhile (· == '#')).length
        if word.getLast? = some 'r' ∧ text[hashes]? = some '"' then
          some (.string,
            Literal.rawLength hashes (hashes + 1) (text.drop (hashes + 1)))
        else none
    | '\'' :: _ => if word = ['b'] then some (quoted text) else none
    | _ => none
  else none

/-- How many characters of a raw word follow its opening `r`: a number sign and the
word itself. -/
def rawWordLength (word text : List Char) : Nat :=
  match text with
  | '#' :: rest =>
      if word = ['r'] ∧ rest.head?.any Text.isWordStart then
        1 + (rest.takeWhile Text.isWordPart).length
      else 0
  | _ => 0

def wordOrLiteral (text : List Char) : Tag × Nat :=
  let length := 1 + (text.tail.takeWhile Text.isWordPart).length
  let word := text.take length
  let after := text.drop length
  match literalAfter? word after with
  | some (tag, more) => (tag, length + more)
  | none => (.word, length + rawWordLength word after)

def read? : List Char → Option (Tag × Nat)
  | [] => none
  | c :: rest =>
    some <|
      if c = '\n' then (.newline, 1)
      else if c = '/' then slash (c :: rest)
      else if c = '"' then (.string, Literal.plainLength 1 rest)
      else if c = '\'' then quoted (c :: rest)
      else if c = 'r' ∧ (Literal.rawHashes? (c :: rest)).isSome then
        (.string, (Literal.stringLength? (c :: rest)).getD 1)
      else if Text.isWordStart c then wordOrLiteral (c :: rest)
      else if Text.isAsciiDigit c then (.number, numberLength 1 rest)
      else if Text.isBlank c then
        (.blank, 1 + (rest.takeWhile fun c => c != '\n' && Text.isBlank c).length)
      else (punctuationTag c, 1)

theorem le_numberLength (taken : Nat) (text : List Char) :
    taken ≤ numberLength taken text := by
  fun_induction numberLength taken text <;> omega

private theorem slash_pos (text : List Char) : 0 < (slash text).2 := by
  unfold slash
  split
  · exact Comment.length?_pos ‹_›
  · exact Nat.one_pos

private theorem quoted_pos (rest : List Char) : 0 < (quoted ('\'' :: rest)).2 := by
  unfold quoted
  split
  · exact Literal.quote?_pos ‹_›
  · exact Literal.quote?_pos ‹_›
  · rename_i missing
    unfold Literal.quote? at missing
    split at missing
    · cases missing
    · split at missing
      · split at missing <;> cases missing
      · cases missing
    · rename_i _ other
      exact absurd rfl (other rest)

private theorem wordOrLiteral_pos (text : List Char) : 0 < (wordOrLiteral text).2 := by
  unfold wordOrLiteral
  dsimp only
  split <;> dsimp only <;> omega

theorem read?_pos {text : List Char} {tag : Tag} {length : Nat}
    (found : read? text = some (tag, length)) : 0 < length ∧ text ≠ [] := by
  cases text with
  | nil => cases found
  | cons c rest =>
      refine ⟨?_, List.cons_ne_nil c rest⟩
      rw [read?, Option.some.injEq] at found
      rw [show length = (tag, length).2 from rfl, ← found]
      split
      · exact Nat.one_pos
      · split
        · exact slash_pos _
        · split
          · exact Nat.lt_of_lt_of_le Nat.one_pos (Literal.le_plainLength 1 rest)
          · split
            · rename_i isQuote
              rw [isQuote]
              exact quoted_pos rest
            · split
              · cases measured : Literal.stringLength? (c :: rest) with
                | none => exact Nat.one_pos
                | some raw => exact Literal.stringLength?_pos measured
              · split
                · exact wordOrLiteral_pos _
                · split
                  · exact Nat.lt_of_lt_of_le Nat.one_pos (le_numberLength 1 rest)
                  · split <;> dsimp only <;> omega

theorem read?_eq_none_iff (text : List Char) : read? text = none ↔ text = [] := by
  cases text <;> simp [read?]

theorem length_drop_lt {text : List Char} {tag : Tag} {length : Nat}
    (found : read? text = some (tag, length)) :
    (text.drop length).length < text.length := by
  obtain ⟨positive, nonempty⟩ := read?_pos found
  have filled := List.length_pos_iff.mpr nonempty
  rw [List.length_drop]
  omega

end Token
end Survey
