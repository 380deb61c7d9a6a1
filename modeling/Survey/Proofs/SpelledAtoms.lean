import Survey.Proofs.PrefixedStrings

set_option autoImplicit false

/-!
# Literals and comments as they are written

A literal or a comment that is written down with everything that closes it is one atom,
whatever stands behind it. How each form is written is said without its reader: the body of a
plain string is made of characters and of pairs with a backslash, a raw string holds no quote
with all its number signs, and a block comment is read into openers, closers and other
characters, and has as many closers as openers at its end for the first time.
-/

namespace Survey

namespace Comment

/-- What a block comment is read into. -/
inductive Mark where
  | opener
  | closer
  | other (c : Char)
deriving DecidableEq, Repr

/-- The marks of a text, from left to right. -/
def marks : List Char → List Mark
  | '/' :: '*' :: rest => .opener :: marks rest
  | '*' :: '/' :: rest => .closer :: marks rest
  | c :: rest => .other c :: marks rest
  | [] => []

/-- The text starts with an opener, and its closers balance its openers for the first time at
its end. -/
structure IsBlock (text : List Char) : Prop where
  opens : ['/', '*'] <+: text
  balanced : (marks text).count .opener = (marks text).count .closer
  first : ∀ read < (marks text).length, 0 < read →
    ((marks text).take read).count .opener ≠ ((marks text).take read).count .closer

/-- The text is a comment if this is what follows it: a line comment ends with its line. -/
inductive IsWhole (rest : List Char) : List Char → Prop
  | line {body : List Char} (onLine : '\n' ∉ body)
      (ends : ∀ c, rest.head? = some c → c = '\n') : IsWhole rest ('/' :: '/' :: body)
  | block {text : List Char} (block : IsBlock text) : IsWhole rest text

theorem blockLength_other {c d : Char} (notOpener : ¬ (c = '/' ∧ d = '*'))
    (notCloser : ¬ (c = '*' ∧ d = '/')) (outer taken : Nat) (rest : List Char) :
    blockLength outer taken (c :: d :: rest) = blockLength outer (taken + 1) (d :: rest) := by
  conv => lhs; unfold blockLength
  split
  · rename_i split
    cases split
    exact absurd ⟨rfl, rfl⟩ notOpener
  · rename_i split
    cases split
    exact absurd ⟨rfl, rfl⟩ notCloser
  · rename_i split
    cases split
    rfl
  · rename_i nothing
    cases nothing

/-- The closers outnumber the openers by so many for the first time at the end. -/
structure Outnumbers (many : Nat) (read : List Mark) : Prop where
  whole : read.count .closer = read.count .opener + many
  first : ∀ part < read.length,
    (read.take part).count .closer ≠ (read.take part).count .opener + many

namespace Outnumbers

variable {many : Nat} {read : List Mark}

theorem eq_nil (outnumbers : Outnumbers 0 read) : read = [] := by
  by_contra filled
  exact outnumbers.first 0 (List.length_pos_iff.mpr filled) rfl

theorem behind_opener (outnumbers : Outnumbers many (.opener :: read)) :
    Outnumbers (many + 1) read := by
  obtain ⟨whole, first⟩ := outnumbers
  constructor
  · simp only [List.count_cons_self, List.count_cons_of_ne (show Mark.opener ≠ .closer by decide)]
      at whole
    omega
  · intro part inside
    have later := first (part + 1) (Nat.succ_lt_succ inside)
    simp only [List.take_succ_cons, List.count_cons_self,
      List.count_cons_of_ne (show Mark.opener ≠ .closer by decide)] at later
    omega

theorem behind_closer (outnumbers : Outnumbers (many + 1) (.closer :: read)) :
    Outnumbers many read := by
  obtain ⟨whole, first⟩ := outnumbers
  constructor
  · simp only [List.count_cons_self, List.count_cons_of_ne (show Mark.closer ≠ .opener by decide)]
      at whole
    omega
  · intro part inside
    have later := first (part + 1) (Nat.succ_lt_succ inside)
    simp only [List.take_succ_cons, List.count_cons_self,
      List.count_cons_of_ne (show Mark.closer ≠ .opener by decide)] at later
    omega

theorem behind_other {c : Char} (outnumbers : Outnumbers many (.other c :: read)) :
    Outnumbers many read := by
  obtain ⟨whole, first⟩ := outnumbers
  have others : Mark.other c ≠ .opener ∧ Mark.other c ≠ .closer := ⟨nofun, nofun⟩
  constructor
  · rwa [List.count_cons_of_ne others.2, List.count_cons_of_ne others.1] at whole
  · intro part inside
    have later := first (part + 1) (Nat.succ_lt_succ inside)
    rwa [List.take_succ_cons, List.count_cons_of_ne others.2,
      List.count_cons_of_ne others.1] at later

end Outnumbers

/-- With some comments open, the reader stops where the closers outnumber the openers by as
many. -/
theorem Outnumbers.blockLength_eq {outer : Nat} {text : List Char}
    (outnumbers : Outnumbers (outer + 1) (marks text)) (taken : Nat) (rest : List Char) :
    blockLength outer taken (text ++ rest) = taken + text.length := by
  fun_induction marks text generalizing outer taken with
  | case1 text ih =>
      rw [List.cons_append, List.cons_append, blockLength, ih outnumbers.behind_opener,
        List.length_cons, List.length_cons]
      omega
  | case2 text ih =>
      have behind := outnumbers.behind_closer
      cases outer with
      | zero =>
          -- The comment is closed, so nothing of it is left.
          have nothing : text = [] := by
            have none := behind.eq_nil
            unfold marks at none
            split at none <;> first | rfl | cases none
          rw [nothing]
          rfl
      | succ outer =>
          rw [List.cons_append, List.cons_append, blockLength, ih behind, List.length_cons,
            List.length_cons]
          omega
  | case3 c text notOpener notCloser ih =>
      have behind := outnumbers.behind_other
      cases text with
      | nil => exact absurd behind.whole (by simp [marks])
      | cons d text =>
          have isOther : ¬ (c = '/' ∧ d = '*') := by
            rintro ⟨rfl, rfl⟩
            exact notOpener text rfl rfl
          have isOther' : ¬ (c = '*' ∧ d = '/') := by
            rintro ⟨rfl, rfl⟩
            exact notCloser text rfl rfl
          have goesOn := blockLength_other isOther isOther' outer taken (text ++ rest)
          rw [List.cons_append, List.cons_append, goesOn]
          have later := ih behind (taken + 1)
          rw [List.cons_append] at later
          rw [later, List.length_cons (a := c)]
          omega
  | case4 => exact absurd outnumbers.whole (by simp)

/-- A block comment is read to its end, whatever follows it. -/
theorem IsBlock.length?_eq {text : List Char} (block : IsBlock text) (rest : List Char) :
    length? (text ++ rest) = some text.length := by
  obtain ⟨⟨body, rfl⟩, balanced, first⟩ := block
  have opened : marks (['/', '*'] ++ body) = .opener :: marks body := rfl
  rw [opened] at balanced first
  have other : Mark.opener ≠ .closer := by decide
  have outnumbers : Outnumbers 1 (marks body) := by
    constructor
    · rw [List.count_cons_self, List.count_cons_of_ne other] at balanced
      exact balanced.symm
    · intro part inside same
      apply first (part + 1) (Nat.succ_lt_succ inside) (Nat.succ_pos part)
      rw [List.take_succ_cons, List.count_cons_self, List.count_cons_of_ne other, same]
  have reads := outnumbers.blockLength_eq 2 rest
  have size : (['/', '*'] ++ body).length = 2 + body.length := List.length_append
  rw [size, List.append_assoc]
  exact congrArg some reads

theorem IsWhole.length?_eq {rest text : List Char} (whole : IsWhole rest text) :
    length? (text ++ rest) = some text.length := by
  cases whole with
  | @line body onLine ends =>
      have stops : rest.takeWhile (· != '\n') = [] := by
        cases rest with
        | nil => rfl
        | cons c rest =>
            cases ends c rfl
            rfl
      have kept : ∀ c ∈ body, (c != '\n') = true := by
        intro c member
        rw [bne_iff_ne]
        rintro rfl
        exact onLine member
      rw [List.cons_append, List.cons_append, length?_slashes, List.takeWhile_append_of_pos kept,
        stops, List.append_nil, List.length_cons, List.length_cons, Nat.add_comm]
  | block block => exact block.length?_eq rest

end Comment

namespace Literal

/-- The body of a plain string: characters, and pairs of a backslash and any character. -/
inductive IsPlain : List Char → Prop
  | nothing : IsPlain []
  | char {c : Char} {body : List Char} (notQuote : c ≠ '"') (notBackslash : c ≠ '\\')
      (later : IsPlain body) : IsPlain (c :: body)
  | pair (c : Char) {body : List Char} (later : IsPlain body) : IsPlain ('\\' :: c :: body)

/-- The text is one literal with everything that closes it. -/
inductive IsWhole : List Char → Prop
  | plain {body : List Char} (plain : IsPlain body) : IsWhole ('"' :: (body ++ ['"']))
  | raw (hashes : Nat) {body : List Char} (stays : StaysOpen hashes body) :
      IsWhole (rawString hashes body)
  | character {c : Char} (ordinary : c ∉ ['\'', '\\', '\n', '\x00']) : IsWhole ['\'', c, '\'']
  | escape (c : Char) {body : List Char} (onLine : ∀ d ∈ body, d ≠ '\'' ∧ d ≠ '\n') :
      IsWhole ('\'' :: '\\' :: c :: (body ++ ['\'']))

theorem IsPlain.plainLength_eq {body : List Char} (plain : IsPlain body) (taken : Nat)
    (rest : List Char) : plainLength taken (body ++ '"' :: rest) = taken + body.length + 1 := by
  induction plain generalizing taken with
  | nothing => rfl
  | char notQuote notBackslash later ih =>
      rw [List.cons_append, plainLength_char notBackslash notQuote, ih, List.length_cons]
      omega
  | pair c later ih =>
      rw [List.cons_append, List.cons_append, plainLength, ih, List.length_cons, List.length_cons]
      omega

end Literal

namespace Atom

/-- No string and no comment starts with a single quote. -/
theorem read?_of_character {rest : List Char} {quote : Literal.Quote} {length : Nat}
    (quoted : Literal.quote? ('\'' :: rest) = some (quote, length)) :
    read? ('\'' :: rest) = some (.literal (('\'' :: rest).take length), length) :=
  read?_of_quote rfl rfl quoted

theorem read?_of_isWhole {text : List Char} (whole : Literal.IsWhole text) (rest : List Char) :
    read? (text ++ rest) = some (.literal text, text.length) := by
  have found : ∀ length, length = text.length →
      read? (text ++ rest) = some (.literal ((text ++ rest).take length), length) →
      read? (text ++ rest) = some (.literal text, text.length) := by
    rintro length rfl read
    rwa [List.take_left] at read
  cases whole with
  | @plain body plain =>
      apply found _ rfl
      apply read?_of_string rfl
      rw [List.cons_append, Literal.stringLength?_quote, List.append_assoc, List.singleton_append,
        plain.plainLength_eq, List.length_cons, List.length_append, List.length_singleton]
      congr 1
      omega
  | raw hashes stays =>
      apply found _ rfl
      exact read?_of_string rfl (stays.stringLength?_eq rest)
  | @character c ordinary =>
      simp only [List.mem_cons, List.not_mem_nil, or_false, not_or] at ordinary
      obtain ⟨-, notBackslash, notLineFeed, notZero⟩ := ordinary
      apply found _ rfl
      apply read?_of_character
      exact (Literal.quote?_closed notBackslash rest).trans (if_pos ⟨notLineFeed, notZero⟩)
  | @escape c body onLine =>
      have parts : ∀ d ∈ body, Literal.isEscapePart d = true := by
        intro d member
        simp [Literal.isEscapePart, onLine d member]
      have closed := Literal.escapeLength_closed c parts rest
      have quoted : Literal.quote? ('\'' :: '\\' :: c :: (body ++ '\'' :: rest)) =
          some (.character, body.length + 4) := by
        rw [Literal.quote?_escape, closed, Nat.add_comm]
      apply found _ rfl
      simp only [List.cons_append, List.append_assoc, List.nil_append, List.length_cons,
        List.length_append, List.length_nil]
      exact read?_of_character quoted

/-- The text spells the atom if this is what follows it. -/
inductive Spells (rest : List Char) : List Char → Atom → Prop
  | literal {text : List Char} (whole : Literal.IsWhole text) : Spells rest text (.literal text)
  | comment {text : List Char} (whole : Comment.IsWhole rest text) : Spells rest text .comment

/-- A literal or a comment with everything that closes it is one atom, whatever follows. The
step over it leads to what follows and to the place there, which is made of counters in a text
of at most 2^32 - 2 bytes. -/
theorem read?_spelled {text rest : List Char} {atom : Atom} (spells : Spells rest text atom) :
    read? (text ++ rest) = some (atom, text.length) ∧
      (Cursor.ofText (text ++ rest)).skip text.length = ⟨rest, .ofText text⟩ ∧
      (Text.byteLength (text ++ rest) ≤ 2 ^ 32 - 2 → (Position.ofText text).Fits) := by
  refine ⟨?_, ?_, (Position.ofText_isTrueIn text rest).fits⟩
  · cases spells with
    | literal whole => exact read?_of_isWhole whole rest
    | comment whole => exact read?_of_comment whole.length?_eq
  · unfold Cursor.skip Cursor.ofText
    rw [List.drop_left, List.take_left]
    rfl

/-- Markers that overlap, inside the comment and where it ends. -/
theorem read?_spelled_overlapping :
    Spells "/*/".toList "/*/ /**/ */".toList .comment ∧
      read? ("/*/ /**/ */".toList ++ "/*/".toList) = some (.comment, 11) ∧
      (Cursor.ofText ("/*/ /**/ */".toList ++ "/*/".toList)).skip 11 =
        ⟨"/*/".toList, ⟨1, 12, 11⟩⟩ := by
  have block : Comment.IsBlock "/*/ /**/ */".toList :=
    ⟨by decide, by decide, by decide⟩
  have spells : Spells "/*/".toList "/*/ /**/ */".toList .comment := .comment (.block block)
  obtain ⟨read, behind, -⟩ := read?_spelled spells
  exact ⟨spells, read, behind⟩

end Atom
end Survey
