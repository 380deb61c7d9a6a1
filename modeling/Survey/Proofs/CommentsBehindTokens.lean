import Survey.Proofs.AtomRuns

set_option autoImplicit false

/-!
# What stands behind a token

A token or an atom ends where it does because of what stands behind it. If that is a
comment, nothing changes when blanks stand there instead: no reader goes on with a slash
that starts a comment, and none goes on with a space. `Text.Shaded` is this relation
between two texts, and there is one lemma for each reader.
-/

namespace Survey

namespace Text

/-- The texts are the same as far as the first comment, where one has the slash and the
other has blanks. -/
inductive Shaded : List Char → List Char → Prop
  | same (text : List Char) : Shaded text text
  | comment (rest blanks : List Char) : Shaded ('/' :: rest) (' ' :: ' ' :: blanks)
  | cons (c : Char) {rest shaded : List Char} (later : Shaded rest shaded) :
      Shaded (c :: rest) (c :: shaded)

namespace Shaded

variable {rest shaded : List Char}

theorem append (chars : List Char) (later : Shaded rest shaded) :
    Shaded (chars ++ rest) (chars ++ shaded) := by
  induction chars with
  | nil => exact later
  | cons c chars ih => exact .cons c ih

/-- What stands before a shaded place may be taken along. -/
theorem append_take {text : List Char} {count : Nat} (later : Shaded (text.drop count) shaded) :
    Shaded text (text.take count ++ shaded) := by
  have joined := later.append (text.take count)
  rwa [List.take_append_drop] at joined

theorem eq_nil (later : Shaded [] shaded) : shaded = [] := by
  cases later with
  | same => rfl

theorem head?_cases (later : Shaded rest shaded) :
    shaded.head? = rest.head? ∨ rest.head? = some '/' ∧ shaded.head? = some ' ' := by
  cases later with
  | same => exact .inl rfl
  | comment rest blanks => exact .inr ⟨rfl, rfl⟩
  | cons c later => exact .inl rfl

/-- A character that is neither a slash nor a space comes first in both texts or in none. -/
theorem head?_iff (later : Shaded rest shaded) {c : Char} (notSlash : c ≠ '/')
    (notSpace : c ≠ ' ') :
    shaded.head? = some c ↔ rest.head? = some c := by
  rcases later.head?_cases with same | ⟨slash, space⟩
  · rw [same]
  · rw [slash, space, Option.some.injEq, Option.some.injEq]
    exact iff_of_false (Ne.symm notSpace) (Ne.symm notSlash)

/-- A word that ends before the text ends before the shaded text. -/
theorem word_ends (later : Shaded rest shaded)
    (ends : ∀ d, rest.head? = some d → isWordPart d = false) (d : Char)
    (first : shaded.head? = some d) : isWordPart d = false := by
  rcases later.head?_cases with same | ⟨-, space⟩
  · exact ends d (same ▸ first)
  · rw [space] at first
    cases first
    decide

theorem tail_head? (later : Shaded rest shaded) {c : Char} (notSpace : c ≠ ' ')
    (second : shaded.tail.head? = some c) : rest.tail.head? = some c := by
  cases later with
  | same => exact second
  | comment rest blanks => exact absurd (Option.some.inj second).symm notSpace
  | cons d later =>
      rcases later.head?_cases with same | ⟨-, space⟩
      · exact same ▸ second
      · rw [List.tail_cons, space, Option.some.injEq] at second
        exact absurd second.symm notSpace

theorem any_head? (later : Shaded rest shaded) (keep : Char → Bool) (slash : keep '/' = false)
    (space : keep ' ' = false) : shaded.head?.any keep = rest.head?.any keep := by
  rcases later.head?_cases with same | ⟨isSlash, isSpace⟩
  · rw [same]
  · rw [isSlash, isSpace, Option.any_some, Option.any_some, slash, space]

theorem takeWhile (later : Shaded rest shaded) (keep : Char → Bool) (slash : keep '/' = false)
    (space : keep ' ' = false) :
    shaded.takeWhile keep = rest.takeWhile keep ∧
      Shaded (rest.drop (rest.takeWhile keep).length)
        (shaded.drop (rest.takeWhile keep).length) := by
  induction later with
  | same text => exact ⟨rfl, .same _⟩
  | comment rest blanks =>
      rw [List.takeWhile_cons_of_neg (by rw [space]; exact Bool.false_ne_true),
        List.takeWhile_cons_of_neg (by rw [slash]; exact Bool.false_ne_true)]
      exact ⟨rfl, .comment rest blanks⟩
  | @cons c rest shaded later ih =>
      by_cases kept : keep c = true
      · rw [List.takeWhile_cons_of_pos kept, List.takeWhile_cons_of_pos kept, ih.1]
        exact ⟨rfl, ih.2⟩
      · rw [List.takeWhile_cons_of_neg kept, List.takeWhile_cons_of_neg kept]
        exact ⟨rfl, .cons c later⟩

end Shaded
end Text

/-! ### Literals -/

namespace Literal

open Text (Shaded)

theorem lt_plainLength (taken : Nat) (c : Char) (rest : List Char) :
    taken < plainLength taken (c :: rest) := by
  unfold plainLength
  split
  · exact Nat.lt_of_lt_of_le (by omega) (le_plainLength _ _)
  · omega
  · exact Nat.lt_of_lt_of_le (by omega) (le_plainLength _ _)
  · rename_i nothing
    cases nothing

theorem plainLength_char {c : Char} (notEscape : c ≠ '\\') (notQuote : c ≠ '"') (taken : Nat)
    (rest : List Char) : plainLength taken (c :: rest) = plainLength (taken + 1) rest := by
  conv => lhs; unfold plainLength
  split
  · rename_i split
    cases split
    exact absurd rfl notEscape
  · rename_i split
    cases split
    exact absurd rfl notQuote
  · rename_i split
    cases split
    rfl
  · rename_i nothing
    cases nothing

/-- What stands behind a closed string does not matter. -/
theorem plainLength_of_closed (taken : Nat) (chars : List Char) {rest : List Char}
    (filled : rest ≠ []) (closed : plainLength taken (chars ++ rest) = taken + chars.length)
    (other : List Char) : plainLength taken (chars ++ other) = taken + chars.length := by
  obtain ⟨d, rest, rfl⟩ := List.exists_cons_of_ne_nil filled
  fun_induction plainLength taken chars with
  | case1 taken escaped chars ih =>
      rw [List.cons_append, List.cons_append, plainLength] at closed ⊢
      simp only [List.length_cons] at closed ⊢
      rw [ih (by omega)]
      omega
  | case2 taken chars =>
      rw [List.cons_append, plainLength] at closed ⊢
      exact closed
  | case3 taken c chars notEscaped notQuote ih =>
      by_cases escape : c = '\\'
      · subst escape
        cases chars with
        | nil =>
            have beyond := le_plainLength (taken + 2) rest
            rw [List.singleton_append, plainLength, List.length_singleton] at closed
            omega
        | cons escaped chars => exact absurd rfl (notEscaped escaped chars rfl)
      · rw [List.cons_append, plainLength_char escape notQuote] at closed ⊢
        rw [List.length_cons] at closed ⊢
        rw [ih (by omega)]
        omega
  | case4 taken =>
      have beyond := lt_plainLength taken d rest
      rw [List.nil_append, List.length_nil] at closed
      omega

/-- A closed raw string has room for its closing quote and number signs, and what stands
behind it does not matter. -/
theorem rawLength_of_closed (hashes taken : Nat) (chars : List Char) {rest : List Char}
    (filled : rest ≠ []) (closed : rawLength hashes taken (chars ++ rest) = taken + chars.length) :
    hashes < chars.length ∧
      ∀ other, rawLength hashes taken (chars ++ other) = taken + chars.length := by
  induction chars generalizing taken with
  | nil =>
      obtain ⟨d, rest, rfl⟩ := List.exists_cons_of_ne_nil filled
      have beyond := le_rawLength hashes (taken + 1) rest
      rw [List.nil_append, rawLength, List.length_nil] at closed
      split at closed <;> omega
  | cons c chars ih =>
      rw [List.cons_append, rawLength, List.length_cons] at closed
      split at closed
      · rename_i closes
        have room : chars.length = hashes := by omega
        rw [List.take_append_of_le_length (Nat.le_of_eq room.symm)] at closes
        refine ⟨by rw [List.length_cons]; omega, ?_⟩
        intro other
        rw [List.cons_append, rawLength, List.take_append_of_le_length (Nat.le_of_eq room.symm),
          if_pos closes, List.length_cons]
        omega
      · rename_i goesOn
        obtain ⟨room, later⟩ := ih (taken + 1) (by omega)
        rw [List.take_append_of_le_length (Nat.le_of_lt room)] at goesOn
        refine ⟨by rw [List.length_cons]; omega, ?_⟩
        intro other
        rw [List.cons_append, rawLength, List.take_append_of_le_length (Nat.le_of_lt room),
          if_neg goesOn, later other, List.length_cons]
        omega

theorem rawHashes?_shaded (c : Char) {rest shaded : List Char} (later : Shaded rest shaded) :
    rawHashes? (c :: shaded) = rawHashes? (c :: rest) := by
  by_cases isR : c = 'r'
  · subst isR
    obtain ⟨same, behind⟩ := later.takeWhile (· == '#') rfl rfl
    have quote := behind.head?_iff (c := '"') (by decide) (by decide)
    rw [List.head?_drop, List.head?_drop] at quote
    simp only [rawHashes?, same, quote]
  · rw [Token.rawHashes?_of_ne isR, Token.rawHashes?_of_ne isR]

/-- The characters that an escape may go on with before its closing quote. -/
def isEscapePart (c : Char) : Bool := c != '\'' && c != '\n'

theorem escapeLength_closed (c : Char) {kept : List Char} (all : ∀ d ∈ kept, isEscapePart d = true)
    (after : List Char) : escapeLength (c :: (kept ++ '\'' :: after)) = 4 + kept.length := by
  have inner : (kept ++ '\'' :: after).takeWhile isEscapePart = kept := by
    rw [List.takeWhile_append_of_pos all, List.takeWhile_cons_of_neg (by decide), List.append_nil]
  unfold isEscapePart at inner
  rw [escapeLength, inner, List.getElem?_append_right (Nat.le_refl _), Nat.sub_self,
    List.getElem?_cons_zero, if_pos rfl]
  omega

theorem escapeLength_open (c : Char) {kept after : List Char}
    (all : ∀ d ∈ kept, isEscapePart d = true) (ends : ∀ d, after.head? = some d → d = '\n') :
    escapeLength (c :: (kept ++ after)) = 3 + kept.length := by
  have stops : after.takeWhile isEscapePart = [] := by
    cases after with
    | nil => rfl
    | cons d after =>
        cases ends d rfl
        rfl
  have inner : (kept ++ after).takeWhile isEscapePart = kept := by
    rw [List.takeWhile_append_of_pos all, stops, List.append_nil]
  have notQuote : ¬ after[0]? = some '\'' := by
    rw [← List.head?_eq_getElem?]
    intro quote
    exact absurd (ends _ quote) (by decide)
  unfold isEscapePart at inner
  rw [escapeLength, inner, List.getElem?_append_right (Nat.le_refl _), Nat.sub_self,
    if_neg notQuote]
  rfl

theorem escapeLength_shaded {text shaded : List Char} {length : Nat}
    (escaped : escapeLength text = 2 + length) (later : Shaded (text.drop length) shaded) :
    escapeLength (text.take length ++ shaded) = 2 + length := by
  cases text with
  | nil =>
      rw [List.drop_nil] at later
      rw [later.eq_nil, List.take_nil, List.nil_append, escaped]
  | cons c rest =>
      have split : rest = rest.takeWhile isEscapePart ++ rest.dropWhile isEscapePart :=
        List.takeWhile_append_dropWhile.symm
      have all : ∀ d ∈ rest.takeWhile isEscapePart, isEscapePart d = true :=
        List.all_eq_true.mp List.all_takeWhile
      have stops := List.head?_dropWhile_not isEscapePart rest
      generalize rest.takeWhile isEscapePart = kept at *
      generalize rest.dropWhile isEscapePart = after at *
      subst split
      by_cases closed : after.head? = some '\''
      · obtain ⟨beyond, rfl⟩ := List.head?_eq_some_iff.mp closed
        rw [escapeLength_closed c all] at escaped
        have whole : c :: (kept ++ '\'' :: beyond) = (c :: (kept ++ ['\''])) ++ beyond := by simp
        have length' : length = (c :: (kept ++ ['\''])).length := by
          simp only [List.length_cons, List.length_append, List.length_nil]
          omega
        have again := escapeLength_closed c all shaded
        rw [whole, length', List.take_left, List.cons_append, List.append_assoc,
          List.singleton_append, again, ← length']
        omega
      · have ends : ∀ d, after.head? = some d → d = '\n' := by
          intro d first
          rw [first, Option.some.injEq] at closed
          rw [first] at stops
          simpa [isEscapePart, closed] using stops
        rw [escapeLength_open c all ends] at escaped
        have length' : length = (c :: kept).length := by
          rw [List.length_cons]
          omega
        rw [length', ← List.cons_append, List.drop_left] at later
        have shadedEnds : ∀ d, shaded.head? = some d → d = '\n' := by
          intro d first
          rcases later.head?_cases with same | ⟨slash, -⟩
          · exact ends d (same ▸ first)
          · exact absurd (ends _ slash) (by decide)
        rw [length', ← List.cons_append, List.take_left, List.cons_append,
          escapeLength_open c all shadedEnds, List.length_cons]
        omega

theorem quote?_shaded {text shaded : List Char} {quote : Quote} {length : Nat}
    (found : quote? text = some (quote, length)) (later : Shaded (text.drop length) shaded) :
    quote? (text.take length ++ shaded) = some (quote, length) := by
  have positive := quote?_pos found
  have isQuote : text.head? = some '\'' := by
    by_contra other
    rw [(quote?_eq_none_iff text).mpr other] at found
    cases found
  obtain ⟨rest, rfl⟩ := List.head?_eq_some_iff.mp isQuote
  by_cases escape : rest.head? = some '\\'
  · obtain ⟨inner, rfl⟩ := List.head?_eq_some_iff.mp escape
    have two := two_le_of_character (quote?_escape inner)
    rw [quote?_escape, Option.some.injEq, Prod.mk.injEq] at found
    obtain ⟨rfl, escaped⟩ := found
    obtain ⟨more, rfl⟩ := Nat.exists_eq_add_of_le (escaped ▸ two)
    rw [Nat.add_comm 2 more, List.drop_succ_cons, List.drop_succ_cons] at later
    rw [Nat.add_comm 2 more, List.take_succ_cons, List.take_succ_cons, List.cons_append,
      List.cons_append, quote?_escape, escapeLength_shaded escaped later, Nat.add_comm]
  · by_cases closed : rest.tail.head? = some '\''
    · obtain ⟨c, inner, rfl⟩ : ∃ c inner, rest = c :: '\'' :: inner := by
        match rest, closed with
        | c :: _ :: inner, rfl => exact ⟨c, inner, rfl⟩
      have notEscape : c ≠ '\\' := by simpa using escape
      rw [quote?_closed notEscape] at found
      split at found
      · rename_i quotable
        cases found
        have again := quote?_closed notEscape shaded
        rw [if_pos quotable] at again
        exact again
      · rename_i unquotable
        cases found
        have notSlash : c ≠ '/' := by
          rintro rfl
          exact unquotable ⟨by decide, by decide⟩
        cases later with
        | same => exact (quote?_closed notEscape inner).trans (if_neg unquotable)
        | comment => exact absurd rfl notSlash
        | @cons _ _ shaded behind =>
            have first := (behind.head?_iff (by decide) (by decide)).mpr rfl
            obtain ⟨beyond, rfl⟩ := List.head?_eq_some_iff.mp first
            exact (quote?_closed notEscape beyond).trans (if_neg unquotable)
    · rw [quote?_open escape closed, Option.some.injEq, Prod.mk.injEq] at found
      obtain ⟨rfl, rfl⟩ := found
      rw [Nat.add_comm 1, List.drop_succ_cons] at later
      rw [Nat.add_comm 1, List.take_succ_cons, List.cons_append]
      have both := later.append_take
      have notEscape : (rest.take (rest.takeWhile Text.isWordPart).length ++ shaded).head? ≠
          some '\\' := by
        rwa [ne_eq, both.head?_iff (by decide) (by decide)]
      have notClosed : (rest.take (rest.takeWhile Text.isWordPart).length ++ shaded).tail.head? ≠
          some '\'' :=
        fun second => closed (both.tail_head? (by decide) second)
      rw [quote?_open notEscape notClosed,
        (both.takeWhile Text.isWordPart (by decide) (by decide)).1, Nat.add_comm]

theorem stringLength?_shaded {text shaded : List Char} {length : Nat}
    (found : stringLength? text = some length) (later : Shaded (text.drop length) shaded) :
    stringLength? (text.take length ++ shaded) = some length := by
  by_cases ended : text.drop length = []
  · rw [ended] at later
    rw [later.eq_nil, List.append_nil, List.take_of_length_le (List.drop_eq_nil_iff.mp ended),
      found]
  · rcases stringLength?_cases text with ⟨hashes, raw⟩ | ⟨rest, rfl⟩ | ⟨missing, -⟩
    · obtain ⟨rest, rfl⟩ := (rawHashes?_eq_some_iff text hashes).mp raw
      have opening : ∀ after : List Char, 'r' :: (List.replicate hashes '#' ++ '"' :: after) =
          'r' :: (List.replicate hashes '#' ++ ['"']) ++ after := by
        intro after
        simp
      have size : ('r' :: (List.replicate hashes '#' ++ ['"'])).length = hashes + 2 := by simp
      have measured : ∀ after : List Char,
          stringLength? ('r' :: (List.replicate hashes '#' ++ '"' :: after)) =
            some (rawLength hashes (hashes + 2) after) := by
        intro after
        have opens := (rawHashes?_eq_some_iff _ hashes).mpr ⟨after, rfl⟩
        rw [stringLength?_of_raw opens, opening, ← size, List.drop_left]
      rw [measured, Option.some.injEq] at found
      obtain ⟨more, rfl⟩ := Nat.exists_eq_add_of_le (found ▸ le_rawLength hashes (hashes + 2) rest)
      rw [opening, ← size, List.drop_length_add_append] at ended
      rw [opening, ← size, List.take_length_add_append, List.append_assoc, ← opening, size,
        measured, Option.some.injEq]
      have inside : (rest.take more).length = more := by
        rw [List.length_take, Nat.min_eq_left]
        have short := List.drop_eq_nil_iff.not.mp ended
        omega
      have closed := (rawLength_of_closed hashes (hashes + 2) (rest.take more) ended
        (by rw [List.take_append_drop, found, inside])).2 shaded
      rwa [inside] at closed
    · rw [stringLength?_quote, Option.some.injEq] at found
      obtain ⟨more, rfl⟩ := Nat.exists_eq_add_of_le (found ▸ le_plainLength 1 rest)
      rw [Nat.add_comm 1, List.drop_succ_cons] at ended
      rw [Nat.add_comm 1, List.take_succ_cons, List.cons_append, stringLength?_quote,
        Option.some.injEq, Nat.add_comm]
      have inside : (rest.take more).length = more := by
        rw [List.length_take, Nat.min_eq_left]
        have short := List.drop_eq_nil_iff.not.mp ended
        omega
      have closed := plainLength_of_closed 1 (rest.take more) ended
        (by rw [List.take_append_drop, found, inside]) shaded
      rwa [inside] at closed
    · rw [missing] at found
      cases found

theorem stringLength?_of_shaded {c : Char} {rest shaded : List Char}
    (missing : stringLength? (c :: rest) = none) (later : Shaded rest shaded) :
    stringLength? (c :: shaded) = none := by
  rcases stringLength?_cases (c :: shaded) with ⟨hashes, raw⟩ | ⟨inner, split⟩ | ⟨absent, -⟩
  · rw [rawHashes?_shaded c later] at raw
    rw [stringLength?_of_raw raw] at missing
    cases missing
  · cases split
    cases missing
  · exact absent

end Literal

theorem Comment.length?_of_shaded {c : Char} {rest shaded : List Char}
    (missing : length? (c :: rest) = none) (later : Text.Shaded rest shaded) :
    length? (c :: shaded) = none := by
  rcases length?_cases (c :: shaded) with ⟨inner, split⟩ | ⟨inner, split⟩ | absent
  · cases split
    rcases later.head?_cases with same | ⟨-, space⟩
    · obtain ⟨beyond, rfl⟩ := List.head?_eq_some_iff.mp same.symm
      cases missing
    · cases space
  · cases split
    obtain ⟨beyond, rfl⟩ := List.head?_eq_some_iff.mp
      ((later.head?_iff (by decide) (by decide)).mp rfl)
    cases missing
  · exact absent

/-! ### Atoms -/

namespace Atom

theorem read?_char_eq {text : List Char} {c : Char} {length : Nat}
    (read : read? text = some (.char c, length)) :
    ∃ rest, text = c :: rest ∧ length = 1 ∧ Comment.length? text = none ∧
      Literal.stringLength? text = none ∧ Literal.quote? text = none := by
  cases text with
  | nil => cases read
  | cons d rest =>
      cases commented : Comment.length? (d :: rest) with
      | some comment =>
          rw [read?_of_comment commented] at read
          cases read
      | none =>
          cases stringed : Literal.stringLength? (d :: rest) with
          | some string =>
              rw [read?_of_string commented stringed] at read
              cases read
          | none =>
              cases quoted : Literal.quote? (d :: rest) with
              | some pair =>
                  rw [read?_of_quote commented stringed quoted] at read
                  cases read
              | none =>
                  rw [read?_of_char commented stringed quoted] at read
                  cases read
                  exact ⟨rest, rfl, rfl, rfl, rfl, rfl⟩

theorem read?_char_shaded {c : Char} {rest shaded : List Char}
    (read : read? (c :: rest) = some (.char c, 1)) (later : Text.Shaded rest shaded) :
    read? (c :: shaded) = some (.char c, 1) := by
  obtain ⟨_, -, -, commented, stringed, quoted⟩ := read?_char_eq read
  refine read?_of_char (Comment.length?_of_shaded commented later)
    (Literal.stringLength?_of_shaded stringed later) ?_
  rw [Literal.quote?_eq_none_iff] at quoted ⊢
  exact quoted

theorem read?_literal_eq {text written : List Char} {length : Nat}
    (read : read? text = some (.literal written, length)) :
    Comment.length? text = none ∧ written = text.take length ∧
      (Literal.stringLength? text = some length ∨ Literal.stringLength? text = none ∧
        ∃ quote, Literal.quote? text = some (quote, length)) := by
  cases text with
  | nil => cases read
  | cons d rest =>
      cases commented : Comment.length? (d :: rest) with
      | some comment =>
          rw [read?_of_comment commented] at read
          cases read
      | none =>
          cases stringed : Literal.stringLength? (d :: rest) with
          | some string =>
              rw [read?_of_string commented stringed] at read
              cases read
              exact ⟨rfl, rfl, .inl rfl⟩
          | none =>
              cases quoted : Literal.quote? (d :: rest) with
              | some pair =>
                  rw [read?_of_quote commented stringed quoted] at read
                  cases read
                  exact ⟨rfl, rfl, .inr ⟨rfl, _, rfl⟩⟩
              | none =>
                  rw [read?_of_char commented stringed quoted] at read
                  cases read

theorem read?_literal_shaded {text written shaded : List Char} {length : Nat}
    (read : read? text = some (.literal written, length))
    (later : Text.Shaded (text.drop length) shaded) :
    read? (text.take length ++ shaded) = some (.literal written, length) := by
  obtain ⟨commented, rfl, found⟩ := read?_literal_eq read
  have positive := (read?_pos read).1
  have bound := read?_length_le read
  have same : (text.take length ++ shaded).take length = text.take length := by
    rw [List.take_append_of_le_length (by rw [List.length_take]; omega), List.take_take,
      Nat.min_self]
  -- Both texts start with the same character, and go on alike behind it.
  obtain ⟨c, rest, shadedRest, rfl, split, behind⟩ : ∃ c rest shadedRest, text = c :: rest ∧
      text.take length ++ shaded = c :: shadedRest ∧ Text.Shaded rest shadedRest := by
    obtain ⟨more, rfl⟩ := Nat.exists_eq_add_of_le' positive
    cases text with
    | nil => cases read
    | cons c rest =>
        refine ⟨c, rest, rest.take more ++ shaded, rfl, rfl, ?_⟩
        rw [List.drop_succ_cons] at later
        exact later.append_take
  have noComment : Comment.length? ((c :: rest).take length ++ shaded) = none := by
    rw [split]
    exact Comment.length?_of_shaded commented behind
  rcases found with stringed | ⟨noString, quote, quoted⟩
  · rw [read?_of_string noComment (Literal.stringLength?_shaded stringed later), same]
  · have missing : Literal.stringLength? ((c :: rest).take length ++ shaded) = none := by
      rw [split]
      exact Literal.stringLength?_of_shaded noString behind
    rw [read?_of_quote noComment missing (Literal.quote?_shaded quoted later), same]

end Atom

/-! ### Tokens -/

namespace Token

open Text (Shaded)

theorem numberGoesOn_shaded (c : Char) {rest shaded : List Char} (later : Shaded rest shaded) :
    NumberGoesOn c shaded ↔ NumberGoesOn c rest := by
  unfold NumberGoesOn
  rw [later.any_head? Text.isAsciiDigit (by decide) (by decide)]

theorem numberLength_shaded (taken : Nat) {text shaded : List Char} {length : Nat}
    (measured : numberLength taken text = taken + length)
    (later : Shaded (text.drop length) shaded) :
    numberLength taken (text.take length ++ shaded) = taken + length := by
  induction length generalizing taken text with
  | zero =>
      rw [List.drop_zero] at later
      rw [List.take_zero, List.nil_append]
      cases text with
      | nil =>
          rw [later.eq_nil]
          rfl
      | cons c rest =>
          have ends : ¬ NumberGoesOn c rest := by
            intro goesOn
            rw [numberLength_onward goesOn] at measured
            have beyond := le_numberLength (taken + 1) rest
            omega
          cases later with
          | same => exact numberLength_end ends
          | comment rest blanks => rfl
          | cons c behind =>
              exact numberLength_end (mt (numberGoesOn_shaded c behind).mp ends)
  | succ length ih =>
      cases text with
      | nil =>
          rw [numberLength] at measured
          omega
      | cons c rest =>
          have goesOn : NumberGoesOn c rest := by
            by_contra ends
            rw [numberLength_end ends] at measured
            omega
          rw [numberLength_onward goesOn] at measured
          rw [List.drop_succ_cons] at later
          rw [List.take_succ_cons, List.cons_append,
            numberLength_onward ((numberGoesOn_shaded c later.append_take).mpr goesOn),
            ih (taken + 1) (by omega) later]
          omega

/-- A raw string behind a word is a raw string behind the last letter of the word. -/
theorem literalAfter?_hash_iff {word rest : List Char} {tag : Tag} {more : Nat}
    (opens : OpensLiteral word) :
    literalAfter? word ('#' :: rest) = some (tag, more) ↔
      word.getLast? = some 'r' ∧ tag = .string ∧
        (Literal.rawHashes? ('r' :: '#' :: rest)).isSome = true ∧
        Literal.stringLength? ('r' :: '#' :: rest) = some (1 + more) := by
  have opening : Literal.rawHashes? ('r' :: '#' :: rest) =
      if ('#' :: rest)[hashLength ('#' :: rest)]? = some '"' then some (hashLength ('#' :: rest))
      else none := rfl
  rw [literalAfter?_hashes opens]
  by_cases quoted : ('#' :: rest)[hashLength ('#' :: rest)]? = some '"'
  · rw [if_pos quoted] at opening
    have measured := Literal.stringLength?_of_raw opening
    rw [List.drop_succ_cons, Nat.add_comm _ 2, show 2 = 1 + 1 from rfl, Nat.add_assoc,
      Literal.rawLength_add, Nat.add_comm 1 (hashLength _)] at measured
    rw [measured, opening]
    simp only [quoted, and_true, Option.isSome_some, true_and, Option.some.injEq,
      Nat.add_left_cancel_iff]
    constructor
    · intro found
      split at found
      · rename_i last
        cases found
        exact ⟨last, rfl, rfl⟩
      · cases found
    · rintro ⟨last, rfl, rfl⟩
      rw [if_pos last]
  · rw [if_neg quoted] at opening
    rw [if_neg (fun both => quoted both.2), opening]
    simp

theorem literalAfter?_shaded {word after shaded : List Char} {tag : Tag} {more : Nat}
    (found : literalAfter? word after = some (tag, more))
    (later : Shaded (after.drop more) shaded) :
    literalAfter? word (after.take more ++ shaded) = some (tag, more) := by
  have opens := opens_of_literalAfter? found
  have positive := literalAfter?_pos found
  obtain ⟨length, rfl⟩ := Nat.exists_eq_add_of_le' positive.1
  cases after with
  | nil =>
      rw [literalAfter?_nil] at found
      cases found
  | cons c rest =>
      rcases literal_opener_cases c with rfl | rfl | rfl | ⟨notString, notHash, notByte⟩
      · rw [literalAfter?_string opens, Option.some.injEq, Prod.mk.injEq] at found
        obtain ⟨rfl, measured⟩ := found
        have closed := Literal.stringLength?_shaded
          ((Literal.stringLength?_quote rest).trans (congrArg some measured)) later
        rw [List.take_succ_cons, List.cons_append] at closed ⊢
        rw [Literal.stringLength?_quote, Option.some.injEq] at closed
        rw [literalAfter?_string opens, closed]
      · obtain ⟨last, rfl, raw, measured⟩ := (literalAfter?_hash_iff opens).mp found
        rw [List.drop_succ_cons] at later
        have both : Shaded ('#' :: rest) ('#' :: (rest.take length ++ shaded)) :=
          .cons '#' later.append_take
        have closed := Literal.stringLength?_shaded measured
          (by rw [Nat.add_comm 1, List.drop_succ_cons, List.drop_succ_cons]; exact later)
        rw [Nat.add_comm 1, List.take_succ_cons, List.take_succ_cons] at closed
        rw [List.take_succ_cons, List.cons_append, literalAfter?_hash_iff opens]
        refine ⟨last, rfl, ?_, ?_⟩
        · rw [Literal.rawHashes?_shaded 'r' both]
          exact raw
        · rw [Nat.add_comm 1]
          exact closed
      · rw [literalAfter?_byte opens] at found
        split at found
        · rename_i isByte
          obtain ⟨quote, isQuote, rfl⟩ := quoted_eq (Option.some.inj found)
          have again := Literal.quote?_shaded isQuote later
          rw [List.take_succ_cons, List.cons_append] at again ⊢
          rw [literalAfter?_byte opens, if_pos isByte, quoted, again]
          cases quote <;> rfl
        · cases found
      · rw [literalAfter?_other notString notHash notByte] at found
        cases found

theorem literalAfter?_of_shaded {word after shaded : List Char}
    (missing : literalAfter? word after = none) (later : Shaded after shaded) :
    literalAfter? word shaded = none := by
  by_cases opens : OpensLiteral word
  · cases later with
    | same => exact missing
    | comment rest blanks => exact literalAfter?_other (by decide) (by decide) (by decide) _
    | @cons c rest shaded behind =>
        rcases literal_opener_cases c with rfl | rfl | rfl | ⟨notString, notHash, notByte⟩
        · rw [literalAfter?_string opens] at missing
          cases missing
        · cases found : literalAfter? word ('#' :: shaded) with
          | none => rfl
          | some pair =>
              obtain ⟨tag, more⟩ := pair
              obtain ⟨last, rfl, raw, -⟩ := (literalAfter?_hash_iff opens).mp found
              rw [Literal.rawHashes?_shaded 'r' (.cons '#' behind)] at raw
              obtain ⟨hashes, opening⟩ := Option.isSome_iff_exists.mp raw
              have measured := Literal.stringLength?_of_raw opening
              have two := Literal.le_rawLength hashes (hashes + 2)
                (('r' :: '#' :: rest).drop (hashes + 2))
              obtain ⟨size, sum⟩ := Nat.exists_eq_add_of_le (show 1 ≤ Literal.rawLength hashes
                (hashes + 2) (('r' :: '#' :: rest).drop (hashes + 2)) by omega)
              rw [sum] at measured
              have there := (literalAfter?_hash_iff opens).mpr ⟨last, rfl, raw, measured⟩
              rw [missing] at there
              cases there
        · rw [literalAfter?_byte opens] at missing ⊢
          split at missing
          · cases missing
          · rename_i notByte
            rw [if_neg notByte]
        · exact literalAfter?_other notString notHash notByte _
  · exact literalAfter?_of_not_opens opens _

theorem rawWordLength_of_head {word rest : List Char}
    (isRaw : word = ['r'] ∧ rest.head?.any Text.isWordStart = true) :
    rawWordLength word ('#' :: rest) = 1 + (rest.takeWhile Text.isWordPart).length :=
  if_pos isRaw

theorem rawWordLength_of_ne {word rest : List Char}
    (notRaw : ¬ (word = ['r'] ∧ rest.head?.any Text.isWordStart = true)) :
    rawWordLength word ('#' :: rest) = 0 :=
  if_neg notRaw

theorem rawWordLength_other (word : List Char) {after : List Char}
    (other : after.head? ≠ some '#') : rawWordLength word after = 0 := by
  unfold rawWordLength
  split
  · exact absurd rfl other
  · rfl

theorem rawWordLength_shaded {word after shaded : List Char}
    (later : Shaded (after.drop (rawWordLength word after)) shaded) :
    rawWordLength word (after.take (rawWordLength word after) ++ shaded) =
      rawWordLength word after := by
  by_cases hash : after.head? = some '#'
  · obtain ⟨rest, rfl⟩ := List.head?_eq_some_iff.mp hash
    by_cases isRaw : word = ['r'] ∧ rest.head?.any Text.isWordStart = true
    · rw [rawWordLength_of_head isRaw, Nat.add_comm 1, List.drop_succ_cons] at later
      rw [rawWordLength_of_head isRaw, Nat.add_comm 1, List.take_succ_cons, List.cons_append]
      have both := later.append_take
      have starts := both.any_head? Text.isWordStart (by decide) (by decide)
      rw [rawWordLength_of_head ⟨isRaw.1, starts.trans isRaw.2⟩,
        (both.takeWhile Text.isWordPart (by decide) (by decide)).1, Nat.add_comm]
    · rw [rawWordLength_of_ne isRaw, List.drop_zero] at later
      rw [rawWordLength_of_ne isRaw, List.take_zero, List.nil_append]
      cases later with
      | same => exact rawWordLength_of_ne isRaw
      | cons c behind =>
          apply rawWordLength_of_ne
          rw [behind.any_head? Text.isWordStart (by decide) (by decide)]
          exact isRaw
  · rw [rawWordLength_other word hash, List.drop_zero] at later
    rw [rawWordLength_other word hash, List.take_zero, List.nil_append]
    apply rawWordLength_other
    rwa [ne_eq, later.head?_iff (by decide) (by decide)]

/-- A token that means something is the same whether comments are written over or not. -/
theorem read?_shaded {text shaded : List Char} {tag : Tag} {length : Nat}
    (read : read? text = some (tag, length)) (significant : tag.isTrivia = false)
    (later : Shaded (text.drop length) shaded) :
    read? (text.take length ++ shaded) = some (tag, length) := by
  cases reading_of_read? read with
  | newline rest => cases significant
  | @slash rest _ _ slashed =>
      rcases slash_eq slashed with ⟨-, trivia, -⟩ | ⟨missing, rfl, rfl⟩
      · rw [significant] at trivia
        cases trivia
      · apply Reading.read?
        change Reading ('/' :: shaded) .slash 1
        apply Reading.slash
        rw [slash, Comment.length?_of_shaded missing later]
  | string rest =>
      have closed := Literal.stringLength?_shaded (Literal.stringLength?_quote rest) later
      obtain ⟨more, sum⟩ := Nat.exists_eq_add_of_le' (Literal.le_plainLength 1 rest)
      rw [sum, List.take_succ_cons, List.cons_append] at closed ⊢
      rw [Literal.stringLength?_quote, Option.some.injEq] at closed
      rw [(Reading.string _).read?, closed]
  | @quote rest _ _ quotes =>
      obtain ⟨quote, isQuote, rfl⟩ := quoted_eq quotes
      obtain ⟨more, rfl⟩ := Nat.exists_eq_add_of_le' (Literal.quote?_pos isQuote)
      have again := Literal.quote?_shaded isQuote later
      rw [List.take_succ_cons, List.cons_append] at again ⊢
      apply Reading.read?
      apply Reading.quote
      rw [quoted, again]
      cases quote <;> rfl
  | @raw _ hashes opens =>
      have measured := Literal.stringLength?_of_raw opens
      have closed := Literal.stringLength?_shaded measured later
      obtain ⟨rest, rfl⟩ := (Literal.rawHashes?_eq_some_iff text hashes).mp opens
      obtain ⟨more, sum⟩ := Nat.exists_eq_add_of_le' (Literal.stringLength?_pos measured)
      rw [sum, List.drop_succ_cons] at later
      rw [sum, List.take_succ_cons, List.cons_append] at closed ⊢
      have again := (Literal.rawHashes?_shaded 'r' later.append_take).trans opens
      rw [Literal.stringLength?_of_raw again, Option.some.injEq] at closed
      rw [read?_raw again, closed]
  | @literal c word after _ more starts parts ends notRaw found =>
      rw [← List.cons_append, List.drop_length_add_append] at later
      rw [← List.cons_append, List.take_length_add_append, List.append_assoc, List.cons_append]
      have opensNot := (Literal.rawHashes?_shaded c (later.append_take.append word)).trans notRaw
      exact (Reading.literal starts parts (later.append_take.word_ends ends) opensNot
        (literalAfter?_shaded found later)).read?
  | @word c word after starts parts ends notRaw missing =>
      rw [← List.cons_append, List.drop_length_add_append] at later
      rw [← List.cons_append, List.take_length_add_append, List.append_assoc, List.cons_append]
      have both := later.append_take
      have opensNot := (Literal.rawHashes?_shaded c (both.append word)).trans notRaw
      rw [(Reading.word starts parts (both.word_ends ends) opensNot
        (literalAfter?_of_shaded missing both)).read?, rawWordLength_shaded later]
  | @number c rest notStart digit =>
      obtain ⟨more, sum⟩ := Nat.exists_eq_add_of_le (le_numberLength 1 rest)
      rw [sum, Nat.add_comm 1, List.drop_succ_cons] at later
      rw [sum, Nat.add_comm 1, List.take_succ_cons, List.cons_append,
        (Reading.number _ notStart digit).read?, numberLength_shaded 1 sum later, Nat.add_comm]
  | blank rest inLine blank => cases significant
  | punctuation rest other notStart notDigit notBlank =>
      exact (Reading.punctuation shaded other notStart notDigit notBlank).read?

end Token
end Survey
