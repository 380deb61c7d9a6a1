import Survey.Finding.Item
import Survey.Proofs.CutMarks

set_option autoImplicit false

/-!
# Tokens of a text that was cut short

A token that ends before the cut is the token that was there. So are the trivia
before it, and what a search that went from token to token came to.
-/

namespace Survey
namespace Token

/-- Does a number go on with this character, given what follows? -/
def NumberGoesOn (c : Char) (rest : List Char) : Prop :=
  (Text.isWordPart c || (c == '.' && rest.head?.any Text.isAsciiDigit)) = true

theorem numberLength_onward {taken : Nat} {c : Char} {rest : List Char}
    (goesOn : NumberGoesOn c rest) :
    numberLength taken (c :: rest) = numberLength (taken + 1) rest :=
  if_pos goesOn

theorem numberLength_end {taken : Nat} {c : Char} {rest : List Char}
    (ended : ¬ NumberGoesOn c rest) : numberLength taken (c :: rest) = taken :=
  if_neg ended

theorem isWordPart_of_isAsciiDigit {c : Char} (digit : Text.isAsciiDigit c = true) :
    Text.isWordPart c = true := by
  have ascii : c.toNat < 0x80 := by
    unfold Text.isAsciiDigit Char.isDigit at digit
    simp only [Bool.and_eq_true, decide_eq_true_iff] at digit
    have upper := UInt32.le_iff_toNat_le.mp digit.2
    change c.val.toNat ≤ 57 at upper
    change c.val.toNat < 128
    omega
  unfold Text.isWordPart
  rw [Text.isNumeric_of_ascii ascii]
  unfold Text.isAsciiDigit at digit
  rw [digit, Bool.or_true]

theorem numberLength_of_le (taken : Nat) (text more : List Char)
    (inside : numberLength taken (text ++ more) ≤ taken + text.length) :
    numberLength taken text = numberLength taken (text ++ more) := by
  induction text generalizing taken with
  | nil =>
      have atLeast := le_numberLength taken more
      rw [List.nil_append, List.length_nil] at inside
      rw [List.nil_append, numberLength]
      omega
  | cons c rest ih =>
      rw [List.cons_append, List.length_cons] at inside
      rw [List.cons_append]
      by_cases goesOn : NumberGoesOn c (rest ++ more)
      · rw [numberLength_onward goesOn] at inside ⊢
        have cutGoesOn : NumberGoesOn c rest := by
          cases rest with
          | cons d rest => exact goesOn
          | nil =>
              by_cases part : Text.isWordPart c = true
              · unfold NumberGoesOn
                rw [part, Bool.true_or]
              · -- A point goes on with the digit behind the cut, and that is too far.
                exfalso
                unfold NumberGoesOn at goesOn
                cases more with
                | nil => simp [part] at goesOn
                | cons d more =>
                    have digit : Text.isAsciiDigit d = true := by
                      simp only [part, Bool.false_or, Bool.and_eq_true, List.nil_append,
                        List.head?_cons, Option.any_some] at goesOn
                      exact goesOn.2
                    have digitGoesOn : NumberGoesOn d more := by
                      unfold NumberGoesOn
                      rw [isWordPart_of_isAsciiDigit digit, Bool.true_or]
                    have atLeast := le_numberLength (taken + 1 + 1) more
                    rw [List.nil_append, numberLength_onward digitGoesOn, List.length_nil] at inside
                    omega
        rw [numberLength_onward cutGoesOn]
        exact ih (taken + 1) (by omega)
      · have cutEnded : ¬ NumberGoesOn c rest := by
          intro cutGoesOn
          apply goesOn
          cases rest with
          | cons d rest => exact cutGoesOn
          | nil =>
              have part : Text.isWordPart c = true := by
                simpa [NumberGoesOn] using cutGoesOn
              unfold NumberGoesOn
              rw [part, Bool.true_or]
        rw [numberLength_end goesOn, numberLength_end cutEnded]

/-! ### Comments, quotes and words -/

theorem slash_of_le {text more : List Char} (inside : (slash (text ++ more)).2 ≤ text.length) :
    slash text = slash (text ++ more) := by
  unfold slash at *
  cases commented : Comment.length? (text ++ more) with
  | none => rw [Comment.length?_of_none commented]
  | some length =>
      rw [commented] at inside
      have two := Comment.two_le_length? commented
      have tail : (text ++ more).tail.head? = text.tail.head? := by
        match text, Nat.le_trans two inside with
        | _ :: _ :: _, _ => rfl
      rw [Comment.length?_of_le commented inside, tail]

theorem quoted_of_le {text more : List Char} (filled : text ≠ [])
    (inside : (quoted (text ++ more)).2 ≤ text.length) : quoted text = quoted (text ++ more) := by
  unfold quoted at *
  cases found : Literal.quote? (text ++ more) with
  | none => rw [Literal.quote?_of_none found]
  | some pair =>
      obtain ⟨quote, length⟩ := pair
      rw [found] at inside
      have within : length ≤ text.length := by
        cases quote <;> exact inside
      rcases Literal.quote?_append filled found with ⟨-, cut⟩ | ⟨crosses, -⟩
      · rw [cut]
      · omega

theorem quoted_positive (rest : List Char) : 0 < (quoted ('\'' :: rest)).2 := by
  unfold quoted
  cases found : Literal.quote? ('\'' :: rest) with
  | none =>
      rw [Literal.quote?_eq_none_iff] at found
      exact absurd rfl found
  | some pair =>
      obtain ⟨quote, length⟩ := pair
      have positive := Literal.quote?_pos found
      cases quote <;> exact positive

/-- The words that go before a literal. -/
def OpensLiteral (word : List Char) : Prop :=
  word = ['b'] ∨ word = ['c'] ∨ word = ['b', 'r'] ∨ word = ['c', 'r']

/-- How many number signs the text starts with. -/
def hashLength (text : List Char) : Nat := (text.takeWhile (· == '#')).length

variable {word : List Char}

theorem literalAfter?_string (opens : OpensLiteral word) (rest : List Char) :
    literalAfter? word ('"' :: rest) = some (.string, Literal.plainLength 1 rest) := by
  rw [literalAfter?]
  exact if_pos opens

theorem literalAfter?_hashes (opens : OpensLiteral word) (rest : List Char) :
    literalAfter? word ('#' :: rest) =
      if word.getLast? = some 'r' ∧ ('#' :: rest)[hashLength ('#' :: rest)]? = some '"' then
        some (.string,
          Literal.rawLength (hashLength ('#' :: rest)) (hashLength ('#' :: rest) + 1)
            (('#' :: rest).drop (hashLength ('#' :: rest) + 1)))
      else none := by
  rw [literalAfter?]
  exact if_pos opens

theorem literalAfter?_byte (opens : OpensLiteral word) (rest : List Char) :
    literalAfter? word ('\'' :: rest) =
      if word = ['b'] then some (quoted ('\'' :: rest)) else none := by
  rw [literalAfter?]
  exact if_pos opens

theorem literalAfter?_other {c : Char} (notString : c ≠ '"') (notHash : c ≠ '#')
    (notByte : c ≠ '\'') (rest : List Char) : literalAfter? word (c :: rest) = none := by
  unfold literalAfter?
  split
  · split
    · rename_i split
      cases split
      exact absurd rfl notString
    · rename_i split
      cases split
      exact absurd rfl notHash
    · rename_i split
      cases split
      exact absurd rfl notByte
    · rfl
  · rfl

/-- The characters that go on with a literal after such a word, and all others. -/
theorem literal_opener_cases (c : Char) :
    c = '"' ∨ c = '#' ∨ c = '\'' ∨ (c ≠ '"' ∧ c ≠ '#' ∧ c ≠ '\'') := by
  by_cases string : c = '"'
  · exact Or.inl string
  · by_cases hash : c = '#'
    · exact Or.inr (Or.inl hash)
    · by_cases byte : c = '\''
      · exact Or.inr (Or.inr (Or.inl byte))
      · exact Or.inr (Or.inr (Or.inr ⟨string, hash, byte⟩))

theorem literalAfter?_of_not_opens (opensNot : ¬ OpensLiteral word) (text : List Char) :
    literalAfter? word text = none := by
  unfold literalAfter?
  exact if_neg opensNot

theorem literalAfter?_nil (word : List Char) : literalAfter? word [] = none := by
  unfold literalAfter?
  split <;> rfl

theorem opens_of_literalAfter? {text : List Char} {literal : Tag × Nat}
    (found : literalAfter? word text = some literal) : OpensLiteral word := by
  by_contra opensNot
  rw [literalAfter?_of_not_opens opensNot] at found
  cases found

theorem literalAfter?_pos {text : List Char} {tag : Tag} {length : Nat}
    (found : literalAfter? word text = some (tag, length)) : 0 < length ∧ text ≠ [] := by
  have opens := opens_of_literalAfter? found
  cases text with
  | nil =>
      rw [literalAfter?_nil] at found
      cases found
  | cons c rest =>
      refine ⟨?_, List.cons_ne_nil c rest⟩
      rcases literal_opener_cases c with rfl | rfl | rfl | ⟨notString, notHash, notByte⟩
      · rw [literalAfter?_string opens] at found
        cases found
        exact Literal.le_plainLength 1 rest
      · rw [literalAfter?_hashes opens] at found
        split at found
        · cases found
          exact Nat.lt_of_lt_of_le (Nat.succ_pos _) (Literal.le_rawLength _ _ _)
        · cases found
      · rw [literalAfter?_byte opens] at found
        split at found
        · have positive := quoted_positive rest
          rw [Option.some.inj found] at positive
          exact positive
        · cases found
      · rw [literalAfter?_other notString notHash notByte] at found
        cases found

theorem hashLength_append (text more : List Char) :
    hashLength text = min (hashLength (text ++ more)) text.length :=
  Text.length_takeWhile_append (· == '#') text more

theorem literalAfter?_of_le {text more : List Char} {tag : Tag} {length : Nat}
    (found : literalAfter? word (text ++ more) = some (tag, length))
    (inside : length ≤ text.length) : literalAfter? word text = some (tag, length) := by
  have positive := (literalAfter?_pos found).1
  have opens := opens_of_literalAfter? found
  cases text with
  | nil =>
      rw [List.length_nil] at inside
      omega
  | cons c rest =>
      rw [List.cons_append] at found
      rcases literal_opener_cases c with rfl | rfl | rfl | ⟨notString, notHash, notByte⟩
      · rw [literalAfter?_string opens] at found
        cases found
        have cut := Literal.plainLength_append 1 rest more
        rw [List.length_cons] at inside
        rw [literalAfter?_string opens, cut, Nat.min_eq_left (by omega)]
      · rw [literalAfter?_hashes opens, ← List.cons_append] at found
        split at found
        · rename_i raw
          cases found
          have atLeast := Literal.le_rawLength (hashLength ('#' :: rest ++ more))
            (hashLength ('#' :: rest ++ more) + 1)
            (('#' :: rest ++ more).drop (hashLength ('#' :: rest ++ more) + 1))
          have hashesLt : hashLength ('#' :: rest ++ more) < ('#' :: rest).length := by omega
          have same := hashLength_append ('#' :: rest) more
          rw [Nat.min_eq_left (Nat.le_of_lt hashesLt)] at same
          rw [List.getElem?_append_left hashesLt] at raw
          have hashesLe : hashLength ('#' :: rest ++ more) + 1 ≤ ('#' :: rest).length := hashesLt
          rw [List.drop_append_of_le_length hashesLe] at inside ⊢
          have cut := Literal.rawLength_append (hashLength ('#' :: rest ++ more))
            (hashLength ('#' :: rest ++ more) + 1)
            (('#' :: rest).drop (hashLength ('#' :: rest ++ more) + 1)) more
          rw [List.length_drop, Nat.min_eq_left (by omega)] at cut
          rw [literalAfter?_hashes opens, same, if_pos raw, cut]
        · cases found
      · rw [literalAfter?_byte opens] at found
        rw [literalAfter?_byte opens]
        split at found
        · rename_i byte
          have within : (quoted ('\'' :: rest ++ more)).2 ≤ ('\'' :: rest).length := by
            rw [List.cons_append, Option.some.inj found]
            exact inside
          rw [if_pos byte, quoted_of_le (List.cons_ne_nil _ _) within, List.cons_append, found]
        · cases found
      · rw [literalAfter?_other notString notHash notByte] at found
        cases found

theorem literalAfter?_of_none {text more : List Char}
    (missing : literalAfter? word (text ++ more) = none) : literalAfter? word text = none := by
  by_cases opens : OpensLiteral word
  · cases text with
    | nil => exact literalAfter?_nil word
    | cons c rest =>
        rw [List.cons_append] at missing
        rcases literal_opener_cases c with rfl | rfl | rfl | ⟨notString, notHash, notByte⟩
        · rw [literalAfter?_string opens] at missing
          cases missing
        · rw [literalAfter?_hashes opens, ← List.cons_append] at missing
          rw [literalAfter?_hashes opens]
          split
          · -- The quote that ends the number signs was there before the cut.
            rename_i raw
            exfalso
            have hashesLt := (List.getElem?_eq_some_iff.mp raw.2).1
            have same := hashLength_append ('#' :: rest) more
            have full : hashLength ('#' :: rest ++ more) = hashLength ('#' :: rest) := by omega
            rw [full, List.getElem?_append_left hashesLt, if_pos raw] at missing
            cases missing
          · rfl
        · rw [literalAfter?_byte opens] at missing
          rw [literalAfter?_byte opens]
          split at missing
          · cases missing
          · rename_i notB
            rw [if_neg notB]
        · exact literalAfter?_other notString notHash notByte rest
  · exact literalAfter?_of_not_opens opens text

theorem rawWordLength_of_le {text more : List Char}
    (inside : rawWordLength word (text ++ more) ≤ text.length) :
    rawWordLength word text = rawWordLength word (text ++ more) := by
  cases text with
  | nil => exact (Nat.le_zero.mp inside).symm
  | cons c rest =>
      by_cases hash : c = '#'
      · subst hash
        by_cases raw : word = ['r'] ∧ (rest ++ more).head?.any Text.isWordStart
        · have full : rawWordLength word ('#' :: rest ++ more) =
              1 + ((rest ++ more).takeWhile Text.isWordPart).length := if_pos raw
          rw [full, List.length_cons] at inside
          rw [full]
          cases rest with
          | nil =>
              -- The word itself would start behind the cut.
              exfalso
              cases more with
              | nil => simp at raw
              | cons d more =>
                  have starts : Text.isWordStart d = true := by simpa using raw.2
                  have part := Text.isWordPart_of_isWordStart starts
                  rw [List.nil_append, List.takeWhile_cons_of_pos part] at inside
                  simp only [List.length_cons, List.length_nil] at inside
                  omega
          | cons d rest =>
              have cutRaw : word = ['r'] ∧ (d :: rest).head?.any Text.isWordStart := raw
              have cutLength : rawWordLength word ('#' :: d :: rest) =
                  1 + ((d :: rest).takeWhile Text.isWordPart).length := if_pos cutRaw
              rw [cutLength, Text.length_takeWhile_append Text.isWordPart (d :: rest) more,
                Nat.min_eq_left (by omega)]
        · have cutRaw : ¬ (word = ['r'] ∧ rest.head?.any Text.isWordStart) := by
            cases rest with
            | nil => simp
            | cons d rest => exact raw
          have full : rawWordLength word ('#' :: rest ++ more) = 0 := if_neg raw
          rw [full]
          exact if_neg cutRaw
      · have other : ∀ rest : List Char, rawWordLength word (c :: rest) = 0 := by
          intro rest
          unfold rawWordLength
          split
          · rename_i split
            cases split
            exact absurd rfl hash
          · rfl
        rw [List.cons_append, other, other]

theorem wordOrLiteral_of_le {text more : List Char} (filled : text ≠ [])
    (inside : (wordOrLiteral (text ++ more)).2 ≤ text.length) :
    wordOrLiteral text = wordOrLiteral (text ++ more) := by
  have tail : (text ++ more).tail = text.tail ++ more := by
    cases text with
    | nil => exact absurd rfl filled
    | cons c rest => rfl
  have tailLength : text.tail.length + 1 = text.length := by
    rw [List.length_tail]
    have positive := List.length_pos_iff.mpr filled
    omega
  have cut := Text.length_takeWhile_append Text.isWordPart text.tail more
  unfold wordOrLiteral at *
  rw [tail] at inside ⊢
  dsimp only at inside ⊢
  generalize ((text.tail ++ more).takeWhile Text.isWordPart).length = wide at *
  have wordLe : 1 + wide ≤ text.length := by
    refine Nat.le_trans ?_ inside
    split <;> exact Nat.le_add_right _ _
  rw [Nat.min_eq_left (by omega)] at cut
  rw [cut]
  have afterLength : (text.drop (1 + wide)).length = text.length - (1 + wide) := List.length_drop
  rw [List.take_append_of_le_length wordLe, List.drop_append_of_le_length wordLe] at inside ⊢
  generalize text.take (1 + wide) = word at *
  generalize text.drop (1 + wide) = after at *
  cases literal : literalAfter? word (after ++ more) with
  | none =>
      rw [literal] at inside
      dsimp only at inside
      have within : rawWordLength word (after ++ more) ≤ after.length := by omega
      rw [literalAfter?_of_none literal]
      dsimp only
      rw [rawWordLength_of_le within]
  | some pair =>
      obtain ⟨tag, length⟩ := pair
      rw [literal] at inside
      dsimp only at inside
      rw [literalAfter?_of_le literal (by omega)]

private theorem raw_of_le {text more : List Char} (filled : text ≠ [])
    (raw : (Literal.rawHashes? (text ++ more)).isSome = true)
    (inside : (Literal.stringLength? (text ++ more)).getD 1 ≤ text.length) :
    (Literal.rawHashes? text).isSome = true ∧
      Literal.stringLength? text = Literal.stringLength? (text ++ more) := by
  obtain ⟨hashes, opening⟩ := Option.isSome_iff_exists.mp raw
  have measured := Literal.stringLength?_of_raw opening
  have atLeast := Literal.le_rawLength hashes (hashes + 2) ((text ++ more).drop (hashes + 2))
  rw [measured, Option.getD_some] at inside
  refine ⟨?_, (Literal.stringLength?_of_le filled measured inside).trans measured.symm⟩
  rcases Literal.rawHashes?_append filled opening with ⟨-, cutOpening⟩ | ⟨short, -⟩
  · rw [cutOpening]
    rfl
  · omega

/-- A token that ends before the cut is read the same. -/
theorem read?_of_le {text more : List Char} {tag : Tag} {length : Nat}
    (found : read? (text ++ more) = some (tag, length)) (inside : length ≤ text.length) :
    read? text = some (tag, length) := by
  have positive := (read?_pos found).1
  cases text with
  | nil =>
      rw [List.length_nil] at inside
      omega
  | cons c rest =>
      have filled : c :: rest ≠ [] := List.cons_ne_nil c rest
      rw [List.cons_append, read?, Option.some.injEq] at found
      rw [read?, Option.some.injEq]
      have within : ∀ {pair : Tag × Nat}, pair = (tag, length) → pair.2 ≤ (c :: rest).length := by
        intro pair same
        rw [same]
        exact inside
      by_cases newline : c = '\n'
      · rw [if_pos newline] at found ⊢
        exact found
      rw [if_neg newline] at found ⊢
      by_cases slashed : c = '/'
      · rw [if_pos slashed, ← List.cons_append] at found
        rw [if_pos slashed, slash_of_le (within found), found]
      rw [if_neg slashed] at found ⊢
      by_cases string : c = '"'
      · rw [if_pos string] at found ⊢
        cases found
        have cut := Literal.plainLength_append 1 rest more
        rw [List.length_cons] at inside
        rw [cut, Nat.min_eq_left (by omega)]
      rw [if_neg string] at found ⊢
      by_cases quote : c = '\''
      · rw [if_pos quote, ← List.cons_append] at found
        rw [if_pos quote, quoted_of_le filled (within found), found]
      rw [if_neg quote, ← List.cons_append] at found
      rw [if_neg quote]
      by_cases raw : c = 'r' ∧ (Literal.rawHashes? (c :: rest ++ more)).isSome
      · rw [if_pos raw] at found
        obtain ⟨cutRaw, sameLength⟩ := raw_of_le filled raw.2 (within found)
        rw [if_pos ⟨raw.1, cutRaw⟩, sameLength, found]
      rw [if_neg raw] at found
      have cutRaw : ¬ (c = 'r' ∧ (Literal.rawHashes? (c :: rest)).isSome) := by
        rintro ⟨isR, opens⟩
        obtain ⟨hashes, opening⟩ := Option.isSome_iff_exists.mp opens
        exact raw ⟨isR, by rw [Literal.rawHashes?_of_cut opening]; rfl⟩
      rw [if_neg cutRaw]
      by_cases wordStart : Text.isWordStart c = true
      · rw [if_pos wordStart] at found ⊢
        rw [wordOrLiteral_of_le filled (within found), found]
      rw [if_neg wordStart] at found ⊢
      by_cases digit : Text.isAsciiDigit c = true
      · rw [if_pos digit] at found ⊢
        cases found
        rw [List.length_cons] at inside
        rw [numberLength_of_le 1 rest more (by omega)]
      rw [if_neg digit] at found ⊢
      by_cases blank : Text.isBlank c = true
      · rw [if_pos blank] at found ⊢
        cases found
        rw [List.length_cons] at inside
        rw [Text.length_takeWhile_append _ rest more, Nat.min_eq_left (by omega)]
      · rw [if_neg blank] at found ⊢
        exact found

/-! ### Blanks -/

/-- No range of white space meets a range of letters. -/
theorem whiteSpace_alphabetic_disjoint :
    ∀ space ∈ Text.whiteSpaceRanges, ∀ letters ∈ Text.alphabeticRanges,
      letters.2 < space.1 ∨ space.2 < letters.1 := by
  decide +kernel

theorem isAlphabetic_of_isWhiteSpace {c : Char} (space : Text.isWhiteSpace c = true) :
    Text.isAlphabetic c = false := by
  unfold Text.isWhiteSpace at space
  by_cases ascii : c.toNat < 0x80
  · rw [if_pos ascii] at space
    rw [Text.isAlphabetic_of_ascii ascii]
    have low : c.toNat < 65 := by
      rw [Bool.or_eq_true, beq_iff_eq] at space
      rcases space with rfl | control
      · decide
      · rw [Bool.and_eq_true, decide_eq_true_iff, decide_eq_true_iff] at control
        omega
    rw [Bool.eq_false_iff]
    intro alpha
    unfold Char.isAlpha Char.isUpper Char.isLower at alpha
    simp only [Bool.or_eq_true, Bool.and_eq_true, decide_eq_true_iff, UInt32.le_iff_toNat_le] at alpha
    change c.val.toNat < 65 at low
    rcases alpha with ⟨upper, -⟩ | ⟨lower, -⟩
    · change 65 ≤ c.val.toNat at upper
      omega
    · change 97 ≤ c.val.toNat at lower
      omega
  · rw [if_neg ascii, Text.Ranges.contains_iff] at space
    obtain ⟨range, rangeMember, low, high⟩ := space
    unfold Text.isAlphabetic
    rw [if_neg ascii, Bool.eq_false_iff]
    intro alphabetic
    obtain ⟨letters, lettersMember, lettersLow, lettersHigh⟩ :=
      (Text.Ranges.contains_iff _ _).mp alphabetic
    have apart := whiteSpace_alphabetic_disjoint range rangeMember letters lettersMember
    omega

theorem isWordStart_of_isBlank {c : Char} (blank : Text.isBlank c = true) :
    Text.isWordStart c = false := by
  unfold Text.isBlank at blank
  rw [Bool.or_eq_true, beq_iff_eq] at blank
  rcases blank with space | rfl
  · unfold Text.isWordStart
    rw [isAlphabetic_of_isWhiteSpace space, Bool.or_false, beq_eq_false_iff_ne]
    rintro rfl
    revert space
    decide
  · decide +kernel

theorem not_isAsciiDigit_of_isBlank {c : Char} (blank : Text.isBlank c = true) :
    ¬ Text.isAsciiDigit c = true := by
  intro digit
  unfold Text.isAsciiDigit Char.isDigit at digit
  simp only [Bool.and_eq_true, decide_eq_true_iff, UInt32.le_iff_toNat_le] at digit
  have low : 48 ≤ c.toNat := digit.1
  have high : c.toNat ≤ 57 := digit.2
  unfold Text.isBlank Text.isWhiteSpace at blank
  rw [if_pos (by omega), Bool.or_eq_true, Bool.or_eq_true, beq_iff_eq, beq_iff_eq,
    Bool.and_eq_true, decide_eq_true_iff, decide_eq_true_iff] at blank
  rcases blank with (rfl | control) | rfl
  · revert low
    decide
  · omega
  · revert high
    decide

theorem isTrivia_of_blank {text : List Char} {tag : Tag} {length : Nat}
    (read : read? text = some (tag, length))
    (blank : ∀ c, text.head? = some c → Text.isBlank c = true) : tag.isTrivia = true := by
  cases text with
  | nil => cases read
  | cons c rest =>
      have isBlank := blank c rfl
      have notWord : ¬ Text.isWordStart c = true := by
        rw [isWordStart_of_isBlank isBlank]
        exact Bool.false_ne_true
      have notDigit : ¬ Text.isAsciiDigit c = true := not_isAsciiDigit_of_isBlank isBlank
      have different : ∀ other : Char, Text.isBlank other = false → c ≠ other := by
        rintro other notBlank rfl
        rw [notBlank] at isBlank
        cases isBlank
      have notRaw : ¬ (c = 'r' ∧ (Literal.rawHashes? (c :: rest)).isSome) :=
        fun raw => different 'r' (by decide) raw.1
      rw [read?, Option.some.injEq] at read
      by_cases newline : c = '\n'
      · rw [if_pos newline] at read
        cases read
        rfl
      · rw [if_neg newline, if_neg (different '/' (by decide)), if_neg (different '"' (by decide)),
          if_neg (different '\'' (by decide)), if_neg notRaw, if_neg notWord, if_neg notDigit,
          if_pos isBlank] at read
        cases read
        rfl

end Token

namespace Cursor

/-- The same place, with more text behind what remains. -/
def extend (cursor : Cursor) (more : List Char) : Cursor := ⟨cursor.rest ++ more, cursor.place⟩

variable {cursor : Cursor} {more : List Char}

@[simp] theorem extend_rest (cursor : Cursor) (more : List Char) :
    (cursor.extend more).rest = cursor.rest ++ more := rfl

@[simp] theorem extend_place (cursor : Cursor) (more : List Char) :
    (cursor.extend more).place = cursor.place := rfl

theorem extend_skip {count : Nat} (inside : count ≤ cursor.rest.length) :
    (cursor.extend more).skip count = (cursor.skip count).extend more := by
  unfold skip extend
  dsimp only
  rw [List.drop_append_of_le_length inside, List.take_append_of_le_length inside]

theorem extend_window {count : Nat} (inside : count ≤ cursor.rest.length) :
    (cursor.extend more).window count = cursor.window count := by
  unfold window extend
  dsimp only
  rw [List.take_append_of_le_length inside]

/-- A significant token that ends before the cut is the same, and so are the trivia
before it. -/
theorem significant?_of_le {token : Token} {length : Nat}
    (found : (cursor.extend more).significant? = some (token, length))
    (inside : length ≤ cursor.rest.length) : cursor.significant? = some (token, length) := by
  induction size : cursor.rest.length using Nat.strongRecOn generalizing cursor token length with
  | ind size ih =>
      subst size
      rw [significant?_eq, extend_rest] at found
      cases read : Token.read? (cursor.rest ++ more) with
      | none =>
          rw [read] at found
          cases found
      | some pair =>
          obtain ⟨tag, first⟩ := pair
          have positive := (Token.read?_pos read).1
          rw [read] at found
          dsimp only at found
          rw [significant?_eq]
          by_cases isTrivia : tag.isTrivia = true
          · rw [if_pos isTrivia] at found
            cases later : significant? ((cursor.extend more).skip first) with
            | none =>
                rw [later] at found
                cases found
            | some pair =>
                obtain ⟨next, rest⟩ := pair
                rw [later] at found
                cases found
                have firstLe : first ≤ cursor.rest.length := by omega
                rw [extend_skip firstLe] at later
                have lengths : (cursor.skip first).rest.length = cursor.rest.length - first :=
                  List.length_drop
                have cutLater := ih _ (by omega) later (by omega) rfl
                rw [Token.read?_of_le read firstLe]
                dsimp only
                rw [if_pos isTrivia, cutLater]
                rfl
          · rw [if_neg isTrivia] at found
            cases found
            rw [Token.read?_of_le read inside]
            dsimp only
            rw [if_neg isTrivia, List.take_append_of_le_length inside]
            rfl

theorem extend_nil (cursor : Cursor) : cursor.extend [] = cursor := by
  unfold extend
  rw [List.append_nil]

/-- Blanks alone have no significant token. -/
theorem significant?_of_blank (blank : ∀ c ∈ cursor.rest, Text.isBlank c = true) :
    cursor.significant? = none := by
  induction size : cursor.rest.length using Nat.strongRecOn generalizing cursor with
  | ind size ih =>
      subst size
      cases read : Token.read? cursor.rest with
      | none => rw [significant?_eq, read]
      | some pair =>
          obtain ⟨tag, length⟩ := pair
          have shorter := Token.length_drop_lt read
          rw [significant?_eq, read]
          dsimp only
          rw [if_pos (Token.isTrivia_of_blank read (fun c first => blank c (List.mem_of_head? first))),
            ih _ shorter (fun c member => blank c (List.mem_of_mem_drop member)) rfl]
          rfl

/-- Nothing more follows what is no longer than before. -/
theorem extend_of_length_le (short : (cursor.extend more).rest.length ≤ cursor.rest.length) :
    cursor.extend more = cursor := by
  rw [extend_rest, List.length_append] at short
  have nothing : more = [] := List.length_eq_zero_iff.mp (by omega)
  rw [nothing, extend_nil]

end Cursor

namespace Finding

variable {cursor : Cursor} {more : List Char} {token : Token}

theorem qualifierLength?_of_le {length : Nat}
    (found : qualifierLength? token (cursor.extend more) = some length)
    (inside : length ≤ cursor.rest.length) :
    qualifierLength? token cursor = some length := by
  unfold qualifierLength? at *
  by_cases hash : token.tag = .hash
  · rw [if_pos hash] at found ⊢
    cases found
    rw [Cursor.extend_rest] at *
    rw [Attribute.skipLength_of_le inside]
  rw [if_neg hash] at found ⊢
  by_cases paren : token.tag = .openParen
  · rw [if_pos paren] at found ⊢
    cases found
    rw [Cursor.extend_rest] at *
    rw [Delimiter.closeLength_of_le inside]
  rw [if_neg paren] at found ⊢
  exact found

theorem qualifierLength?_of_none (missing : qualifierLength? token (cursor.extend more) = none) :
    qualifierLength? token cursor = none := by
  unfold qualifierLength? at *
  by_cases hash : token.tag = .hash
  · rw [if_pos hash] at missing
    cases missing
  rw [if_neg hash] at missing ⊢
  by_cases paren : token.tag = .openParen
  · rw [if_pos paren] at missing
    cases missing
  rw [if_neg paren] at missing ⊢
  exact missing

theorem nameAfterKeyword_of_le
    (inside : (nameAfterKeyword (cursor.extend more)).length ≤ cursor.rest.length) :
    nameAfterKeyword cursor = nameAfterKeyword (cursor.extend more) := by
  cases next : (cursor.extend more).significant? with
  | none =>
      have length : (nameAfterKeyword (cursor.extend more)).length =
          (cursor.extend more).rest.length := by
        unfold nameAfterKeyword
        rw [next]
      rw [length] at inside
      rw [Cursor.extend_of_length_le inside]
  | some pair =>
      obtain ⟨token, length⟩ := pair
      unfold nameAfterKeyword at *
      rw [next] at inside ⊢
      rw [Cursor.significant?_of_le next inside]

theorem markedName_of_none (atEnd : cursor.significant? = none) :
    markedName cursor = ⟨none, cursor.rest.length⟩ := by
  rw [markedName_eq, atEnd]

theorem markedName_of_qualifier {length further : Nat}
    (next : cursor.significant? = some (token, length))
    (qualified : qualifierLength? token (cursor.skip length) = some further) :
    markedName cursor =
      ⟨(markedName (cursor.skip (length + further))).name?,
        length + further + (markedName (cursor.skip (length + further))).length⟩ := by
  rw [markedName_eq, next]
  dsimp only
  rw [qualified]

theorem markedName_of_function {length : Nat} (next : cursor.significant? = some (token, length))
    (qualifies : qualifierLength? token (cursor.skip length) = none)
    (isFunction : token.keyword? = some .function) :
    markedName cursor =
      ⟨(nameAfterKeyword (cursor.skip length)).name?,
        length + (nameAfterKeyword (cursor.skip length)).length⟩ := by
  rw [markedName_eq, next]
  dsimp only
  rw [qualifies]
  exact if_pos isFunction

theorem markedName_of_other {length : Nat} (next : cursor.significant? = some (token, length))
    (qualifies : qualifierLength? token (cursor.skip length) = none)
    (other : token.keyword? ≠ some .function) : markedName cursor = ⟨none, length⟩ := by
  rw [markedName_eq, next]
  dsimp only
  rw [qualifies]
  exact if_neg other

/-- A search goes beyond the first token. -/
theorem length_le_markedName {length : Nat} (next : cursor.significant? = some (token, length)) :
    length ≤ (markedName cursor).length := by
  cases qualified : qualifierLength? token (cursor.skip length) with
  | some further =>
      rw [markedName_of_qualifier next qualified]
      dsimp only
      omega
  | none =>
      by_cases isFunction : token.keyword? = some .function
      · rw [markedName_of_function next qualified isFunction]
        exact Nat.le_add_right _ _
      · have searched := markedName_of_other next qualified isFunction
        exact Nat.le_of_eq (congrArg NameSearch.length searched).symm

/-- A search for a name that ends before the cut comes to the same. -/
theorem markedName_of_le
    (inside : (markedName (cursor.extend more)).length ≤ cursor.rest.length) :
    markedName cursor = markedName (cursor.extend more) := by
  induction size : cursor.rest.length using Nat.strongRecOn generalizing cursor with
  | ind size ih =>
      subst size
      cases next : (cursor.extend more).significant? with
      | none =>
          rw [markedName_of_none next] at inside
          rw [Cursor.extend_of_length_le inside]
      | some pair =>
          obtain ⟨token, length⟩ := pair
          have positive := (Cursor.significant?_pos next).1
          have lengthLe := Nat.le_trans (length_le_markedName next) inside
          have cutNext := Cursor.significant?_of_le next lengthLe
          have skipped : (cursor.extend more).skip length = (cursor.skip length).extend more :=
            Cursor.extend_skip lengthLe
          have lengths : (cursor.skip length).rest.length = cursor.rest.length - length :=
            List.length_drop
          cases qualified : qualifierLength? token ((cursor.extend more).skip length) with
          | none =>
              have cutQualified := qualified
              rw [skipped] at cutQualified
              replace cutQualified := qualifierLength?_of_none cutQualified
              by_cases isFunction : token.keyword? = some .function
              · rw [markedName_of_function next qualified isFunction, skipped] at inside ⊢
                dsimp only at inside
                have within : (nameAfterKeyword ((cursor.skip length).extend more)).length ≤
                    (cursor.skip length).rest.length := by omega
                rw [markedName_of_function cutNext cutQualified isFunction,
                  nameAfterKeyword_of_le within]
              · rw [markedName_of_other next qualified isFunction,
                  markedName_of_other cutNext cutQualified isFunction]
          | some further =>
              rw [markedName_of_qualifier next qualified] at inside ⊢
              dsimp only at inside
              have furtherLe : length + further ≤ cursor.rest.length := by omega
              have furtherLengths : (cursor.skip (length + further)).rest.length =
                  cursor.rest.length - (length + further) := List.length_drop
              have cutQualified : qualifierLength? token (cursor.skip length) = some further := by
                rw [skipped] at qualified
                exact qualifierLength?_of_le qualified (by omega)
              rw [Cursor.extend_skip furtherLe] at inside ⊢
              rw [markedName_of_qualifier cutNext cutQualified, ih _ (by omega) (by omega) rfl]

end Finding
end Survey
