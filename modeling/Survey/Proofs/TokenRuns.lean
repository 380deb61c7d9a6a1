import Survey.Proofs.CutTokens

set_option autoImplicit false

/-!
# Runs of whole tokens

`Token.Reading` lists what the token at the start of a text can be; it is the reader
spelled out as a relation. A run is a number of characters that are whole tokens. Runs
from one place are comparable, since reading is deterministic, and a run that ends
before a cut is a run of the cut text, because each of its tokens is.
-/

namespace Survey

namespace Token

/-- The token at the start of a text, by what its first character is. -/
inductive Reading : List Char → Tag → Nat → Prop
  | newline (rest : List Char) : Reading ('\n' :: rest) .newline 1
  | slash {rest : List Char} {tag : Tag} {length : Nat}
      (read : slash ('/' :: rest) = (tag, length)) : Reading ('/' :: rest) tag length
  | string (rest : List Char) : Reading ('"' :: rest) .string (Literal.plainLength 1 rest)
  | quote {rest : List Char} {tag : Tag} {length : Nat}
      (read : quoted ('\'' :: rest) = (tag, length)) : Reading ('\'' :: rest) tag length
  | raw {text : List Char} {hashes : Nat} (opens : Literal.rawHashes? text = some hashes) :
      Reading text .string (Literal.rawLength hashes (hashes + 2) (text.drop (hashes + 2)))
  | literal {c : Char} {word after : List Char} {tag : Tag} {more : Nat}
      (starts : Text.isWordStart c = true) (parts : ∀ d ∈ word, Text.isWordPart d = true)
      (ends : ∀ d, after.head? = some d → Text.isWordPart d = false)
      (notRaw : Literal.rawHashes? (c :: (word ++ after)) = none)
      (found : literalAfter? (c :: word) after = some (tag, more)) :
      Reading (c :: (word ++ after)) tag ((c :: word).length + more)
  | word {c : Char} {word after : List Char}
      (starts : Text.isWordStart c = true) (parts : ∀ d ∈ word, Text.isWordPart d = true)
      (ends : ∀ d, after.head? = some d → Text.isWordPart d = false)
      (notRaw : Literal.rawHashes? (c :: (word ++ after)) = none)
      (missing : literalAfter? (c :: word) after = none) :
      Reading (c :: (word ++ after)) .word ((c :: word).length + rawWordLength (c :: word) after)
  | number {c : Char} (rest : List Char) (notStart : Text.isWordStart c = false)
      (digit : Text.isAsciiDigit c = true) : Reading (c :: rest) .number (numberLength 1 rest)
  | blank {c : Char} (rest : List Char) (inLine : c ≠ '\n') (blank : Text.isBlank c = true) :
      Reading (c :: rest) .blank
        (1 + (rest.takeWhile fun c => c != '\n' && Text.isBlank c).length)
  | punctuation {c : Char} (rest : List Char)
      (other : c ≠ '\n' ∧ c ≠ '/' ∧ c ≠ '"' ∧ c ≠ '\'') (notStart : Text.isWordStart c = false)
      (notDigit : Text.isAsciiDigit c = false) (notBlank : Text.isBlank c = false) :
      Reading (c :: rest) (punctuationTag c) 1

/-- What starts a word starts nothing else. -/
theorem not_special_of_isWordStart {c : Char} (starts : Text.isWordStart c = true) :
    c ≠ '\n' ∧ c ≠ '/' ∧ c ≠ '"' ∧ c ≠ '\'' := by
  refine ⟨?_, ?_, ?_, ?_⟩ <;>
  · rintro rfl
    revert starts
    decide

theorem not_special_of_isAsciiDigit {c : Char} (digit : Text.isAsciiDigit c = true) :
    c ≠ '\n' ∧ c ≠ '/' ∧ c ≠ '"' ∧ c ≠ '\'' := by
  refine ⟨?_, ?_, ?_, ?_⟩ <;>
  · rintro rfl
    revert digit
    decide

theorem not_special_of_isBlank {c : Char} (blank : Text.isBlank c = true) :
    c ≠ '/' ∧ c ≠ '"' ∧ c ≠ '\'' := by
  refine ⟨?_, ?_, ?_⟩ <;>
  · rintro rfl
    revert blank
    decide

theorem rawHashes?_of_ne {c : Char} (other : c ≠ 'r') (rest : List Char) :
    Literal.rawHashes? (c :: rest) = none := by
  unfold Literal.rawHashes?
  split
  · rename_i same
    cases same
    exact absurd rfl other
  · rfl

theorem read?_raw {text : List Char} {hashes : Nat}
    (opens : Literal.rawHashes? text = some hashes) :
    read? text =
      some (.string, Literal.rawLength hashes (hashes + 2) (text.drop (hashes + 2))) := by
  obtain ⟨rest, rfl⟩ := (Literal.rawHashes?_eq_some_iff text hashes).mp opens
  have isRaw : (Literal.rawHashes? ('r' :: (List.replicate hashes '#' ++ '"' :: rest))).isSome =
      true := by
    rw [opens]
    rfl
  rw [read?, if_neg (by decide), if_neg (by decide), if_neg (by decide), if_neg (by decide),
    if_pos ⟨rfl, isRaw⟩, Literal.stringLength?_of_raw opens, Option.getD_some]

theorem read?_wordStart {c : Char} {rest : List Char} (starts : Text.isWordStart c = true)
    (notRaw : Literal.rawHashes? (c :: rest) = none) :
    read? (c :: rest) = some (wordOrLiteral (c :: rest)) := by
  obtain ⟨notNewline, notSlash, notString, notQuote⟩ := not_special_of_isWordStart starts
  rw [read?, if_neg notNewline, if_neg notSlash, if_neg notString, if_neg notQuote,
    if_neg (by rw [notRaw]; simp), if_pos starts]

private theorem takeWhile_word {word after : List Char}
    (parts : ∀ d ∈ word, Text.isWordPart d = true)
    (ends : ∀ d, after.head? = some d → Text.isWordPart d = false) :
    (word ++ after).takeWhile Text.isWordPart = word := by
  rw [List.takeWhile_append_of_pos parts]
  cases after with
  | nil => simp
  | cons d after =>
      rw [List.takeWhile_cons_of_neg (by rw [ends d rfl]; exact Bool.false_ne_true),
        List.append_nil]

theorem wordOrLiteral_append {c : Char} {word after : List Char}
    (parts : ∀ d ∈ word, Text.isWordPart d = true)
    (ends : ∀ d, after.head? = some d → Text.isWordPart d = false) :
    wordOrLiteral (c :: (word ++ after)) =
      match literalAfter? (c :: word) after with
      | some (tag, more) => (tag, (c :: word).length + more)
      | none => (.word, (c :: word).length + rawWordLength (c :: word) after) := by
  have length : 1 + ((c :: (word ++ after)).tail.takeWhile Text.isWordPart).length =
      (c :: word).length := by
    rw [List.tail_cons, takeWhile_word parts ends, List.length_cons,
      Nat.add_comm]
  have taken : (c :: (word ++ after)).take (c :: word).length = c :: word := by
    rw [← List.cons_append, List.take_left]
  have left : (c :: (word ++ after)).drop (c :: word).length = after := by
    rw [← List.cons_append, List.drop_left]
  unfold wordOrLiteral
  dsimp only
  cases found : literalAfter? (c :: word) after with
  | none => rw [length, taken, left, found]
  | some literal => rw [length, taken, left, found]

theorem Reading.read? {text : List Char} {tag : Tag} {length : Nat}
    (reading : Reading text tag length) : read? text = some (tag, length) := by
  cases reading with
  | newline rest => rfl
  | slash read => rw [Token.read?, if_neg (by decide), if_pos rfl, read]
  | string rest => rfl
  | quote read =>
      rw [Token.read?, if_neg (by decide), if_neg (by decide), if_neg (by decide), if_pos rfl, read]
  | raw opens => exact read?_raw opens
  | literal starts parts ends notRaw found =>
      rw [read?_wordStart starts notRaw, wordOrLiteral_append parts ends, found]
  | word starts parts ends notRaw missing =>
      rw [read?_wordStart starts notRaw, wordOrLiteral_append parts ends, missing]
  | @number c rest notStart digit =>
      obtain ⟨notNewline, notSlash, notString, notQuote⟩ := not_special_of_isAsciiDigit digit
      have notRaw : ¬ (c = 'r' ∧ (Literal.rawHashes? (c :: rest)).isSome = true) := by
        rintro ⟨rfl, -⟩
        revert digit
        decide
      rw [Token.read?, if_neg notNewline, if_neg notSlash, if_neg notString, if_neg notQuote,
        if_neg notRaw, if_neg (by rw [notStart]; exact Bool.false_ne_true), if_pos digit]
  | @blank c rest inLine blank =>
      obtain ⟨notSlash, notString, notQuote⟩ := not_special_of_isBlank blank
      have notRaw : ¬ (c = 'r' ∧ (Literal.rawHashes? (c :: rest)).isSome = true) := by
        rintro ⟨rfl, -⟩
        revert blank
        decide
      rw [Token.read?, if_neg inLine, if_neg notSlash, if_neg notString, if_neg notQuote,
        if_neg notRaw, if_neg (by rw [isWordStart_of_isBlank blank]; exact Bool.false_ne_true),
        if_neg (not_isAsciiDigit_of_isBlank blank), if_pos blank]
  | @punctuation c rest other notStart notDigit notBlank =>
      obtain ⟨notNewline, notSlash, notString, notQuote⟩ := other
      have notRaw : ¬ (c = 'r' ∧ (Literal.rawHashes? (c :: rest)).isSome = true) := by
        rintro ⟨rfl, -⟩
        revert notStart
        decide
      rw [Token.read?, if_neg notNewline, if_neg notSlash, if_neg notString, if_neg notQuote,
        if_neg notRaw, if_neg (by rw [notStart]; exact Bool.false_ne_true),
        if_neg (by rw [notDigit]; exact Bool.false_ne_true),
        if_neg (by rw [notBlank]; exact Bool.false_ne_true)]

/-- A word and what follows it, at the start of a text. -/
private theorem exists_word (rest : List Char) :
    ∃ word after, rest = word ++ after ∧ (∀ d ∈ word, Text.isWordPart d = true) ∧
      ∀ d, after.head? = some d → Text.isWordPart d = false := by
  refine ⟨rest.takeWhile Text.isWordPart, rest.dropWhile Text.isWordPart,
    List.takeWhile_append_dropWhile.symm, ?_, ?_⟩
  · intro d member
    exact List.all_eq_true.mp List.all_takeWhile d member
  · intro d first
    have stops := List.head?_dropWhile_not Text.isWordPart rest
    rw [first] at stops
    simpa using stops

theorem reading_of_read? {text : List Char} {tag : Tag} {length : Nat}
    (read : read? text = some (tag, length)) : Reading text tag length := by
  cases text with
  | nil => cases read
  | cons c rest =>
      cases raw : Literal.rawHashes? (c :: rest) with
      | some hashes =>
          rw [read?_raw raw] at read
          cases read
          exact .raw raw
      | none =>
          by_cases starts : Text.isWordStart c = true
          · obtain ⟨word, after, rfl, parts, ends⟩ := exists_word rest
            rw [read?_wordStart starts raw, wordOrLiteral_append parts ends, Option.some.injEq] at read
            cases found : literalAfter? (c :: word) after with
            | some pair =>
                rw [found] at read
                cases read
                exact .literal starts parts ends raw found
            | none =>
                rw [found] at read
                cases read
                exact .word starts parts ends raw found
          · have notRaw : ¬ (c = 'r' ∧ (Literal.rawHashes? (c :: rest)).isSome = true) := by
              rw [raw]
              simp
            rw [read?, if_neg notRaw, if_neg starts, Option.some.injEq] at read
            split at read
            · rename_i isNewline
              subst isNewline
              cases read
              exact .newline rest
            · rename_i notNewline
              split at read
              · rename_i isSlash
                subst isSlash
                exact .slash read
              · rename_i notSlash
                split at read
                · rename_i isString
                  subst isString
                  cases read
                  exact .string rest
                · rename_i notString
                  split at read
                  · rename_i isQuote
                    subst isQuote
                    exact .quote read
                  · rename_i notQuote
                    split at read
                    · rename_i digit
                      cases read
                      exact .number rest (Bool.eq_false_iff.mpr starts) digit
                    · rename_i notDigit
                      split at read
                      · rename_i blank
                        cases read
                        exact .blank rest notNewline blank
                      · rename_i notBlank
                        cases read
                        exact .punctuation rest ⟨notNewline, notSlash, notString, notQuote⟩
                          (Bool.eq_false_iff.mpr starts) (Bool.eq_false_iff.mpr notDigit)
                          (Bool.eq_false_iff.mpr notBlank)

/-! ### Lengths -/

theorem quoted_eq {rest : List Char} {tag : Tag} {length : Nat}
    (read : quoted ('\'' :: rest) = (tag, length)) :
    ∃ quote, Literal.quote? ('\'' :: rest) = some (quote, length) ∧
      tag = match quote with
        | .character => .character
        | .lifetime => .lifetime := by
  unfold quoted at read
  cases found : Literal.quote? ('\'' :: rest) with
  | none =>
      rw [Literal.quote?_eq_none_iff] at found
      exact absurd rfl found
  | some pair =>
      obtain ⟨quote, size⟩ := pair
      rw [found] at read
      cases quote <;>
      · cases read
        exact ⟨_, rfl, rfl⟩

theorem slash_eq {rest : List Char} {tag : Tag} {length : Nat}
    (read : slash ('/' :: rest) = (tag, length)) :
    (Comment.length? ('/' :: rest) = some length ∧ tag.isTrivia = true ∧ tag ≠ .blank ∧
        tag ≠ .newline) ∨
      (Comment.length? ('/' :: rest) = none ∧ tag = .slash ∧ length = 1) := by
  unfold slash at read
  cases found : Comment.length? ('/' :: rest) with
  | none =>
      rw [found] at read
      cases read
      exact .inr ⟨rfl, rfl, rfl⟩
  | some size =>
      rw [found] at read
      dsimp only at read
      left
      split at read <;>
      · cases read
        exact ⟨rfl, rfl, by decide, by decide⟩

theorem plainLength_le (taken : Nat) (text : List Char) :
    Literal.plainLength taken text ≤ taken + text.length := by
  have cut := Literal.plainLength_append taken text []
  omega

theorem rawLength_le (hashes taken : Nat) (text : List Char) :
    Literal.rawLength hashes taken text ≤ taken + text.length := by
  have cut := Literal.rawLength_append hashes taken text []
  omega

theorem quote?_length_le {rest : List Char} {quote : Literal.Quote} {length : Nat}
    (found : Literal.quote? ('\'' :: rest) = some (quote, length)) :
    length ≤ ('\'' :: rest).length :=
  Atom.read?_length_le (Atom.read?_of_quote rfl rfl found)

theorem literalAfter?_length_le {word after : List Char} {tag : Tag} {more : Nat}
    (found : literalAfter? word after = some (tag, more)) : more ≤ after.length := by
  have opens := opens_of_literalAfter? found
  cases after with
  | nil =>
      rw [literalAfter?_nil] at found
      cases found
  | cons c rest =>
      rcases literal_opener_cases c with rfl | rfl | rfl | ⟨notString, notHash, notByte⟩
      · rw [literalAfter?_string opens] at found
        cases found
        have bound := plainLength_le 1 rest
        rw [List.length_cons]
        omega
      · rw [literalAfter?_hashes opens] at found
        split at found
        · rename_i quoted
          cases found
          obtain ⟨inside, -⟩ := List.getElem?_eq_some_iff.mp quoted.2
          have bound := rawLength_le (hashLength ('#' :: rest)) (hashLength ('#' :: rest) + 1)
            (('#' :: rest).drop (hashLength ('#' :: rest) + 1))
          rw [List.length_drop] at bound
          omega
        · cases found
      · rw [literalAfter?_byte opens] at found
        split at found
        · obtain ⟨quote, read, -⟩ := quoted_eq (Option.some.inj found)
          exact quote?_length_le read
        · cases found
      · rw [literalAfter?_other notString notHash notByte] at found
        cases found

theorem rawWordLength_le (word after : List Char) : rawWordLength word after ≤ after.length := by
  unfold rawWordLength
  split
  · rename_i rest
    have bound := (List.takeWhile_prefix (l := rest) Text.isWordPart).length_le
    split
    · rw [List.length_cons]
      omega
    · exact Nat.zero_le _
  · exact Nat.zero_le _

theorem numberLength_le (taken : Nat) (text : List Char) :
    numberLength taken text ≤ taken + text.length := by
  fun_induction numberLength taken text with
  | case1 taken => exact Nat.le_refl _
  | case2 taken c rest goesOn ih =>
      rw [List.length_cons]
      omega
  | case3 taken c rest ends => exact Nat.le_add_right _ _

theorem Reading.length_le {text : List Char} {tag : Tag} {length : Nat}
    (reading : Reading text tag length) : length ≤ text.length := by
  cases reading with
  | newline rest => simp
  | slash read =>
      rcases slash_eq read with ⟨commented, -⟩ | ⟨-, -, rfl⟩
      · exact Atom.read?_length_le (Atom.read?_of_comment commented)
      · simp
  | string rest =>
      have bound := plainLength_le 1 rest
      rw [List.length_cons]
      omega
  | quote read =>
      obtain ⟨quote, found, -⟩ := quoted_eq read
      exact quote?_length_le found
  | @raw _ hashes opens =>
      obtain ⟨rest, rfl⟩ := (Literal.rawHashes?_eq_some_iff text hashes).mp opens
      have bound := rawLength_le hashes (hashes + 2)
        (('r' :: (List.replicate hashes '#' ++ '"' :: rest)).drop (hashes + 2))
      rw [List.length_drop] at bound
      simp only [List.length_cons, List.length_append, List.length_replicate] at bound ⊢
      omega
  | literal starts parts ends notRaw found =>
      have bound := literalAfter?_length_le found
      simp only [List.length_cons, List.length_append]
      omega
  | @word c word after starts parts ends notRaw missing =>
      have bound := rawWordLength_le (c :: word) after
      simp only [List.length_cons, List.length_append]
      omega
  | number rest notStart digit =>
      have bound := numberLength_le 1 rest
      rw [List.length_cons]
      omega
  | blank rest inLine blank =>
      have bound := (List.takeWhile_prefix (l := rest)
        fun c => c != '\n' && Text.isBlank c).length_le
      rw [List.length_cons]
      omega
  | punctuation rest other notStart notDigit notBlank => simp

theorem read?_length_le {text : List Char} {tag : Tag} {length : Nat}
    (read : read? text = some (tag, length)) : length ≤ text.length :=
  (reading_of_read? read).length_le

/-- A token that ends before the cut is the token of the cut text. -/
theorem read?_take {text : List Char} {tag : Tag} {length limit : Nat}
    (read : read? text = some (tag, length)) (inside : length ≤ limit) :
    read? (text.take limit) = some (tag, length) := by
  have bound := read?_length_le read
  rw [← List.take_append_drop limit text] at read
  refine read?_of_le read ?_
  rw [List.length_take]
  omega

/-! ### Classes -/

theorem literalAfter?_tag {word after : List Char} {tag : Tag} {more : Nat}
    (found : literalAfter? word after = some (tag, more)) :
    tag = .string ∨ tag = .character ∨ tag = .lifetime := by
  have opens := opens_of_literalAfter? found
  cases after with
  | nil =>
      rw [literalAfter?_nil] at found
      cases found
  | cons c rest =>
      rcases literal_opener_cases c with rfl | rfl | rfl | ⟨notString, notHash, notByte⟩
      · rw [literalAfter?_string opens] at found
        cases found
        exact .inl rfl
      · rw [literalAfter?_hashes opens] at found
        split at found
        · cases found
          exact .inl rfl
        · cases found
      · rw [literalAfter?_byte opens] at found
        split at found
        · obtain ⟨quote, -, rfl⟩ := quoted_eq (Option.some.inj found)
          cases quote with
          | character => exact .inr (.inl rfl)
          | lifetime => exact .inr (.inr rfl)
        · cases found
      · rw [literalAfter?_other notString notHash notByte] at found
        cases found

/-- The classes of tokens that are one character of punctuation. -/
def isMark : Tag → Bool
  | .word | .lifetime | .number | .string | .character | .blank | .newline | .lineComment
  | .blockComment | .slash | .endOfText => false
  | _ => true

theorem isMark_of_isTrivia {tag : Tag} (trivia : tag.isTrivia = true) : isMark tag = false := by
  cases tag <;> first | rfl | cases trivia

theorem read?_mark {text : List Char} {tag : Tag} {length : Nat}
    (read : read? text = some (tag, length)) (marks : isMark tag = true) :
    ∃ c rest, text = c :: rest ∧ length = 1 ∧ punctuationTag c = tag := by
  cases reading_of_read? read with
  | newline rest => cases marks
  | slash read =>
      rcases slash_eq read with ⟨-, trivia, -⟩ | ⟨-, rfl, -⟩
      · rw [isMark_of_isTrivia trivia] at marks
        cases marks
      · cases marks
  | string rest => cases marks
  | quote read =>
      obtain ⟨quote, -, rfl⟩ := quoted_eq read
      cases quote <;> cases marks
  | raw opens => cases marks
  | literal starts parts ends notRaw found =>
      rcases literalAfter?_tag found with rfl | rfl | rfl <;> cases marks
  | word starts parts ends notRaw missing => cases marks
  | number rest notStart digit => cases marks
  | blank rest inLine blank => cases marks
  | @punctuation c rest other notStart notDigit notBlank => exact ⟨c, rest, rfl, rfl, rfl⟩

/-- The characters that are tokens of a class of their own. -/
def punctuators : List Char :=
  ['\x7b', '\x7d', '(', ')', '[', ']', '<', '>', '!', '#', ';', ',', ':', '=', '-']

theorem punctuationTag_cases (c : Char) :
    c ∈ punctuators ∨ punctuationTag c = .punctuation ∨ punctuationTag c = .unknown := by
  unfold punctuationTag
  split
  all_goals first
    | exact .inl (by decide)
    | (split
       · exact .inr (.inl rfl)
       · exact .inr (.inr rfl))

/-- The class of such a token tells its character. -/
theorem eq_of_punctuationTag {c d : Char} (member : d ∈ punctuators)
    (same : punctuationTag c = punctuationTag d) : c = d := by
  have classes : punctuators.all fun d =>
      punctuationTag d != .punctuation && punctuationTag d != .unknown := by
    decide
  have apart : punctuators.all fun c => punctuators.all fun d =>
      punctuationTag c != punctuationTag d || c == d := by
    decide
  simp only [List.all_eq_true, Bool.and_eq_true, bne_iff_ne, Bool.or_eq_true, beq_iff_eq]
    at classes apart
  obtain ⟨notPunctuation, notUnknown⟩ := classes d member
  rcases punctuationTag_cases c with isPunctuator | isPunctuation | isUnknown
  · exact (apart c isPunctuator d member).resolve_left (not_not_intro same)
  · exact absurd (same.symm.trans isPunctuation) notPunctuation
  · exact absurd (same.symm.trans isUnknown) notUnknown

theorem read?_punctuator {text : List Char} {length : Nat} {d : Char} (member : d ∈ punctuators)
    (read : read? text = some (punctuationTag d, length)) :
    ∃ rest, text = d :: rest ∧ length = 1 := by
  have marks : punctuators.all fun d => isMark (punctuationTag d) := by
    decide
  obtain ⟨c, rest, rfl, rfl, same⟩ := read?_mark read (List.all_eq_true.mp marks d member)
  rw [eq_of_punctuationTag member same]
  exact ⟨rest, rfl, rfl⟩

theorem lexeme_of_keyword? {token : Token} {keyword : Keyword}
    (announces : token.keyword? = some keyword) :
    token.tag = .word ∧ token.lexeme = keyword.spelling := by
  unfold keyword? at announces
  split at announces
  · rename_i isWord
    have matched := List.find?_some announces
    exact ⟨isWord, (eq_of_beq matched).symm⟩
  · cases announces

/-! ### Runs -/

/-- The first characters of the text, as many as the number says, are whole tokens of
the given classes. -/
inductive Run (allowed : Tag → Prop) : List Char → Nat → Prop
  | nothing (text : List Char) : Run allowed text 0
  | onward {text : List Char} {tag : Tag} {length more : Nat}
      (read : read? text = some (tag, length)) (isAllowed : allowed tag)
      (later : Run allowed (text.drop length) more) : Run allowed text (length + more)

/-- The first characters of the text are whole tokens. -/
abbrev Whole : List Char → Nat → Prop := Run fun _ => True

/-- The first characters of the text are whole tokens that mean nothing. -/
abbrev TriviaRun : List Char → Nat → Prop := Run fun tag => tag.isTrivia = true

namespace Run

variable {allowed : Tag → Prop} {text : List Char} {count more : Nat}

theorem mono {wider : Tag → Prop} (run : Run allowed text count)
    (widens : ∀ tag, allowed tag → wider tag) : Run wider text count := by
  induction run with
  | nothing text => exact .nothing text
  | onward read isAllowed later ih => exact .onward read (widens _ isAllowed) ih

theorem whole (run : Run allowed text count) : Whole text count :=
  run.mono fun _ _ => trivial

theorem single {tag : Tag} {length : Nat} (read : read? text = some (tag, length))
    (isAllowed : allowed tag) : Run allowed text length :=
  .onward read isAllowed (.nothing _)

theorem append (run : Run allowed text count) (later : Run allowed (text.drop count) more) :
    Run allowed text (count + more) := by
  induction run with
  | nothing text => simpa using later
  | onward read isAllowed _ ih =>
      rw [Nat.add_assoc]
      rw [← List.drop_drop] at later
      exact .onward read isAllowed (ih later)

theorem length_le (run : Run allowed text count) : count ≤ text.length := by
  induction run with
  | nothing text => exact Nat.zero_le _
  | onward read isAllowed later ih =>
      have bound := read?_length_le read
      rw [List.length_drop] at ih
      omega

/-- A text is whole tokens to its end. -/
theorem to_end (text : List Char) : Whole text text.length := by
  induction size : text.length using Nat.strongRecOn generalizing text with
  | ind size ih =>
      subst size
      cases read : read? text with
      | none =>
          rw [read?_eq_none_iff] at read
          subst read
          exact .nothing []
      | some pair =>
          obtain ⟨tag, length⟩ := pair
          have bound := read?_length_le read
          have shorter := length_drop_lt read
          have later := ih _ shorter (text.drop length) rfl
          have sum : text.length = length + (text.drop length).length := by
            rw [List.length_drop]
            omega
          rw [sum]
          exact .onward read trivial later

/-- Reading is deterministic: a longer run goes on where a shorter one ends. -/
theorem rest {wider : Tag → Prop} (shorter : Run wider text count)
    (longer : Run allowed text (count + more)) : Run allowed (text.drop count) more := by
  induction shorter with
  | nothing text => simpa using longer
  | @onward text tag length further read isAllowed _ ih =>
      cases sum : length + further + more with
      | zero =>
          have positive := (read?_pos read).1
          omega
      | succ total =>
          rw [sum] at longer
          generalize split : total + 1 = whole at longer
          cases longer with
          | nothing => omega
          | @onward _ tag' length' more' read' _ later =>
              rw [read] at read'
              cases read'
              rw [← List.drop_drop]
              apply ih
              have same : more' = further + more := by omega
              rw [← same]
              exact later

/-- A run that ends before the cut is a run of the cut text. -/
theorem take (run : Run allowed text count) {limit : Nat} (inside : count ≤ limit) :
    Run allowed (text.take limit) count := by
  induction run generalizing limit with
  | nothing text => exact .nothing _
  | @onward text tag length further read isAllowed later ih =>
      refine .onward (read?_take read (by omega)) isAllowed ?_
      rw [List.drop_take]
      exact ih (by omega)

/-- A token of the text cut at the end of a run is a token of the whole text. -/
theorem read?_of_take {limit : Nat} {tag : Tag} {length : Nat} (boundary : Whole text limit)
    (read : read? (text.take limit) = some (tag, length)) : read? text = some (tag, length) := by
  cases boundary with
  | nothing =>
      rw [List.take_zero] at read
      cases read
  | @onward _ first size more readFirst _ later =>
      have cut := read?_take readFirst (Nat.le_add_right size more)
      rw [read] at cut
      cases cut
      exact readFirst

/-- A run of the text cut at the end of a run is a run of the whole text. -/
theorem of_take {limit : Nat} (run : Run allowed (text.take limit) count)
    (boundary : Whole text limit) : Run allowed text count := by
  generalize cutText : text.take limit = cut at run
  induction run generalizing text limit with
  | nothing => exact .nothing _
  | @onward cut tag length further read isAllowed later ih =>
      subst cutText
      have full := read?_of_take boundary read
      have bound := read?_length_le read
      rw [List.length_take] at bound
      obtain ⟨more, rfl⟩ := Nat.exists_eq_add_of_le (show length ≤ limit by omega)
      have first : Whole text length := single full trivial
      refine .onward full isAllowed (ih (first.rest boundary) ?_)
      rw [List.drop_take, Nat.add_sub_cancel_left]

end Run
end Token

namespace Cursor

variable {cursor : Cursor}

/-- A significant token stands behind trivia. -/
theorem significant?_eq_some {token : Token} {length : Nat}
    (found : cursor.significant? = some (token, length)) :
    ∃ trivia size, Token.TriviaRun cursor.rest trivia ∧
      Token.read? (cursor.rest.drop trivia) = some (token.tag, size) ∧
      token.tag.isTrivia = false ∧ length = trivia + size ∧
      token.start = (cursor.skip trivia).place ∧
      token.lexeme = (cursor.rest.drop trivia).take size := by
  fun_induction significant? cursor generalizing token length with
  | case1 => cases found
  | case2 cursor tag first read isTrivia ih =>
      cases later : significant? (cursor.skip first) with
      | none => simp only [later, Option.map_none, reduceCtorEq] at found
      | some pair =>
          obtain ⟨next, more⟩ := pair
          simp only [later, Option.map_some, Option.some.injEq, Prod.mk.injEq] at found
          obtain ⟨rfl, rfl⟩ := found
          obtain ⟨trivia, size, run, readNext, significant, rfl, start, lexeme⟩ := ih later
          rw [skip_rest, List.drop_drop] at readNext lexeme
          rw [skip_skip] at start
          exact ⟨first + trivia, size, .onward read isTrivia run, readNext, significant,
            by omega, start, lexeme⟩
  | case3 cursor tag first read significant =>
      simp only [Option.some.injEq, Prod.mk.injEq] at found
      obtain ⟨rfl, rfl⟩ := found
      exact ⟨0, first, .nothing _, read, by simpa using significant, (Nat.zero_add _).symm,
        by rw [skip_zero], rfl⟩

end Cursor
end Survey
