import Survey.Proofs.AtomRuns
import Survey.Proofs.VainSearches

set_option autoImplicit false

/-!
# Macros are passed over

Behind the mark of a macro its group is stepped over as a whole, and behind the mark of a
definition the word that names it as well. Reading then goes on as at the start of a file.
So the survey of a text that starts with a macro is the survey of the text behind it, moved
to where that text stands, whatever the group holds. The name of a definition has to be a
plain word: of a raw name only the `r` is stepped over, and the group is left to be read.
-/

namespace Survey

/-- Is the text one plain word? -/
def Text.isWord (text : List Char) : Bool := text.head?.any isWordStart && text.all isWordPart

/-- A body with its delimiters. -/
def Delimiter.enclose (kind : Delimiter) (body : List Char) : List Char :=
  kind.opener :: (body ++ [kind.closer])

/-- Reading the rest of a group that was opened ends with the closer behind the body. -/
def Delimiter.Closes (kind : Delimiter) (body rest : List Char) : Prop :=
  (body ++ kind.closer :: rest).drop (kind.closeLength (body ++ kind.closer :: rest)) = rest

/-- The survey of a text with the rest behind it is the survey of the rest alone, with every
place rebased onto the place behind the text, and with the length of both. -/
def PassesOver (config : Config) (text rest : List Char) : Prop :=
  ∃ after, survey config (String.ofList rest) = .ok after ∧ after.Rebases (.ofText text) ∧
    survey config (String.ofList (text ++ rest)) =
      .ok ((after.shift (.ofText text)).withLength (Text.byteLength text + after.length))

/-! ### Words -/

namespace Text

theorem whiteSpace_numeric_disjoint :
    ∀ space ∈ whiteSpaceRanges, ∀ numbers ∈ numericRanges,
      numbers.2 < space.1 ∨ space.2 < numbers.1 := by
  decide +kernel

theorem isNumeric_of_isBlank {c : Char} (blank : isBlank c = true) : isNumeric c = false := by
  by_cases ascii : c.toNat < 0x80
  · rw [isNumeric_of_ascii ascii, Bool.eq_false_iff]
    exact Token.not_isAsciiDigit_of_isBlank blank
  · unfold isBlank at blank
    rw [Bool.or_eq_true, beq_iff_eq] at blank
    rcases blank with space | rfl
    · unfold isWhiteSpace at space
      rw [if_neg ascii, Ranges.contains_iff] at space
      obtain ⟨range, rangeMember, low, high⟩ := space
      unfold isNumeric
      rw [if_neg ascii, Bool.eq_false_iff]
      intro numeric
      obtain ⟨numbers, numbersMember, numbersLow, numbersHigh⟩ :=
        (Ranges.contains_iff _ _).mp numeric
      have apart := whiteSpace_numeric_disjoint range rangeMember numbers numbersMember
      omega
    · decide +kernel

theorem isWordPart_of_isBlank {c : Char} (blank : isBlank c = true) : isWordPart c = false := by
  have notStart := Token.isWordStart_of_isBlank blank
  unfold isWordStart at notStart
  unfold isWordPart
  rw [notStart, isNumeric_of_isBlank blank, Bool.false_or]

theorem isWord_cons {c : Char} {word : List Char} (isWord : Text.isWord (c :: word) = true) :
    isWordStart c = true ∧ ∀ d ∈ word, isWordPart d = true := by
  unfold Text.isWord at isWord
  rw [List.head?_cons, Option.any_some, Bool.and_eq_true, List.all_cons, Bool.and_eq_true,
    List.all_eq_true] at isWord
  exact ⟨isWord.1, isWord.2.2⟩

/-- A word ends before anything that is no part of it. -/
theorem takeWhile_isWord {word after : List Char} (isWord : Text.isWord word = true)
    (ends : ∀ c, after.head? = some c → isWordPart c = false) :
    (word ++ after).takeWhile isWordPart = word := by
  unfold Text.isWord at isWord
  rw [Bool.and_eq_true, List.all_eq_true] at isWord
  rw [List.takeWhile_append_of_pos isWord.2]
  cases after with
  | nil => exact List.append_nil word
  | cons c after =>
      rw [List.takeWhile_cons_of_neg (by rw [ends c rfl]; exact Bool.false_ne_true),
        List.append_nil]

end Text

namespace Token

theorem rawHashes?_of_word_bang (c : Char) {word : List Char}
    (parts : ∀ d ∈ word, Text.isWordPart d = true) (after : List Char) :
    Literal.rawHashes? (c :: (word ++ '!' :: after)) = none := by
  cases raw : Literal.rawHashes? (c :: (word ++ '!' :: after)) with
  | none => rfl
  | some hashes =>
      obtain ⟨rest, split⟩ := (Literal.rawHashes?_eq_some_iff _ hashes).mp raw
      have inner := (List.cons.inj split).2
      cases word with
      | nil => cases hashes <;> cases inner
      | cons d word =>
          have part := parts d List.mem_cons_self
          cases hashes with
          | zero =>
              rw [(List.cons.inj inner).1] at part
              exact absurd part (by decide)
          | succ hashes =>
              rw [List.replicate_succ] at inner
              rw [(List.cons.inj inner).1] at part
              exact absurd part (by decide)

/-- Before an exclamation mark a word is read as a word, whatever it is. -/
theorem read?_word_bang {word : List Char} (isWord : Text.isWord word = true)
    (after : List Char) : read? (word ++ '!' :: after) = some (.word, word.length) := by
  cases word with
  | nil => cases isWord
  | cons c word =>
      obtain ⟨starts, parts⟩ := Text.isWord_cons isWord
      have ends : ∀ d, ('!' :: after).head? = some d → Text.isWordPart d = false := by
        rintro d ⟨⟩
        decide
      have missing : literalAfter? (c :: word) ('!' :: after) = none :=
        literalAfter?_other (by decide) (by decide) (by decide) after
      have noRaw := rawHashes?_of_word_bang c parts after
      have read := (Reading.word starts parts ends noRaw missing).read?
      have plain : rawWordLength (c :: word) ('!' :: after) = 0 := rfl
      rw [plain, Nat.add_zero] at read
      exact read

end Token

theorem Cursor.significant?_of_read? {cursor : Cursor} {tag : Tag} {lexeme : List Char}
    (after : List Char) (split : cursor.rest = lexeme ++ after)
    (read : Token.read? (lexeme ++ after) = some (tag, lexeme.length))
    (significant : tag.isTrivia = false) :
    cursor.significant? = some (⟨tag, cursor.place, lexeme⟩, lexeme.length) := by
  rw [significant?_eq, split, read]
  simp only [significant, Bool.false_eq_true, if_false, List.take_left]

/-! ### Lengths -/

namespace Delimiter

theorem length_enclose (kind : Delimiter) (body : List Char) :
    (kind.enclose body).length = body.length + 2 := by
  unfold enclose
  rw [List.length_cons, List.length_append, List.length_singleton]

theorem enclose_append (kind : Delimiter) (body rest : List Char) :
    kind.enclose body ++ rest = kind.opener :: (body ++ kind.closer :: rest) := by
  unfold enclose
  rw [List.cons_append, List.append_assoc, List.singleton_append]

theorem Closes.closeLength {kind : Delimiter} {body rest : List Char}
    (closes : kind.Closes body rest) :
    kind.closeLength (body ++ kind.closer :: rest) = body.length + 1 := by
  have bound := (kind.closeLength_atoms (body ++ kind.closer :: rest)).length_le
  have left := congrArg List.length closes
  rw [List.length_drop] at left
  rw [List.length_append, List.length_cons] at left bound
  omega

theorem groupAfter?_opener {kind : Delimiter} {kinds : List Delimiter} (member : kind ∈ kinds)
    (text : List Char) : groupAfter? kinds kind.opener text = some (kind.closeLength text) := by
  have opens : ofOpener? kind.opener = some kind := by
    cases kind <;> rfl
  unfold groupAfter?
  rw [opens, Option.filter_some, if_pos (decide_eq_true member), Option.map_some]

end Delimiter

section Lengths

variable {kind : Delimiter} {blanks body rest : List Char}

theorem macroGroupLength_enclose (group : kind ≠ .angle) (closes : kind.Closes body rest) :
    macroGroupLength (kind.enclose body ++ rest) = (kind.enclose body).length := by
  have member : kind ∈ [Delimiter.brace, .paren, .bracket] := by
    cases kind with
    | angle => exact absurd rfl group
    | _ => decide
  rw [kind.enclose_append]
  unfold macroGroupLength
  dsimp only
  rw [Delimiter.groupAfter?_opener member, closes.closeLength, kind.length_enclose]
  dsimp only
  omega

theorem blankLength_enclose (blank : ∀ c ∈ blanks, Text.isBlank c = true) :
    Trivia.blankLength (blanks ++ (kind.enclose body ++ rest)) = blanks.length := by
  have stops : Text.isBlank kind.opener = false := by
    cases kind <;> decide
  rw [Trivia.blankLength_append blank, kind.enclose_append]
  unfold Trivia.blankLength
  rw [List.takeWhile_cons_of_neg (by rw [stops]; exact Bool.false_ne_true)]
  rfl

theorem macroLength_invocation (group : kind ≠ .angle)
    (blank : ∀ c ∈ blanks, Text.isBlank c = true) (closes : kind.Closes body rest) :
    macroLength false (blanks ++ (kind.enclose body ++ rest)) =
      (blanks ++ kind.enclose body).length := by
  have noName : ∀ text, macroNameLength false text = 0 := fun _ => rfl
  rw [macroLength_eq, noName, List.drop_zero, blankLength_enclose blank, List.drop_left,
    macroGroupLength_enclose group closes, List.length_append, Nat.add_zero]

/-- A plain name is taken with the blanks behind it. -/
theorem macroNameLength_isWord {name after : List Char} (isWord : Text.isWord name = true)
    (ends : ∀ c, after.head? = some c → Text.isWordPart c = false) :
    macroNameLength true (name ++ after) = name.length + Trivia.blankLength after := by
  have starts : (name ++ after).head?.any Text.isWordStart = true := by
    cases name with
    | nil => cases isWord
    | cons c name => exact (Text.isWord_cons isWord).1
  have named : (true && (name ++ after).head?.any Text.isWordStart) = true := starts
  rw [macroNameLength_of_named named, Text.takeWhile_isWord isWord ends, List.drop_left]

theorem blankLength_word {name : List Char} (starts : name.head?.any Text.isWordStart = true)
    (blank : ∀ c ∈ blanks, Text.isBlank c = true) (after : List Char) :
    Trivia.blankLength (blanks ++ (name ++ after)) = blanks.length := by
  rw [Trivia.blankLength_append blank]
  cases name with
  | nil => cases starts
  | cons c name =>
      have notBlank : ¬ Text.isBlank c = true := by
        intro isBlank
        have notStart := Token.isWordStart_of_isBlank isBlank
        rw [List.head?_cons, Option.any_some, notStart] at starts
        cases starts
      unfold Trivia.blankLength
      rw [List.cons_append, List.takeWhile_cons_of_neg notBlank]
      rfl

theorem macroLength_definition {gap name : List Char} (group : kind ≠ .angle)
    (isWord : Text.isWord name = true) (gapBlank : ∀ c ∈ gap, Text.isBlank c = true)
    (blank : ∀ c ∈ blanks, Text.isBlank c = true) (closes : kind.Closes body rest) :
    macroLength true (gap ++ (name ++ (blanks ++ (kind.enclose body ++ rest)))) =
      (gap ++ (name ++ (blanks ++ kind.enclose body))).length := by
  have ends : ∀ c, (blanks ++ (kind.enclose body ++ rest)).head? = some c →
      Text.isWordPart c = false := by
    intro c first
    cases blanks with
    | nil =>
        cases first
        cases kind <;> decide
    | cons d blanks =>
        cases first
        exact Text.isWordPart_of_isBlank (blank c List.mem_cons_self)
  have starts : name.head?.any Text.isWordStart = true := (Bool.and_eq_true_iff.mp isWord).1
  rw [macroLength_eq, blankLength_word starts gapBlank, List.drop_left,
    macroNameLength_isWord isWord ends, blankLength_enclose blank, ← List.drop_drop,
    List.drop_left, List.drop_left, macroGroupLength_enclose group closes]
  simp only [List.length_append]
  omega

/-- Of a raw name only the `r` is taken. -/
theorem macroLength_raw {gap : List Char} (gapBlank : ∀ c ∈ gap, Text.isBlank c = true)
    (after : List Char) :
    macroLength true (gap ++ 'r' :: '#' :: after) = (gap ++ ['r']).length := by
  have starts : ['r'].head?.any Text.isWordStart = true := by
    decide
  have ends : ∀ c, ('#' :: after).head? = some c → Text.isWordPart c = false := by
    rintro c ⟨⟩
    decide
  have blanks : Trivia.blankLength ('#' :: after) = 0 := rfl
  have noGroup : macroGroupLength ('#' :: after) = 0 := rfl
  have split : gap ++ 'r' :: '#' :: after = gap ++ (['r'] ++ '#' :: after) := rfl
  rw [split, macroLength_eq, blankLength_word starts gapBlank, List.drop_left,
    macroNameLength_isWord (by decide) ends, blanks, Nat.add_zero, List.drop_left, noGroup,
    List.length_append, Nat.add_zero]

end Lengths

/-! ### Reading on behind a macro -/

namespace Finding

/-- A word that is no keyword, or announces a definition, leaves what is behind it. -/
theorem stream_word (config : Config) {cursor : Cursor} {name after : List Char}
    (split : cursor.rest = name ++ '!' :: after) (isWord : Text.isWord name = true)
    (ordinary : Keyword.ofWord? name = none ∨ Keyword.ofWord? name = some .macroRules) :
    stream config false cursor =
      stream config (Keyword.ofWord? name == some .macroRules) (cursor.skip name.length) := by
  have next := Cursor.significant?_of_read? _ split (Token.read?_word_bang isWord after) rfl
  have unmarked : (⟨.word, cursor.place, name⟩ : Token).tag ≠ .bang ∧
      (⟨.word, cursor.place, name⟩ : Token).tag ≠ .hash := by
    constructor <;> exact Tag.noConfusion
  have keyword : Token.keyword? ⟨.word, cursor.place, name⟩ = Keyword.ofWord? name := rfl
  have stays : inFile config false ⟨.word, cursor.place, name⟩ (cursor.skip name.length) =
      .skipped 0 := by
    rw [inFile_of_unmarked config false unmarked, keyword]
    rcases ordinary with none | announces
    · rw [none]
    · rw [announces]
      rfl
  rw [stream_of_some next, stays, keyword]
  rfl

/-- The mark of a macro leaves what is behind the macro, as at the start of a file. -/
theorem stream_bang (config : Config) (inDefinition : Bool) {cursor : Cursor} {after : List Char}
    (split : cursor.rest = '!' :: after) :
    stream config inDefinition cursor =
      stream config false (cursor.skip (1 + macroLength inDefinition after)) := by
  have next : cursor.significant? = some (⟨.bang, cursor.place, ['!']⟩, 1) :=
    Cursor.significant?_of_read? after split rfl rfl
  have behind : (cursor.skip 1).rest = after := by
    rw [Cursor.skip_rest, split]
    rfl
  rw [stream_of_some next, inFile_of_bang config inDefinition rfl, behind]
  rfl

theorem stream_macro (config : Config) {name : List Char} (isWord : Text.isWord name = true)
    (ordinary : Keyword.ofWord? name = none ∨ Keyword.ofWord? name = some .macroRules)
    (after : List Char) :
    stream config false (.ofText (name ++ '!' :: after)) =
      stream config false ((Cursor.ofText (name ++ '!' :: after)).skip
        (name.length + (1 + macroLength (Keyword.ofWord? name == some .macroRules) after))) := by
  have behind : ((Cursor.ofText (name ++ '!' :: after)).skip name.length).rest = '!' :: after :=
    List.drop_left
  rw [stream_word config rfl isWord ordinary, stream_bang config _ behind, Cursor.skip_skip]

end Finding

/-- Where reading goes on behind a text as at the start of a file, the text is passed over. -/
theorem PassesOver.of_stream {config : Config} {text rest : List Char}
    (small : Text.byteLength (text ++ rest) ≤ 2 ^ 32 - 3)
    (passes : Finding.stream config false (.ofText (text ++ rest)) =
      Finding.stream config false ((Cursor.ofText (text ++ rest)).skip text.length)) :
    PassesOver config text rest := by
  have behind : (Cursor.ofText (text ++ rest)).skip text.length =
      (Cursor.ofText rest).shift (.ofText text) := by
    unfold Cursor.skip Cursor.ofText
    rw [List.drop_left, List.take_left]
    rfl
  have moved : Finding.ofText config (text ++ rest) =
      (Finding.ofText config rest).map (Finding.shift (.ofText text)) := by
    have counted : (Cursor.ofText rest).place.Counted := Position.start_counted
    unfold Finding.ofText
    rw [passes, behind, Finding.stream_shift counted]
  have lengths := Text.byteLength_append text rest
  have alone := survey_eq config (String.ofList rest) (by rw [String.toList_ofList]; omega)
  have whole := survey_eq config (String.ofList (text ++ rest))
    (by rw [String.toList_ofList]; omega)
  rw [String.toList_ofList] at alone whole
  refine ⟨_, alone, ?_, ?_⟩
  · obtain ⟨spans, testModule⟩ := Inventory.ofFindings_rebases config small
    exact ⟨spans, testModule⟩
  · rw [whole, moved, Inventory.ofFindings_shift, lengths]
    rfl

theorem PassesOver.length_functions {config : Config} {text rest : List Char}
    (passes : PassesOver config text rest) :
    (survey config (String.ofList (text ++ rest))).toOption.map (·.functions.length) =
      (survey config (String.ofList rest)).toOption.map (·.functions.length) := by
  obtain ⟨after, alone, -, whole⟩ := passes
  rw [alone, whole]
  exact congrArg some (List.length_map _)

/-- What the mark of a macro steps over is passed over with its name. -/
theorem PassesOver.of_macroLength {config : Config} {name taken rest : List Char}
    (isWord : Text.isWord name = true)
    (ordinary : Keyword.ofWord? name = none ∨ Keyword.ofWord? name = some .macroRules)
    (steps : macroLength (Keyword.ofWord? name == some .macroRules) (taken ++ rest) = taken.length)
    (small : Text.byteLength (name ++ '!' :: (taken ++ rest)) ≤ 2 ^ 32 - 3) :
    PassesOver config (name ++ '!' :: taken) rest := by
  have whole : name ++ '!' :: taken ++ rest = name ++ '!' :: (taken ++ rest) := by
    rw [List.append_assoc, List.cons_append]
  have length : (name ++ '!' :: taken).length = name.length + (1 + taken.length) := by
    rw [List.length_append, List.length_cons, Nat.add_comm 1]
  apply PassesOver.of_stream
  · rw [whole]
    exact small
  · rw [whole, length, Finding.stream_macro config isWord ordinary, steps]

/-- A text that starts with the invocation of a macro is surveyed as what is behind it,
whatever stands between the delimiters. -/
theorem survey_behind_invocation (config : Config) (kind : Delimiter)
    (name blanks body rest : List Char) (isWord : Text.isWord name = true)
    (ordinary : Keyword.ofWord? name = none) (blank : ∀ c ∈ blanks, Text.isBlank c = true)
    (group : kind ≠ .angle) (closes : kind.Closes body rest)
    (small : Text.byteLength (name ++ '!' :: (blanks ++ kind.enclose body) ++ rest) ≤ 2 ^ 32 - 3) :
    PassesOver config (name ++ '!' :: (blanks ++ kind.enclose body)) rest := by
  apply PassesOver.of_macroLength isWord (.inl ordinary)
  · have notRules : (Keyword.ofWord? name == some .macroRules) = false := by
      rw [ordinary]
      rfl
    rw [notRules, List.append_assoc]
    exact macroLength_invocation group blank closes
  · rw [List.append_assoc, List.cons_append] at small
    exact small

/-- The group holds a function, closers in a literal and in a comment, and an opener of another
kind; the function behind it is recorded. -/
theorem survey_behind_invocation_vec :
    let body := "\"]\", fn f() \x7b [/* ] */]".toList
    Text.isWord "vec".toList = true ∧ Keyword.ofWord? "vec".toList = none ∧
      Delimiter.bracket.Closes body " fn g() \x7b\x7d".toList ∧
      PassesOver .standard ("vec".toList ++ '!' :: ([' '] ++ Delimiter.bracket.enclose body))
        " fn g() \x7b\x7d".toList := by
  intro body
  have isWord : Text.isWord "vec".toList = true := by
    decide +kernel
  have ordinary : Keyword.ofWord? "vec".toList = none := by
    decide +kernel
  have closes : Delimiter.bracket.Closes body " fn g() \x7b\x7d".toList := by
    unfold Delimiter.Closes
    decide +kernel
  have blank : ∀ c ∈ [' '], Text.isBlank c = true := by
    rw [List.forall_mem_singleton]
    decide
  exact ⟨isWord, ordinary, closes, survey_behind_invocation .standard .bracket _ _ _ _ isWord
    ordinary blank (by decide) closes (by decide +kernel)⟩

/-- A text that starts with the definition of a macro is surveyed as what is behind it, if the
macro is named by a plain word. If its name is raw, reading goes on right behind the `r` of the
name, and the text is surveyed as what starts there, body and all. -/
theorem survey_behind_definition (config : Config) (kind : Delimiter)
    (gap name blanks body rest : List Char) (isWord : Text.isWord name = true)
    (gapBlank : ∀ c ∈ gap, Text.isBlank c = true) (blank : ∀ c ∈ blanks, Text.isBlank c = true)
    (group : kind ≠ .angle) (closes : kind.Closes body rest) :
    (Text.byteLength ("macro_rules".toList ++
        '!' :: (gap ++ (name ++ (blanks ++ kind.enclose body))) ++ rest) ≤ 2 ^ 32 - 3 →
      PassesOver config
        ("macro_rules".toList ++ '!' :: (gap ++ (name ++ (blanks ++ kind.enclose body)))) rest) ∧
    (Text.byteLength ("macro_rules".toList ++
        '!' :: (gap ++ 'r' :: '#' :: (name ++ (blanks ++ kind.enclose body))) ++ rest) ≤
        2 ^ 32 - 3 →
      PassesOver config ("macro_rules".toList ++ '!' :: (gap ++ ['r']))
        ('#' :: (name ++ (blanks ++ (kind.enclose body ++ rest))))) := by
  have rules : Keyword.ofWord? "macro_rules".toList = some .macroRules :=
    Keyword.macroRules.ofWord?_spelling
  have announces : (Keyword.ofWord? "macro_rules".toList == some .macroRules) = true := by
    rw [rules]
    rfl
  constructor
  · intro small
    apply PassesOver.of_macroLength (by decide +kernel) (.inr rules)
    · rw [announces]
      simpa only [List.append_assoc] using macroLength_definition group isWord gapBlank blank closes
    · simpa only [List.append_assoc, List.cons_append] using small
  · intro small
    apply PassesOver.of_macroLength (by decide +kernel) (.inr rules)
    · rw [announces, List.append_assoc]
      exact macroLength_raw gapBlank _
    · simpa only [List.append_assoc, List.cons_append, List.nil_append] using small

/-- The body holds a rule that declares a function; the function behind the definition is
recorded. -/
theorem survey_behind_definition_getter :
    let body := "($f:ident) => \x7b fn $f() \x7b\x7d \x7d".toList
    Text.isWord "getter".toList = true ∧
      Delimiter.brace.Closes body " fn g() \x7b\x7d".toList ∧
      PassesOver .standard ("macro_rules".toList ++ '!' :: ([' '] ++ ("getter".toList ++
        ([' '] ++ Delimiter.brace.enclose body)))) " fn g() \x7b\x7d".toList := by
  intro body
  have isWord : Text.isWord "getter".toList = true := by
    decide +kernel
  have closes : Delimiter.brace.Closes body " fn g() \x7b\x7d".toList := by
    unfold Delimiter.Closes
    decide +kernel
  have blank : ∀ c ∈ [' '], Text.isBlank c = true := by
    rw [List.forall_mem_singleton]
    decide
  exact ⟨isWord, closes, (survey_behind_definition .standard .brace _ _ _ _ _ isWord blank
    blank (by decide) closes).1 (by decide +kernel)⟩

/-- A function in the body of a definition is recorded when the name of the macro is raw. -/
theorem survey_raw_definition_leaks :
    Text.isWord "m".toList = true ∧ Delimiter.brace.Closes " fn f() \x7b\x7d ".toList [] ∧
      ¬ PassesOver .standard ("macro_rules".toList ++ '!' :: ([' '] ++ ("r#m".toList ++
        ([' '] ++ Delimiter.brace.enclose " fn f() \x7b\x7d ".toList)))) [] := by
  refine ⟨by decide +kernel, by unfold Delimiter.Closes; decide +kernel, ?_⟩
  intro passes
  exact absurd passes.length_functions (by decide +kernel)

end Survey
