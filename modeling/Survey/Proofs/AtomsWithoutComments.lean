import Survey.Proofs.TextsWithoutComments

set_option autoImplicit false

/-!
# Reading atoms without the comments

Readers of atoms step over a comment, and over the blanks that it becomes, without taking
notice of either. `Atom.Veiled` relates a text to the text without its comments atom by
atom; a reader goes along both texts side by side and stops at the same place.
-/

namespace Survey

theorem Text.ne_of_isBlank {c d : Char} (blank : isBlank c = true) (other : isBlank d = false) :
    c ≠ d := by
  rintro rfl
  rw [blank] at other
  cases other

/-! ### Atoms -/

namespace Atom

/-- The other text has blanks where the text has comments, and the same atoms otherwise.
Behind a number sign the same attribute is read. -/
inductive Veiled : List Char → List Char → Prop
  | nothing : Veiled [] []
  | comment {text shaded : List Char} {length : Nat} (read : read? text = some (.comment, length))
      (later : Veiled (text.drop length) shaded) :
      Veiled text (Text.shade (text.take length) ++ shaded)
  | literal {text written shaded : List Char} {length : Nat}
      (read : read? text = some (.literal written, length))
      (again : read? (written ++ shaded) = some (.literal written, length))
      (later : Veiled (text.drop length) shaded) : Veiled text (written ++ shaded)
  | char {c : Char} {rest shaded : List Char} (read : read? (c :: rest) = some (.char c, 1))
      (again : read? (c :: shaded) = some (.char c, 1)) (later : Veiled rest shaded)
      (mark : c = '#' → Attribute.read? shaded = Attribute.read? rest)
      (behind : c = '#' → Veiled (rest.drop (Attribute.skipLength rest))
        (shaded.drop (Attribute.skipLength rest))) : Veiled (c :: rest) (c :: shaded)

namespace Veiled

variable {text shaded : List Char}

theorem unique {other : List Char} (veiled : Veiled text shaded) (also : Veiled text other) :
    shaded = other := by
  induction veiled generalizing other with
  | nothing =>
      cases also with
      | nothing => rfl
      | comment read => cases read
      | literal read => cases read
  | comment read later ih =>
      cases also with
      | nothing => cases read
      | comment readAlso laterAlso =>
          rw [read] at readAlso
          cases readAlso
          rw [ih laterAlso]
      | literal readAlso =>
          rw [read] at readAlso
          cases readAlso
      | char readAlso =>
          rw [read] at readAlso
          cases readAlso
  | literal read again later ih =>
      cases also with
      | nothing => cases read
      | comment readAlso =>
          rw [read] at readAlso
          cases readAlso
      | literal readAlso againAlso laterAlso =>
          rw [read] at readAlso
          cases readAlso
          rw [ih laterAlso]
      | char readAlso =>
          rw [read] at readAlso
          cases readAlso
  | char read again later mark behind ih _ =>
      cases also with
      | comment readAlso =>
          rw [read] at readAlso
          cases readAlso
      | literal readAlso =>
          rw [read] at readAlso
          cases readAlso
      | char readAlso againAlso laterAlso => rw [ih laterAlso]

end Veiled

/-- Two readers with so many characters behind them, one in each text, stop at places from
which the texts go on alike. -/
def Abreast (text shaded : List Char) (taken other reach reachOther : Nat) : Prop :=
  ∃ count more, reach = taken + count ∧ reachOther = other + more ∧
    Veiled (text.drop count) (shaded.drop more)

theorem Veiled.abreast {text shaded : List Char} (veiled : Veiled text shaded)
    (taken other : Nat) : Abreast text shaded taken other taken other :=
  ⟨0, 0, rfl, rfl, veiled⟩

/-- Readers that stop abreast have done so when they are seen from further ahead. -/
theorem Abreast.onward {text shaded : List Char} {taken other reach reachOther : Nat}
    (first firstOther : Nat)
    (later : Abreast (text.drop first) (shaded.drop firstOther) (taken + first)
      (other + firstOther) reach reachOther) :
    Abreast text shaded taken other reach reachOther := by
  obtain ⟨count, more, ends, endsOther, behind⟩ := later
  refine ⟨first + count, firstOther + more, ?_, ?_, ?_⟩
  · rw [ends, Nat.add_assoc]
  · rw [endsOther, Nat.add_assoc]
  · rwa [List.drop_drop, List.drop_drop] at behind

theorem Abreast.of_start {text shaded : List Char} {reach reachOther : Nat}
    (abreast : Abreast text shaded 0 0 reach reachOther) :
    Veiled (text.drop reach) (shaded.drop reachOther) := by
  obtain ⟨count, more, rfl, rfl, behind⟩ := abreast
  rwa [Nat.zero_add, Nat.zero_add]

theorem read?_blank {c : Char} (blank : Text.isBlank c = true) (rest : List Char) :
    read? (c :: rest) = some (.char c, 1) := by
  obtain ⟨notSlash, notString, notQuote⟩ := Token.not_special_of_isBlank blank
  exact read?_of_isBare
    (isBare_of_ne notSlash notString notQuote (Text.ne_of_isBlank blank (by decide)) rest)

theorem read?_comment_eq {text : List Char} {length : Nat}
    (read : read? text = some (.comment, length)) : Comment.length? text = some length := by
  cases commented : Comment.length? text with
  | some found =>
      rw [read?_of_comment commented] at read
      cases read
      rfl
  | none =>
      cases text with
      | nil => cases read
      | cons c rest =>
          rw [read?, commented] at read
          dsimp only at read
          split at read
          · cases read
          · split at read <;> cases read

theorem shade_ne_nil {text : List Char} {length : Nat}
    (read : read? text = some (.comment, length)) : Text.shade (text.take length) ≠ [] := by
  obtain ⟨-, blanks, -, shades⟩ := Text.shade_of_comment (read?_comment_eq read)
  rw [shades]
  exact List.cons_ne_nil _ _

theorem length_of_literal {text written : List Char} {length : Nat}
    (read : read? text = some (.literal written, length)) : written.length = length := by
  obtain ⟨-, rfl, -⟩ := read?_literal_eq read
  exact List.length_take_of_le (read?_length_le read)

end Atom

namespace Delimiter

theorem closeFrom_blank (kind : Delimiter) (outer : Nat) (afterShaft : Bool) (taken : Nat)
    {c : Char} (blank : Text.isBlank c = true) (rest : List Char) :
    closeFrom kind outer afterShaft taken (c :: rest) =
      closeFrom kind outer false (taken + 1) rest := by
  have notOpener : c ≠ kind.opener := Text.ne_of_isBlank blank (by cases kind <;> decide)
  have notCloser : c ≠ kind.closer := Text.ne_of_isBlank blank (by cases kind <;> decide)
  have notMinus : c ≠ '-' := Text.ne_of_isBlank blank (by decide)
  have notEquals : c ≠ '=' := Text.ne_of_isBlank blank (by decide)
  have stays : ¬ kind.closes afterShaft c = true :=
    fun closes => notCloser (eq_closer_of_closes closes)
  have noShaft : isShaft c = false := by
    unfold isShaft
    rw [beq_eq_false_iff_ne.mpr notMinus, beq_eq_false_iff_ne.mpr notEquals, Bool.or_false]
  have same : kind.deepen outer c = outer := if_neg notOpener
  rw [closeFrom_eq, Atom.read?_blank blank]
  dsimp only
  rw [if_neg stays, same, noShaft]
  rfl

theorem closeFrom_blanks (kind : Delimiter) (outer : Nat) (afterShaft : Bool) (taken : Nat)
    {blanks : List Char} (all : ∀ c ∈ blanks, Text.isBlank c = true) (filled : blanks ≠ [])
    (rest : List Char) :
    closeFrom kind outer afterShaft taken (blanks ++ rest) =
      closeFrom kind outer false (taken + blanks.length) rest := by
  induction blanks generalizing afterShaft taken with
  | nil => exact absurd rfl filled
  | cons c blanks ih =>
      obtain ⟨blank, later⟩ := List.forall_mem_cons.mp all
      rw [List.cons_append, closeFrom_blank kind outer afterShaft taken blank]
      cases blanks with
      | nil => rfl
      | cons d blanks =>
          rw [ih false (taken + 1) later (List.cons_ne_nil d blanks), Nat.add_assoc,
            Nat.add_comm 1, ← List.length_cons]

/-- The search for a closer stops at the same place with the comments and without. -/
theorem closeFrom_veiled (kind : Delimiter) (outer : Nat) (afterShaft : Bool) (taken other : Nat)
    {text shaded : List Char} (veiled : Atom.Veiled text shaded) :
    Atom.Abreast text shaded taken other (closeFrom kind outer afterShaft taken text)
      (closeFrom kind outer afterShaft other shaded) := by
  induction veiled generalizing outer afterShaft taken other with
  | nothing =>
      rw [closeFrom_nil, closeFrom_nil]
      exact Atom.Veiled.nothing.abreast taken other
  | @comment text shaded length read later ih =>
      have goesOn : closeFrom kind outer afterShaft taken text =
          closeFrom kind outer false (taken + length) (text.drop length) := by
        rw [closeFrom_eq, read]
      rw [goesOn, closeFrom_blanks kind outer afterShaft other
        (fun c member => Text.isBlank_of_mem_shade member) (Atom.shade_ne_nil read)]
      refine .onward length (Text.shade (text.take length)).length ?_
      rw [List.drop_left]
      exact ih outer false _ _
  | @literal text written shaded length read again later ih =>
      rw [closeFrom_eq, read, closeFrom_eq kind outer afterShaft other, again]
      dsimp only
      refine .onward length length ?_
      rw [List.drop_left' (Atom.length_of_literal read)]
      exact ih outer false _ _
  | @char c rest shaded read again later mark _ ih _ =>
      rw [closeFrom_eq, read, closeFrom_eq kind outer afterShaft other, again]
      dsimp only
      rw [List.drop_succ_cons, List.drop_zero, List.drop_succ_cons, List.drop_zero]
      -- What the character does to the search is the same in both texts.
      by_cases closes : kind.closes afterShaft c = true
      · rw [if_pos closes, if_pos closes]
        cases outer with
        | zero => exact ⟨1, 1, rfl, rfl, later⟩
        | succ outer => exact .onward 1 1 (ih outer false _ _)
      · rw [if_neg closes, if_neg closes]
        exact .onward 1 1 (ih _ _ _ _)

/-- What remains of a group ends at the same place with the comments and without. -/
theorem closeLength_veiled (kind : Delimiter) {text shaded : List Char}
    (veiled : Atom.Veiled text shaded) :
    Atom.Veiled (text.drop (kind.closeLength text)) (shaded.drop (kind.closeLength shaded)) :=
  (kind.closeFrom_veiled 0 false 0 0 veiled).of_start

end Delimiter

/-! ### Quiet places -/

/-- No comment comes next, blanks apart. -/
def Text.Uncommented (text : List Char) : Prop :=
  Comment.length? (text.drop (Trivia.blankLength text)) = none

/-- The groups that may stand in the head of what the keyword declares. -/
def Keyword.headGroups? : Keyword → Option (List Delimiter)
  | .function | .implementation => some Finding.signatureGroups
  | .struct => some [.paren, .angle]
  | .enum => some [.angle]
  | .trait => some [.angle, .paren]
  | .unsafeMark | .macroRules => none

namespace Token

/-- The text starts with no word, or with one that goes on as nothing else and that no
comment follows, blanks apart. -/
def Named (text : List Char) : Prop :=
  text.head?.any Text.isWordStart = true →
    read? text = some (.word, (text.takeWhile Text.isWordPart).length) ∧
      Text.Uncommented (text.drop (text.takeWhile Text.isWordPart).length)

/-- What the token at the start of the text announces is spoken without comments: none
stands behind a number sign or an exclamation mark, none in an attribute, none in the head
of a declaration, and none behind the name of a macro that is defined. -/
structure Calm (text : List Char) : Prop where
  marks : text.head? = some '#' ∨ text.head? = some '!' → Text.Uncommented text.tail
  attributes : text.head? = some '#' → ∀ mark, Attribute.read? text.tail = some mark →
    Quiet text.tail mark.length
  heads : ∀ (keyword : Keyword) groups length, read? text = some (.word, length) →
    text.take length = keyword.spelling → keyword.headGroups? = some groups →
    (keyword = .function → Finding.isPointerType (text.drop length) = false) →
      Quiet (text.drop length) (Head.read groups (text.drop length)).length
  definitions : ∀ length trivia rest, read? text = some (.word, length) →
    text.take length = Keyword.macroRules.spelling → TriviaRun (text.drop length) trivia →
    text.drop (length + trivia) = '!' :: rest → Named (rest.drop (Trivia.blankLength rest))

/-- Every token of the text is calm. -/
def AllCalm (text : List Char) : Prop := ∀ count, Whole text count → Calm (text.drop count)

theorem AllCalm.first {text : List Char} (calm : AllCalm text) : Calm text := by
  have first := calm 0 (.nothing text)
  rwa [List.drop_zero] at first

theorem AllCalm.drop {text : List Char} {count : Nat} (calm : AllCalm text)
    (whole : Whole text count) : AllCalm (text.drop count) := by
  intro more later
  rw [List.drop_drop]
  exact calm _ (whole.append later)

end Token

namespace Trivia

theorem blankLength_eq_zero_iff (text : List Char) :
    blankLength text = 0 ↔ ∀ c, text.head? = some c → Text.isBlank c = false := by
  unfold blankLength
  cases text with
  | nil => simp
  | cons c rest =>
      by_cases blank : Text.isBlank c = true
      · rw [List.takeWhile_cons_of_pos blank]
        simp [blank]
      · rw [List.takeWhile_cons_of_neg blank]
        simpa using blank

/-- Behind its blanks a text does not go on with more of them. -/
theorem blankLength_drop (text : List Char) : blankLength (text.drop (blankLength text)) = 0 := by
  rw [blankLength_eq_zero_iff]
  intro c first
  have stops := List.head?_dropWhile_not Text.isBlank text
  have split := congrArg (List.drop (blankLength text))
    (List.takeWhile_append_dropWhile (p := Text.isBlank) (l := text))
  unfold blankLength at split first
  rw [List.drop_left] at split
  rw [split, first] at stops
  simpa using stops

end Trivia

namespace Text

/-- A text that starts with no comment keeps its first character. -/
theorem head?_withoutComments {text : List Char} (noComment : Comment.length? text = none) :
    (withoutComments text).head? = text.head? := by
  rcases (shaded_withoutComments text).head?_cases with same | ⟨slash, space⟩
  · exact same
  · cases read : Token.read? text with
    | none =>
        rw [Token.read?_eq_none_iff] at read
        rw [read] at slash
        cases slash
    | some pair =>
        obtain ⟨tag, length⟩ := pair
        have other : tag.isComment = false := by
          rw [Bool.eq_false_iff]
          intro comment
          rw [Token.length?_of_read? read comment] at noComment
          cases noComment
        have positive := (Token.read?_pos read).1
        have quiet : Token.Quiet text length := .single read other
        have same := congrArg List.head? quiet.take_withoutComments
        rwa [List.head?_take, List.head?_take, if_neg (by omega), if_neg (by omega)] at same

theorem Uncommented.blanks {text : List Char} (uncommented : Uncommented text) :
    Trivia.blankLength (withoutComments text) = Trivia.blankLength text ∧
      (withoutComments text).drop (Trivia.blankLength text) =
        withoutComments (text.drop (Trivia.blankLength text)) := by
  have quiet : Token.Quiet text (Trivia.blankLength text) := by
    apply (Trivia.blankLength_run text).mono
    rintro tag (rfl | rfl) <;> rfl
  refine ⟨?_, quiet.drop_withoutComments⟩
  have all : ∀ c ∈ text.take (Trivia.blankLength text), Text.isBlank c = true := by
    unfold Trivia.blankLength
    rw [← List.prefix_iff_eq_take.mp (List.takeWhile_prefix _)]
    exact List.all_eq_true.mp List.all_takeWhile
  have ends : Trivia.blankLength (withoutComments (text.drop (Trivia.blankLength text))) = 0 := by
    have noBlank := Trivia.blankLength_drop text
    rw [Trivia.blankLength_eq_zero_iff] at noBlank ⊢
    rw [head?_withoutComments uncommented]
    exact noBlank
  rw [quiet.withoutComments, Trivia.blankLength_append all, ends,
    List.length_take_of_le quiet.length_le, Nat.add_zero]

end Text

/-! ### Readers of atoms between tokens -/

namespace Token

/-- Wherever a token starts, readers of atoms see the same without the comments. -/
def AllVeiled (text : List Char) : Prop :=
  ∀ count, Whole text count →
    Atom.Veiled (text.drop count) (Text.withoutComments (text.drop count))

theorem AllVeiled.first {text : List Char} (veiled : AllVeiled text) :
    Atom.Veiled text (Text.withoutComments text) := by
  have first := veiled 0 (.nothing text)
  rwa [List.drop_zero] at first

theorem AllVeiled.drop {text : List Char} {count : Nat} (veiled : AllVeiled text)
    (whole : Whole text count) : AllVeiled (text.drop count) := by
  intro more later
  rw [List.drop_drop]
  exact veiled _ (whole.append later)

/-- A reader that passes no comment passes as many characters without the comments. -/
theorem Run.length_withoutComments {text : List Char} {count other : Nat}
    (quiet : Quiet text count) (inside : other ≤ (Text.withoutComments text).length)
    (behind : (Text.withoutComments text).drop other = Text.withoutComments (text.drop count)) :
    other = count := by
  have bound := quiet.length_le
  have grows := Text.length_le_withoutComments text
  have lengths := congrArg List.length (behind.trans quiet.drop_withoutComments.symm)
  rw [List.length_drop, List.length_drop] at lengths
  omega

end Token

namespace Delimiter

variable {text : List Char}

theorem closeLength_withoutComments (kind : Delimiter) (plain : Token.AllPlain text)
    (veiled : Token.AllVeiled text) :
    (Text.withoutComments text).drop (kind.closeLength (Text.withoutComments text)) =
      Text.withoutComments (text.drop (kind.closeLength text)) :=
  (kind.closeLength_veiled veiled.first).unique (veiled _ (kind.closeLength_whole plain))

theorem closeLength_of_quiet (kind : Delimiter) (plain : Token.AllPlain text)
    (veiled : Token.AllVeiled text) (quiet : Token.Quiet text (kind.closeLength text)) :
    kind.closeLength (Text.withoutComments text) = kind.closeLength text :=
  quiet.length_withoutComments (kind.closeLength_atoms _).length_le
    (kind.closeLength_withoutComments plain veiled)

end Delimiter

namespace Attribute

theorem bracketed?_of_head {opening text : List Char} {taken : Nat}
    (other : text.head? ≠ some '[') : bracketed? opening taken text = none := by
  cases text with
  | nil => rfl
  | cons c rest =>
      apply bracketed?_of_ne
      rintro rfl
      exact other rfl

theorem bracketed?_withoutComments (opening : List Char) (taken : Nat) {text : List Char}
    (plain : Token.AllPlain text) (veiled : Token.AllVeiled text)
    (noComment : Comment.length? text = none)
    (quiet : ∀ mark, bracketed? opening taken text = some mark →
      Token.Quiet text (mark.length - taken)) :
    bracketed? opening taken (Text.withoutComments text) = bracketed? opening taken text := by
  by_cases bracket : text.head? = some '['
  · obtain ⟨rest, rfl⟩ := List.head?_eq_some_iff.mp bracket
    have read : Token.read? ('[' :: rest) = some (.openBracket, 1) := rfl
    have whole : Token.Whole ('[' :: rest) 1 := .single read trivial
    have inner : Token.Quiet rest (Delimiter.bracket.closeLength rest) := by
      have all := quiet _ rfl
      dsimp only at all
      rw [Nat.add_assoc, Nat.add_sub_cancel_left] at all
      exact whole.rest all
    have same := Delimiter.bracket.closeLength_of_quiet (plain.drop whole) (veiled.drop whole) inner
    rw [Text.withoutComments_of_other read rfl]
    have opened : ∀ inside, bracketed? opening taken ('[' :: inside) =
        some ⟨opening ++ '[' :: Text.withoutWhiteSpace
          (inside.take (Delimiter.bracket.closeLength inside)),
          taken + 1 + Delimiter.bracket.closeLength inside⟩ := fun _ => rfl
    rw [List.drop_succ_cons, List.drop_zero] at same
    change bracketed? opening taken ('[' :: Text.withoutComments rest) = _
    rw [opened, opened, same, inner.take_withoutComments]
  · have still : (Text.withoutComments text).head? ≠ some '[' := by
      rw [Text.head?_withoutComments noComment]
      exact bracket
    rw [bracketed?_of_head bracket, bracketed?_of_head still]

/-- An attribute without comments is read again when the comments behind it are gone. -/
theorem read?_withoutComments {text : List Char} (plain : Token.AllPlain text)
    (calm : Token.AllCalm text) (veiled : Token.AllVeiled text)
    (uncommented : Text.Uncommented text)
    (quiet : ∀ mark, read? text = some mark → Token.Quiet text mark.length) :
    read? (Text.withoutComments text) = read? text := by
  obtain ⟨blanks, behind⟩ := uncommented.blanks
  have boundary : Token.Whole text (Trivia.blankLength text) := (Trivia.blankLength_run text).whole
  by_cases bang : (text.drop (Trivia.blankLength text)).head? = some '!'
  · obtain ⟨rest, split⟩ := List.head?_eq_some_iff.mp bang
    have read : Token.read? (text.drop (Trivia.blankLength text)) = some (.bang, 1) := by
      rw [split]
      rfl
    have splitAgain : (Text.withoutComments text).drop
        (Trivia.blankLength (Text.withoutComments text)) = '!' :: Text.withoutComments rest := by
      rw [blanks, behind, Text.withoutComments_of_other read rfl, split]
      rfl
    have noComment : Text.Uncommented rest := by
      have here := (calm _ boundary).marks (.inr bang)
      rwa [split] at here
    obtain ⟨blanksRest, behindRest⟩ := noComment.blanks
    have before : Token.Whole text (Trivia.blankLength text + 1 + Trivia.blankLength rest) := by
      refine (boundary.append (.single read trivial)).append ?_
      rw [← List.drop_drop, split]
      exact (Trivia.blankLength_run rest).whole
    have place : rest.drop (Trivia.blankLength rest) =
        text.drop (Trivia.blankLength text + 1 + Trivia.blankLength rest) := by
      rw [← List.drop_drop, ← List.drop_drop, split]
      rfl
    have found := read?_eq_bang split
    rw [read?_eq_bang splitAgain, found, blanks, blanksRest, behindRest, place]
    rw [place] at found
    refine bracketed?_withoutComments _ _ (plain.drop before) (veiled.drop before) ?_ ?_
    · rw [← place]
      exact noComment
    · intro mark isMark
      refine before.rest ?_
      rw [Nat.add_sub_cancel' (Nat.le_of_lt (lt_bracketed?_length isMark))]
      exact quiet mark (found.trans isMark)
  · have still : ((Text.withoutComments text).drop
        (Trivia.blankLength (Text.withoutComments text))).head? ≠ some '!' := by
      rw [blanks, behind, Text.head?_withoutComments uncommented]
      exact bang
    have found := read?_eq_bare bang
    rw [read?_eq_bare still, found, blanks, behind]
    refine bracketed?_withoutComments _ _ (plain.drop boundary) (veiled.drop boundary)
      uncommented ?_
    intro mark isMark
    refine boundary.rest ?_
    rw [Nat.add_sub_cancel' (Nat.le_of_lt (lt_bracketed?_length isMark))]
    exact quiet mark (found.trans isMark)

/-- A word is no attribute. -/
theorem read?_of_word {text : List Char} (named : text.head?.any Text.isWordStart = true) :
    read? text = none := by
  cases text with
  | nil => cases named
  | cons c rest =>
      rw [List.head?_cons, Option.any_some] at named
      have notBlank : Trivia.blankLength (c :: rest) = 0 := by
        rw [Trivia.blankLength_eq_zero_iff]
        rintro d ⟨⟩
        rw [Bool.eq_false_iff]
        intro blank
        rw [Token.isWordStart_of_isBlank blank] at named
        cases named
      have other : ∀ d, Text.isWordStart d = false → c ≠ d := by
        rintro d notStart rfl
        rw [named] at notStart
        cases notStart
      have notBang : ((c :: rest).drop (Trivia.blankLength (c :: rest))).head? ≠ some '!' := by
        rw [notBlank]
        exact fun bang => other '!' (by decide) (Option.some.inj bang)
      rw [read?_eq_bare notBang, notBlank]
      exact bracketed?_of_ne (other '[' (by decide))

end Attribute

namespace Atom

/-- A token that is a strand of atoms is the same strand without the comments behind it. -/
theorem Strand.veiled {text shaded : List Char} {size : Nat} (strand : Strand text size)
    (later : Veiled (text.drop size) shaded) (shades : Text.Shaded (text.drop size) shaded) :
    Veiled text (text.take size ++ shaded) := by
  induction strand with
  | nothing text => exact later
  | @literal text written length read =>
      obtain ⟨-, rfl, -⟩ := read?_literal_eq read
      exact .literal read (read?_literal_shaded read shades) later
  | @char c rest more bare inert named strand ih =>
      rw [Nat.add_comm, List.drop_succ_cons] at later shades
      have behind : Veiled rest (rest.take more ++ shaded) := ih later shades
      have same := shades.append_take
      have read := read?_of_isBare bare
      -- A number sign has a word behind it in both texts.
      have words : c = '#' → Attribute.read? rest = none ∧
          Attribute.read? (rest.take more ++ shaded) = none := by
        intro isHash
        refine ⟨Attribute.read?_of_word (named isHash), Attribute.read?_of_word ?_⟩
        rw [same.any_head? Text.isWordStart (by decide) (by decide)]
        exact named isHash
      rw [Nat.add_comm, List.take_succ_cons, List.cons_append]
      refine .char read (read?_char_shaded read same) behind ?_ ?_
      · intro isHash
        rw [(words isHash).1, (words isHash).2]
      · intro isHash
        unfold Attribute.skipLength
        rw [(words isHash).1]
        exact behind

end Atom

/-- A character that is a token stays one, and an attribute behind it is read again, since
it has no comment. -/
theorem Token.AllCalm.veiled_char {c : Char} {rest : List Char} (calm : AllCalm (c :: rest))
    (plain : AllPlain (c :: rest)) (whole : Whole (c :: rest) 1)
    (read : Atom.read? (c :: rest) = some (.char c, 1)) (later : AllVeiled rest) :
    Atom.Veiled (c :: rest) (c :: Text.withoutComments rest) := by
  have quiet : c = '#' → ∀ mark, Attribute.read? rest = some mark → Quiet rest mark.length := by
    rintro rfl
    exact calm.first.attributes rfl
  have again := Atom.read?_char_shaded read (Text.shaded_withoutComments rest)
  refine .char read again later.first ?_ ?_
  · rintro rfl
    exact Attribute.read?_withoutComments (plain.drop whole) (calm.drop whole) later
      (calm.first.marks (.inl rfl)) (quiet rfl)
  · intro isHash
    have skipped : Quiet rest (Attribute.skipLength rest) := by
      unfold Attribute.skipLength
      cases found : Attribute.read? rest with
      | none => exact .nothing _
      | some mark => exact quiet isHash mark found
    rw [skipped.drop_withoutComments]
    exact later _ skipped.whole

theorem Token.AllCalm.veiled {text : List Char} (calm : AllCalm text) (plain : AllPlain text) :
    Atom.Veiled text (Text.withoutComments text) := by
  induction size : text.length using Nat.strongRecOn generalizing text with
  | ind size ih =>
      subst size
      have behind : ∀ {count : Nat}, Whole text count → 0 < count → text ≠ [] →
          AllVeiled (text.drop count) := by
        intro count whole positive filled more later
        have all := whole.append later
        rw [List.drop_drop]
        refine ih _ ?_ (calm.drop all) (plain.drop all) rfl
        have length := List.length_pos_iff.mpr filled
        rw [List.length_drop]
        omega
      cases read : read? text with
      | none =>
          rw [read?_eq_none_iff] at read
          rw [read, Text.withoutComments_nil]
          exact .nothing
      | some pair =>
          obtain ⟨tag, length⟩ := pair
          obtain ⟨positive, filled⟩ := read?_pos read
          have whole : Whole text length := .single read trivial
          have later := behind whole positive filled
          by_cases comment : tag.isComment = true
          · have commented := length?_of_read? read comment
            rw [Text.withoutComments_of_comment commented]
            exact .comment (Atom.read?_of_comment commented) later.first
          · rw [Text.withoutComments_of_other read (Bool.eq_false_iff.mpr comment)]
            have shades := Text.shaded_withoutComments (text.drop length)
            rcases plain.first.atom_or_strand read with ⟨atom, isAtom⟩ | strand
            · cases atom with
              | comment =>
                  obtain ⟨other, readOther, isComment⟩ :=
                    read?_of_length? (Atom.read?_comment_eq isAtom)
                  rw [read] at readOther
                  cases readOther
                  exact absurd isComment comment
              | literal written =>
                  obtain ⟨-, rfl, -⟩ := Atom.read?_literal_eq isAtom
                  exact .literal isAtom (Atom.read?_literal_shaded isAtom shades) later.first
              | char c =>
                  obtain ⟨rest, rfl, rfl, -⟩ := Atom.read?_char_eq isAtom
                  exact calm.veiled_char plain whole isAtom later
            · exact strand.veiled later.first shades

theorem Token.AllCalm.allVeiled {text : List Char} (calm : AllCalm text) (plain : AllPlain text) :
    AllVeiled text :=
  fun _ whole => (calm.drop whole).veiled (plain.drop whole)

end Survey
