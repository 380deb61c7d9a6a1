import Survey.Proofs.AtomRuns

set_option autoImplicit false

/-!
# Findings and the tokens of the file

A survey reads a file in pieces: bodies are read again from the middle, and groups are
stepped over atom by atom. Under the conditions of `Token.Unambiguous` all of this agrees
with one reading of the file into tokens. Every reader starts and stops between two tokens
of the file, which is what `Cursor.Aligned` says; there is one exception, the word `b`
before a lifetime that is taken for the name of a macro, and it is over with the next
token.
-/

namespace Survey

/-! ### The tokens behind a cursor -/

namespace Cursor

theorem tokens_of_read (cursor : Cursor) {tag : Tag} {length : Nat}
    (read : Token.read? cursor.rest = some (tag, length)) :
    cursor.tokens =
      ⟨tag, cursor.place, cursor.rest.take length⟩ :: (cursor.skip length).tokens := by
  rw [tokens_eq, read]

theorem tokens_of_end (cursor : Cursor) (atEnd : Token.read? cursor.rest = none) :
    cursor.tokens = [.atEnd cursor.place] := by
  rw [tokens_eq, atEnd]

theorem tokens_of_run {allowed : Tag → Prop} (cursor : Cursor) {count : Nat}
    (run : Token.Run allowed cursor.rest count) :
    ∃ passed, cursor.tokens = passed ++ (cursor.skip count).tokens ∧
      ∀ token ∈ passed, allowed token.tag := by
  generalize behind : cursor.rest = text at run
  induction run generalizing cursor with
  | nothing text =>
      refine ⟨[], ?_, nofun⟩
      rw [skip_zero, List.nil_append]
  | @onward text tag length more read isAllowed later ih =>
      subst behind
      obtain ⟨passed, split, all⟩ := ih (cursor.skip length) rfl
      refine ⟨⟨tag, cursor.place, cursor.rest.take length⟩ :: passed, ?_,
        List.forall_mem_cons.mpr ⟨isAllowed, all⟩⟩
      rw [tokens_of_read cursor read, split, skip_skip, List.cons_append]

/-- Tokens lose nothing of the text. -/
theorem flatMap_lexeme_tokens (cursor : Cursor) :
    cursor.tokens.flatMap Token.lexeme = cursor.rest := by
  fun_induction tokens cursor with
  | case1 cursor atEnd =>
      rw [Token.read?_eq_none_iff] at atEnd
      rw [atEnd]
      rfl
  | case2 cursor tag length read ih =>
      rw [List.flatMap_cons, ih]
      exact List.take_append_drop length cursor.rest

theorem exists_token_at (cursor : Cursor) :
    ∃ token ∈ cursor.tokens, token.start = cursor.place := by
  cases read : Token.read? cursor.rest with
  | none =>
      rw [tokens_of_end cursor read]
      exact ⟨_, List.mem_singleton_self _, rfl⟩
  | some pair =>
      obtain ⟨tag, length⟩ := pair
      rw [tokens_of_read cursor read]
      exact ⟨_, List.mem_cons_self, rfl⟩

/-- The tokens stand one behind the other. -/
theorem tokens_ordered (cursor : Cursor) :
    (∀ token ∈ cursor.tokens, cursor.place.offset ≤ token.start.offset) ∧
      cursor.tokens.Pairwise fun first second =>
        first.start.offset + first.length ≤ second.start.offset := by
  fun_induction tokens cursor with
  | case1 cursor atEnd =>
      refine ⟨?_, List.pairwise_singleton _ _⟩
      intro token member
      rw [List.mem_singleton] at member
      subst member
      exact Nat.le_refl _
  | case2 cursor tag length read ih =>
      obtain ⟨later, pairwise⟩ := ih
      rw [offset_skip] at later
      constructor
      · rw [List.forall_mem_cons]
        refine ⟨Nat.le_refl _, ?_⟩
        intro token member
        have beyond := later token member
        omega
      · exact List.pairwise_cons.mpr ⟨later, pairwise⟩

end Cursor

namespace Token

/-- The conditions on the tokens of a file under which reading it in pieces agrees with
them: no word or number ends in an `r` that would open a raw string with what follows, no
raw byte string or raw C string goes without number signs, and no macro is defined under
the name of a literal or of a raw word. -/
structure Unambiguous (tokens : List Token) : Prop where
  endings : ∀ before token after, tokens = before ++ token :: after →
    token.tag = .word ∨ token.tag = .number → token.lexeme.getLast? = some 'r' →
      ∀ hashes rest, after.flatMap lexeme ≠ List.replicate hashes '#' ++ '"' :: rest
  strings : ∀ token ∈ tokens, token.tag = .string →
    ¬ ['b', 'r', '"'] <+: token.lexeme ∧ ¬ ['c', 'r', '"'] <+: token.lexeme
  definitions : ∀ before rules trivia bang blanks next after,
    tokens = before ++ rules :: (trivia ++ bang :: (blanks ++ next :: after)) →
    rules.keyword? = some .macroRules → (∀ token ∈ trivia, token.tag.isTrivia = true) →
    bang.tag = .bang → (∀ token ∈ blanks, token.tag = .blank ∨ token.tag = .newline) →
      next.tag ≠ .string ∧ next.tag ≠ .character ∧
        (next.tag = .word → ¬ ['r', '#'] <+: next.lexeme)

theorem three_le_of_escaped {c : Char} {rest : List Char} {tag : Tag} {length : Nat}
    (opens : c = 'b' ∨ c = 'c') (read : read? (c :: 'r' :: '"' :: rest) = some (tag, length)) :
    3 ≤ length := by
  have literal : literalAfter? [c, 'r'] ('"' :: rest) =
      some (.string, Literal.plainLength 1 rest) := by
    apply literalAfter?_string
    rcases opens with rfl | rfl
    · exact .inr (.inr (.inl rfl))
    · exact .inr (.inr (.inr rfl))
  have notRaw : Literal.rawHashes? (c :: (['r'] ++ '"' :: rest)) = none := by
    apply rawHashes?_of_ne
    rcases opens with rfl | rfl <;> decide
  have starts : Text.isWordStart c = true := by
    rcases opens with rfl | rfl <;> decide
  have ends : ∀ d, ('"' :: rest).head? = some d → Text.isWordPart d = false := by
    intro d first
    cases first
    decide
  have parts : ∀ d ∈ ['r'], Text.isWordPart d = true := List.all_eq_true.mp (by decide)
  have reading := (Reading.literal starts parts ends notRaw literal).read?
  have same := read.symm.trans reading
  cases same
  have bound := Literal.le_plainLength 1 rest
  simp only [List.length_cons, List.length_nil]
  omega

theorem not_escaped_of_lexeme {text : List Char} {tag : Tag} {length : Nat} {c : Char}
    (opens : c = 'b' ∨ c = 'c') (read : read? text = some (tag, length))
    (lexeme : ¬ [c, 'r', '"'] <+: text.take length) : ¬ [c, 'r', '"'] <+: text := by
  rintro ⟨rest, rfl⟩
  exact lexeme (List.prefix_take_iff.mpr
    ⟨List.prefix_append _ _, three_le_of_escaped opens read⟩)

theorem Unambiguous.allPlain {text : List Char}
    (unambiguous : Unambiguous (Cursor.ofText text).tokens) : AllPlain text := by
  intro count run
  obtain ⟨passed, split, -⟩ := Cursor.tokens_of_run (.ofText text) run
  constructor
  · intro tag length read isName last
    have next := Cursor.tokens_of_read ((Cursor.ofText text).skip count) read
    rw [next] at split
    have ends := unambiguous.endings passed _ _ split isName last
    cases raw : Literal.rawHashes? ('r' :: (text.drop count).drop length) with
    | none => rfl
    | some hashes =>
        obtain ⟨rest, opening⟩ := (Literal.rawHashes?_eq_some_iff _ hashes).mp raw
        rw [Cursor.flatMap_lexeme_tokens] at ends
        exact absurd (List.cons.inj opening).2 (ends hashes rest)
  · intro length read
    have next := Cursor.tokens_of_read ((Cursor.ofText text).skip count) read
    have member : (⟨.string, ((Cursor.ofText text).skip count).place,
        (text.drop count).take length⟩ : Token) ∈ (Cursor.ofText text).tokens := by
      rw [split, next]
      exact List.mem_append_right _ List.mem_cons_self
    obtain ⟨notB, notC⟩ := unambiguous.strings _ member rfl
    exact ⟨not_escaped_of_lexeme (.inl rfl) read notB, not_escaped_of_lexeme (.inr rfl) read notC⟩

/-! ### Cutting between tokens -/

theorem Plain.take {text : List Char} {limit : Nat} (plain : Plain text)
    (boundary : Whole text limit) : Plain (text.take limit) := by
  constructor
  · intro tag length read isName last
    have full := Run.read?_of_take boundary read
    have bound := read?_length_le read
    rw [List.length_take] at bound
    have inside : length ≤ limit := by omega
    rw [List.take_take, Nat.min_eq_left inside] at last
    have none := plain.notRaw tag length full isName last
    cases raw : Literal.rawHashes? ('r' :: (text.take limit).drop length) with
    | none => rfl
    | some hashes =>
        have uncut : Literal.rawHashes?
            ('r' :: (text.take limit).drop length ++ text.drop limit) = some hashes :=
          Literal.rawHashes?_of_cut raw
        rw [List.cons_append, ← List.drop_append_of_le_length (by rw [List.length_take]; omega),
          List.take_append_drop, none] at uncut
        cases uncut
  · intro length read
    obtain ⟨notB, notC⟩ := plain.notEscaped length (Run.read?_of_take boundary read)
    exact ⟨fun isB => notB (isB.trans (List.take_prefix _ _)),
      fun isC => notC (isC.trans (List.take_prefix _ _))⟩

theorem AllPlain.take {text : List Char} {limit : Nat} (plain : AllPlain text)
    (boundary : Whole text limit) : AllPlain (text.take limit) := by
  intro count run
  have full := run.of_take boundary
  have bound := run.length_le
  rw [List.length_take] at bound
  obtain ⟨more, rfl⟩ := Nat.exists_eq_add_of_le (show count ≤ limit by omega)
  rw [List.drop_take, Nat.add_sub_cancel_left]
  exact (plain count full).take (.rest full boundary)

end Token

namespace Cursor

/-- The cursor stands between two tokens of the text, and so does the end of what it has
left; behind that the text goes on as given. -/
def Aligned (text after : List Char) (cursor : Cursor) : Prop :=
  ∃ count, Token.Whole text count ∧ (ofText text).skip count = cursor.extend after ∧
    Token.Whole (cursor.rest ++ after) cursor.rest.length

namespace Aligned

variable {text after : List Char} {cursor : Cursor} {count : Nat}

theorem start (text : List Char) : (Cursor.ofText text).Aligned text [] := by
  refine ⟨0, .nothing text, ?_, ?_⟩
  · rw [skip_zero, extend_nil]
  · rw [List.append_nil]
    exact .to_end text

/-- A run of what the cursor has left is a run of the text. -/
theorem run {allowed : Tag → Prop} (aligned : cursor.Aligned text after)
    (run : Token.Run allowed cursor.rest count) :
    Token.Run allowed (cursor.extend after).rest count := by
  obtain ⟨-, -, -, boundary⟩ := aligned
  refine Token.Run.of_take ?_ boundary
  rw [extend_rest, List.take_left]
  exact run

theorem skip (aligned : cursor.Aligned text after) (run : Token.Whole cursor.rest count) :
    (cursor.skip count).Aligned text after := by
  have wide := aligned.run run
  obtain ⟨first, whole, stands, boundary⟩ := aligned
  have inside := run.length_le
  refine ⟨first + count, whole.append ?_, ?_, ?_⟩
  · have behind : text.drop first = (cursor.extend after).rest := congrArg rest stands
    rw [behind]
    exact wide
  · rw [← skip_skip, stands, extend_skip inside]
  · rw [skip_rest, ← List.drop_append_of_le_length inside, List.length_drop]
    apply wide.rest
    rw [Nat.add_sub_cancel' inside]
    exact boundary

theorem window (aligned : cursor.Aligned text after) (run : Token.Whole cursor.rest count) :
    (cursor.window count).Aligned text (cursor.rest.drop count ++ after) := by
  have wide := aligned.run run
  obtain ⟨first, whole, stands, -⟩ := aligned
  have same : (cursor.window count).extend (cursor.rest.drop count ++ after) =
      cursor.extend after := by
    unfold Cursor.window extend
    dsimp only
    rw [← List.append_assoc, List.take_append_drop]
  refine ⟨first, whole, by rw [same, stands], ?_⟩
  have rests : (cursor.window count).rest ++ (cursor.rest.drop count ++ after) =
      (cursor.extend after).rest := congrArg rest same
  rw [rests]
  unfold Cursor.window
  rw [List.length_take, Nat.min_eq_left run.length_le]
  exact wide

theorem allPlain (aligned : cursor.Aligned text after) (plain : Token.AllPlain text) :
    Token.AllPlain cursor.rest := by
  obtain ⟨count, whole, stands, boundary⟩ := aligned
  have behind : text.drop count = cursor.rest ++ after := congrArg rest stands
  have wide := plain.drop whole
  rw [behind] at wide
  have cut := wide.take boundary
  rwa [List.take_left] at cut

theorem toEnd (aligned : cursor.Aligned text after) : cursor.toEnd.Aligned text after :=
  aligned.skip (.to_end cursor.rest)

/-! ### What the tokens of the text are here -/

theorem tokens (aligned : cursor.Aligned text after) :
    ∃ passed, (Cursor.ofText text).tokens = passed ++ (cursor.extend after).tokens := by
  obtain ⟨count, whole, stands, -⟩ := aligned
  obtain ⟨passed, split, -⟩ := tokens_of_run (.ofText text) whole
  rw [stands] at split
  exact ⟨passed, split⟩

theorem tokens_of_run {allowed : Tag → Prop} (aligned : cursor.Aligned text after)
    (run : Token.Run allowed cursor.rest count) :
    ∃ passed, (cursor.extend after).tokens = passed ++ ((cursor.skip count).extend after).tokens ∧
      ∀ token ∈ passed, allowed token.tag := by
  have split := Cursor.tokens_of_run (cursor.extend after) (aligned.run run)
  rwa [extend_skip run.length_le] at split

theorem tokens_of_read {tag : Tag} {length : Nat} (aligned : cursor.Aligned text after)
    (read : Token.read? cursor.rest = some (tag, length)) :
    (cursor.extend after).tokens =
      ⟨tag, cursor.place, cursor.rest.take length⟩ ::
        ((cursor.skip length).extend after).tokens := by
  have bound := Token.read?_length_le read
  obtain ⟨-, -, -, boundary⟩ := aligned
  have full : Token.read? (cursor.extend after).rest = some (tag, length) := by
    refine Token.Run.read?_of_take boundary ?_
    rw [extend_rest, List.take_left]
    exact read
  rw [Cursor.tokens_of_read (cursor.extend after) full, extend_skip bound, extend_rest,
    List.take_append_of_le_length bound, extend_place]

theorem tokens_of_significant {token : Token} {length : Nat}
    (aligned : cursor.Aligned text after) (next : cursor.significant? = some (token, length)) :
    ∃ trivia, (cursor.extend after).tokens =
        trivia ++ token :: ((cursor.skip length).extend after).tokens ∧
      ∀ passed ∈ trivia, passed.tag.isTrivia = true := by
  obtain ⟨trivia, size, run, read, -, rfl, start, lexeme⟩ := significant?_eq_some next
  obtain ⟨passed, split, all⟩ := aligned.tokens_of_run run
  refine ⟨passed, ?_, all⟩
  have same : token = ⟨token.tag, (cursor.skip trivia).place,
      (cursor.skip trivia).rest.take size⟩ := by
    rw [← start, skip_rest, ← lexeme]
  rw [split, (aligned.skip run.whole).tokens_of_read read, skip_skip, ← same]

theorem significant {token : Token} {length : Nat} (aligned : cursor.Aligned text after)
    (next : cursor.significant? = some (token, length)) :
    (cursor.skip length).Aligned text after := by
  obtain ⟨trivia, size, run, read, -, rfl, -, -⟩ := significant?_eq_some next
  exact aligned.skip (run.whole.append (.single read trivial))

theorem mem_tokens {token : Token} {length : Nat} (aligned : cursor.Aligned text after)
    (next : cursor.significant? = some (token, length)) : token ∈ (Cursor.ofText text).tokens := by
  obtain ⟨passed, split⟩ := aligned.tokens
  obtain ⟨trivia, here, -⟩ := aligned.tokens_of_significant next
  rw [split, here]
  simp

/-- A token of the text starts where the cursor stands. -/
theorem exists_token (aligned : cursor.Aligned text after) :
    ∃ token ∈ (Cursor.ofText text).tokens, token.start = cursor.place := by
  obtain ⟨passed, split⟩ := aligned.tokens
  obtain ⟨token, member, start⟩ := exists_token_at (cursor.extend after)
  refine ⟨token, ?_, start⟩
  rw [split]
  exact List.mem_append_right _ member

end Aligned

/-- The cursor stands behind the `b` of a lifetime, which is what remains of a token when
its first letter was taken for the name of a macro. -/
def InLifetime (text : List Char) (cursor : Cursor) : Prop :=
  ∃ after before length, Aligned text after before ∧ before.rest ≠ [] ∧ cursor = before.skip 1 ∧
    Token.read? before.rest = some (.lifetime, 1 + length) ∧
    Token.read? cursor.rest = some (.lifetime, length)

theorem InLifetime.significant {text : List Char} {cursor : Cursor} {token : Token} {length : Nat}
    (inside : cursor.InLifetime text) (next : cursor.significant? = some (token, length)) :
    token.tag = .lifetime ∧ ∃ after, (cursor.skip length).Aligned text after := by
  obtain ⟨after, before, size, aligned, -, rfl, whole, read⟩ := inside
  have first : (before.skip 1).significant? =
      some (⟨.lifetime, (before.skip 1).place, (before.skip 1).rest.take size⟩, size) := by
    rw [significant?_eq, read]
    rfl
  rw [first] at next
  cases next
  refine ⟨rfl, after, ?_⟩
  rw [skip_skip]
  exact aligned.skip (.single whole trivial)

theorem InLifetime.toEnd {text : List Char} {cursor : Cursor} (inside : cursor.InLifetime text) :
    ∃ after, cursor.toEnd.Aligned text after := by
  obtain ⟨after, before, size, aligned, filled, rfl, -, -⟩ := inside
  have positive := List.length_pos_iff.mpr filled
  refine ⟨after, ?_⟩
  have same : (before.skip 1).toEnd = before.toEnd := by
    unfold Cursor.toEnd
    rw [skip_skip, skip_rest, List.length_drop, Nat.add_sub_cancel' positive]
  rw [same]
  exact aligned.toEnd

end Cursor

/-! ### Names of macros -/

namespace Token

theorem literalAfter?_lifetime {word after : List Char} {more : Nat}
    (found : literalAfter? word after = some (.lifetime, more)) :
    word = ['b'] ∧ ∃ rest, after = '\'' :: rest ∧ quoted after = (.lifetime, more) := by
  have opens := opens_of_literalAfter? found
  cases after with
  | nil =>
      rw [literalAfter?_nil] at found
      cases found
  | cons c rest =>
      rcases literal_opener_cases c with rfl | rfl | rfl | ⟨notString, notHash, notByte⟩
      · rw [literalAfter?_string opens] at found
        cases found
      · rw [literalAfter?_hashes opens] at found
        split at found <;> cases found
      · rw [literalAfter?_byte opens] at found
        split at found
        · rename_i isB
          exact ⟨isB, rest, rfl, Option.some.inj found⟩
        · cases found
      · rw [literalAfter?_other notString notHash notByte] at found
        cases found

theorem raw_of_rawWordLength {c : Char} {word after : List Char}
    (raw : rawWordLength (c :: word) after ≠ 0) :
    ['r', '#'] <+: (c :: (word ++ after)).take ((c :: word).length +
      rawWordLength (c :: word) after) := by
  have atLeast : 1 ≤ rawWordLength (c :: word) after := Nat.one_le_iff_ne_zero.mpr raw
  refine List.prefix_take_iff.mpr ⟨?_, ?_⟩
  · unfold rawWordLength at raw
    split at raw
    · split at raw
      · rename_i isRaw
        cases isRaw.1
        exact List.prefix_append _ _
      · exact absurd rfl raw
    · exact absurd rfl raw
  · simp only [List.length_cons, List.length_nil]
    omega

/-- What the word at the start of the text is, when it may name a macro. -/
theorem word_or_lifetime {c : Char} {rest : List Char} {tag : Tag} {size : Nat}
    (starts : Text.isWordStart c = true) (read : read? (c :: rest) = some (tag, size))
    (notString : tag ≠ .string) (notCharacter : tag ≠ .character)
    (notRaw : tag = .word → ¬ ['r', '#'] <+: (c :: rest).take size) :
    ((c :: rest).takeWhile Text.isWordPart).length = size ∨
      (tag = .lifetime ∧ ∃ quote length, c :: rest = 'b' :: '\'' :: quote ∧ size = 1 + length ∧
        read? ('\'' :: quote) = some (.lifetime, length)) := by
  have special := not_special_of_isWordStart starts
  have head : ∀ {word after : List Char}, (∀ d ∈ word, Text.isWordPart d = true) →
      (∀ d, after.head? = some d → Text.isWordPart d = false) →
      ((c :: (word ++ after)).takeWhile Text.isWordPart).length = (c :: word).length := by
    intro word after parts ends
    rw [List.takeWhile_cons_of_pos (Text.isWordPart_of_isWordStart starts),
      List.takeWhile_append_of_pos parts]
    cases after with
    | nil => simp
    | cons d after =>
        rw [List.takeWhile_cons_of_neg (by rw [ends d rfl]; exact Bool.false_ne_true)]
        simp
  generalize whole : c :: rest = text at read
  cases reading_of_read? read with
  | newline more =>
      cases whole
      exact absurd rfl special.1
  | slash slashed =>
      cases whole
      exact absurd rfl special.2.1
  | string more =>
      cases whole
      exact absurd rfl special.2.2.1
  | quote quoted =>
      cases whole
      exact absurd rfl special.2.2.2
  | raw opens => exact absurd rfl notString
  | @literal d word after _ more starts' parts ends opensNot found =>
      cases whole
      rcases literalAfter?_tag found with rfl | rfl | rfl
      · exact absurd rfl notString
      · exact absurd rfl notCharacter
      · right
        obtain ⟨isB, quote, rfl, quoted⟩ := literalAfter?_lifetime found
        cases isB
        exact ⟨rfl, quote, more, rfl, rfl, (Reading.quote quoted).read?⟩
  | @word d word after starts' parts ends opensNot missing =>
      cases whole
      left
      have alone : rawWordLength (c :: word) after = 0 := by
        by_contra raw
        exact notRaw rfl (raw_of_rawWordLength raw)
      rw [head parts ends, alone, Nat.add_zero]
  | number more notStart digit =>
      cases whole
      rw [starts] at notStart
      cases notStart
  | blank more inLine blank =>
      cases whole
      rw [isWordStart_of_isBlank blank] at starts
      cases starts
  | punctuation more other notStart notDigit notBlank =>
      cases whole
      rw [starts] at notStart
      cases notStart

end Token

namespace Cursor

variable {text after : List Char} {cursor : Cursor}

/-- The name of a macro and its group end at a boundary, or a lifetime was taken for the name
and its quote comes next. -/
theorem Aligned.named_group (aligned : cursor.Aligned text after) (plain : Token.AllPlain text)
    (starts : cursor.rest.head?.any Text.isWordStart = true) {tag : Tag} {size : Nat}
    (read : Token.read? cursor.rest = some (tag, size)) (notString : tag ≠ .string)
    (notCharacter : tag ≠ .character)
    (notRaw : tag = .word → ¬ ['r', '#'] <+: cursor.rest.take size) :
    (∃ after, (cursor.skip (macroNameLength true cursor.rest + macroGroupLength
        (cursor.rest.drop (macroNameLength true cursor.rest)))).Aligned text after) ∨
      (cursor.skip (macroNameLength true cursor.rest + macroGroupLength
        (cursor.rest.drop (macroNameLength true cursor.rest)))).InLifetime text := by
  have measured : macroNameLength true cursor.rest = _ := macroNameLength_of_named starts
  cases first : cursor.rest with
  | nil =>
      rw [first] at starts
      cases starts
  | cons c rest =>
      have token := read
      rw [first] at starts token notRaw
      rcases Token.word_or_lifetime starts token notString notCharacter notRaw with
        isWord | ⟨rfl, quote, more, isByte, rfl, readQuote⟩
      · left
        rw [← first] at isWord ⊢
        rw [measured, isWord]
        have name : Token.Whole cursor.rest
            (size + Trivia.blankLength (cursor.rest.drop size)) :=
          Token.Run.append (.single read trivial) (Trivia.blankLength_run _).whole
        have atGroup := aligned.skip name
        refine ⟨after, ?_⟩
        rw [← skip_skip]
        exact atGroup.skip (macroGroupLength_whole (atGroup.allPlain plain))
      · right
        rw [← first]
        rw [isByte] at first
        have one : macroNameLength true cursor.rest = 1 := by
          rw [measured, first]
          rfl
        refine ⟨after, cursor, more, aligned, ?_, ?_, read, ?_⟩
        · rw [first]
          exact List.cons_ne_nil _ _
        · rw [one, first]
          rfl
        · rw [one, skip_rest, first]
          exact readQuote

/-- Behind the name and the group of a macro that is defined, the cursor is aligned again,
or stands inside a lifetime. -/
theorem Aligned.definition (aligned : cursor.Aligned text after) (plain : Token.AllPlain text)
    (named : ∀ blanks next rest, (cursor.extend after).tokens = blanks ++ next :: rest →
      (∀ token ∈ blanks, token.tag = .blank ∨ token.tag = .newline) →
        next.tag ≠ .string ∧ next.tag ≠ .character ∧
          (next.tag = .word → ¬ ['r', '#'] <+: next.lexeme)) :
    (∃ after, (cursor.skip (macroLength true cursor.rest)).Aligned text after) ∨
      (cursor.skip (macroLength true cursor.rest)).InLifetime text := by
  have blanks := Trivia.blankLength_run cursor.rest
  obtain ⟨passed, split, areBlank⟩ := aligned.tokens_of_run blanks
  have atName := aligned.skip blanks.whole
  have length := macroLength_eq true cursor.rest
  rw [length, Nat.add_assoc, ← skip_skip]
  rw [← skip_rest] at length ⊢
  generalize cursor.skip (Trivia.blankLength cursor.rest) = behind at *
  by_cases starts : behind.rest.head?.any Text.isWordStart = true
  · cases read : Token.read? behind.rest with
    | none =>
        rw [Token.read?_eq_none_iff] at read
        rw [read] at starts
        cases starts
    | some pair =>
        obtain ⟨tag, size⟩ := pair
        rw [atName.tokens_of_read read] at split
        obtain ⟨notString, notCharacter, notRaw⟩ := named passed _ _ split areBlank
        exact atName.named_group plain starts read notString notCharacter notRaw
  · -- Where no word is taken as a name, only a group may follow.
    have noName : macroNameLength true behind.rest = 0 := if_neg starts
    left
    rw [noName, Nat.zero_add, List.drop_zero]
    exact ⟨after, atName.skip (macroGroupLength_whole (atName.allPlain plain))⟩

end Cursor

namespace Finding

theorem afterUnsafe_whole {cursor : Cursor} (plain : Token.AllPlain cursor.rest) :
    Token.Whole cursor.rest (afterUnsafe cursor).length := by
  have trivia := (Trivia.length_run cursor.rest).whole
  unfold afterUnsafe
  dsimp only
  split
  · exact .nothing _
  · rename_i c inner split
    by_cases brace : c = '\x7b'
    · subst brace
      rw [if_pos rfl]
      dsimp only
      rw [Nat.add_assoc]
      apply trivia.append
      refine Token.whole_of_atoms (plain.drop trivia) ?_ ?_
      · rw [split]
        exact .onward (Atom.read?_of_isBare (Delimiter.brace.isBare_opener inner))
          (Delimiter.brace.closeLength_atoms inner)
      · rw [split]
        exact .behind ((Delimiter.brace.closeLength_endsAt inner).mono (by decide))
    · rw [if_neg brace]
      exact .nothing _

/-- Reading goes on between tokens, or inside a lifetime. -/
def Stands (text : List Char) (cursor : Cursor) : Prop :=
  (∃ after, cursor.Aligned text after) ∨ cursor.InLifetime text

theorem aligned_of_significant {text : List Char} {cursor : Cursor} {token : Token} {length : Nat}
    (stands : Stands text cursor) (next : cursor.significant? = some (token, length))
    (notLifetime : token.tag ≠ .lifetime) : ∃ after, cursor.Aligned text after := by
  rcases stands with aligned | inside
  · exact aligned
  · exact absurd (inside.significant next).1 notLifetime

theorem aligned_course {text : List Char}
    (unambiguous : Token.Unambiguous (Cursor.ofText text).tokens) :
    Course (Stands text) (fun cursor => ∃ after, cursor.Aligned text after) := by
  have plain := unambiguous.allPlain
  constructor
  · rintro cursor token length (⟨after, aligned⟩ | inside) next
    · exact ⟨after, aligned.significant next⟩
    · exact (inside.significant next).2
  · intro cursor aligned
    exact .inl aligned
  · rintro cursor (⟨after, aligned⟩ | inside)
    · exact .inl ⟨after, aligned.toEnd⟩
    · exact .inl inside.toEnd
  · rintro cursor kind ⟨after, aligned⟩
    exact .inl ⟨after, aligned.skip (kind.closeLength_whole (aligned.allPlain plain))⟩
  · rintro cursor ⟨after, aligned⟩
    exact .inl ⟨_, aligned.window (Delimiter.brace.closeLength_whole (aligned.allPlain plain))⟩
  · rintro cursor mark ⟨after, aligned⟩ read
    exact .inl ⟨after, aligned.skip (Attribute.read?_whole (aligned.allPlain plain) read)⟩
  · rintro cursor ⟨after, aligned⟩
    exact .inl ⟨after, aligned.skip (macroLength_whole (aligned.allPlain plain))⟩
  · intro cursor rules bang length further stands next isRules nextBang isBang
    have isWord := (Token.lexeme_of_keyword? isRules).1
    obtain ⟨after, aligned⟩ := aligned_of_significant stands next (by rw [isWord]; decide)
    have behindRules := aligned.significant next
    have behindBang := behindRules.significant nextBang
    apply behindBang.definition plain
    intro blanks name rest split areBlank
    obtain ⟨passed, tokens⟩ := aligned.tokens
    obtain ⟨before, rulesHere, -⟩ := aligned.tokens_of_significant next
    obtain ⟨trivia, bangHere, areTrivia⟩ := behindRules.tokens_of_significant nextBang
    rw [rulesHere, bangHere, split, ← List.append_assoc] at tokens
    exact unambiguous.definitions _ _ _ _ _ _ _ tokens isRules areTrivia isBang areBlank
  · rintro cursor ⟨after, aligned⟩
    exact .inl ⟨after, aligned.skip (afterUnsafe_whole (aligned.allPlain plain))⟩
  · rintro cursor groups ⟨after, aligned⟩
    exact ⟨after, aligned.skip (Head.read_whole groups (aligned.allPlain plain))⟩
  · rintro cursor ⟨after, aligned⟩
    exact .inl ⟨after, aligned.skip (VariantList.read_whole (aligned.allPlain plain))⟩

end Finding

/-! ### Surveys -/

namespace Token

/-- A keyword stands there, as a word of its own. -/
def KeywordAt (tokens : List Token) (keyword : Keyword) (place : Position) : Prop :=
  ∃ token ∈ tokens, token.tag = .word ∧ token.lexeme = keyword.spelling ∧ token.start = place

/-- A number sign stands there. -/
def HashAt (tokens : List Token) (place : Position) : Prop :=
  ∃ token ∈ tokens, token.tag = .hash ∧ token.start = place

/-- A brace stands there, and before it, trivia apart, the word that makes its block
unsafe. -/
def UnsafeBraceAt (tokens : List Token) (place : Position) : Prop :=
  ∃ before mark trivia brace after, tokens = before ++ mark :: (trivia ++ brace :: after) ∧
    mark.tag = .word ∧ mark.lexeme = Keyword.unsafeMark.spelling ∧
    (∀ token ∈ trivia, token.tag.isTrivia = true) ∧ brace.tag = .openBrace ∧ brace.start = place

/-- The place is where one of the tokens starts; the last of them is at the end of the
text. -/
def BoundaryAt (tokens : List Token) (place : Position) : Prop :=
  ∃ token ∈ tokens, token.start = place

/-- What is of the kind starts there. -/
def StartsAt (tokens : List Token) : Kind → Position → Prop
  | .unsafeBlock => UnsafeBraceAt tokens
  | .function => KeywordAt tokens .function
  | .struct => KeywordAt tokens .struct
  | .enum => KeywordAt tokens .enum
  | .trait => KeywordAt tokens .trait
  | .test => HashAt tokens

theorem StartsAt.boundaryAt {tokens : List Token} {kind : Kind} {place : Position}
    (starts : StartsAt tokens kind place) : BoundaryAt tokens place := by
  have keyword : ∀ {keyword : Keyword},
      KeywordAt tokens keyword place → BoundaryAt tokens place := by
    rintro keyword ⟨token, member, -, -, start⟩
    exact ⟨token, member, start⟩
  cases kind with
  | unsafeBlock =>
      obtain ⟨before, mark, trivia, brace, after, rfl, -, -, -, -, start⟩ := starts
      exact ⟨brace, by simp, start⟩
  | function => exact keyword starts
  | struct => exact keyword starts
  | enum => exact keyword starts
  | trait => exact keyword starts
  | test =>
      obtain ⟨token, member, -, start⟩ := starts
      exact ⟨token, member, start⟩

/-- A boundary lies inside no token. -/
theorem BoundaryAt.outside {text : List Char} {place : Position}
    (boundary : BoundaryAt (Cursor.ofText text).tokens place) {token : Token}
    (member : token ∈ (Cursor.ofText text).tokens) :
    place.offset ≤ token.start.offset ∨ token.start.offset + token.length ≤ place.offset := by
  obtain ⟨other, otherMember, rfl⟩ := boundary
  have ordered := (Cursor.tokens_ordered (.ofText text)).2
  obtain ⟨before, after, split⟩ := List.append_of_mem member
  rw [split] at ordered otherMember
  obtain ⟨-, tail, across⟩ := List.pairwise_append.mp ordered
  rcases List.mem_append.mp otherMember with earlier | here
  · left
    have apart := across other earlier token List.mem_cons_self
    omega
  · rcases List.mem_cons.mp here with rfl | later
    · exact .inl (Nat.le_refl _)
    · exact .inr ((List.pairwise_cons.mp tail).1 other later)

end Token

namespace Finding

theorem keywordAt_of_significant {text : List Char} {cursor : Cursor} {token : Token} {length : Nat}
    {keyword : Keyword} (stands : Stands text cursor)
    (next : cursor.significant? = some (token, length))
    (announces : token.keyword? = some keyword) :
    Token.KeywordAt (Cursor.ofText text).tokens keyword token.start := by
  obtain ⟨isWord, lexeme⟩ := Token.lexeme_of_keyword? announces
  obtain ⟨after, aligned⟩ := aligned_of_significant stands next (by rw [isWord]; decide)
  exact ⟨token, aligned.mem_tokens next, isWord, lexeme, rfl⟩

theorem unsafeBraceAt_of_significant {text inner : List Char} {cursor : Cursor} {token : Token}
    {length : Nat} (stands : Stands text cursor)
    (next : cursor.significant? = some (token, length))
    (marks : token.keyword? = some .unsafeMark)
    (opens : (cursor.skip length).rest.drop (Trivia.length (cursor.skip length).rest) =
      '\x7b' :: inner) :
    Token.UnsafeBraceAt (Cursor.ofText text).tokens
      ((cursor.skip length).skip (Trivia.length (cursor.skip length).rest)).place := by
  obtain ⟨isWord, lexeme⟩ := Token.lexeme_of_keyword? marks
  obtain ⟨after, aligned⟩ := aligned_of_significant stands next (by rw [isWord]; decide)
  have behindMark := aligned.significant next
  have run := Trivia.length_run (cursor.skip length).rest
  obtain ⟨passed, tokens⟩ := aligned.tokens
  obtain ⟨before, markHere, -⟩ := aligned.tokens_of_significant next
  obtain ⟨trivia, triviaHere, areTrivia⟩ := behindMark.tokens_of_run run
  have brace : Token.read?
      ((cursor.skip length).skip (Trivia.length (cursor.skip length).rest)).rest =
        some (.openBrace, 1) := by
    rw [Cursor.skip_rest, opens]
    rfl
  rw [markHere, triviaHere, (behindMark.skip run.whole).tokens_of_read brace,
    ← List.append_assoc] at tokens
  exact ⟨_, token, trivia, _, _, tokens, isWord, lexeme, areTrivia, rfl, rfl⟩

/-- What is found starts and ends between tokens of the file. -/
theorem Origin.anchored {text : List Char}
    (unambiguous : Token.Unambiguous (Cursor.ofText text).tokens) {finding : Finding}
    {outline : Outline}
    (origin : Origin (Stands text) (fun cursor => ∃ after, cursor.Aligned text after) finding)
    (outlined : finding.outline? = some outline) :
    Token.StartsAt (Cursor.ofText text).tokens outline.kind outline.extent.start ∧
      Token.BoundaryAt (Cursor.ofText text).tokens outline.extent.stop := by
  have course := aligned_course unambiguous
  have boundary : ∀ {cursor : Cursor}, (∃ after, cursor.Aligned text after) →
      Token.BoundaryAt (Cursor.ofText text).tokens cursor.place := by
    rintro cursor ⟨after, aligned⟩
    exact aligned.exists_token
  have plain := unambiguous.allPlain
  -- The end of a head and its body, read behind an aligned cursor.
  have full : ∀ {cursor : Cursor} (groups : List Delimiter), (∃ after, cursor.Aligned text after) →
      Token.BoundaryAt (Cursor.ofText text).tokens
        (cursor.skip ((Head.read groups cursor.rest).fullLength cursor.rest)).place := by
    rintro cursor groups ⟨after, aligned⟩
    have atBody := aligned.skip (Head.read_whole groups (aligned.allPlain plain))
    unfold Head.fullLength Head.bodyLength?
    split
    · rw [Option.getD_some, ← Cursor.skip_skip]
      exact boundary ⟨after,
        atBody.skip (Delimiter.brace.closeLength_whole (atBody.allPlain plain))⟩
    · exact boundary ⟨after, atBody⟩
    · exact boundary ⟨after, atBody⟩
  cases origin with
  | @unsafeBlock cursor token length inner standing next marks opens =>
      cases outlined
      refine ⟨unsafeBraceAt_of_significant standing next marks opens, ?_⟩
      obtain ⟨after, behindMark⟩ := course.token standing next
      have whole := afterUnsafe_whole (behindMark.allPlain plain)
      rw [afterUnsafe_of_brace opens] at whole
      exact boundary ⟨after, behindMark.skip whole⟩
  | function owner blocks standing next announces taken named =>
      cases outlined
      exact ⟨keywordAt_of_significant standing next announces,
        full signatureGroups (course.token standing next)⟩
  | struct standing next announces named =>
      cases outlined
      exact ⟨keywordAt_of_significant standing next announces,
        full [.paren, .angle] (course.token standing next)⟩
  | @enum cursor token length name body standing next announces named read =>
      cases outlined
      refine ⟨keywordAt_of_significant standing next announces, ?_⟩
      obtain ⟨after, behindHead⟩ := course.head [.angle] (course.token standing next)
      dsimp only
      rw [← Cursor.skip_skip, read]
      split
      · exact boundary ⟨after,
          behindHead.skip (VariantList.read_whole (behindHead.allPlain plain))⟩
      · rw [Cursor.skip_zero]
        exact boundary ⟨after, behindHead⟩
  | trait standing next announces named =>
      cases outlined
      exact ⟨keywordAt_of_significant standing next announces,
        full [.angle, .paren] (course.token standing next)⟩
  | @test cursor token length read name standing next isHash named atName =>
      cases outlined
      obtain ⟨after, aligned⟩ := aligned_of_significant standing next (by rw [isHash]; decide)
      exact ⟨⟨token, aligned.mem_tokens next, isHash, rfl⟩, full signatureGroups atName⟩
  | target isResolved => cases outlined
  | testModule line => cases outlined
  | notice isNotice =>
      rw [outline?_of_isNotice isNotice] at outlined
      cases outlined

end Finding

/-- In a text of at most 2^32 - 3 bytes whose tokens are unambiguous, everything recorded
starts at the token that announces it and ends between two tokens, so that nothing starts
or ends inside a token. -/
theorem survey_anchored (config : Config) (text : String)
    (small : Text.byteLength text.toList ≤ 2 ^ 32 - 3)
    (unambiguous : Token.Unambiguous (Cursor.ofText text.toList).tokens) :
    ∃ inventory, survey config text = .ok inventory ∧
      (inventory.EachSpan fun kind span =>
        Token.StartsAt (Cursor.ofText text.toList).tokens kind span.start ∧
          Token.BoundaryAt (Cursor.ofText text.toList).tokens span.stop) ∧
      ∀ span ∈ inventory.spans, ∀ place ∈ [span.start, span.stop],
        ∀ token ∈ (Cursor.ofText text.toList).tokens,
          place.offset ≤ token.start.offset ∨
            token.start.offset + token.length ≤ place.offset := by
  have origins := (Finding.aligned_course unambiguous).ofText_origins config
    (.inl ⟨[], Cursor.Aligned.start text.toList⟩)
  have anchored : ∀ outline ∈ Finding.outlines (Finding.ofText config text.toList),
      Token.StartsAt (Cursor.ofText text.toList).tokens outline.kind outline.extent.start ∧
        Token.BoundaryAt (Cursor.ofText text.toList).tokens outline.extent.stop := by
    intro outline member
    obtain ⟨finding, isFound, outlined⟩ := List.mem_filterMap.mp member
    exact (origins finding isFound).anchored unambiguous outlined
  refine ⟨_, survey_eq config text small, ?_, ?_⟩
  · exact (Inventory.ofFindings_eachSpan (fun kind extent =>
      Token.StartsAt (Cursor.ofText text.toList).tokens kind extent.start ∧
        Token.BoundaryAt (Cursor.ofText text.toList).tokens extent.stop) anchored).withLength _
  · intro span member place isEnd token tokenMember
    obtain ⟨starts, stops⟩ := Inventory.spans_of_outlines (fun extent =>
      Token.BoundaryAt (Cursor.ofText text.toList).tokens extent.start ∧
        Token.BoundaryAt (Cursor.ofText text.toList).tokens extent.stop)
      (fun outline found => ⟨(anchored outline found).1.boundaryAt, (anchored outline found).2⟩)
      span member
    simp only [List.mem_cons, List.not_mem_nil, or_false] at isEnd
    rcases isEnd with rfl | rfl
    · exact starts.outside tokenMember
    · exact stops.outside tokenMember

/-- Where no word ends in an `r` and no macro is defined, only strings are looked at. -/
theorem Token.Unambiguous.of_forall {tokens : List Token}
    (each : ∀ token ∈ tokens, token.lexeme.getLast? ≠ some 'r' ∧
      token.keyword? ≠ some .macroRules ∧ (token.tag = .string →
        ¬ ['b', 'r', '"'] <+: token.lexeme ∧ ¬ ['c', 'r', '"'] <+: token.lexeme)) :
    Unambiguous tokens := by
  constructor
  · rintro before token after rfl - endsInR
    exact absurd endsInR (each token (by simp)).1
  · intro token member
    exact (each token member).2.2
  · rintro before rules trivia bang blanks next after rfl isRules
    exact absurd isRules (each rules (by simp)).2.1

/-- A function behind a comment and around a string that both speak of functions. -/
theorem survey_anchored_quoted :
    Text.byteLength "/* fn a() */ fn f() \x7b \"fn g()\"; unsafe \x7b\x7d \x7d".toList ≤ 2 ^ 32 - 3 ∧
      Token.Unambiguous
        (Cursor.ofText "/* fn a() */ fn f() \x7b \"fn g()\"; unsafe \x7b\x7d \x7d".toList).tokens ∧
      ∃ inventory,
        survey .standard "/* fn a() */ fn f() \x7b \"fn g()\"; unsafe \x7b\x7d \x7d" = .ok inventory ∧
        inventory.EachSpan fun kind span =>
          Token.StartsAt (Cursor.ofText
              "/* fn a() */ fn f() \x7b \"fn g()\"; unsafe \x7b\x7d \x7d".toList).tokens kind span.start ∧
            Token.BoundaryAt (Cursor.ofText
              "/* fn a() */ fn f() \x7b \"fn g()\"; unsafe \x7b\x7d \x7d".toList).tokens span.stop := by
  have small : Text.byteLength
      "/* fn a() */ fn f() \x7b \"fn g()\"; unsafe \x7b\x7d \x7d".toList ≤ 2 ^ 32 - 3 := by
    decide
  have unambiguous : Token.Unambiguous (Cursor.ofText
      "/* fn a() */ fn f() \x7b \"fn g()\"; unsafe \x7b\x7d \x7d".toList).tokens := by
    apply Token.Unambiguous.of_forall
    decide +kernel
  obtain ⟨inventory, surveyed, anchored, -⟩ := survey_anchored .standard _ small unambiguous
  exact ⟨small, unambiguous, inventory, surveyed, anchored⟩

end Survey
