import Survey.Proofs.HeadEnds

set_option autoImplicit false

/-!
# Stretches that end at a mark

What steps over a stretch of text stops behind a mark or at the end of the text. Such a mark
is a token of its own, and so nothing that takes two tokens to say straddles the end of the
stretch: a brace behind the word that makes its block unsafe stands inside the stretch
together with the word, or behind it together with the word.
-/

namespace Survey

namespace Atom

/-- A character inside a strand ends no reader. -/
theorem Strand.inert {text : List Char} {size count length : Nat} {c : Char}
    (strand : Strand text size) (run : Run text count) (inside : count < size)
    (read : read? (text.drop count) = some (.char c, length)) : c ∉ marks := by
  induction strand generalizing count with
  | nothing text => omega
  | @literal text written size readLiteral =>
      cases run with
      | nothing =>
          rw [List.drop_zero, readLiteral] at read
          cases read
      | onward readFirst later =>
          rw [readLiteral] at readFirst
          cases readFirst
          omega
  | @char d rest size bare inert named later ih =>
      cases run with
      | nothing =>
          rw [List.drop_zero, read?_of_isBare bare] at read
          cases read
          exact notMem_marks inert
      | @onward _ atom first more readFirst behind =>
          rw [read?_of_isBare bare] at readFirst
          cases readFirst
          rw [List.drop_succ_cons, List.drop_zero] at behind
          rw [Nat.add_comm, List.drop_succ_cons] at read
          exact ih behind (by omega) read

/-- The first characters of the text are whole atoms. The last of them is a mark, or the text
ends there. -/
inductive Fenced (text : List Char) : Nat → Prop
  | atEnd (run : Run text text.length) : Fenced text text.length
  | behind {count : Nat} {c : Char} (run : Run text count)
      (read : read? (text.drop count) = some (.char c, 1)) (isMark : c ∈ marks) :
      Fenced text (count + 1)

namespace Fenced

variable {text : List Char} {count more : Nat}

theorem nil : Fenced [] 0 := .atEnd (.nothing [])

theorem onward {first : Nat} (run : Run text first) (later : Fenced (text.drop first) more) :
    Fenced text (first + more) := by
  cases later with
  | atEnd toEnd =>
      have all : first + (text.drop first).length = text.length := by
        rw [List.length_drop, Nat.add_sub_cancel' run.length_le]
      have whole := run.append toEnd
      rw [all] at whole ⊢
      exact .atEnd whole
  | behind inside read isMark =>
      rw [← Nat.add_assoc]
      refine .behind (run.append inside) ?_ isMark
      rwa [← List.drop_drop]

theorem further {first taken reach : Nat} (reaches : reach = taken + count)
    (run : Run text first) (beyond : taken + first ≤ reach)
    (later : ∀ {more : Nat}, reach = taken + first + more → Fenced (text.drop first) more) :
    Fenced text count := by
  obtain ⟨more, rfl⟩ := Nat.exists_eq_add_of_le (show first ≤ count by omega)
  exact onward run (later (by omega))

end Fenced
end Atom

/-! ### Readers -/

theorem Delimiter.closeFrom_fenced (kind : Delimiter) (outer : Nat) (afterShaft : Bool)
    (taken : Nat) (text : List Char) {count : Nat}
    (reaches : closeFrom kind outer afterShaft taken text = taken + count) :
    Atom.Fenced text count := by
  fun_induction closeFrom kind outer afterShaft taken text generalizing count with
  | case1 outer afterShaft taken text missing =>
      rw [Atom.read?_eq_none_iff] at missing
      subst missing
      obtain rfl : count = 0 := by omega
      exact .nil
  | case2 afterShaft taken text c length found closes =>
      obtain ⟨rest, rfl, rfl⟩ := Atom.eq_of_read?_char found
      obtain rfl : count = 0 + 1 := by omega
      have isCloser : c = kind.closer := eq_of_beq (Bool.and_eq_true_iff.mp closes).1
      refine .behind (.nothing _) found (kind.closer_mem_marks ?_)
      rw [isCloser]
      exact List.mem_singleton_self _
  | case3 afterShaft taken text c length found closes outer ih =>
      exact .further reaches (.single found) (le_closeFrom _ _ _ _ _) ih
  | case4 outer afterShaft taken text c length found staysOpen ih =>
      exact .further reaches (.single found) (le_closeFrom _ _ _ _ _) ih
  | case5 outer afterShaft taken text atom length other found ih =>
      exact .further reaches (.single found) (le_closeFrom _ _ _ _ _) ih

theorem Head.Surface.atoms {groups : List Delimiter} {text : List Char} {count : Nat}
    (surface : Surface groups text count) : Atom.Run text count := by
  induction surface with
  | here text => exact .nothing text
  | atom read goesOn later ih => exact .onward read ih
  | group read goesOn opens later ih =>
      exact ((Atom.Run.single read).append (Delimiter.groupAfter?_atoms opens)).append ih

theorem Head.read_fenced (groups : List Delimiter) (text : List Char) :
    Atom.Fenced text (read groups text).length := by
  obtain ⟨surface, ends, reaches⟩ := read_surface groups text
  rw [reaches]
  cases ending : (read groups text).ending with
  | endOfText =>
      rw [ending] at ends
      have nothingLeft : text.drop ((read groups text).signature text).length = [] :=
        (Atom.read?_eq_none_iff _).mp ends
      refine .onward surface.atoms ?_
      rw [nothingLeft]
      exact .nil
  | semicolon =>
      rw [ending] at ends
      exact .behind surface.atoms ends (by decide)
  | brace =>
      rw [ending] at ends
      exact .behind surface.atoms ends (by decide)

/-! ### Tokens -/

namespace Token

/-- The first characters of the text are whole tokens. The last of them is a mark, or the text
ends there. -/
inductive Fenced (text : List Char) : Nat → Prop
  | atEnd : Fenced text text.length
  | behind {count : Nat} {tag : Tag} (whole : Whole text count)
      (read : read? (text.drop count) = some (tag, 1)) (marks : isMark tag = true) :
      Fenced text (count + 1)

variable {text : List Char} {count more : Nat}

theorem Fenced.whole (fenced : Fenced text count) : Whole text count := by
  cases fenced with
  | atEnd => exact .to_end text
  | behind whole read marks => exact whole.append (.single read trivial)

theorem Fenced.after (whole : Whole text count) (fenced : Fenced (text.drop count) more) :
    Fenced text (count + more) := by
  cases fenced with
  | atEnd =>
      rw [List.length_drop, Nat.add_sub_cancel' whole.length_le]
      exact .atEnd
  | behind inside read marks =>
      rw [← Nat.add_assoc]
      refine .behind (whole.append inside) ?_ marks
      rwa [← List.drop_drop]

theorem Fenced.append (fenced : Fenced text count) (later : Fenced (text.drop count) more) :
    Fenced text (count + more) :=
  .after fenced.whole later

/-- A mark that is an atom of its own is a token of its own. -/
theorem whole_before_mark {c : Char} (plain : AllPlain text) (run : Atom.Run text count)
    (read : Atom.read? (text.drop count) = some (.char c, 1)) (isMark : c ∈ Atom.marks) :
    Whole text count := by
  induction size : text.length using Nat.strongRecOn generalizing text count with
  | ind size ih =>
      subst size
      cases first : read? text with
      | none =>
          rw [read?_eq_none_iff] at first
          subst first
          rw [List.drop_nil] at read
          cases read
      | some pair =>
          obtain ⟨tag, length⟩ := pair
          have onward : ∀ more, count = length + more → Atom.Run (text.drop length) more →
              Whole text count := by
            rintro more rfl later
            have whole : Whole text length := .single first trivial
            rw [← List.drop_drop] at read
            exact .onward first trivial
              (ih _ (length_drop_lt first) (plain.drop whole) later read rfl)
          cases run with
          | nothing => exact .nothing text
          | @onward _ atom size more readAtom later =>
              rcases plain.first.atom_or_strand first with ⟨other, isAtom⟩ | strand
              · rw [readAtom] at isAtom
                cases isAtom
                exact onward more rfl later
              · have whole : Atom.Run text (size + more) := .onward readAtom later
                rcases whole.over_strand strand with ⟨reached, beyond⟩ | ⟨short, -⟩
                · exact onward _ (by omega) beyond
                · exact absurd isMark (strand.inert whole short read)

theorem read?_of_mem_marks {c : Char} (isMark : c ∈ Atom.marks) (rest : List Char) :
    ∃ tag, read? (c :: rest) = some (tag, 1) ∧ Token.isMark tag = true := by
  simp only [Atom.marks, List.mem_cons, List.not_mem_nil, or_false] at isMark
  rcases isMark with rfl | rfl | rfl | rfl | rfl | rfl <;> exact ⟨_, rfl, rfl⟩

theorem fenced_of_atoms (plain : AllPlain text) (fenced : Atom.Fenced text count) :
    Fenced text count := by
  cases fenced with
  | atEnd run => exact .atEnd
  | @behind count c run read isMark =>
      obtain ⟨rest, split, -⟩ := Atom.eq_of_read?_char read
      obtain ⟨tag, readMark, marks⟩ := read?_of_mem_marks isMark rest
      refine .behind (whole_before_mark plain run read isMark) ?_ marks
      rw [split]
      exact readMark

/-- Trivia end before the first significant token. -/
theorem Run.le_of_significant {other size : Nat} {tag : Tag} (trivia : TriviaRun text count)
    (run : TriviaRun text other) (read : read? (text.drop other) = some (tag, size))
    (significant : tag.isTrivia = false) : count ≤ other := by
  by_contra beyond
  obtain ⟨more, rfl⟩ := Nat.exists_eq_add_of_lt (Nat.not_le.mp beyond)
  have later : TriviaRun (text.drop other) (more + 1) := run.rest trivia
  generalize positive : more + 1 = left at later
  cases later with
  | nothing => omega
  | onward readFirst isTrivia _ =>
      rw [read] at readFirst
      cases readFirst
      rw [isTrivia] at significant
      cases significant

theorem significant_of_read? {tag : Tag} {length : Nat} (read : read? text = some (tag, length))
    (noBlank : Trivia.blankLength text = 0) (noComment : Comment.length? text = none) :
    tag.isTrivia = false := by
  rw [Bool.eq_false_iff]
  intro isTrivia
  by_cases comment : tag.isComment = true
  · rw [length?_of_read? read comment] at noComment
    cases noComment
  · have isBlank : tag = .blank ∨ tag = .newline := by
      by_contra neither
      rw [not_or] at neither
      exact comment ((isComment_iff tag).mpr ⟨isTrivia, neither⟩)
    obtain ⟨positive, filled⟩ := read?_pos read
    obtain ⟨c, rest, rfl⟩ := List.exists_cons_of_ne_nil filled
    have blank : Text.isBlank c = true := by
      apply isBlank_of_read? read isBlank
      obtain ⟨more, rfl⟩ := Nat.exists_eq_add_of_le' positive
      exact List.mem_cons_self
    rw [(Trivia.blankLength_eq_zero_iff _).mp noBlank c rfl] at blank
    cases blank

/-! ### Unsafe braces -/

variable {first second trivia : List Token} {place : Position}

theorem UnsafeBraceAt.append_left (stands : UnsafeBraceAt first place) (second : List Token) :
    UnsafeBraceAt (first ++ second) place := by
  obtain ⟨before, mark, trivia, brace, after, rfl, found⟩ := stands
  exact ⟨before, mark, trivia, brace, after ++ second, by simp, found⟩

/-- Behind a mark tokens say nothing that was begun before it. -/
theorem UnsafeBraceAt.append_cases {last : Token} (marks : isMark last.tag = true)
    (stands : UnsafeBraceAt ((first ++ [last]) ++ second) place) :
    UnsafeBraceAt (first ++ [last]) place ∨ UnsafeBraceAt second place := by
  obtain ⟨before, mark, trivia, brace, after, split, isWord, lexeme, areTrivia, isBrace, start⟩ :=
    stands
  -- The mark is neither the word nor one of the trivia behind it.
  have apart : ∀ (front later : List Token), first ++ [last] = front ++ mark :: later →
      (∀ token ∈ later, token.tag.isTrivia = true) → False := by
    intro front later same allTrivia
    have ends : last ∈ mark :: later := by
      have isLast := congrArg List.getLast? same
      rw [List.getLast?_concat, List.getLast?_append_cons] at isLast
      exact List.mem_of_getLast? isLast.symm
    rcases List.mem_cons.mp ends with rfl | inside
    · rw [isWord] at marks
      cases marks
    · rw [isMark_of_isTrivia (allTrivia last inside)] at marks
      cases marks
  rcases List.append_eq_append_iff.mp split with ⟨more, rfl, rest⟩ | ⟨more, ahead, rest⟩
  · right
    exact ⟨more, mark, trivia, brace, after, rest, isWord, lexeme, areTrivia, isBrace, start⟩
  · cases more with
    | nil =>
        right
        exact ⟨[], mark, trivia, brace, after, rest.symm, isWord, lexeme, areTrivia, isBrace, start⟩
    | cons head more =>
        obtain ⟨rfl, behindWord⟩ := List.cons.inj rest
        rcases List.append_eq_append_iff.mp behindWord with
          ⟨further, rfl, behind⟩ | ⟨further, rfl, behind⟩
        · cases further with
          | nil =>
              rw [List.append_nil] at ahead
              exact (apart before trivia ahead areTrivia).elim
          | cons head further =>
              obtain ⟨rfl, -⟩ := List.cons.inj behind
              left
              exact ⟨before, mark, trivia, brace, further, ahead, isWord, lexeme, areTrivia,
                isBrace, start⟩
        · refine (apart before more ahead ?_).elim
          intro token member
          exact areTrivia token (List.mem_append_left _ member)

/-- The first significant token is the word that a brace stands behind, or says nothing about
it. -/
theorem UnsafeBraceAt.significant_cases {token : Token} {rest : List Token}
    (areTrivia : ∀ passed ∈ trivia, passed.tag.isTrivia = true)
    (stands : UnsafeBraceAt (trivia ++ token :: rest) place) :
    (token.keyword? = some .unsafeMark ∧ ∃ passed brace after, rest = passed ++ brace :: after ∧
        (∀ other ∈ passed, other.tag.isTrivia = true) ∧ brace.tag = .openBrace ∧
        brace.start = place) ∨
      UnsafeBraceAt rest place := by
  obtain ⟨before, mark, passed, brace, after, split, isWord, lexeme, allTrivia, isBrace, start⟩ :=
    stands
  have significant : mark.tag.isTrivia = false := by
    rw [isWord]
    rfl
  rcases List.append_eq_append_iff.mp split with ⟨more, rfl, behind⟩ | ⟨more, ahead, behind⟩
  · cases more with
    | nil =>
        left
        obtain ⟨rfl, rfl⟩ := List.cons.inj behind
        refine ⟨?_, passed, brace, after, rfl, allTrivia, isBrace, start⟩
        unfold keyword?
        rw [if_pos isWord, lexeme, Keyword.ofWord?_spelling]
    | cons head more =>
        right
        obtain ⟨rfl, rfl⟩ := List.cons.inj behind
        exact ⟨more, mark, passed, brace, after, rfl, isWord, lexeme, allTrivia, isBrace, start⟩
  · cases more with
    | nil =>
        left
        obtain ⟨rfl, rfl⟩ := List.cons.inj behind
        refine ⟨?_, passed, brace, after, rfl, allTrivia, isBrace, start⟩
        unfold keyword?
        rw [if_pos isWord, lexeme, Keyword.ofWord?_spelling]
    | cons head more =>
        obtain ⟨rfl, -⟩ := List.cons.inj behind
        rw [ahead] at areTrivia
        rw [areTrivia mark (by simp)] at significant
        cases significant

end Token

namespace Cursor

variable {cursor : Cursor} {count : Nat} {place : Position}

theorem window_skip (cursor : Cursor) (first second : Nat) :
    (cursor.window (first + second)).skip first = (cursor.skip first).window second := by
  unfold window skip
  dsimp only
  rw [List.drop_take, Nat.add_sub_cancel_left, List.take_take,
    Nat.min_eq_left (Nat.le_add_right first second)]

/-- The tokens of a window that ends between two tokens. -/
theorem tokens_window (whole : Token.Whole cursor.rest count) :
    ∃ passed, cursor.tokens = passed ++ (cursor.skip count).tokens ∧
      (cursor.window count).tokens = passed ++ [.atEnd (cursor.skip count).place] := by
  generalize behind : cursor.rest = text at whole
  induction whole generalizing cursor with
  | nothing text =>
      refine ⟨[], ?_, ?_⟩
      · rw [skip_zero, List.nil_append]
      · rw [skip_zero]
        exact tokens_of_end _ rfl
  | @onward text tag length more read _ later ih =>
      subst behind
      obtain ⟨passed, split, window⟩ := @ih (cursor.skip length) rfl
      have cut : Token.read? (cursor.window (length + more)).rest = some (tag, length) :=
        Token.read?_take read (Nat.le_add_right length more)
      refine ⟨⟨tag, cursor.place, cursor.rest.take length⟩ :: passed, ?_, ?_⟩
      · rw [tokens_of_read cursor read, split, skip_skip, List.cons_append]
      · have lexeme : (cursor.window (length + more)).rest.take length =
            cursor.rest.take length := by
          unfold Cursor.window
          rw [List.take_take, Nat.min_eq_left (Nat.le_add_right length more)]
        rw [tokens_of_read _ cut, window_skip, window, skip_skip, lexeme]
        rfl

/-- An unsafe brace stands inside a fenced stretch or behind it. -/
theorem unsafeBraceAt_cases (fenced : Token.Fenced cursor.rest count)
    (stands : Token.UnsafeBraceAt cursor.tokens place) :
    Token.UnsafeBraceAt (cursor.window count).tokens place ∨
      Token.UnsafeBraceAt (cursor.skip count).tokens place := by
  cases fenced with
  | atEnd =>
      left
      unfold Cursor.window
      rwa [List.take_length]
  | @behind count tag whole read marks =>
      obtain ⟨passed, split, -⟩ := tokens_window whole
      have next := tokens_of_read (cursor.skip count) read
      rw [skip_skip] at next
      obtain ⟨all, full, window⟩ := tokens_window (whole.append (.single read trivial))
      have same : all = passed ++ [⟨tag, (cursor.skip count).place,
          (cursor.skip count).rest.take 1⟩] := by
        rw [split, next, List.append_cons] at full
        exact (List.append_cancel_right full).symm
      rw [full, same] at stands
      rcases stands.append_cases marks with inside | later
      · left
        rw [window, same]
        exact inside.append_left _
      · exact .inr later

/-- All tokens but the last have characters. -/
theorem length_pos_of_mem_tokens {token : Token} (member : token ∈ cursor.tokens)
    (notEnd : token.tag ≠ .endOfText) : 0 < token.length := by
  fun_induction tokens cursor with
  | case1 cursor atEnd =>
      rw [List.mem_singleton.mp member] at notEnd
      exact absurd rfl notEnd
  | case2 cursor tag length read ih =>
      rcases List.mem_cons.mp member with rfl | later
      · obtain ⟨positive, filled⟩ := Token.read?_pos read
        have bytes := Text.byteLength_take_lt cursor.rest positive (by rwa [List.drop_zero])
        exact Nat.lt_of_le_of_lt (Nat.zero_le _) bytes
      · exact ih later

theorem exists_tokens_append (cursor : Cursor) :
    ∃ passed, cursor.tokens = passed ++ [.atEnd cursor.toEnd.place] := by
  obtain ⟨passed, split, -⟩ := tokens_window (Token.Run.to_end cursor.rest)
  refine ⟨passed, ?_⟩
  have atEnd : (cursor.skip cursor.rest.length).tokens = [.atEnd cursor.toEnd.place] := by
    apply tokens_of_end
    rw [skip_rest, List.drop_length]
    rfl
  rw [split, atEnd]

/-! ### Token by token -/

/-- The next significant token is a brace that opens there. -/
def BraceNext (cursor : Cursor) (place : Position) : Prop :=
  ∃ token length, cursor.significant? = some (token, length) ∧ token.tag = .openBrace ∧
    token.start = place

theorem tokens_significant {token : Token} {length : Nat}
    (next : cursor.significant? = some (token, length)) :
    ∃ trivia, cursor.tokens = trivia ++ token :: (cursor.skip length).tokens ∧
      ∀ passed ∈ trivia, passed.tag.isTrivia = true := by
  obtain ⟨trivia, size, run, read, -, rfl, start, lexeme⟩ := significant?_eq_some next
  obtain ⟨passed, split, all⟩ := cursor.tokens_of_run run
  refine ⟨passed, ?_, all⟩
  have same : token = ⟨token.tag, (cursor.skip trivia).place,
      (cursor.skip trivia).rest.take size⟩ := by
    rw [← start, skip_rest, ← lexeme]
  rw [split, tokens_of_read _ read, skip_skip, ← same]

/-- The first token that is not trivia is the significant one. -/
theorem significant?_of_tokens {trivia after : List Token} {token : Token}
    (split : cursor.tokens = trivia ++ token :: after)
    (areTrivia : ∀ passed ∈ trivia, passed.tag.isTrivia = true)
    (significant : token.tag.isTrivia = false) (notEnd : token.tag ≠ .endOfText) :
    ∃ length, cursor.significant? = some (token, length) ∧
      (cursor.skip length).tokens = after := by
  induction trivia generalizing cursor with
  | nil =>
      cases read : Token.read? cursor.rest with
      | none =>
          rw [tokens_of_end cursor read] at split
          obtain ⟨rfl, -⟩ := List.cons.inj split
          exact absurd rfl notEnd
      | some pair =>
          obtain ⟨tag, length⟩ := pair
          rw [tokens_of_read cursor read] at split
          obtain ⟨rfl, behind⟩ := List.cons.inj split
          refine ⟨length, ?_, behind⟩
          rw [significant?_eq, read]
          exact if_neg (ne_true_of_eq_false significant)
  | cons first trivia ih =>
      obtain ⟨isTrivia, later⟩ := List.forall_mem_cons.mp areTrivia
      cases read : Token.read? cursor.rest with
      | none =>
          rw [tokens_of_end cursor read] at split
          obtain ⟨rfl, -⟩ := List.cons.inj split
          cases isTrivia
      | some pair =>
          obtain ⟨tag, length⟩ := pair
          rw [tokens_of_read cursor read] at split
          obtain ⟨rfl, behind⟩ := List.cons.inj split
          obtain ⟨more, next, left⟩ := ih behind later
          refine ⟨length + more, ?_, ?_⟩
          · rw [significant?_eq, read]
            dsimp only at isTrivia ⊢
            rw [if_pos isTrivia, next]
            rfl
          · rwa [skip_skip] at left

theorem braceNext_of_tokens {trivia after : List Token} {brace : Token}
    (split : cursor.tokens = trivia ++ brace :: after)
    (areTrivia : ∀ token ∈ trivia, token.tag.isTrivia = true) (isBrace : brace.tag = .openBrace)
    (start : brace.start = place) : cursor.BraceNext place := by
  obtain ⟨length, next, -⟩ :=
    significant?_of_tokens split areTrivia (by rw [isBrace]; rfl) (by rw [isBrace]; nofun)
  exact ⟨brace, length, next, isBrace, start⟩

theorem not_unsafeBraceAt_of_none (atEnd : cursor.significant? = none) :
    ¬ Token.UnsafeBraceAt cursor.tokens place := by
  rintro ⟨before, mark, trivia, brace, after, split, isWord, -⟩
  obtain ⟨passed, tokens, areTrivia⟩ := cursor.tokens_of_run (run_of_significant?_none atEnd)
  have ends : (cursor.skip cursor.rest.length).tokens = [.atEnd cursor.toEnd.place] := by
    apply tokens_of_end
    rw [skip_rest, List.drop_length]
    rfl
  have member : mark ∈ passed ++ [.atEnd cursor.toEnd.place] := by
    rw [← ends, ← tokens, split]
    simp
  rcases List.mem_append.mp member with inside | isLast
  · have isTrivia := areTrivia mark inside
    rw [isWord] at isTrivia
    cases isTrivia
  · rw [List.mem_singleton.mp isLast] at isWord
    cases isWord

/-- An unsafe brace is announced by the next significant token, or stands behind it. -/
theorem unsafeBraceAt_significant {token : Token} {length : Nat}
    (next : cursor.significant? = some (token, length))
    (stands : Token.UnsafeBraceAt cursor.tokens place) :
    (token.keyword? = some .unsafeMark ∧ (cursor.skip length).BraceNext place) ∨
      Token.UnsafeBraceAt (cursor.skip length).tokens place := by
  obtain ⟨trivia, split, areTrivia⟩ := tokens_significant next
  rw [split] at stands
  rcases stands.significant_cases areTrivia with
    ⟨marks, passed, brace, after, behind, allTrivia, isBrace, start⟩ | later
  · exact .inl ⟨marks, braceNext_of_tokens behind allTrivia isBrace start⟩
  · exact .inr later

/-- The brace that comes next stands behind the trivia. -/
theorem BraceNext.trivia (next : cursor.BraceNext place) :
    ∃ inner, cursor.rest.drop (Trivia.length cursor.rest) = '\x7b' :: inner ∧
      (cursor.skip (Trivia.length cursor.rest)).place = place := by
  obtain ⟨token, length, next, isBrace, rfl⟩ := next
  obtain ⟨trivia, size, run, read, significant, -, start, -⟩ := significant?_eq_some next
  have atMost := (Trivia.length_run cursor.rest).le_of_significant run read significant
  have same : Trivia.length cursor.rest = trivia := by
    apply Nat.le_antisymm atMost
    cases behind : Token.read? (cursor.rest.drop (Trivia.length cursor.rest)) with
    | none =>
        rw [Token.read?_eq_none_iff, List.drop_eq_nil_iff] at behind
        exact Nat.le_trans run.length_le behind
    | some pair =>
        obtain ⟨tag, further⟩ := pair
        obtain ⟨noBlank, noComment⟩ := Trivia.length_drop cursor.rest
        exact run.le_of_significant (Trivia.length_run cursor.rest) behind
          (Token.significant_of_read? behind noBlank noComment)
  rw [isBrace] at read
  obtain ⟨inner, split, -⟩ := Token.read?_punctuator (d := '\x7b') (by decide) read
  rw [same]
  exact ⟨inner, split, start.symm⟩

end Cursor
end Survey
