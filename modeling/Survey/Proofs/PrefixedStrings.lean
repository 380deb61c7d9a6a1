import Survey.Proofs.CommentsBehindTokens
import Mathlib.Data.List.TakeWhile

set_option autoImplicit false

/-!
# Raw strings behind a prefix

Behind the words `br` and `cr` a raw string goes on with its number signs and its body. With
number signs it is read as a raw string and ends where the reader of strings ends that starts
at the `r`. Without them it is read as a plain string, in which a backslash takes along the
character after it: an odd number of backslashes before the closing quote hides the quote.
-/

namespace Survey

/-- Does the text end in an odd number of backslashes, so that the last one takes along what
follows? -/
def Text.endsEscaping (text : List Char) : Bool :=
  (text.reverse.takeWhile (· == '\\')).length % 2 == 1

namespace Text

private theorem takeWhile_backslashes {text : List Char} (all : text.all (· == '\\') = true) :
    text.reverse.takeWhile (· == '\\') = text.reverse := by
  rw [List.takeWhile_eq_self_iff]
  intro d member
  exact List.all_eq_true.mp all d (List.mem_reverse.mp member)

/-- One more character at the front counts only if all behind it are backslashes. -/
private theorem length_backslashes_cons (c : Char) (text : List Char) :
    ((c :: text).reverse.takeWhile (· == '\\')).length =
      if text.all (· == '\\') && c == '\\' then text.length + 1
      else (text.reverse.takeWhile (· == '\\')).length := by
  rw [List.reverse_cons, List.takeWhile_append]
  by_cases all : text.all (· == '\\') = true
  · rw [takeWhile_backslashes all, if_pos rfl, all, Bool.true_and]
    by_cases isBackslash : c = '\\'
    · simp [isBackslash]
    · simp [isBackslash]
  · have short : ¬ (text.reverse.takeWhile (· == '\\')).length = text.reverse.length := by
      intro same
      have whole := (List.takeWhile_prefix (l := text.reverse) (· == '\\')).eq_of_length same
      apply all
      rw [List.all_eq_true]
      intro d member
      exact List.takeWhile_eq_self_iff.mp whole d (List.mem_reverse.mpr member)
    rw [if_neg short, Bool.eq_false_iff.mpr all, Bool.false_and]
    rfl

theorem endsEscaping_cons_of_ne {c : Char} (other : c ≠ '\\') (text : List Char) :
    endsEscaping (c :: text) = endsEscaping text := by
  unfold endsEscaping
  rw [length_backslashes_cons, if_neg (by simp [other])]

/-- A backslash together with what it takes along does not matter. -/
theorem endsEscaping_pair (c : Char) (text : List Char) :
    endsEscaping ('\\' :: c :: text) = endsEscaping text := by
  unfold endsEscaping
  rw [length_backslashes_cons, length_backslashes_cons]
  by_cases all : text.all (· == '\\') = true
  · rw [takeWhile_backslashes all, List.length_reverse]
    by_cases isBackslash : c = '\\'
    · subst isBackslash
      simp only [List.all_cons, all, BEq.rfl, Bool.and_self, if_true, List.length_cons]
      congr 1
      omega
    · simp [isBackslash]
  · simp [Bool.eq_false_iff.mpr all]

end Text

namespace Literal

/-- A raw string: its `r`, its number signs, and its body between quotes. -/
def rawString (hashes : Nat) (body : List Char) : List Char :=
  'r' :: (List.replicate hashes '#' ++ '"' :: (body ++ '"' :: List.replicate hashes '#'))

/-- No quote in the body is followed by so many number signs. -/
def StaysOpen (hashes : Nat) (body : List Char) : Prop :=
  ¬ ('"' :: List.replicate hashes '#') <:+: body

theorem length_rawString (hashes : Nat) (body : List Char) :
    (rawString hashes body).length = hashes + 2 + body.length + 1 + hashes := by
  unfold rawString
  simp only [List.length_cons, List.length_append, List.length_replicate]
  omega

theorem StaysOpen.tail {hashes : Nat} {c : Char} {body : List Char}
    (stays : StaysOpen hashes (c :: body)) : StaysOpen hashes body := by
  intro within
  exact stays (within.trans (List.suffix_cons c body).isInfix)

/-- The closing quote is the first one with all its number signs behind it. -/
theorem StaysOpen.not_closes {hashes : Nat} {c : Char} {body : List Char}
    (stays : StaysOpen hashes (c :: body)) (rest : List Char) :
    ¬ (c = '"' ∧ (body ++ '"' :: rest).take hashes = List.replicate hashes '#') := by
  rintro ⟨rfl, closed⟩
  by_cases reaches : hashes ≤ body.length
  · rw [List.take_append_of_le_length reaches] at closed
    apply stays
    rw [← closed]
    exact (List.prefix_cons_inj '"' |>.mpr (List.take_prefix hashes body)).isInfix
  · -- Too few characters are left of the body: the closing quote would be a number sign.
    have member : '"' ∈ (body ++ '"' :: rest).take hashes := by
      obtain ⟨more, rfl⟩ := Nat.exists_eq_add_of_lt (Nat.lt_of_not_le reaches)
      rw [Nat.add_assoc, List.take_length_add_append, List.take_succ_cons]
      exact List.mem_append_right _ List.mem_cons_self
    rw [closed] at member
    exact absurd (List.eq_of_mem_replicate member) (by decide)

theorem StaysOpen.rawLength_eq {hashes : Nat} {body : List Char} (stays : StaysOpen hashes body)
    (taken : Nat) (rest : List Char) :
    rawLength hashes taken (body ++ '"' :: (List.replicate hashes '#' ++ rest)) =
      taken + body.length + 1 + hashes := by
  induction body generalizing taken with
  | nil =>
      have closes : (List.replicate hashes '#' ++ rest).take hashes = List.replicate hashes '#' :=
        List.take_left' List.length_replicate
      rw [List.nil_append, rawLength, if_pos ⟨rfl, closes⟩, List.length_nil, Nat.add_zero]
  | cons c body ih =>
      rw [List.cons_append, rawLength, if_neg (stays.not_closes _), ih stays.tail,
        List.length_cons]
      omega

/-- The reader of strings takes a raw string whole. -/
theorem StaysOpen.stringLength?_eq {hashes : Nat} {body : List Char}
    (stays : StaysOpen hashes body) (rest : List Char) :
    stringLength? (rawString hashes body ++ rest) = some (rawString hashes body).length := by
  have opens : rawHashes? (rawString hashes body ++ rest) = some hashes := by
    rw [rawHashes?_eq_some_iff]
    refine ⟨body ++ '"' :: (List.replicate hashes '#' ++ rest), ?_⟩
    simp [rawString]
  have behind : (rawString hashes body ++ rest).drop (hashes + 2) =
      body ++ '"' :: (List.replicate hashes '#' ++ rest) := by
    have split : rawString hashes body ++ rest =
        ('r' :: List.replicate hashes '#' ++ ['"']) ++
          (body ++ '"' :: (List.replicate hashes '#' ++ rest)) := by
      simp [rawString]
    rw [split]
    exact List.drop_left' (by simp)
  rw [stringLength?_of_raw opens, behind, stays.rawLength_eq, length_rawString]

/-- A plain string ends at the first quote that no backslash takes along. -/
theorem plainLength_quote (taken : Nat) {body : List Char} (unquoted : '"' ∉ body)
    (rest : List Char) :
    plainLength taken (body ++ '"' :: rest) =
      if Text.endsEscaping body then plainLength (taken + body.length + 1) rest
      else taken + body.length + 1 := by
  fun_induction plainLength taken body with
  | case1 taken c body ih =>
      simp only [List.mem_cons, not_or] at unquoted
      rw [List.cons_append, List.cons_append, plainLength, ih unquoted.2.2, Text.endsEscaping_pair,
        List.length_cons, List.length_cons]
      congr 2 <;> omega
  | case2 taken body => exact absurd List.mem_cons_self unquoted
  | case3 taken c body notPair notQuote ih =>
      by_cases escape : c = '\\'
      · -- A backslash with nothing behind it in the body takes the quote along.
        subst escape
        cases body with
        | nil => rfl
        | cons d body => exact absurd rfl (notPair d body rfl)
      · rw [List.mem_cons, not_or] at unquoted
        have isOther : c ≠ '"' := fun same => unquoted.1 same.symm
        rw [List.cons_append, plainLength_char escape isOther, ih unquoted.2,
          Text.endsEscaping_cons_of_ne escape, List.length_cons]
        congr 2 <;> omega
  | case4 taken => rfl

end Literal

namespace Token

open Literal

variable {mark : Char} {hashes : Nat} {body : List Char}

private theorem read?_of_marked (marks : mark = 'b' ∨ mark = 'c') {after : List Char} {tag : Tag}
    {more : Nat} (ends : ∀ d, after.head? = some d → Text.isWordPart d = false)
    (found : literalAfter? [mark, 'r'] after = some (tag, more)) :
    read? (mark :: 'r' :: after) = some (tag, 2 + more) := by
  have starts : Text.isWordStart mark = true := by
    rcases marks with rfl | rfl <;> decide
  have parts : ∀ d ∈ ['r'], Text.isWordPart d = true := by
    intro d member
    rw [List.mem_singleton.mp member]
    decide
  have notRaw : rawHashes? (mark :: (['r'] ++ after)) = none := by
    apply rawHashes?_of_ne
    rcases marks with rfl | rfl <;> decide
  exact (Reading.literal starts parts ends notRaw found).read?

theorem opensLiteral_marked (marks : mark = 'b' ∨ mark = 'c') : OpensLiteral [mark, 'r'] := by
  rcases marks with rfl | rfl
  · exact .inr (.inr (.inl rfl))
  · exact .inr (.inr (.inr rfl))

/-- Without number signs the string is read as a plain one. -/
theorem read?_prefixed_plain (marks : mark = 'b' ∨ mark = 'c') (body rest : List Char) :
    read? (mark :: (rawString 0 body ++ rest)) =
      some (.string, 2 + plainLength 1 (body ++ '"' :: rest)) := by
  have spelled : mark :: (rawString 0 body ++ rest) =
      mark :: 'r' :: '"' :: (body ++ '"' :: rest) := by
    simp [rawString]
  rw [spelled]
  apply read?_of_marked marks
  · rintro d ⟨⟩
    decide
  · exact literalAfter?_string (opensLiteral_marked marks) _

private theorem literalAfter?_signs (marks : mark = 'b' ∨ mark = 'c') (signs : Nat)
    (text : List Char) :
    literalAfter? [mark, 'r'] (List.replicate (signs + 1) '#' ++ '"' :: text) =
      some (.string, rawLength (signs + 1) (signs + 2) text) := by
  have counted : hashLength (List.replicate (signs + 1) '#' ++ '"' :: text) = signs + 1 := by
    unfold hashLength
    rw [takeWhile_hashes, List.length_replicate]
  have found := literalAfter?_hashes (opensLiteral_marked marks)
    (List.replicate signs '#' ++ '"' :: text)
  rw [← List.cons_append, ← List.replicate_succ, counted] at found
  have opens : (List.replicate (signs + 1) '#' ++ '"' :: text)[signs + 1]? = some '"' := by
    simp
  have behind : (List.replicate (signs + 1) '#' ++ '"' :: text).drop (signs + 1 + 1) = text := by
    rw [List.append_cons]
    exact List.drop_left' (by simp)
  rw [found, if_pos ⟨rfl, opens⟩, behind]

/-- With number signs the string is read whole. -/
theorem read?_prefixed_raw (marks : mark = 'b' ∨ mark = 'c') (signs : 0 < hashes)
    (stays : StaysOpen hashes body) (rest : List Char) :
    read? (mark :: (rawString hashes body ++ rest)) =
      some (.string, 1 + (rawString hashes body).length) := by
  obtain ⟨fewer, rfl⟩ := Nat.exists_eq_succ_of_ne_zero (Nat.ne_of_gt signs)
  have spelled : mark :: (rawString (fewer + 1) body ++ rest) =
      mark :: 'r' :: (List.replicate (fewer + 1) '#' ++
        '"' :: (body ++ '"' :: (List.replicate (fewer + 1) '#' ++ rest))) := by
    simp [rawString]
  have ends : ∀ d, (List.replicate (fewer + 1) '#' ++
      '"' :: (body ++ '"' :: (List.replicate (fewer + 1) '#' ++ rest))).head? = some d →
        Text.isWordPart d = false := by
    rintro d ⟨⟩
    decide
  rw [spelled, read?_of_marked marks ends (literalAfter?_signs marks fewer _), stays.rawLength_eq,
    length_rawString]
  congr 2
  omega

end Token

namespace Cursor

open Literal

/-- A token of a known text ends behind a part of it exactly if it has the length of that
part. -/
private theorem nextToken_eq_iff (cursor : Cursor) {part rest : List Char} {tag : Tag} {size : Nat}
    (reads : cursor.rest = part ++ rest) (read : Token.read? cursor.rest = some (tag, size)) :
    cursor.nextToken = (⟨tag, cursor.place, part⟩, cursor.skip part.length) ↔
      size = part.length := by
  have inside := Token.read?_length_le read
  rw [nextToken_of_read read]
  constructor
  · intro same
    have lexemes := congrArg (fun pair => pair.1.lexeme.length) same
    dsimp only at lexemes
    rw [List.length_take] at lexemes
    omega
  · rintro rfl
    rw [reads, List.take_left]

/-- How far a raw string behind a mark is read. -/
private theorem exists_read?_rawString {cursor : Cursor} {mark : Char}
    (marks : mark = 'b' ∨ mark = 'c') {hashes : Nat} {body : List Char}
    (stays : StaysOpen hashes body) {rest : List Char}
    (reads : cursor.rest = mark :: (rawString hashes body ++ rest)) :
    ∃ size, Token.read? cursor.rest = some (.string, size) ∧
      (size = (mark :: rawString hashes body).length ↔
        0 < hashes ∨ Text.endsEscaping body = false ∨ rest = []) := by
  rw [reads]
  by_cases signs : 0 < hashes
  · refine ⟨_, Token.read?_prefixed_raw marks signs stays rest, ?_⟩
    simp [signs, Nat.add_comm]
  · obtain rfl : hashes = 0 := Nat.eq_zero_of_not_pos signs
    have unquoted : '"' ∉ body := by
      intro member
      obtain ⟨before, after, rfl⟩ := List.append_of_mem member
      exact stays ⟨before, after, by simp⟩
    refine ⟨_, Token.read?_prefixed_plain marks body rest, ?_⟩
    rw [plainLength_quote 1 unquoted, List.length_cons, length_rawString]
    cases escaping : Text.endsEscaping body with
    | false =>
        have ends : 2 + (1 + body.length + 1) = 0 + 2 + body.length + 1 + 0 + 1 := by omega
        simp only [Bool.false_eq_true, if_false, ends, true_or, or_true]
    | true =>
        cases rest with
        | nil =>
            have ends : 2 + (1 + body.length + 1) = 0 + 2 + body.length + 1 + 0 + 1 := by omega
            simp only [if_true, plainLength, ends, or_true]
        | cons c rest =>
            have further := lt_plainLength (1 + body.length + 1) c rest
            simp only [if_true, Nat.lt_irrefl, Bool.true_eq_false, reduceCtorEq, or_false,
              iff_false]
            omega

/-- A raw string behind `b` or `c` is one string token. It ends where the reader of strings
ends that starts at its `r`, exactly if the string has number signs, or its body does not take
the closing quote along, or no text is left behind it. -/
theorem nextToken_rawString_iff (cursor : Cursor) {mark : Char} (marks : mark = 'b' ∨ mark = 'c')
    (hashes : Nat) {body : List Char} (stays : StaysOpen hashes body) (rest : List Char)
    (reads : cursor.rest = mark :: (rawString hashes body ++ rest)) :
    stringLength? (cursor.skip 1).rest = some (rawString hashes body).length ∧
      ((cursor.skip 1).skip (rawString hashes body).length).rest = rest ∧
      cursor.nextToken.1.tag = .string ∧ cursor.nextToken.1.start = cursor.place ∧
      (cursor.nextToken = (⟨.string, cursor.place, mark :: rawString hashes body⟩,
          (cursor.skip 1).skip (rawString hashes body).length) ↔
        0 < hashes ∨ Text.endsEscaping body = false ∨ rest = []) := by
  obtain ⟨size, read, reaches⟩ := exists_read?_rawString marks stays reads
  have atRaw : (cursor.skip 1).rest = rawString hashes body ++ rest := by
    rw [skip_rest, reads]
    rfl
  have behind : ((cursor.skip 1).skip (rawString hashes body).length).rest = rest := by
    rw [skip_rest, atRaw, List.drop_left]
  have landing : (cursor.skip 1).skip (rawString hashes body).length =
      cursor.skip (mark :: rawString hashes body).length := by
    rw [skip_skip, List.length_cons, Nat.add_comm]
  refine ⟨?_, behind, ?_, ?_, ?_⟩
  · rw [atRaw]
    exact stays.stringLength?_eq rest
  · rw [nextToken_of_read read]
  · rw [nextToken_of_read read]
  · rw [landing, ← reaches]
    exact nextToken_eq_iff cursor reads read

/-- A body with a quote and a backslash, and more number signs than needed behind it. -/
theorem nextToken_rawString_iff_signs :
    StaysOpen 1 ['"', '\\'] ∧
      (ofText "cr#\"\"\\\"##".toList).rest = 'c' :: (rawString 1 ['"', '\\'] ++ ['#']) ∧
      (ofText "cr#\"\"\\\"##".toList).nextToken =
        (⟨.string, .start, 'c' :: rawString 1 ['"', '\\']⟩,
          ((ofText "cr#\"\"\\\"##".toList).skip 1).skip (rawString 1 ['"', '\\']).length) := by
  have stays : StaysOpen 1 ['"', '\\'] := by
    unfold StaysOpen
    decide
  have reads : (ofText "cr#\"\"\\\"##".toList).rest =
      'c' :: (rawString 1 ['"', '\\'] ++ ['#']) := by
    decide
  obtain ⟨-, -, -, -, whole⟩ := nextToken_rawString_iff _ (.inr rfl) 1 stays ['#'] reads
  exact ⟨stays, reads, whole.mpr (.inl Nat.one_pos)⟩

/-- Without number signs a backslash before the closing quote makes a token of all that
follows, though the reader of strings stops behind the quote. -/
theorem nextToken_rawString_backslash :
    StaysOpen 0 ['\\'] ∧
      (ofText "br\"\\\" x".toList).rest = 'b' :: (rawString 0 ['\\'] ++ [' ', 'x']) ∧
      stringLength? ((ofText "br\"\\\" x".toList).skip 1).rest =
        some (rawString 0 ['\\']).length ∧
      (ofText "br\"\\\" x".toList).nextToken ≠
        (⟨.string, .start, 'b' :: rawString 0 ['\\']⟩,
          ((ofText "br\"\\\" x".toList).skip 1).skip (rawString 0 ['\\']).length) ∧
      (ofText "br\"\\\" x".toList).nextToken.1.lexeme = "br\"\\\" x".toList := by
  refine ⟨?_, by decide, by decide, by decide, by decide⟩
  unfold StaysOpen
  decide

end Cursor
end Survey
