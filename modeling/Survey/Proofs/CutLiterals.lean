import Survey.Atom
import Survey.Proofs.Places

set_option autoImplicit false

/-!
# Comments and literals of a text that was cut short

What a reader makes of the start of a text is compared with what it makes of the same
text with more behind it. A comment or a literal that ends before the cut is read the
same. One that runs over the cut now ends with the text, apart from three openings
that the cut leaves unfinished: the slash of a comment, the number signs of a raw
string, and a quote with the one character that it was to enclose.
-/

namespace Survey

theorem Text.length_takeWhile_append (keep : Char → Bool) (text more : List Char) :
    (text.takeWhile keep).length = min ((text ++ more).takeWhile keep).length text.length := by
  induction text with
  | nil => simp
  | cons c rest ih =>
      by_cases kept : keep c = true
      · rw [List.cons_append, List.takeWhile_cons_of_pos kept, List.takeWhile_cons_of_pos kept,
          List.length_cons, List.length_cons, List.length_cons, ih]
        omega
      · rw [List.cons_append, List.takeWhile_cons_of_neg kept, List.takeWhile_cons_of_neg kept,
          List.length_nil, Nat.zero_min]

namespace Comment

private theorem lt_blockLength (outer taken : Nat) (c : Char) (rest : List Char) :
    taken < blockLength outer taken (c :: rest) := by
  unfold blockLength
  split
  · exact Nat.lt_of_lt_of_le (by omega) (le_blockLength _ _ _)
  · split
    · omega
    · exact Nat.lt_of_lt_of_le (by omega) (le_blockLength _ _ _)
  · exact Nat.lt_of_lt_of_le (by omega) (le_blockLength _ _ _)
  · rename_i nothing
    cases nothing

theorem blockLength_append (outer taken : Nat) (text more : List Char) :
    blockLength outer taken text =
      min (blockLength outer taken (text ++ more)) (taken + text.length) := by
  fun_induction blockLength outer taken text with
  | case1 outer taken rest ih =>
      rw [List.cons_append, List.cons_append, blockLength, ih]
      simp only [List.length_cons]
      omega
  | case2 taken rest =>
      rw [List.cons_append, List.cons_append, blockLength]
      simp only [List.length_cons]
      omega
  | case3 taken rest outer ih =>
      rw [List.cons_append, List.cons_append, blockLength, ih]
      simp only [List.length_cons]
      omega
  | case4 outer taken c rest notOpener notCloser ih =>
      cases rest with
      | nil =>
          -- Only here may the cut part an opener or a closer.
          have further := lt_blockLength outer taken c more
          simp only [List.cons_append, List.nil_append, List.length_cons, List.length_nil,
            blockLength]
          omega
      | cons d rest =>
          have same : blockLength outer taken (c :: d :: rest ++ more) =
              blockLength outer (taken + 1) (d :: rest ++ more) := by
            rw [List.cons_append, List.cons_append]
            conv => lhs; unfold blockLength
            split
            · rename_i opener
              cases opener
              exact absurd rfl (notOpener rest rfl)
            · rename_i closer
              cases closer
              exact absurd rfl (notCloser rest rfl)
            · rename_i split
              cases split
              rfl
            · rename_i nothing
              cases nothing
          rw [same, ih]
          simp only [List.length_cons]
          omega
  | case5 outer taken =>
      have atLeast := le_blockLength outer taken more
      simp only [List.nil_append, List.length_nil]
      omega

theorem length?_slashes (rest : List Char) :
    length? ('/' :: '/' :: rest) = some (2 + (rest.takeWhile (· != '\n')).length) := by
  have opened : ('/' :: '/' :: rest).takeWhile (· != '\n') =
      '/' :: '/' :: rest.takeWhile (· != '\n') := rfl
  rw [length?, Text.lineLength_eq, opened, List.length_cons, List.length_cons,
    Nat.add_assoc, Nat.add_comm]

theorem length?_block (rest : List Char) :
    length? ('/' :: '*' :: rest) = some (blockLength 0 2 rest) := rfl

/-- Whether a comment starts here is settled by two characters. -/
theorem length?_cases (text : List Char) :
    (∃ rest, text = '/' :: '/' :: rest) ∨ (∃ rest, text = '/' :: '*' :: rest) ∨
      length? text = none := by
  unfold length?
  split
  · exact Or.inl ⟨_, rfl⟩
  · exact Or.inr (Or.inl ⟨_, rfl⟩)
  · exact Or.inr (Or.inr rfl)

theorem two_le_length? {text : List Char} {length : Nat} (found : length? text = some length) :
    2 ≤ length := by
  rcases length?_cases text with ⟨rest, rfl⟩ | ⟨rest, rfl⟩ | missing
  · rw [length?_slashes, Option.some.injEq] at found
    omega
  · rw [length?_block, Option.some.injEq] at found
    have atLeast := le_blockLength 0 2 rest
    omega
  · rw [missing] at found
    cases found

/-- A comment is cut where the text is. -/
theorem length?_append {text more : List Char} {length : Nat} (filled : 2 ≤ text.length)
    (found : length? (text ++ more) = some length) :
    length? text = some (min length text.length) := by
  obtain ⟨c, d, rest, rfl⟩ : ∃ c d rest, text = c :: d :: rest := by
    match text, filled with
    | c :: d :: rest, _ => exact ⟨c, d, rest, rfl⟩
  rw [List.cons_append, List.cons_append] at found
  rcases length?_cases (c :: d :: (rest ++ more)) with ⟨after, same⟩ | ⟨after, same⟩ | missing
  · cases same
    have cut := Text.length_takeWhile_append (· != '\n') rest more
    rw [length?_slashes, Option.some.injEq] at found
    rw [length?_slashes, Option.some.injEq]
    simp only [List.length_cons]
    omega
  · cases same
    have cut := blockLength_append 0 2 rest more
    rw [length?_block, Option.some.injEq] at found
    rw [length?_block, Option.some.injEq, cut, found]
    simp only [List.length_cons]
    omega
  · rw [missing] at found
    cases found

theorem length?_of_le {text more : List Char} {length : Nat}
    (found : length? (text ++ more) = some length) (inside : length ≤ text.length) :
    length? text = some length := by
  have atLeast := two_le_length? found
  rw [length?_append (by omega) found, Nat.min_eq_left inside]

theorem length?_of_none {text more : List Char} (missing : length? (text ++ more) = none) :
    length? text = none := by
  rcases length?_cases text with ⟨rest, rfl⟩ | ⟨rest, rfl⟩ | absent
  · cases missing
  · cases missing
  · exact absent

end Comment

namespace Literal

/-! ### Strings -/

theorem plainLength_append (taken : Nat) (text more : List Char) :
    plainLength taken text =
      min (plainLength taken (text ++ more)) (taken + text.length) := by
  fun_induction plainLength taken text with
  | case1 taken c rest ih =>
      rw [List.cons_append, List.cons_append, plainLength, ih]
      simp only [List.length_cons]
      omega
  | case2 taken rest =>
      rw [List.cons_append, plainLength]
      simp only [List.length_cons]
      omega
  | case3 taken c rest notEscape notQuote ih =>
      cases rest with
      | nil =>
          -- Only here may the cut part a backslash from what it takes along.
          have further : taken < plainLength taken (c :: more) := by
            unfold plainLength
            split
            · exact Nat.lt_of_lt_of_le (by omega) (le_plainLength _ _)
            · omega
            · exact Nat.lt_of_lt_of_le (by omega) (le_plainLength _ _)
            · rename_i nothing
              cases nothing
          simp only [List.cons_append, List.nil_append, List.length_cons, List.length_nil,
            plainLength] at ih ⊢
          omega
      | cons d rest =>
          have same : plainLength taken (c :: d :: rest ++ more) =
              plainLength (taken + 1) (d :: rest ++ more) := by
            rw [List.cons_append, List.cons_append]
            conv => lhs; unfold plainLength
            split
            · rename_i escape
              cases escape
              exact absurd rfl (notEscape d rest rfl)
            · rename_i quote
              cases quote
              exact absurd rfl notQuote
            · rename_i split
              cases split
              rfl
            · rename_i nothing
              cases nothing
          rw [same, ih]
          simp only [List.length_cons]
          omega
  | case4 taken =>
      have atLeast := le_plainLength taken more
      simp only [List.nil_append, List.length_nil]
      omega

private theorem rawLength_short (hashes taken : Nat) {text : List Char}
    (short : text.length ≤ hashes) : rawLength hashes taken text = taken + text.length := by
  induction text generalizing taken with
  | nil => rfl
  | cons c rest ih =>
      rw [List.length_cons] at short
      have unclosed : ¬ (c = '"' ∧ rest.take hashes = List.replicate hashes '#') := by
        rintro ⟨-, closed⟩
        have lengths := congrArg List.length closed
        rw [List.length_take, List.length_replicate] at lengths
        omega
      rw [rawLength, if_neg unclosed, ih (taken + 1) (by omega), List.length_cons]
      omega

theorem rawLength_append (hashes taken : Nat) (text more : List Char) :
    rawLength hashes taken text =
      min (rawLength hashes taken (text ++ more)) (taken + text.length) := by
  induction text generalizing taken with
  | nil =>
      have atLeast := le_rawLength hashes taken more
      rw [List.nil_append, rawLength, List.length_nil]
      omega
  | cons c rest ih =>
      rw [List.cons_append, rawLength, rawLength, List.length_cons]
      by_cases reaches : hashes ≤ rest.length
      · rw [List.take_append_of_le_length reaches, ih (taken + 1)]
        split <;> omega
      · -- Too little is left for a closing quote and its number signs.
        have unclosed : ¬ (c = '"' ∧ rest.take hashes = List.replicate hashes '#') := by
          rintro ⟨-, closed⟩
          have lengths := congrArg List.length closed
          rw [List.length_take, List.length_replicate] at lengths
          omega
        have atLeast := le_rawLength hashes (taken + 1) (rest ++ more)
        have cut := ih (taken + 1)
        rw [rawLength_short hashes (taken + 1) (by omega)] at cut
        rw [if_neg unclosed, rawLength_short hashes (taken + 1) (by omega)]
        split <;> omega

theorem takeWhile_hashes (hashes : Nat) (rest : List Char) :
    (List.replicate hashes '#' ++ '"' :: rest).takeWhile (· == '#') =
      List.replicate hashes '#' := by
  induction hashes with
  | zero => rfl
  | succ hashes ih =>
      rw [List.replicate_succ, List.cons_append, List.takeWhile_cons_of_pos (by decide), ih]

theorem takeWhile_hash_eq (text : List Char) :
    text.takeWhile (· == '#') =
      List.replicate (text.takeWhile (· == '#')).length '#' := by
  rw [List.eq_replicate_iff]
  refine ⟨rfl, ?_⟩
  intro c member
  have passed := List.all_eq_true.mp List.all_takeWhile c member
  simpa using passed

/-- The opening of a raw string, spelled out. -/
theorem rawHashes?_eq_some_iff (text : List Char) (hashes : Nat) :
    rawHashes? text = some hashes ↔
      ∃ rest, text = 'r' :: (List.replicate hashes '#' ++ '"' :: rest) := by
  constructor
  · intro found
    unfold rawHashes? at found
    split at found
    · rename_i rest
      dsimp only at found
      split at found
      · rename_i quoted
        cases found
        obtain ⟨inside, quote⟩ := List.getElem?_eq_some_iff.mp quoted
        refine ⟨rest.drop ((rest.takeWhile (· == '#')).length + 1), ?_⟩
        have opening := List.prefix_iff_eq_take.mp (List.takeWhile_prefix (l := rest) (· == '#'))
        have split := List.take_append_drop (rest.takeWhile (· == '#')).length rest
        rw [← opening, List.drop_eq_getElem_cons inside, quote] at split
        rw [← takeWhile_hash_eq, split]
      · cases found
    · cases found
  · rintro ⟨rest, rfl⟩
    rw [rawHashes?, takeWhile_hashes, List.length_replicate]
    simp

theorem rawHashes?_of_cut {text more : List Char} {hashes : Nat}
    (found : rawHashes? text = some hashes) : rawHashes? (text ++ more) = some hashes := by
  obtain ⟨rest, rfl⟩ := (rawHashes?_eq_some_iff text hashes).mp found
  rw [rawHashes?_eq_some_iff]
  exact ⟨rest ++ more, by simp⟩

/-- The opening of a raw string lies before the cut, or the cut leaves its `r` and
some of its number signs. -/
theorem rawHashes?_append {text more : List Char} {hashes : Nat} (filled : text ≠ [])
    (found : rawHashes? (text ++ more) = some hashes) :
    (hashes + 2 ≤ text.length ∧ rawHashes? text = some hashes) ∨
      (text.length < hashes + 2 ∧ ∃ left, text = 'r' :: List.replicate left '#') := by
  obtain ⟨rest, split⟩ := (rawHashes?_eq_some_iff _ hashes).mp found
  have same := congrArg (List.take text.length) split
  rw [List.take_left] at same
  obtain ⟨left, length⟩ := Nat.exists_eq_succ_of_ne_zero (mt List.length_eq_zero_iff.mp filled)
  rw [length, List.take_succ_cons] at same
  by_cases reaches : hashes + 2 ≤ text.length
  · left
    refine ⟨reaches, ?_⟩
    rw [rawHashes?_eq_some_iff]
    refine ⟨rest.take (left - hashes - 1), ?_⟩
    rw [same, List.take_append, List.length_replicate, List.take_of_length_le (by simp; omega),
      show left - hashes = (left - hashes - 1) + 1 by omega, List.take_succ_cons]
    rfl
  · right
    refine ⟨by omega, left, ?_⟩
    rw [same, List.take_append_of_le_length (by simp; omega), List.take_replicate,
      Nat.min_eq_left (by omega)]

theorem stringLength?_of_raw {text : List Char} {hashes : Nat}
    (raw : rawHashes? text = some hashes) :
    stringLength? text = some (rawLength hashes (hashes + 2) (text.drop (hashes + 2))) := by
  unfold stringLength?
  rw [raw]

theorem stringLength?_quote (rest : List Char) :
    stringLength? ('"' :: rest) = some (plainLength 1 rest) := rfl

/-- A string starts with an `r` or with a quote. -/
theorem stringLength?_cases (text : List Char) :
    (∃ hashes, rawHashes? text = some hashes) ∨ (∃ rest, text = '"' :: rest) ∨
      (stringLength? text = none ∧ rawHashes? text = none) := by
  cases raw : rawHashes? text with
  | some hashes => exact Or.inl ⟨hashes, rfl⟩
  | none =>
      right
      unfold stringLength?
      rw [raw]
      dsimp only
      split
      · exact Or.inl ⟨_, rfl⟩
      · exact Or.inr ⟨rfl, rfl⟩

/-- A string is cut where the text is, unless the cut undoes a raw opening. -/
theorem stringLength?_append {text more : List Char} {length : Nat} (filled : text ≠ [])
    (found : stringLength? (text ++ more) = some length) :
    stringLength? text = some (min length text.length) ∨
      (text.length < length ∧ ∃ left, text = 'r' :: List.replicate left '#') := by
  rcases stringLength?_cases (text ++ more) with ⟨hashes, raw⟩ | ⟨rest, plain⟩ | ⟨missing, -⟩
  · rw [stringLength?_of_raw raw, Option.some.injEq] at found
    rcases rawHashes?_append filled raw with ⟨reaches, rawCut⟩ | ⟨short, left, opening⟩
    · left
      have cut := rawLength_append hashes (hashes + 2) (text.drop (hashes + 2)) more
      rw [List.drop_append_of_le_length reaches] at found
      rw [found, List.length_drop, Nat.add_sub_cancel' reaches] at cut
      rw [stringLength?_of_raw rawCut, cut]
    · right
      have atLeast := le_rawLength hashes (hashes + 2) ((text ++ more).drop (hashes + 2))
      exact ⟨by omega, left, opening⟩
  · left
    cases text with
    | nil => exact absurd rfl filled
    | cons c text =>
        rw [List.cons_append] at plain found
        cases plain
        have cut := plainLength_append 1 text more
        rw [stringLength?_quote, Option.some.injEq] at found
        rw [stringLength?_quote, cut, found, List.length_cons, Nat.add_comm]
  · rw [missing] at found
    cases found

theorem stringLength?_of_le {text more : List Char} {length : Nat} (filled : text ≠ [])
    (found : stringLength? (text ++ more) = some length) (inside : length ≤ text.length) :
    stringLength? text = some length := by
  rcases stringLength?_append filled found with cut | ⟨crosses, -⟩
  · rw [cut, Nat.min_eq_left inside]
  · omega

theorem stringLength?_of_none {text more : List Char}
    (missing : stringLength? (text ++ more) = none) : stringLength? text = none := by
  rcases stringLength?_cases text with ⟨hashes, raw⟩ | ⟨rest, rfl⟩ | ⟨absent, -⟩
  · rw [stringLength?_of_raw (rawHashes?_of_cut raw)] at missing
    cases missing
  · cases missing
  · exact absent

/-! ### Quotes -/

theorem escapeLength_append (text more : List Char) :
    escapeLength text = min (escapeLength (text ++ more)) (2 + text.length) := by
  cases text with
  | nil =>
      have atLeast : 2 ≤ escapeLength more := by
        unfold escapeLength
        split
        · exact Nat.le_refl 2
        · dsimp only
          omega
      change 2 = min (escapeLength more) 2
      omega
  | cons c rest =>
      have cut := Text.length_takeWhile_append (fun c => c != '\'' && c != '\n') rest more
      rw [List.cons_append, escapeLength, escapeLength, List.length_cons]
      by_cases inside :
          ((rest ++ more).takeWhile fun c => c != '\'' && c != '\n').length < rest.length
      · rw [cut, Nat.min_eq_left (Nat.le_of_lt inside), List.getElem?_append_left inside]
        split <;> omega
      · rw [cut, Nat.min_eq_right (Nat.not_lt.mp inside), List.getElem?_eq_none (Nat.le_refl _)]
        simp only [reduceCtorEq, if_false]
        omega

theorem quote?_escape (rest : List Char) :
    quote? ('\'' :: '\\' :: rest) = some (.character, escapeLength rest) := rfl

theorem quote?_eq_none_iff (text : List Char) :
    quote? text = none ↔ text.head? ≠ some '\'' := by
  cases text with
  | nil => simp [quote?]
  | cons c rest =>
      by_cases isQuote : c = '\''
      · subst isQuote
        simp only [List.head?_cons, ne_eq, not_true_eq_false, iff_false]
        unfold quote?
        split
        · simp
        · split
          · split <;> simp
          · simp
        · rename_i other
          exact absurd rfl (other rest)
      · simp only [List.head?_cons, ne_eq, Option.some.injEq, isQuote, not_false_eq_true, iff_true]
        unfold quote?
        split
        · rename_i split
          cases split
          exact absurd rfl isQuote
        · rename_i split
          cases split
          exact absurd rfl isQuote
        · rfl

theorem quote?_closed {c : Char} (notEscape : c ≠ '\\') (rest : List Char) :
    quote? ('\'' :: c :: '\'' :: rest) =
      if c ≠ '\n' ∧ c ≠ '\x00' then some (.character, 3) else some (.lifetime, 1) := by
  conv => lhs; unfold quote?
  split
  · rename_i split
    cases split
    exact absurd rfl notEscape
  · rename_i split
    cases split
    rfl
  · rename_i other
    exact absurd rfl (other _)

theorem quote?_open {rest : List Char} (notEscape : rest.head? ≠ some '\\')
    (notClosed : rest.tail.head? ≠ some '\'') :
    quote? ('\'' :: rest) =
      some (.lifetime, 1 + (rest.takeWhile Text.isWordPart).length) := by
  conv => lhs; unfold quote?
  split
  · rename_i split
    cases split
    exact absurd rfl notEscape
  · rename_i split
    cases split
    split
    · exact absurd rfl notClosed
    · rfl
  · rename_i other
    exact absurd rfl (other rest)

theorem two_le_of_character {text : List Char} {length : Nat}
    (found : quote? text = some (.character, length)) : 2 ≤ length := by
  unfold quote? at found
  split at found
  · cases found
    have cut := escapeLength_append [] ‹_›
    rw [List.nil_append, escapeLength] at cut
    omega
  · split at found
    · split at found <;> cases found
      decide
    · cases found
  · cases found

/-- What is left at a cut of something that took the length and was read as a quote:
the same, all of the text, or the quote with one character. -/
def CutQuote (text : List Char) (quote : Quote) (length : Nat) : Prop :=
  (length ≤ text.length ∧ quote? text = some (quote, length)) ∨
    (text.length < length ∧
      ((∃ other, quote? text = some (other, text.length)) ∨ ∃ c, text = ['\'', c]))

private theorem cutQuote_open {rest more : List Char}
    (notEscape : rest.head? ≠ some '\\') (notClosed : rest.tail.head? ≠ some '\'') :
    CutQuote ('\'' :: rest) .lifetime
      (1 + ((rest ++ more).takeWhile Text.isWordPart).length) := by
  have cut := Text.length_takeWhile_append Text.isWordPart rest more
  unfold CutQuote
  rw [quote?_open notEscape notClosed, List.length_cons, cut]
  by_cases inside : ((rest ++ more).takeWhile Text.isWordPart).length ≤ rest.length
  · left
    rw [Nat.min_eq_left inside]
    exact ⟨by omega, rfl⟩
  · right
    rw [Nat.min_eq_right (by omega), Nat.add_comm 1 rest.length]
    exact ⟨by omega, Or.inl ⟨.lifetime, rfl⟩⟩

/-- The cut falls before the closing quote. -/
private theorem cutQuote_single {c : Char} {quote : Quote} {length : Nat} (notEscape : c ≠ '\\')
    (found : (if c ≠ '\n' ∧ c ≠ '\x00' then some (Quote.character, 3) else some (.lifetime, 1)) =
      some (quote, length)) : CutQuote ['\'', c] quote length := by
  by_cases enclosed : c ≠ '\n' ∧ c ≠ '\x00'
  · rw [if_pos enclosed] at found
    cases found
    exact Or.inr ⟨Nat.le_refl 3, Or.inr ⟨c, rfl⟩⟩
  · rw [if_neg enclosed] at found
    cases found
    have notPart : Text.isWordPart c = false := by
      have special : c = '\n' ∨ c = '\x00' := by
        by_contra neither
        rw [not_or] at neither
        exact enclosed neither
      rcases special with rfl | rfl <;> decide
    left
    refine ⟨by simp, ?_⟩
    rw [quote?_open (by simpa using notEscape) (by simp), List.takeWhile_cons_of_neg (by simp [notPart])]
    rfl

/-- The quote itself is left, which reads as a lifetime without a name. -/
private theorem cutQuote_alone {more : List Char} {quote : Quote} {length : Nat}
    (found : quote? ('\'' :: more) = some (quote, length)) : CutQuote ['\''] quote length := by
  have alone : quote? ['\''] = some (.lifetime, 1) := rfl
  have positive := quote?_pos found
  by_cases inside : length ≤ 1
  · left
    cases quote with
    | character =>
        have atLeast := two_le_of_character found
        omega
    | lifetime =>
        rw [alone, show length = 1 by omega]
        exact ⟨Nat.le_refl 1, rfl⟩
  · right
    exact ⟨by simpa using inside, Or.inl ⟨.lifetime, alone⟩⟩

private theorem cutQuote_escape {rest more : List Char} {quote : Quote} {length : Nat}
    (found : quote? ('\'' :: '\\' :: (rest ++ more)) = some (quote, length)) :
    CutQuote ('\'' :: '\\' :: rest) quote length := by
  have cut := escapeLength_append rest more
  rw [quote?_escape] at found
  cases found
  unfold CutQuote
  rw [quote?_escape, cut, List.length_cons, List.length_cons]
  by_cases inside : escapeLength (rest ++ more) ≤ 2 + rest.length
  · left
    rw [Nat.min_eq_left inside]
    exact ⟨by omega, rfl⟩
  · right
    rw [Nat.min_eq_right (by omega), show 2 + rest.length = rest.length + 1 + 1 by omega]
    exact ⟨by omega, Or.inl ⟨.character, rfl⟩⟩

private theorem cutQuote_closed {c : Char} {rest more : List Char} {quote : Quote} {length : Nat}
    (escape : c ≠ '\\') (closed : (rest ++ more).head? = some '\'')
    (found : quote? ('\'' :: c :: (rest ++ more)) = some (quote, length)) :
    CutQuote ('\'' :: c :: rest) quote length := by
  obtain ⟨after, split⟩ := List.head?_eq_some_iff.mp closed
  rw [split, quote?_closed escape] at found
  cases rest with
  | nil => exact cutQuote_single escape found
  | cons d rest =>
      rw [List.cons_append] at split
      cases split
      unfold CutQuote
      rw [quote?_closed escape, found]
      left
      refine ⟨?_, rfl⟩
      simp only [List.length_cons]
      split at found <;> cases found <;> omega

/-- What a quote introduces is cut where the text is, unless the cut leaves the quote
with one character. -/
theorem quote?_append {text more : List Char} {quote : Quote} {length : Nat} (filled : text ≠ [])
    (found : quote? (text ++ more) = some (quote, length)) : CutQuote text quote length := by
  obtain ⟨rest, rfl⟩ : ∃ rest, text = '\'' :: rest := by
    cases text with
    | nil => exact absurd rfl filled
    | cons first rest =>
        have isQuote : first = '\'' := by
          by_contra different
          have missing : quote? (first :: rest ++ more) = none := by
            rw [quote?_eq_none_iff]
            simpa using different
          rw [missing] at found
          cases found
        exact ⟨rest, by rw [isQuote]⟩
  rw [List.cons_append] at found
  cases rest with
  | nil => exact cutQuote_alone found
  | cons c rest =>
      by_cases escape : c = '\\'
      · subst escape
        exact cutQuote_escape found
      · have notEscape : (c :: rest).head? ≠ some '\\' := by simpa using escape
        by_cases closed : (rest ++ more).head? = some '\''
        · exact cutQuote_closed escape closed found
        · have notClosed : (c :: rest).tail.head? ≠ some '\'' := by
            cases rest with
            | nil => simp
            | cons d rest => simpa using closed
          rw [List.cons_append, quote?_open (by simpa using escape) (by simpa using closed)] at found
          cases found
          exact cutQuote_open notEscape notClosed

theorem quote?_of_none {text more : List Char} (missing : quote? (text ++ more) = none) :
    quote? text = none := by
  rw [quote?_eq_none_iff] at *
  cases text with
  | nil => simp
  | cons c rest => exact missing

end Literal
end Survey
