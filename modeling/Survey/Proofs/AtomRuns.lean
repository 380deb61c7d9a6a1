import Survey.Proofs.Shapes

set_option autoImplicit false

/-!
# Atoms and tokens

Whoever counts delimiters reads atoms, everyone else reads tokens. A token is one atom,
or it is a strand: characters that are atoms of their own and end no reader, perhaps with
a literal behind them. This holds of every token except those in which an `r` and a quote
are read in two ways, and `Token.Plain` excludes these. So a run of atoms that ends where
a reader ends is a run of tokens as well.
-/

namespace Survey

namespace Atom

/-- The first characters of the text, as many as the number says, are whole atoms. -/
inductive Run : List Char → Nat → Prop
  | nothing (text : List Char) : Run text 0
  | onward {text : List Char} {atom : Atom} {length more : Nat}
      (read : read? text = some (atom, length)) (later : Run (text.drop length) more) :
      Run text (length + more)

namespace Run

variable {text : List Char} {count more : Nat}

theorem single {atom : Atom} {length : Nat} (read : read? text = some (atom, length)) :
    Run text length :=
  .onward read (.nothing _)

theorem append (run : Run text count) (later : Run (text.drop count) more) :
    Run text (count + more) := by
  induction run with
  | nothing text => simpa using later
  | onward read _ ih =>
      rw [Nat.add_assoc]
      rw [← List.drop_drop] at later
      exact .onward read (ih later)

theorem length_le (run : Run text count) : count ≤ text.length := by
  induction run with
  | nothing text => exact Nat.zero_le _
  | onward read later ih =>
      have bound := read?_length_le read
      rw [List.length_drop] at ih
      omega

/-- A reader that goes on behind whole atoms reads whole atoms. -/
theorem further {first taken reach : Nat} (reaches : reach = taken + count)
    (run : Run text first) (beyond : taken + first ≤ reach)
    (later : ∀ {more : Nat}, reach = taken + first + more → Run (text.drop first) more) :
    Run text count := by
  obtain ⟨more, rfl⟩ := Nat.exists_eq_add_of_le (show first ≤ count by omega)
  exact run.append (later (by omega))

end Run

/-! ### Characters -/

/-- The character starts neither a comment nor a literal. -/
structure IsBare (c : Char) (rest : List Char) : Prop where
  notSlash : c ≠ '/'
  notString : c ≠ '"'
  notQuote : c ≠ '\''
  notRaw : Literal.rawHashes? (c :: rest) = none

theorem read?_of_isBare {c : Char} {rest : List Char} (bare : IsBare c rest) :
    read? (c :: rest) = some (.char c, 1) := by
  apply read?_of_char
  · rcases Comment.length?_cases (c :: rest) with ⟨more, split⟩ | ⟨more, split⟩ | missing
    · cases split
      exact absurd rfl bare.notSlash
    · cases split
      exact absurd rfl bare.notSlash
    · exact missing
  · rcases Literal.stringLength?_cases (c :: rest) with ⟨hashes, raw⟩ | ⟨more, split⟩ | ⟨missing, -⟩
    · rw [bare.notRaw] at raw
      cases raw
    · cases split
      exact absurd rfl bare.notString
    · exact missing
  · rw [Literal.quote?_eq_none_iff]
    intro quote
    exact bare.notQuote (Option.some.inj quote)

theorem isBare_of_ne {c : Char} (notSlash : c ≠ '/') (notString : c ≠ '"') (notQuote : c ≠ '\'')
    (notR : c ≠ 'r') (rest : List Char) : IsBare c rest :=
  ⟨notSlash, notString, notQuote, Token.rawHashes?_of_ne notR rest⟩

/-- Readers of atoms end at these characters only. -/
def marks : List Char := [')', ']', '\x7d', '>', ';', '\x7b']

/-- Readers of groups and of heads take note of these characters. -/
def notable : List Char := marks ++ ['(', '[', '<', '-', '=']

/-- The characters that stand inside words, numbers and blanks. -/
def isInner (c : Char) : Bool := Text.isWordPart c || Text.isBlank c || c == '.'

theorem isInner_special (c : Char) (member : c ∈ ['/', '"', '\'', '#'] ++ notable) :
    isInner c = false := by
  have checked : (['/', '"', '\'', '#'] ++ notable).all (fun c => !isInner c) = true := by
    decide +kernel
  exact (Bool.not_eq_true' _).mp (List.all_eq_true.mp checked c member)

theorem notMem_marks {c : Char} (inert : c ∉ notable) : c ∉ marks :=
  fun isMark => inert (List.mem_append_left _ isMark)

theorem notMem_notable_of_isInner {c : Char} (inner : isInner c = true) : c ∉ notable := by
  intro member
  rw [isInner_special c (List.mem_append_right _ member)] at inner
  cases inner

theorem ne_of_isInner {c other : Char} (inner : isInner c = true)
    (special : isInner other = false) : c ≠ other := by
  rintro rfl
  rw [inner] at special
  cases special

theorem rawHashes?_of_isInner {c : Char} (inner : isInner c = true) (rest : List Char) :
    Literal.rawHashes? ('r' :: c :: rest) = none := by
  have notHash : c ≠ '#' := ne_of_isInner inner (isInner_special _ (by decide))
  have notString : c ≠ '"' := ne_of_isInner inner (isInner_special _ (by decide))
  cases raw : Literal.rawHashes? ('r' :: c :: rest) with
  | none => rfl
  | some hashes =>
      obtain ⟨more, split⟩ := (Literal.rawHashes?_eq_some_iff _ hashes).mp raw
      cases hashes with
      | zero =>
          cases split
          exact absurd rfl notString
      | succ hashes =>
          rw [List.replicate_succ] at split
          cases split
          exact absurd rfl notHash

/-! ### Strands -/

/-- Characters that are atoms of their own and end no reader, up to a literal that may
stand behind them. A word follows each number sign, so that none of them announces an
attribute. -/
inductive Strand : List Char → Nat → Prop
  | nothing (text : List Char) : Strand text 0
  | literal {text written : List Char} {length : Nat}
      (read : read? text = some (.literal written, length)) : Strand text length
  | char {c : Char} {rest : List Char} {more : Nat} (bare : IsBare c rest) (inert : c ∉ notable)
      (named : c = '#' → rest.head?.any Text.isWordStart = true)
      (later : Strand rest more) : Strand (c :: rest) (1 + more)

theorem Strand.append {chars after : List Char} {more : Nat}
    (inner : ∀ c ∈ chars, isInner c = true)
    (notRaw : chars.getLast? = some 'r' → Literal.rawHashes? ('r' :: after) = none)
    (later : Strand after more) : Strand (chars ++ after) (chars.length + more) := by
  induction chars with
  | nil => simpa using later
  | cons c chars ih =>
      have isInner := inner c List.mem_cons_self
      have bare : IsBare c (chars ++ after) := by
        refine ⟨?_, ?_, ?_, ?_⟩
        · exact ne_of_isInner isInner (isInner_special _ (by decide))
        · exact ne_of_isInner isInner (isInner_special _ (by decide))
        · exact ne_of_isInner isInner (isInner_special _ (by decide))
        · by_cases isR : c = 'r'
          · subst isR
            cases chars with
            | nil => exact notRaw rfl
            | cons next chars =>
                exact rawHashes?_of_isInner (inner next (by simp)) _
          · exact Token.rawHashes?_of_ne isR _
      have tail : chars.getLast? = some 'r' → Literal.rawHashes? ('r' :: after) = none := by
        intro last
        apply notRaw
        rw [List.getLast?_cons, last]
        rfl
      have rest := ih (fun d member => inner d (List.mem_cons_of_mem c member)) tail
      rw [List.cons_append, List.length_cons, Nat.add_comm chars.length 1, Nat.add_assoc]
      have notHash : c ≠ '#' := ne_of_isInner isInner (isInner_special _ (by decide))
      exact .char bare (notMem_notable_of_isInner isInner) (fun isHash => absurd isHash notHash) rest

/-- A run of atoms goes over a strand, or ends inside it at a character that ends no
reader. -/
theorem Run.over_strand {text : List Char} {count size : Nat} (run : Run text count)
    (strand : Strand text size) :
    (size ≤ count ∧ Run (text.drop size) (count - size)) ∨
      (count < size ∧ (count = 0 ∨ ∃ c, c ∉ marks ∧ (text.take count).getLast? = some c)) := by
  induction strand generalizing count with
  | nothing text => exact .inl ⟨Nat.zero_le _, by simpa using run⟩
  | @literal text written size read =>
      cases run with
      | nothing => exact .inr ⟨(read?_pos read).1, .inl rfl⟩
      | onward readAtom later =>
          rw [read] at readAtom
          cases readAtom
          left
          refine ⟨Nat.le_add_right _ _, ?_⟩
          rw [Nat.add_sub_cancel_left]
          exact later
  | @char c rest size bare inert _ strand ih =>
      cases run with
      | nothing => exact .inr ⟨by omega, .inl rfl⟩
      | @onward _ atom length more readAtom later =>
          rw [read?_of_isBare bare] at readAtom
          cases readAtom
          rw [List.drop_succ_cons, List.drop_zero] at later
          rcases ih later with ⟨reached, beyond⟩ | ⟨short, ends⟩
          · left
            refine ⟨by omega, ?_⟩
            rw [Nat.add_comm 1 size, List.drop_succ_cons, Nat.add_comm 1 more,
              Nat.add_sub_add_right]
            exact beyond
          · right
            refine ⟨by omega, .inr ?_⟩
            rw [Nat.add_comm 1 more, List.take_succ_cons]
            rcases ends with rfl | ⟨d, inertLast, last⟩
            · exact ⟨c, notMem_marks inert, rfl⟩
            · refine ⟨d, inertLast, ?_⟩
              rw [List.getLast?_cons, last]
              rfl

end Atom

namespace Literal

theorem rawLength_add (hashes taken more : Nat) (text : List Char) :
    rawLength hashes (taken + more) text = taken + rawLength hashes more text := by
  fun_induction rawLength hashes more text with
  | case1 more => rfl
  | case2 more c rest closes =>
      rw [rawLength, if_pos closes]
      omega
  | case3 more c rest goesOn ih =>
      rw [rawLength, if_neg goesOn, Nat.add_assoc, ih]

end Literal

namespace Token

/-! ### Plain tokens -/

/-- The token at the start of the text is not one in which an `r` and a quote are read
in two ways. -/
structure Plain (text : List Char) : Prop where
  notRaw : ∀ tag length, read? text = some (tag, length) → tag = .word ∨ tag = .number →
    (text.take length).getLast? = some 'r' → Literal.rawHashes? ('r' :: text.drop length) = none
  notEscaped : ∀ length, read? text = some (.string, length) →
    ¬ ['b', 'r', '"'] <+: text ∧ ¬ ['c', 'r', '"'] <+: text

theorem isInner_of_isWordPart {c : Char} (part : Text.isWordPart c = true) :
    Atom.isInner c = true := by
  unfold Atom.isInner
  rw [part]
  rfl

theorem isInner_of_isBlank {c : Char} (blank : Text.isBlank c = true) :
    Atom.isInner c = true := by
  unfold Atom.isInner
  rw [blank, Bool.or_true]
  rfl

theorem numberLength_split (taken : Nat) (text : List Char) :
    ∃ chars after, text = chars ++ after ∧ numberLength taken text = taken + chars.length ∧
      ∀ c ∈ chars, Atom.isInner c = true := by
  fun_induction numberLength taken text with
  | case1 taken => exact ⟨[], [], rfl, rfl, List.forall_mem_nil _⟩
  | case2 taken c rest goesOn ih =>
      obtain ⟨chars, after, rfl, length, inner⟩ := ih
      refine ⟨c :: chars, after, rfl, ?_, ?_⟩
      · rw [length, List.length_cons]
        omega
      · rw [List.forall_mem_cons]
        refine ⟨?_, inner⟩
        rw [Bool.or_eq_true, Bool.and_eq_true] at goesOn
        rcases goesOn with part | ⟨point, -⟩
        · exact isInner_of_isWordPart part
        · unfold Atom.isInner
          rw [point, Bool.or_true]
  | case3 taken c rest ends => exact ⟨[], c :: rest, rfl, rfl, List.forall_mem_nil _⟩

/-- A word that a literal follows, with the literal. -/
theorem strand_of_literal {c : Char} {word after : List Char} {tag : Tag} {more : Nat}
    (notEscaped : tag = .string → ¬ ['b', 'r', '"'] <+: c :: (word ++ after) ∧
      ¬ ['c', 'r', '"'] <+: c :: (word ++ after))
    (found : literalAfter? (c :: word) after = some (tag, more)) :
    Atom.Strand (c :: (word ++ after)) ((c :: word).length + more) := by
  have opens := opens_of_literalAfter? found
  have bareB : ∀ rest, Atom.IsBare 'b' rest :=
    Atom.isBare_of_ne (by decide) (by decide) (by decide) (by decide)
  have bareC : ∀ rest, Atom.IsBare 'c' rest :=
    Atom.isBare_of_ne (by decide) (by decide) (by decide) (by decide)
  cases after with
  | nil =>
      rw [literalAfter?_nil] at found
      cases found
  | cons d rest =>
      rcases literal_opener_cases d with rfl | rfl | rfl | ⟨notString, notHash, notByte⟩
      · rw [literalAfter?_string opens] at found
        cases found
        have read := Atom.read?_of_string rfl (Literal.stringLength?_quote rest)
        rcases opens with isB | isC | isBr | isCr
        · cases isB
          exact .char (bareB _) (by decide) (absurd · (by decide)) (.literal read)
        · cases isC
          exact .char (bareC _) (by decide) (absurd · (by decide)) (.literal read)
        · cases isBr
          exact absurd (List.prefix_append _ _) (notEscaped rfl).1
        · cases isCr
          exact absurd (List.prefix_append _ _) (notEscaped rfl).2
      · rw [literalAfter?_hashes opens] at found
        split at found
        · rename_i quoted
          cases found
          have raw : Literal.rawHashes? ('r' :: '#' :: rest) =
              some (hashLength ('#' :: rest)) := by
            unfold Literal.rawHashes?
            exact if_pos quoted.2
          have read := Atom.read?_of_string rfl (Literal.stringLength?_of_raw raw)
          have length : Literal.rawLength (hashLength ('#' :: rest)) (hashLength ('#' :: rest) + 2)
              (('r' :: '#' :: rest).drop (hashLength ('#' :: rest) + 2)) =
              1 + Literal.rawLength (hashLength ('#' :: rest)) (hashLength ('#' :: rest) + 1)
                (('#' :: rest).drop (hashLength ('#' :: rest) + 1)) := by
            rw [← Literal.rawLength_add, Nat.add_comm 1, List.drop_succ_cons]
          rw [length] at read
          rcases opens with isB | isC | isBr | isCr
          · rw [isB] at quoted
            exact absurd quoted.1 (by decide)
          · rw [isC] at quoted
            exact absurd quoted.1 (by decide)
          · cases isBr
            rw [show ['b', 'r'].length = 1 + 1 from rfl, Nat.add_assoc]
            exact .char (bareB _) (by decide) (absurd · (by decide)) (.literal read)
          · cases isCr
            rw [show ['c', 'r'].length = 1 + 1 from rfl, Nat.add_assoc]
            exact .char (bareC _) (by decide) (absurd · (by decide)) (.literal read)
        · cases found
      · rw [literalAfter?_byte opens] at found
        split at found
        · rename_i isB
          cases isB
          obtain ⟨quote, isQuote, -⟩ := quoted_eq (Option.some.inj found)
          exact .char (bareB _) (by decide) (absurd · (by decide))
            (.literal (Atom.read?_of_quote rfl rfl isQuote))
        · cases found
      · rw [literalAfter?_other notString notHash notByte] at found
        cases found

/-- A word, with the number sign and the word behind it where it is raw. -/
theorem strand_of_word {c : Char} {word after : List Char}
    (starts : Text.isWordStart c = true) (parts : ∀ d ∈ word, Text.isWordPart d = true)
    (opensNot : Literal.rawHashes? (c :: (word ++ after)) = none)
    (notRaw : ((c :: (word ++ after)).take
        ((c :: word).length + rawWordLength (c :: word) after)).getLast? = some 'r' →
      Literal.rawHashes? ('r' :: (c :: (word ++ after)).drop
        ((c :: word).length + rawWordLength (c :: word) after)) = none) :
    Atom.Strand (c :: (word ++ after)) ((c :: word).length + rawWordLength (c :: word) after) := by
  have inner : ∀ d ∈ c :: word, Atom.isInner d = true := by
    rw [List.forall_mem_cons]
    exact ⟨isInner_of_isWordPart (Text.isWordPart_of_isWordStart starts),
      fun d member => isInner_of_isWordPart (parts d member)⟩
  have alone : rawWordLength (c :: word) after = 0 →
      Atom.Strand (c :: (word ++ after)) ((c :: word).length + rawWordLength (c :: word) after) := by
    intro nothing
    rw [nothing] at notRaw ⊢
    rw [Nat.add_zero, ← List.cons_append, List.take_left, List.drop_left] at notRaw
    exact .append inner notRaw (.nothing after)
  cases after with
  | nil => exact alone rfl
  | cons d rest =>
      by_cases isRaw : d = '#' ∧ c :: word = ['r'] ∧ rest.head?.any Text.isWordStart = true
      · obtain ⟨rfl, isR, names⟩ := isRaw
        cases isR
        have length : rawWordLength ['r'] ('#' :: rest) =
            1 + (rest.takeWhile Text.isWordPart).length := by
          unfold rawWordLength
          exact if_pos ⟨rfl, names⟩
        have split : rest = rest.takeWhile Text.isWordPart ++ rest.dropWhile Text.isWordPart :=
          List.takeWhile_append_dropWhile.symm
        have chars : ∀ d ∈ rest.takeWhile Text.isWordPart, Atom.isInner d = true := fun d member =>
          isInner_of_isWordPart (List.all_eq_true.mp List.all_takeWhile d member)
        rw [length, List.nil_append] at notRaw ⊢
        rw [show ['r'].length = 1 from rfl] at notRaw ⊢
        refine .char ⟨by decide, by decide, by decide, opensNot⟩ (by decide)
          (absurd · (by decide)) ?_
        refine .char (Atom.isBare_of_ne (by decide) (by decide) (by decide) (by decide) _)
          (by decide) (fun _ => names) ?_
        generalize rest.takeWhile Text.isWordPart = name at *
        generalize rest.dropWhile Text.isWordPart = behind at *
        subst split
        have strand := Atom.Strand.append chars (fun last => ?_) (.nothing behind)
        · exact strand
        · have swap : 1 + (1 + name.length) = name.length + 1 + 1 := by omega
          rw [swap, List.take_succ_cons, List.take_succ_cons, List.take_left, List.drop_succ_cons,
            List.drop_succ_cons, List.drop_left] at notRaw
          apply notRaw
          rw [List.getLast?_cons, List.getLast?_cons, last]
          rfl
      · apply alone
        unfold rawWordLength
        split
        · rename_i more split
          cases split
          rw [if_neg]
          intro both
          exact isRaw ⟨rfl, both⟩
        · rfl

/-- A plain token is one atom or a strand. -/
theorem Plain.atom_or_strand {text : List Char} {tag : Tag} {length : Nat} (plain : Plain text)
    (read : read? text = some (tag, length)) :
    (∃ atom, Atom.read? text = some (atom, length)) ∨ Atom.Strand text length := by
  obtain ⟨notRaw, notEscaped⟩ := plain
  cases reading_of_read? read with
  | newline rest =>
      exact .inl ⟨_, Atom.read?_of_isBare
        (Atom.isBare_of_ne (by decide) (by decide) (by decide) (by decide) rest)⟩
  | @slash rest _ _ slashed =>
      rcases slash_eq slashed with ⟨commented, -⟩ | ⟨missing, -, rfl⟩
      · exact .inl ⟨_, Atom.read?_of_comment commented⟩
      · exact .inl ⟨_, Atom.read?_of_char missing rfl rfl⟩
  | string rest => exact .inl ⟨_, Atom.read?_of_string rfl (Literal.stringLength?_quote rest)⟩
  | quote quoted =>
      obtain ⟨quote, isQuote, -⟩ := quoted_eq quoted
      exact .inl ⟨_, Atom.read?_of_quote rfl rfl isQuote⟩
  | @raw _ hashes opens =>
      have noComment : Comment.length? text = none := by
        obtain ⟨rest, rfl⟩ := (Literal.rawHashes?_eq_some_iff text hashes).mp opens
        rfl
      exact .inl ⟨_, Atom.read?_of_string noComment (Literal.stringLength?_of_raw opens)⟩
  | literal starts parts ends opensNot found =>
      right
      refine strand_of_literal ?_ found
      rintro rfl
      exact notEscaped _ read
  | word starts parts ends opensNot missing =>
      exact .inr (strand_of_word starts parts opensNot (notRaw _ _ read (.inl rfl)))
  | @number c rest notStart digit =>
      right
      obtain ⟨chars, after, rfl, size, inner⟩ := numberLength_split 1 rest
      have all : ∀ d ∈ c :: chars, Atom.isInner d = true :=
        List.forall_mem_cons.mpr ⟨isInner_of_isWordPart (isWordPart_of_isAsciiDigit digit), inner⟩
      have length : numberLength 1 (chars ++ after) = (c :: chars).length := by
        rw [size, List.length_cons, Nat.add_comm]
      have ends := notRaw _ _ read (.inr rfl)
      rw [length, ← List.cons_append, List.take_left, List.drop_left] at ends
      rw [length]
      exact .append all ends (.nothing after)
  | @blank c rest inLine blank =>
      right
      have split : rest = rest.takeWhile (fun c => c != '\n' && Text.isBlank c) ++
          rest.dropWhile (fun c => c != '\n' && Text.isBlank c) :=
        List.takeWhile_append_dropWhile.symm
      have chars : ∀ d ∈ c :: rest.takeWhile (fun c => c != '\n' && Text.isBlank c),
          Text.isBlank d = true := by
        rw [List.forall_mem_cons]
        refine ⟨blank, ?_⟩
        intro d member
        have kept := List.all_eq_true.mp List.all_takeWhile d member
        exact (Bool.and_eq_true_iff.mp kept).2
      generalize rest.takeWhile (fun c => c != '\n' && Text.isBlank c) = blanks at *
      generalize rest.dropWhile (fun c => c != '\n' && Text.isBlank c) = behind at *
      subst split
      rw [Nat.add_comm 1]
      refine .append (fun d member => isInner_of_isBlank (chars d member)) ?_ (.nothing behind)
      intro last
      exact absurd (chars 'r' (List.mem_of_getLast? last)) (by decide)
  | punctuation rest other notStart notDigit notBlank =>
      refine .inl ⟨_, Atom.read?_of_isBare ?_⟩
      refine Atom.isBare_of_ne other.2.1 other.2.2.1 other.2.2.2 ?_ rest
      rintro rfl
      revert notStart
      decide

/-- Every token of the text is plain. -/
def AllPlain (text : List Char) : Prop := ∀ count, Whole text count → Plain (text.drop count)

theorem AllPlain.first {text : List Char} (plain : AllPlain text) : Plain text := by
  have first := plain 0 (.nothing text)
  rwa [List.drop_zero] at first

theorem AllPlain.drop {text : List Char} {count : Nat} (plain : AllPlain text)
    (run : Whole text count) : AllPlain (text.drop count) := by
  intro more later
  rw [List.drop_drop]
  exact plain _ (run.append later)

/-- Atoms that end at a mark, or with the text, are whole tokens. -/
theorem whole_of_atoms {text : List Char} {count : Nat} (plain : AllPlain text)
    (run : Atom.Run text count) (ends : Text.EndsAt Atom.marks text count) : Whole text count := by
  induction size : text.length using Nat.strongRecOn generalizing text count with
  | ind size ih =>
      subst size
      -- The first token of the run is passed as a whole, and the rest goes on behind it.
      have onward : ∀ {tag : Tag} {first more : Nat}, read? text = some (tag, first) →
          count = first + more → Atom.Run (text.drop first) more → Whole text count := by
        rintro tag first more read rfl later
        cases more with
        | zero => exact .single read trivial
        | succ more =>
            have whole : Whole text first := .single read trivial
            exact .onward read trivial (ih _ (length_drop_lt read) (plain.drop whole) later
              (ends.drop (Nat.succ_pos more) later.length_le) rfl)
      cases run with
      | nothing => exact .nothing text
      | @onward _ atom first more readAtom later =>
          cases read : read? text with
          | none =>
              rw [read?_eq_none_iff] at read
              exact absurd read (Atom.read?_pos readAtom).2
          | some pair =>
              obtain ⟨tag, length⟩ := pair
              rcases plain.first.atom_or_strand read with ⟨other, isAtom⟩ | strand
              · rw [readAtom] at isAtom
                cases isAtom
                exact onward read rfl later
              · have whole : Atom.Run text (first + more) := .onward readAtom later
                rcases whole.over_strand strand with ⟨reached, beyond⟩ | ⟨short, stops⟩
                · exact onward read (by omega) beyond
                · exfalso
                  have bound := read?_length_le read
                  have positive := (Atom.read?_pos readAtom).1
                  rcases stops with none | ⟨c, inert, last⟩
                  · omega
                  · rcases ends with all | ⟨d, isMark, lastMark⟩
                    · omega
                    · rw [last] at lastMark
                      cases lastMark
                      exact inert isMark

end Token

/-! ### Readers -/

namespace Delimiter

theorem closeFrom_atoms (kind : Delimiter) (outer : Nat) (afterShaft : Bool) (taken : Nat)
    (text : List Char) {count : Nat}
    (reaches : closeFrom kind outer afterShaft taken text = taken + count) :
    Atom.Run text count := by
  fun_induction closeFrom kind outer afterShaft taken text generalizing count with
  | case1 outer afterShaft taken text missing =>
      obtain rfl : count = 0 := by omega
      exact .nothing text
  | case2 afterShaft taken text c length found closes =>
      obtain rfl : count = length := by omega
      exact .single found
  | case3 afterShaft taken text c length found closes outer ih =>
      exact .further reaches (.single found) (le_closeFrom _ _ _ _ _) ih
  | case4 outer afterShaft taken text c length found staysOpen ih =>
      exact .further reaches (.single found) (le_closeFrom _ _ _ _ _) ih
  | case5 outer afterShaft taken text atom length other found ih =>
      exact .further reaches (.single found) (le_closeFrom _ _ _ _ _) ih

theorem closeLength_atoms (kind : Delimiter) (text : List Char) :
    Atom.Run text (kind.closeLength text) :=
  kind.closeFrom_atoms 0 false 0 text (Nat.zero_add _).symm

theorem closer_mem_marks (kind : Delimiter) : [kind.closer] ⊆ Atom.marks := by
  cases kind <;> decide

/-- What remains of a group is whole tokens. -/
theorem closeLength_whole (kind : Delimiter) {text : List Char} (plain : Token.AllPlain text) :
    Token.Whole text (kind.closeLength text) :=
  Token.whole_of_atoms plain (kind.closeLength_atoms text)
    ((kind.closeLength_endsAt text).mono kind.closer_mem_marks)

theorem groupAfter?_atoms {kinds : List Delimiter} {c : Char} {text : List Char} {group : Nat}
    (found : groupAfter? kinds c text = some group) : Atom.Run text group := by
  obtain ⟨kind, -, rfl⟩ := Option.map_eq_some_iff.mp found
  exact kind.closeLength_atoms text

end Delimiter

namespace Head

theorem readFrom_atoms (groups : List Delimiter) (kept : List Char) (taken : Nat)
    (text : List Char) {count : Nat}
    (reaches : (readFrom groups kept taken text).length = taken + count) :
    Atom.Run text count := by
  fun_induction readFrom groups kept taken text generalizing count with
  | case1 kept taken text missing =>
      obtain rfl : 0 = count := Nat.add_left_cancel reaches
      exact .nothing text
  | case2 kept taken text length found ih =>
      exact .further reaches (.single found) (le_readFrom_length _ _ _ _) ih
  | case3 kept taken text written length found ih =>
      exact .further reaches (.single found) (le_readFrom_length _ _ _ _) ih
  | case4 kept taken text length found =>
      obtain rfl : length = count := Nat.add_left_cancel reaches
      exact .single found
  | case5 kept taken text length found notSemicolon =>
      obtain rfl : length = count := Nat.add_left_cancel reaches
      exact .single found
  | case6 kept taken text c length found notSemicolon notBrace group grouped ih =>
      have run := (Atom.Run.single found).append (Delimiter.groupAfter?_atoms grouped)
      exact .further reaches run (le_readFrom_length _ _ _ _) ih
  | case7 kept taken text c length found notSemicolon notBrace alone ih =>
      exact .further reaches (.single found) (le_readFrom_length _ _ _ _) ih

/-- A head is whole tokens. -/
theorem read_whole (groups : List Delimiter) {text : List Char} (plain : Token.AllPlain text) :
    Token.Whole text (read groups text).length := by
  have ends := read_endsAt groups text
  refine Token.whole_of_atoms plain (readFrom_atoms groups [] 0 text (Nat.zero_add _).symm) ?_
  refine ends.mono ?_
  cases (read groups text).ending <;> decide

end Head

namespace Attribute

theorem blankLength_atoms (text : List Char) : Atom.Run text (Trivia.blankLength text) := by
  unfold Trivia.blankLength
  induction text with
  | nil => exact .nothing []
  | cons c rest ih =>
      by_cases blank : Text.isBlank c = true
      · rw [List.takeWhile_cons_of_pos blank, List.length_cons, Nat.add_comm]
        obtain ⟨notSlash, notString, notQuote⟩ := Token.not_special_of_isBlank blank
        have notR : c ≠ 'r' := by
          rintro rfl
          exact absurd blank (by decide)
        exact .onward (Atom.read?_of_isBare
          (Atom.isBare_of_ne notSlash notString notQuote notR rest)) ih
      · rw [List.takeWhile_cons_of_neg blank]
        exact .nothing _

theorem bracketed?_run {opening text : List Char} {taken : Nat} {mark : Attribute}
    (found : bracketed? opening taken text = some mark) :
    ∃ count, mark.length = taken + count ∧ Atom.Run text count ∧ Text.EndsAt [']'] text count := by
  unfold bracketed? at found
  split at found
  · rename_i rest
    cases found
    refine ⟨1 + Delimiter.bracket.closeLength rest, Nat.add_assoc _ _ _, ?_, ?_⟩
    · exact .onward (Atom.read?_of_isBare
        (Atom.isBare_of_ne (by decide) (by decide) (by decide) (by decide) rest))
        (Delimiter.bracket.closeLength_atoms rest)
    · exact .behind (Delimiter.bracket.closeLength_endsAt rest)
  · cases found

/-- An attribute is whole atoms and ends with its bracket, or with the text. -/
theorem read?_run {text : List Char} {mark : Attribute} (found : read? text = some mark) :
    Atom.Run text mark.length ∧ Text.EndsAt [']'] text mark.length := by
  have blanks := blankLength_atoms text
  by_cases bang : (text.drop (Trivia.blankLength text)).head? = some '!'
  · obtain ⟨rest, split⟩ := List.head?_eq_some_iff.mp bang
    rw [read?_eq_bang split] at found
    obtain ⟨count, length, run, ends⟩ := bracketed?_run found
    have sign : Atom.Run (text.drop (Trivia.blankLength text)) (1 + Trivia.blankLength rest) := by
      rw [split]
      exact .onward (Atom.read?_of_isBare
        (Atom.isBare_of_ne (by decide) (by decide) (by decide) (by decide) rest))
        (blankLength_atoms rest)
    have behind : rest.drop (Trivia.blankLength rest) =
        text.drop (Trivia.blankLength text + (1 + Trivia.blankLength rest)) := by
      rw [← List.drop_drop, split, Nat.add_comm 1, List.drop_succ_cons]
    rw [behind] at run ends
    rw [length, Nat.add_assoc (Trivia.blankLength text)]
    exact ⟨(blanks.append sign).append run, .behind ends⟩
  · rw [read?_eq_bare bang] at found
    obtain ⟨count, length, run, ends⟩ := bracketed?_run found
    rw [length]
    exact ⟨blanks.append run, .behind ends⟩

theorem read?_whole {text : List Char} {mark : Attribute} (plain : Token.AllPlain text)
    (found : read? text = some mark) : Token.Whole text mark.length := by
  obtain ⟨run, ends⟩ := read?_run found
  exact Token.whole_of_atoms plain run (ends.mono (by decide))

theorem skipLength_atoms (text : List Char) : Atom.Run text (skipLength text) := by
  unfold skipLength
  cases found : read? text with
  | none => exact .nothing text
  | some mark => exact (read?_run found).1

end Attribute

namespace VariantList

theorem readFrom_atoms (variant : List Char) (noted : List (List Char)) (taken : Nat)
    (text : List Char) {count : Nat}
    (reaches : (readFrom variant noted taken text).length = taken + count) :
    Atom.Run text count := by
  fun_induction readFrom variant noted taken text generalizing count with
  | case1 variant noted taken text missing =>
      obtain rfl : 0 = count := Nat.add_left_cancel reaches
      exact .nothing text
  | case2 variant noted taken text length found ih =>
      exact .further reaches (.single found) (le_readFrom_length _ _ _ _) ih
  | case3 variant noted taken text written length found ih =>
      exact .further reaches (.single found) (le_readFrom_length _ _ _ _) ih
  | case4 variant noted taken text length found =>
      obtain rfl : length = count := Nat.add_left_cancel reaches
      exact .single found
  | case5 variant noted taken text length found notBrace ih =>
      exact .further reaches (.single found) (le_readFrom_length _ _ _ _) ih
  | case6 variant noted taken text length skipped found notBrace notComma =>
      rename_i ih
      have run := (Atom.Run.single found).append (Attribute.skipLength_atoms _)
      exact .further reaches run (le_readFrom_length _ _ _ _) ih
  | case7 variant noted taken text c length found notBrace notComma notHash group grouped ih =>
      have run := (Atom.Run.single found).append (Delimiter.groupAfter?_atoms grouped)
      exact .further reaches run (le_readFrom_length _ _ _ _) ih
  | case8 variant noted taken text c length found notBrace notComma notHash alone ih =>
      exact .further reaches (.single found) (le_readFrom_length _ _ _ _) ih

/-- The body of an enumeration is whole tokens. -/
theorem read_whole {text : List Char} (plain : Token.AllPlain text) :
    Token.Whole text (read text).length :=
  Token.whole_of_atoms plain (readFrom_atoms [] [] 0 text (Nat.zero_add _).symm)
    ((read_endsAt text).mono (by decide))

end VariantList

/-! ### Blanks and trivia -/

namespace Trivia

theorem blankLength_append {blanks : List Char} (blank : ∀ c ∈ blanks, Text.isBlank c = true)
    (rest : List Char) : blankLength (blanks ++ rest) = blanks.length + blankLength rest := by
  unfold blankLength
  rw [List.takeWhile_append_of_pos blank, List.length_append]

/-- Blanks are whole tokens of their own. -/
theorem blankLength_run (text : List Char) :
    Token.Run (fun tag => tag = .blank ∨ tag = .newline) text (blankLength text) := by
  induction size : text.length using Nat.strongRecOn generalizing text with
  | ind size ih =>
      subst size
      cases text with
      | nil => exact .nothing []
      | cons c rest =>
          by_cases blank : Text.isBlank c = true
          · by_cases newline : c = '\n'
            · subst newline
              have split := blankLength_append (List.forall_mem_singleton.mpr blank) rest
              rw [List.singleton_append, List.length_singleton] at split
              rw [split]
              exact .onward (Token.Reading.newline rest).read? (.inr rfl)
                (ih _ (Nat.lt_succ_self _) rest rfl)
            · have read := (Token.Reading.blank rest newline blank).read?
              have parts : rest = rest.takeWhile (fun c => c != '\n' && Text.isBlank c) ++
                  rest.dropWhile (fun c => c != '\n' && Text.isBlank c) :=
                List.takeWhile_append_dropWhile.symm
              have blanks : ∀ d ∈ c :: rest.takeWhile (fun c => c != '\n' && Text.isBlank c),
                  Text.isBlank d = true := by
                rw [List.forall_mem_cons]
                refine ⟨blank, ?_⟩
                intro d member
                have kept := List.all_eq_true.mp List.all_takeWhile d member
                exact (Bool.and_eq_true_iff.mp kept).2
              generalize rest.takeWhile (fun c => c != '\n' && Text.isBlank c) = line at *
              generalize rest.dropWhile (fun c => c != '\n' && Text.isBlank c) = behind at *
              subst parts
              have split := blankLength_append blanks behind
              rw [List.cons_append, List.length_cons, Nat.add_comm line.length] at split
              rw [split]
              refine .onward read (.inl rfl) ?_
              rw [Nat.add_comm 1, List.drop_succ_cons, List.drop_left]
              refine ih _ ?_ behind rfl
              rw [List.length_cons, List.length_append]
              omega
          · have none : blankLength (c :: rest) = 0 := by
              unfold blankLength
              rw [List.takeWhile_cons_of_neg blank]
              rfl
            rw [none]
            exact .nothing _

theorem read?_of_comment {text : List Char} {length : Nat}
    (commented : Comment.length? text = some length) :
    ∃ tag, Token.read? text = some (tag, length) ∧ tag.isTrivia = true := by
  have slashed : ∃ rest, text = '/' :: rest := by
    rcases Comment.length?_cases text with ⟨rest, rfl⟩ | ⟨rest, rfl⟩ | missing
    · exact ⟨_, rfl⟩
    · exact ⟨_, rfl⟩
    · rw [missing] at commented
      cases commented
  obtain ⟨rest, rfl⟩ := slashed
  cases read : Token.slash ('/' :: rest) with
  | mk tag size =>
      rcases Token.slash_eq read with ⟨found, trivia, -⟩ | ⟨missing, -⟩
      · rw [commented] at found
        cases found
        exact ⟨tag, (Token.Reading.slash read).read?, trivia⟩
      · rw [missing] at commented
        cases commented

/-- Trivia are whole tokens that mean nothing. -/
theorem length_run (text : List Char) : Token.TriviaRun text (length text) := by
  have blanks : Token.TriviaRun text (blankLength text) := by
    apply (blankLength_run text).mono
    rintro tag (rfl | rfl) <;> rfl
  induction size : text.length using Nat.strongRecOn generalizing text with
  | ind size ih =>
      subst size
      cases commented : Comment.length? (text.drop (blankLength text)) with
      | none =>
          rw [length_of_none commented]
          exact blanks
      | some comment =>
          rw [length_of_some commented, Nat.add_assoc]
          obtain ⟨tag, read, isTrivia⟩ := read?_of_comment commented
          have shorter := Token.length_drop_lt read
          apply blanks.append
          apply Token.Run.onward read isTrivia
          rw [List.drop_drop] at shorter ⊢
          refine ih _ ?_ _ ?_ rfl
          · simp only [List.length_drop] at shorter ⊢
            omega
          · apply (blankLength_run _).mono
            rintro tag (rfl | rfl) <;> rfl

end Trivia

theorem Delimiter.eq_opener_of_ofOpener? {c : Char} {kind : Delimiter}
    (opens : ofOpener? c = some kind) : c = kind.opener := by
  unfold ofOpener? at opens
  repeat' split at opens
  all_goals
    cases opens
    try assumption

theorem Delimiter.isBare_opener (kind : Delimiter) (rest : List Char) :
    Atom.IsBare kind.opener rest := by
  cases kind <;> exact Atom.isBare_of_ne (by decide) (by decide) (by decide) (by decide) rest

/-- A group that a macro may take is whole tokens. -/
theorem macroGroupLength_whole {text : List Char} (plain : Token.AllPlain text) :
    Token.Whole text (macroGroupLength text) := by
  cases text with
  | nil => exact .nothing []
  | cons c rest =>
      unfold macroGroupLength
      dsimp only
      cases grouped : Delimiter.groupAfter? [.brace, .paren, .bracket] c rest with
      | none => exact .nothing _
      | some group =>
          dsimp only
          obtain ⟨kind, isOpener, rfl⟩ := Option.map_eq_some_iff.mp grouped
          obtain rfl := Delimiter.eq_opener_of_ofOpener? (Option.filter_eq_some_iff.mp isOpener).1
          refine Token.whole_of_atoms plain
            (.onward (Atom.read?_of_isBare (kind.isBare_opener rest)) (kind.closeLength_atoms rest)) ?_
          exact .behind ((kind.closeLength_endsAt rest).mono kind.closer_mem_marks)

theorem macroLength_whole {text : List Char} (plain : Token.AllPlain text) :
    Token.Whole text (macroLength false text) := by
  have blanks := (Trivia.blankLength_run text).whole
  rw [macroLength_eq]
  have noName : macroNameLength false (text.drop (Trivia.blankLength text)) = 0 := rfl
  rw [noName, List.drop_zero, Nat.add_zero]
  exact blanks.append (macroGroupLength_whole (plain.drop blanks))

end Survey
