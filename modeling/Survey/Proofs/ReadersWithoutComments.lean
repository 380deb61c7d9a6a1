import Survey.Proofs.AtomsWithoutComments
import Mathlib.Data.List.TakeWhile

set_option autoImplicit false

/-!
# Heads, bodies and macros without the comments

Each reader that a survey sends ahead passes the same piece of the text whether comments
stand in it or blanks: it stops at a place that the two texts share. A head in which no
comment stands is read to the letter.
-/

namespace Survey

namespace Delimiter

theorem groupAfter?_blank (kinds : List Delimiter) {c : Char} (blank : Text.isBlank c = true)
    (text : List Char) : groupAfter? kinds c text = none := by
  have none : ofOpener? c = none := by
    cases opens : ofOpener? c with
    | none => rfl
    | some kind =>
        have isOpener := eq_opener_of_ofOpener? opens
        exact absurd isOpener (Text.ne_of_isBlank blank (by cases kind <;> decide))
  unfold groupAfter?
  rw [none]
  rfl

theorem isWhiteSpace_of_groupAfter? {kinds : List Delimiter} {c : Char} {text : List Char}
    {group : Nat} (found : groupAfter? kinds c text = some group) :
    Text.isWhiteSpace c = false := by
  obtain ⟨kind, isOpener, -⟩ := Option.map_eq_some_iff.mp found
  rw [eq_opener_of_ofOpener? (Option.filter_eq_some_iff.mp isOpener).1]
  cases kind <;> decide

/-- A character opens a group with the comments and without, or neither way. -/
theorem groupAfter?_veiled (kinds : List Delimiter) (c : Char) {text shaded : List Char}
    (veiled : Atom.Veiled text shaded) :
    (groupAfter? kinds c text = none ∧ groupAfter? kinds c shaded = none) ∨
      ∃ count more, groupAfter? kinds c text = some count ∧
        groupAfter? kinds c shaded = some more ∧
        Atom.Veiled (text.drop count) (shaded.drop more) := by
  unfold groupAfter?
  cases (ofOpener? c).filter (· ∈ kinds) with
  | none => exact .inl ⟨rfl, rfl⟩
  | some kind => exact .inr ⟨_, _, rfl, rfl, kind.closeLength_veiled veiled⟩

end Delimiter

/-! ### Heads -/

namespace Head

variable {text shaded : List Char}

theorem readFrom_semicolon (groups : List Delimiter) (kept : List Char) (taken : Nat)
    {rest : List Char} (read : Atom.read? (';' :: rest) = some (.char ';', 1)) :
    readFrom groups kept taken (';' :: rest) = ⟨kept.reverse, taken + 1, .semicolon⟩ := by
  rw [readFrom_eq, read]
  rfl

theorem readFrom_brace (groups : List Delimiter) (kept : List Char) (taken : Nat)
    {rest : List Char} (read : Atom.read? ('\x7b' :: rest) = some (.char '\x7b', 1)) :
    readFrom groups kept taken ('\x7b' :: rest) = ⟨kept.reverse, taken + 1, .brace⟩ := by
  rw [readFrom_eq, read]
  rfl

/-- A character that does not end a head is kept, or a group that it opens is stepped over. -/
theorem readFrom_char (groups : List Delimiter) (kept : List Char) (taken : Nat) {c : Char}
    {rest : List Char} (read : Atom.read? (c :: rest) = some (.char c, 1)) (notSemicolon : c ≠ ';')
    (notBrace : c ≠ '\x7b') :
    readFrom groups kept taken (c :: rest) =
      match Delimiter.groupAfter? groups c rest with
      | some group => readFrom groups kept (taken + (1 + group)) (rest.drop group)
      | none => readFrom groups (c :: kept) (taken + 1) rest := by
  rw [readFrom_eq, read]
  dsimp only
  rw [if_neg notSemicolon, if_neg notBrace, List.drop_succ_cons, List.drop_zero]
  cases Delimiter.groupAfter? groups c rest with
  | none => rfl
  | some group =>
      dsimp only
      rw [Nat.add_comm 1 group, List.drop_succ_cons]

theorem readFrom_blanks (groups : List Delimiter) (kept : List Char) (taken : Nat)
    {blanks : List Char} (all : ∀ c ∈ blanks, Text.isBlank c = true) (rest : List Char) :
    readFrom groups kept taken (blanks ++ rest) =
      readFrom groups (blanks.reverse ++ kept) (taken + blanks.length) rest := by
  induction blanks generalizing kept taken with
  | nil => rfl
  | cons c blanks ih =>
      obtain ⟨blank, later⟩ := List.forall_mem_cons.mp all
      rw [List.cons_append, readFrom_char groups kept taken (Atom.read?_blank blank _)
        (Text.ne_of_isBlank blank (by decide)) (Text.ne_of_isBlank blank (by decide)),
        Delimiter.groupAfter?_blank groups blank]
      dsimp only
      rw [ih (c :: kept) (taken + 1) later, List.reverse_cons, List.append_assoc,
        List.singleton_append, List.length_cons, Nat.add_assoc, Nat.add_comm 1]

/-- A head ends in the same way and at the same place with the comments and without. -/
theorem readFrom_veiled (groups : List Delimiter) (kept keptOther : List Char) (taken other : Nat)
    (veiled : Atom.Veiled text shaded) :
    (readFrom groups keptOther other shaded).ending = (readFrom groups kept taken text).ending ∧
      Atom.Abreast text shaded taken other (readFrom groups kept taken text).length
        (readFrom groups keptOther other shaded).length := by
  -- A group may be stepped over, so that the induction is on the length of the text.
  induction size : text.length using Nat.strongRecOn
    generalizing text shaded kept keptOther taken other with
  | ind size ih =>
      subst size
      cases veiled with
      | nothing =>
          rw [readFrom_eq, readFrom_eq groups kept]
          exact ⟨rfl, Atom.Veiled.nothing.abreast taken other⟩
      | @comment _ shaded length read later =>
          have goesOn : readFrom groups kept taken text =
              readFrom groups kept (taken + length) (text.drop length) := by
            rw [readFrom_eq, read]
          rw [goesOn, readFrom_blanks groups keptOther other fun c => Text.isBlank_of_mem_shade]
          obtain ⟨same, abreast⟩ := ih _ (Atom.length_drop_lt read) kept _ (taken + length)
            (other + (Text.shade (text.take length)).length) later rfl
          refine ⟨same, .onward length (Text.shade (text.take length)).length ?_⟩
          rwa [List.drop_left]
      | @literal _ written shaded length read again later =>
          rw [readFrom_eq, again, readFrom_eq groups kept, read]
          dsimp only
          rw [List.drop_left' (Atom.length_of_literal read)]
          obtain ⟨same, abreast⟩ := ih _ (Atom.length_drop_lt read) (written.reverse ++ kept)
            (written.reverse ++ keptOther) (taken + length) (other + length) later rfl
          refine ⟨same, .onward length length ?_⟩
          rwa [List.drop_left' (Atom.length_of_literal read)]
      | @char c rest shaded read again later mark behind =>
          by_cases semicolon : c = ';'
          · subst semicolon
            rw [readFrom_semicolon groups kept taken read,
              readFrom_semicolon groups keptOther other again]
            exact ⟨rfl, 1, 1, rfl, rfl, later⟩
          by_cases brace : c = '\x7b'
          · subst brace
            rw [readFrom_brace groups kept taken read, readFrom_brace groups keptOther other again]
            exact ⟨rfl, 1, 1, rfl, rfl, later⟩
          rw [readFrom_char groups kept taken read semicolon brace,
            readFrom_char groups keptOther other again semicolon brace]
          rcases Delimiter.groupAfter?_veiled groups c later with
            ⟨none, noneOther⟩ | ⟨group, groupOther, found, foundOther, beyond⟩
          · rw [none, noneOther]
            obtain ⟨same, abreast⟩ := ih _ (Nat.lt_succ_self rest.length) (c :: kept)
              (c :: keptOther) (taken + 1) (other + 1) later rfl
            exact ⟨same, .onward 1 1 abreast⟩
          · rw [found, foundOther]
            have shorter : (rest.drop group).length < (c :: rest).length := by
              rw [List.length_drop, List.length_cons]
              omega
            obtain ⟨same, abreast⟩ := ih _ shorter kept keptOther (taken + (1 + group))
              (other + (1 + groupOther)) beyond rfl
            refine ⟨same, .onward (1 + group) (1 + groupOther) ?_⟩
            rwa [Nat.add_comm 1 group, Nat.add_comm 1 groupOther, List.drop_succ_cons,
              List.drop_succ_cons, Nat.add_comm group, Nat.add_comm groupOther]

variable (groups : List Delimiter)

theorem read_length_le (text : List Char) : (read groups text).length ≤ text.length :=
  (readFrom_atoms groups [] 0 text (Nat.zero_add _).symm).length_le

theorem read_withoutComments (plain : Token.AllPlain text) (veiled : Token.AllVeiled text) :
    (read groups (Text.withoutComments text)).ending = (read groups text).ending ∧
      (Text.withoutComments text).drop (read groups (Text.withoutComments text)).length =
        Text.withoutComments (text.drop (read groups text).length) := by
  obtain ⟨same, abreast⟩ := readFrom_veiled groups [] [] 0 0 veiled.first
  exact ⟨same, abreast.of_start.unique (veiled _ (read_whole groups plain))⟩

/-- A head without comments is read to the letter. -/
theorem read_of_quiet (plain : Token.AllPlain text) (veiled : Token.AllVeiled text)
    (quiet : Token.Quiet text (read groups text).length) :
    read groups (Text.withoutComments text) = read groups text := by
  have length := quiet.length_withoutComments (read_length_le groups _)
    (read_withoutComments groups plain veiled).2
  have inside := read_length_le groups text
  -- What a head is depends on its own characters only.
  have alone : ∀ rest, (read groups (text.take (read groups text).length ++ rest)).length =
      (read groups text).length →
      read groups (text.take (read groups text).length) =
        read groups (text.take (read groups text).length ++ rest) := by
    intro rest same
    apply read_of_le
    exact Nat.le_of_eq (same.trans (List.length_take_of_le inside).symm)
  rw [quiet.withoutComments] at length ⊢
  rw [← alone _ length, alone (text.drop (read groups text).length), List.take_append_drop]
  rw [List.take_append_drop]

/-- Where a head has no comment, none comes first, blanks apart. -/
theorem uncommented_of_quiet (quiet : Token.Quiet text (read groups text).length) :
    Text.Uncommented text := by
  have blanks : Token.Whole text (Trivia.blankLength text) := (Trivia.blankLength_run text).whole
  have all : ∀ c ∈ text.take (Trivia.blankLength text), Text.isBlank c = true := by
    unfold Trivia.blankLength
    rw [← List.prefix_iff_eq_take.mp (List.takeWhile_prefix _)]
    exact List.all_eq_true.mp List.all_takeWhile
  unfold Text.Uncommented
  cases commented : Comment.length? (text.drop (Trivia.blankLength text)) with
  | none => rfl
  | some length =>
      exfalso
      have reaches : Trivia.blankLength text + length ≤ (read groups text).length := by
        have beyond := readFrom_length_ge groups
          ((text.take (Trivia.blankLength text)).reverse ++ [])
          (0 + (text.take (Trivia.blankLength text)).length) (Atom.read?_of_comment commented)
        rw [← readFrom_blanks groups [] 0 all, List.take_append_drop,
          List.length_take_of_le blanks.length_le, Nat.zero_add] at beyond
        exact beyond
      obtain ⟨more, sum⟩ := Nat.exists_eq_add_of_le (Nat.le_of_add_right_le reaches)
      rw [sum] at quiet reaches
      have positive := Comment.length?_pos commented
      have behind := blanks.rest quiet
      obtain ⟨tag, read, isComment⟩ := Token.read?_of_length? commented
      cases behind with
      | nothing => omega
      | onward readOther notComment later =>
          rw [read] at readOther
          cases readOther
          rw [isComment] at notComment
          cases notComment

theorem fullLength_whole (plain : Token.AllPlain text) :
    Token.Whole text ((read groups text).fullLength text) := by
  have head := read_whole groups plain
  unfold fullLength bodyLength?
  cases (read groups text).ending with
  | brace => exact head.append (Delimiter.brace.closeLength_whole (plain.drop head))
  | endOfText => exact head
  | semicolon => exact head

/-- A head and its body end at the same place with the comments and without. -/
theorem fullLength_withoutComments (plain : Token.AllPlain text) (veiled : Token.AllVeiled text) :
    (Text.withoutComments text).drop
        ((read groups (Text.withoutComments text)).fullLength (Text.withoutComments text)) =
      Text.withoutComments (text.drop ((read groups text).fullLength text)) := by
  have head := read_whole groups plain
  obtain ⟨same, behind⟩ := read_withoutComments groups plain veiled
  unfold fullLength bodyLength?
  rw [same]
  cases (read groups text).ending with
  | brace =>
      dsimp only
      rw [Option.getD_some, Option.getD_some, ← List.drop_drop, ← List.drop_drop, behind]
      exact Delimiter.brace.closeLength_withoutComments (plain.drop head) (veiled.drop head)
  | endOfText => exact behind
  | semicolon => exact behind

end Head

/-! ### Variants -/

namespace Text

theorem trim_eq_nil_iff (text : List Char) :
    trim text = [] ↔ ∀ c ∈ text, isWhiteSpace c = true := by
  constructor
  · intro nothing c member
    have ending := List.dropWhile_eq_nil_iff.mp (List.reverse_eq_nil_iff.mp nothing)
    rw [← List.takeWhile_append_dropWhile (p := isWhiteSpace) (l := text)] at member
    rcases List.mem_append.mp member with first | later
    · exact List.all_eq_true.mp List.all_takeWhile c first
    · exact ending c (List.mem_reverse.mpr later)
  · intro all
    have start : trimStart text = [] := List.dropWhile_eq_nil_iff.mpr all
    unfold trim
    rw [start]
    rfl

end Text

namespace VariantList

variable {text shaded : List Char}

/-- Two variants of which neither or both are all white space. -/
def BlankAlike (variant other : List Char) : Prop :=
  (∀ c ∈ other, Text.isWhiteSpace c = true) ↔ ∀ c ∈ variant, Text.isWhiteSpace c = true

namespace BlankAlike

variable {variant other : List Char}

theorem nothing : BlankAlike [] [] := Iff.rfl

theorem append (blank : BlankAlike variant other) (read : List Char) :
    BlankAlike (read ++ variant) (read ++ other) := by
  unfold BlankAlike at *
  rw [List.forall_mem_append, List.forall_mem_append, blank]

/-- The blanks that stand for a comment do not matter. -/
theorem shade (blank : BlankAlike variant other) (comment : List Char) :
    BlankAlike variant ((Text.shade comment).reverse ++ other) := by
  have white : ∀ c ∈ (Text.shade comment).reverse, Text.isWhiteSpace c = true := by
    intro c member
    rcases Text.eq_of_mem_shade (List.mem_reverse.mp member) with rfl | rfl <;> decide
  unfold BlankAlike at *
  rw [List.forall_mem_append, blank]
  exact ⟨And.right, fun all => ⟨white, all⟩⟩

/-- With the same visible character in both, neither is blank. -/
theorem filled {c : Char} (visible : Text.isWhiteSpace c = false)
    (before beforeOther after afterOther : List Char) :
    BlankAlike (before ++ c :: after) (beforeOther ++ c :: afterOther) := by
  have not_blank : ∀ before after : List Char,
      ¬ ∀ d ∈ before ++ c :: after, Text.isWhiteSpace d = true := by
    intro before after all
    have white := all c (List.mem_append_right _ List.mem_cons_self)
    rw [visible] at white
    cases white
  exact iff_of_false (not_blank _ _) (not_blank _ _)

end BlankAlike

/-- Whether a variant is noted depends on whether it is all white space. -/
theorem length_note {variant other : List Char} {noted notedOther : List (List Char)}
    (blank : BlankAlike variant other) (same : notedOther.length = noted.length) :
    (note other notedOther).length = (note variant noted).length := by
  have trimmed : (Text.trim other.reverse).isEmpty = (Text.trim variant.reverse).isEmpty := by
    rw [Bool.eq_iff_iff, List.isEmpty_iff, List.isEmpty_iff, Text.trim_eq_nil_iff,
      Text.trim_eq_nil_iff]
    simp only [List.mem_reverse]
    exact blank
  unfold note
  dsimp only
  rw [trimmed]
  split
  · exact same
  · rw [List.length_cons, List.length_cons, same]

theorem readFrom_brace (variant : List Char) (noted : List (List Char)) (taken : Nat)
    {rest : List Char} (read : Atom.read? ('\x7d' :: rest) = some (.char '\x7d', 1)) :
    readFrom variant noted taken ('\x7d' :: rest) =
      ⟨(note variant noted).reverse, taken + 1, true⟩ := by
  rw [readFrom_eq, read]
  rfl

theorem readFrom_comma (variant : List Char) (noted : List (List Char)) (taken : Nat)
    {rest : List Char} (read : Atom.read? (',' :: rest) = some (.char ',', 1)) :
    readFrom variant noted taken (',' :: rest) =
      readFrom [] (note variant noted) (taken + 1) rest := by
  rw [readFrom_eq, read]
  rfl

theorem readFrom_hash (variant : List Char) (noted : List (List Char)) (taken : Nat)
    {rest : List Char} (read : Atom.read? ('#' :: rest) = some (.char '#', 1)) :
    readFrom variant noted taken ('#' :: rest) =
      readFrom variant noted (taken + (1 + Attribute.skipLength rest))
        (rest.drop (Attribute.skipLength rest)) := by
  have passed : ('#' :: rest).drop (1 + Attribute.skipLength rest) =
      rest.drop (Attribute.skipLength rest) := by
    rw [Nat.add_comm, List.drop_succ_cons]
  rw [readFrom_eq, read, ← passed]
  rfl

/-- Any other character belongs to the variant, with the group that it opens. -/
theorem readFrom_char (variant : List Char) (noted : List (List Char)) (taken : Nat) {c : Char}
    {rest : List Char} (read : Atom.read? (c :: rest) = some (.char c, 1)) (notBrace : c ≠ '\x7d')
    (notComma : c ≠ ',') (notHash : c ≠ '#') :
    readFrom variant noted taken (c :: rest) =
      match Delimiter.groupAfter? [.brace, .paren] c rest with
      | some group =>
          readFrom ((rest.take group).reverse ++ c :: variant) noted (taken + (1 + group))
            (rest.drop group)
      | none => readFrom (c :: variant) noted (taken + 1) rest := by
  rw [readFrom_eq, read]
  dsimp only
  rw [if_neg notBrace, if_neg notComma, if_neg notHash, List.drop_succ_cons, List.drop_zero]
  cases Delimiter.groupAfter? [.brace, .paren] c rest with
  | none => rfl
  | some group =>
      dsimp only
      rw [Nat.add_comm 1 group, List.drop_succ_cons]

theorem readFrom_blanks (variant : List Char) (noted : List (List Char)) (taken : Nat)
    {blanks : List Char} (all : ∀ c ∈ blanks, Text.isBlank c = true) (rest : List Char) :
    readFrom variant noted taken (blanks ++ rest) =
      readFrom (blanks.reverse ++ variant) noted (taken + blanks.length) rest := by
  induction blanks generalizing variant taken with
  | nil => rfl
  | cons c blanks ih =>
      obtain ⟨blank, later⟩ := List.forall_mem_cons.mp all
      rw [List.cons_append, readFrom_char variant noted taken (Atom.read?_blank blank _)
        (Text.ne_of_isBlank blank (by decide)) (Text.ne_of_isBlank blank (by decide))
        (Text.ne_of_isBlank blank (by decide)), Delimiter.groupAfter?_blank _ blank]
      dsimp only
      rw [ih (c :: variant) (taken + 1) later, List.reverse_cons, List.append_assoc,
        List.singleton_append, List.length_cons, Nat.add_assoc, Nat.add_comm 1]

/-- Two bodies of which as many variants were read, and that ended in the same way. -/
structure Level (list other : VariantList) : Prop where
  variants : other.variants.length = list.variants.length
  isClosed : other.isClosed = list.isClosed

/-- A body has as many variants without the comments, and ends at the same place. -/
theorem readFrom_veiled {variant variantOther : List Char} {noted notedOther : List (List Char)}
    (blank : BlankAlike variant variantOther) (counts : notedOther.length = noted.length)
    (taken other : Nat) (veiled : Atom.Veiled text shaded) :
    Level (readFrom variant noted taken text) (readFrom variantOther notedOther other shaded) ∧
      Atom.Abreast text shaded taken other (readFrom variant noted taken text).length
        (readFrom variantOther notedOther other shaded).length := by
  induction size : text.length using Nat.strongRecOn
    generalizing text shaded variant variantOther noted notedOther taken other with
  | ind size ih =>
      subst size
      have noted_reverse : (note variantOther notedOther).reverse.length =
          (note variant noted).reverse.length := by
        rw [List.length_reverse, List.length_reverse, length_note blank counts]
      cases veiled with
      | nothing =>
          rw [readFrom_eq, readFrom_eq variantOther]
          exact ⟨⟨noted_reverse, rfl⟩, Atom.Veiled.nothing.abreast taken other⟩
      | @comment _ shaded length read later =>
          have goesOn : readFrom variant noted taken text =
              readFrom variant noted (taken + length) (text.drop length) := by
            rw [readFrom_eq, read]
          rw [goesOn,
            readFrom_blanks variantOther notedOther other fun c => Text.isBlank_of_mem_shade]
          obtain ⟨level, abreast⟩ := ih _ (Atom.length_drop_lt read) (blank.shade _) counts
            (taken + length) (other + (Text.shade (text.take length)).length) later rfl
          refine ⟨level, .onward length (Text.shade (text.take length)).length ?_⟩
          rwa [List.drop_left]
      | @literal _ written shaded length read again later =>
          rw [readFrom_eq, read, readFrom_eq variantOther, again]
          dsimp only
          rw [List.drop_left' (Atom.length_of_literal read)]
          obtain ⟨level, abreast⟩ := ih _ (Atom.length_drop_lt read)
            (blank.append written.reverse) counts (taken + length) (other + length) later rfl
          refine ⟨level, .onward length length ?_⟩
          rwa [List.drop_left' (Atom.length_of_literal read)]
      | @char c rest shaded read again later mark behind =>
          have shorter : ∀ count, (rest.drop count).length < (c :: rest).length := by
            intro count
            rw [List.length_drop, List.length_cons]
            omega
          by_cases brace : c = '\x7d'
          · subst brace
            rw [readFrom_brace variant noted taken read,
              readFrom_brace variantOther notedOther other again]
            exact ⟨⟨noted_reverse, rfl⟩, 1, 1, rfl, rfl, later⟩
          by_cases comma : c = ','
          · subst comma
            rw [readFrom_comma variant noted taken read,
              readFrom_comma variantOther notedOther other again]
            obtain ⟨level, abreast⟩ := ih _ (shorter 0) .nothing (length_note blank counts)
              (taken + 1) (other + 1) later rfl
            exact ⟨level, .onward 1 1 abreast⟩
          by_cases hash : c = '#'
          · subst hash
            have skips : Attribute.skipLength shaded = Attribute.skipLength rest := by
              unfold Attribute.skipLength
              rw [mark rfl]
            rw [readFrom_hash variant noted taken read,
              readFrom_hash variantOther notedOther other again, skips]
            obtain ⟨level, abreast⟩ := ih _ (shorter _) blank counts
              (taken + (1 + Attribute.skipLength rest)) (other + (1 + Attribute.skipLength rest))
              (behind rfl) rfl
            refine ⟨level, .onward (1 + Attribute.skipLength rest)
              (1 + Attribute.skipLength rest) ?_⟩
            rwa [Nat.add_comm 1, List.drop_succ_cons, List.drop_succ_cons, Nat.add_comm _ 1]
          rw [readFrom_char variant noted taken read brace comma hash,
            readFrom_char variantOther notedOther other again brace comma hash]
          rcases Delimiter.groupAfter?_veiled [.brace, .paren] c later with
            ⟨none, noneOther⟩ | ⟨group, groupOther, found, foundOther, beyond⟩
          · rw [none, noneOther]
            obtain ⟨level, abreast⟩ := ih _ (shorter 0) (blank.append [c]) counts (taken + 1)
              (other + 1) later rfl
            exact ⟨level, .onward 1 1 abreast⟩
          · rw [found, foundOther]
            obtain ⟨level, abreast⟩ := ih _ (shorter group)
              (.filled (Delimiter.isWhiteSpace_of_groupAfter? found) _ _ _ _) counts
              (taken + (1 + group)) (other + (1 + groupOther)) beyond rfl
            refine ⟨level, .onward (1 + group) (1 + groupOther) ?_⟩
            rwa [Nat.add_comm 1 group, Nat.add_comm 1 groupOther, List.drop_succ_cons,
              List.drop_succ_cons, Nat.add_comm group, Nat.add_comm groupOther]

theorem read_withoutComments (plain : Token.AllPlain text) (veiled : Token.AllVeiled text) :
    Level (read text) (read (Text.withoutComments text)) ∧
      (Text.withoutComments text).drop (read (Text.withoutComments text)).length =
        Text.withoutComments (text.drop (read text).length) := by
  obtain ⟨level, abreast⟩ :=
    readFrom_veiled .nothing (Eq.refl ([] : List (List Char)).length) 0 0 veiled.first
  exact ⟨level, abreast.of_start.unique (veiled _ (read_whole plain))⟩

end VariantList

/-! ### Looking ahead -/

namespace Trivia

/-- Behind trivia come neither blanks nor comments. -/
theorem length_drop (text : List Char) :
    blankLength (text.drop (length text)) = 0 ∧
      Comment.length? (text.drop (length text)) = none := by
  induction size : text.length using Nat.strongRecOn generalizing text with
  | ind size ih =>
      subst size
      cases commented : Comment.length? (text.drop (blankLength text)) with
      | none =>
          rw [length_of_none commented]
          exact ⟨blankLength_drop text, commented⟩
      | some comment =>
          have positive := Comment.length?_pos commented
          have shorter := Atom.length_drop_lt (Atom.read?_of_comment commented)
          rw [length_of_some commented, ← List.drop_drop]
          refine ih _ ?_ _ rfl
          simp only [List.length_drop] at shorter ⊢
          omega

end Trivia

namespace Text

variable {text : List Char}

/-- Where no comment comes first, none does without the comments. -/
theorem length?_withoutComments (noComment : Comment.length? text = none) :
    Comment.length? (withoutComments text) = none := by
  cases text with
  | nil => rw [withoutComments_nil, Comment.length?_nil]
  | cons c rest =>
      cases read : Token.read? (c :: rest) with
      | none =>
          rw [Token.read?_eq_none_iff] at read
          cases read
      | some pair =>
          obtain ⟨tag, length⟩ := pair
          have other : tag.isComment = false := by
            rw [Bool.eq_false_iff]
            intro comment
            rw [Token.length?_of_read? read comment] at noComment
            cases noComment
          have positive := (Token.read?_pos read).1
          obtain ⟨more, rfl⟩ := Nat.exists_eq_add_of_le' positive
          have shades := shaded_withoutComments ((c :: rest).drop (more + 1))
          have joined := shades.append (rest.take more)
          rw [List.drop_succ_cons, List.take_append_drop] at joined
          rw [withoutComments_of_other read other, List.take_succ_cons, List.cons_append]
          exact Comment.length?_of_shaded noComment joined

end Text

/-- Trivia end at the same place when their comments are blanks. -/
theorem Trivia.length_withoutComments (text : List Char) :
    (Text.withoutComments text).drop (length (Text.withoutComments text)) =
      Text.withoutComments (text.drop (length text)) := by
  obtain ⟨blanks, split, all⟩ := (length_run text).blanks
  obtain ⟨notBlank, noComment⟩ := length_drop text
  have noBlank : blankLength (Text.withoutComments (text.drop (length text))) = 0 := by
    rw [blankLength_eq_zero_iff] at notBlank ⊢
    rw [Text.head?_withoutComments noComment]
    exact notBlank
  have measured : blankLength (Text.withoutComments text) = blanks.length := by
    rw [split, blankLength_append all, noBlank, Nat.add_zero]
  have ends : length (Text.withoutComments text) = blanks.length := by
    rw [← measured]
    apply length_of_none
    rw [measured, split, List.drop_left]
    exact Text.length?_withoutComments noComment
  rw [ends, split, List.drop_left]

namespace Finding

variable {text : List Char}

theorem isPointerType_withoutComments (uncommented : Text.Uncommented text) :
    isPointerType (Text.withoutComments text) = isPointerType text := by
  obtain ⟨blanks, behind⟩ := uncommented.blanks
  unfold isPointerType
  rw [blanks, behind, Text.head?_withoutComments uncommented]

theorem uncommented_of_isPointerType (pointer : isPointerType text = true) :
    Text.Uncommented text := by
  obtain ⟨rest, split⟩ := List.head?_eq_some_iff.mp (eq_of_beq pointer)
  unfold Text.Uncommented
  rw [split]
  rfl

end Finding

/-! ### Macros -/

namespace Token

theorem read?_opener (kind : Delimiter) (rest : List Char) :
    ∃ tag, read? (kind.opener :: rest) = some (tag, 1) ∧ tag.isComment = false := by
  cases kind <;> exact ⟨_, rfl, rfl⟩

end Token

variable {text : List Char}

theorem macroGroupLength_withoutComments (plain : Token.AllPlain text)
    (veiled : Token.AllVeiled text) (noComment : Comment.length? text = none) :
    (Text.withoutComments text).drop (macroGroupLength (Text.withoutComments text)) =
      Text.withoutComments (text.drop (macroGroupLength text)) := by
  cases text with
  | nil =>
      rw [Text.withoutComments_nil]
      exact Text.withoutComments_nil.symm
  | cons c rest =>
      have first := Text.head?_withoutComments noComment
      rw [List.head?_cons] at first
      obtain ⟨shaded, shades⟩ := List.head?_eq_some_iff.mp first
      cases opens : (Delimiter.ofOpener? c).filter (· ∈ [.brace, .paren, .bracket]) with
      | none =>
          have none : ∀ inner, macroGroupLength (c :: inner) = 0 := by
            intro inner
            unfold macroGroupLength Delimiter.groupAfter?
            dsimp only
            rw [opens]
            rfl
          rw [shades, none, none, List.drop_zero, List.drop_zero, shades]
      | some kind =>
          have group : ∀ inner, macroGroupLength (c :: inner) = 1 + kind.closeLength inner := by
            intro inner
            unfold macroGroupLength Delimiter.groupAfter?
            dsimp only
            rw [opens]
            rfl
          obtain rfl := Delimiter.eq_opener_of_ofOpener? (Option.filter_eq_some_iff.mp opens).1
          obtain ⟨tag, read, other⟩ := Token.read?_opener kind rest
          have whole : Token.Whole (kind.opener :: rest) 1 := .single read trivial
          have inner := kind.closeLength_withoutComments (plain.drop whole) (veiled.drop whole)
          rw [List.drop_succ_cons, List.drop_zero] at inner
          rw [Text.withoutComments_of_other read other]
          change (kind.opener :: Text.withoutComments rest).drop
            (macroGroupLength (kind.opener :: Text.withoutComments rest)) = _
          rw [group, group, Nat.add_comm, Nat.add_comm 1, List.drop_succ_cons, List.drop_succ_cons]
          exact inner

/-- The name of a macro that is defined is whole tokens, and the same without the comments. -/
theorem macroNameLength_withoutComments (isDefinition : Bool)
    (noComment : Comment.length? text = none) (named : isDefinition = true → Token.Named text) :
    Token.Quiet text (macroNameLength isDefinition text) ∧
      macroNameLength isDefinition (Text.withoutComments text) = macroNameLength isDefinition text ∧
      Comment.length? (text.drop (macroNameLength isDefinition text)) = none := by
  have first := Text.head?_withoutComments noComment
  by_cases names : (isDefinition && text.head?.any Text.isWordStart) = true
  · obtain ⟨isTrue, starts⟩ := Bool.and_eq_true_iff.mp names
    obtain ⟨read, uncommented⟩ := named isTrue starts
    have word : Token.Quiet text (text.takeWhile Text.isWordPart).length := .single read rfl
    obtain ⟨blanks, behind⟩ := uncommented.blanks
    have same : (Text.withoutComments text).takeWhile Text.isWordPart =
        text.takeWhile Text.isWordPart :=
      ((Text.shaded_withoutComments text).takeWhile Text.isWordPart (by decide) (by decide)).1
    have quiet : Token.Quiet (text.drop (text.takeWhile Text.isWordPart).length)
        (Trivia.blankLength (text.drop (text.takeWhile Text.isWordPart).length)) := by
      apply (Trivia.blankLength_run _).mono
      rintro tag (rfl | rfl) <;> rfl
    rw [macroNameLength_of_named names]
    refine ⟨word.append quiet, ?_, ?_⟩
    · rw [macroNameLength_of_named (by rw [first]; exact names), same, word.drop_withoutComments,
        blanks]
    · rw [← List.drop_drop]
      exact uncommented
  · have none : macroNameLength isDefinition text = 0 := if_neg names
    have noneOther : macroNameLength isDefinition (Text.withoutComments text) = 0 :=
      if_neg (by rw [first]; exact names)
    rw [none, noneOther, List.drop_zero]
    exact ⟨.nothing text, rfl, noComment⟩

/-- A macro body is whole tokens, and ends at the same place without the comments. -/
theorem macroLength_withoutComments (isDefinition : Bool) (plain : Token.AllPlain text)
    (veiled : Token.AllVeiled text) (uncommented : Text.Uncommented text)
    (named : isDefinition = true → Token.Named (text.drop (Trivia.blankLength text))) :
    Token.Whole text (macroLength isDefinition text) ∧
      (Text.withoutComments text).drop (macroLength isDefinition (Text.withoutComments text)) =
        Text.withoutComments (text.drop (macroLength isDefinition text)) := by
  obtain ⟨blanks, behind⟩ := uncommented.blanks
  have atName : Token.Whole text (Trivia.blankLength text) := (Trivia.blankLength_run text).whole
  obtain ⟨name, same, noComment⟩ := macroNameLength_withoutComments isDefinition uncommented named
  have before := atName.append name.whole
  have plainGroup := (plain.drop atName).drop name.whole
  have group := macroGroupLength_withoutComments plainGroup ((veiled.drop atName).drop name.whole)
    noComment
  rw [macroLength_eq, macroLength_eq, blanks, behind, same]
  constructor
  · refine before.append ?_
    rw [← List.drop_drop]
    exact macroGroupLength_whole plainGroup
  · rw [name.drop_withoutComments, ← List.drop_drop, ← List.drop_drop, behind,
      name.drop_withoutComments, group, List.drop_drop, List.drop_drop, Nat.add_assoc]

/-! ### Cutting between tokens -/

namespace Token

/-- A run of whole tokens inside a longer run is a run of the same classes. -/
theorem Run.shorten {allowed : Tag → Prop} {text : List Char} {count less : Nat}
    (run : Run allowed text count) (whole : Whole text less) (shorter : less ≤ count) :
    Run allowed text less := by
  induction run generalizing less with
  | nothing text =>
      obtain rfl : less = 0 := by omega
      exact .nothing text
  | @onward text tag length more read isAllowed later ih =>
      cases whole with
      | nothing => exact .nothing text
      | @onward _ first size further readFirst _ behind =>
          rw [read] at readFirst
          cases readFirst
          exact .onward read isAllowed (ih behind (by omega))

/-- What is quiet in the text is quiet in the text cut between two tokens. -/
theorem Run.cut {allowed : Tag → Prop} {text : List Char} {count less limit : Nat}
    (run : Run allowed text count) (boundary : Whole text limit)
    (whole : Whole (text.take limit) less) (shorter : less ≤ count) :
    Run allowed (text.take limit) less := by
  have inside := whole.length_le
  rw [List.length_take] at inside
  exact (run.shorten (whole.of_take boundary) shorter).take (by omega)

end Token

theorem Text.Uncommented.of_append {text more : List Char}
    (uncommented : Uncommented (text ++ more)) : Uncommented text := by
  have bound : Trivia.blankLength text ≤ text.length :=
    (List.takeWhile_prefix (l := text) isBlank).length_le
  unfold Uncommented at *
  by_cases all : Trivia.blankLength text = text.length
  · rw [all, List.drop_length, Comment.length?_nil]
  · rw [Trivia.blankLength_of_lt (Nat.lt_of_le_of_ne bound all),
      List.drop_append_of_le_length bound] at uncommented
    exact Comment.length?_of_none uncommented

namespace Attribute

/-- An attribute that is cut off is an attribute of the whole text, and no shorter. -/
theorem read?_of_take {text : List Char} {limit : Nat} {mark : Attribute}
    (found : read? (text.take limit) = some mark) :
    ∃ full, read? text = some full ∧ mark.length ≤ full.length := by
  cases whole : read? text with
  | none =>
      rw [← List.take_append_drop limit text] at whole
      rw [read?_of_none whole] at found
      cases found
  | some full =>
      refine ⟨full, rfl, ?_⟩
      by_cases inside : full.length ≤ (text.take limit).length
      · rw [← List.take_append_drop limit text] at whole
        rw [read?_of_le whole inside] at found
        cases found
        exact Nat.le_refl _
      · have bound := (read?_run found).1.length_le
        omega

end Attribute

theorem Head.read_length_take (groups : List Delimiter) (text : List Char) (limit : Nat) :
    (read groups (text.take limit)).length ≤ (read groups text).length := by
  by_cases inside : (read groups text).length ≤ (text.take limit).length
  · have same : read groups (text.take limit) =
        read groups (text.take limit ++ text.drop limit) := by
      apply read_of_le
      rw [List.take_append_drop]
      exact inside
    rw [same, List.take_append_drop]
  · have bound := read_length_le groups (text.take limit)
    omega

namespace Token

theorem Quiet.of_blank {text : List Char} (blank : ∀ c ∈ text, Text.isBlank c = true) :
    Quiet text text.length := by
  have all : Trivia.blankLength text = text.length := by
    have measured := Trivia.blankLength_append blank []
    rwa [List.append_nil] at measured
  rw [← all]
  apply (Trivia.blankLength_run text).mono
  rintro tag (rfl | rfl) <;> rfl

theorem Named.take {text : List Char} {limit : Nat} (named : Named text)
    (boundary : Whole text limit) : Named (text.take limit) := by
  intro starts
  cases boundary with
  | nothing => cases starts
  | @onward _ tag size more readFirst _ later =>
      have positive := (read?_pos readFirst).1
      rw [List.head?_take, if_neg (by omega)] at starts
      obtain ⟨read, uncommented⟩ := named starts
      rw [read] at readFirst
      cases readFirst
      have bound := read?_length_le read
      have cut := Text.length_takeWhile_append Text.isWordPart
        (text.take ((text.takeWhile Text.isWordPart).length + more))
        (text.drop ((text.takeWhile Text.isWordPart).length + more))
      rw [List.take_append_drop, List.length_take] at cut
      -- The word ends before the cut, so that it is read in full.
      have same : ((text.take ((text.takeWhile Text.isWordPart).length + more)).takeWhile
          Text.isWordPart).length = (text.takeWhile Text.isWordPart).length := by
        omega
      rw [same]
      refine ⟨?_, ?_⟩
      · exact read?_take read (Nat.le_add_right _ _)
      · rw [List.drop_take, Nat.add_sub_cancel_left]
        rw [← List.take_append_drop more (text.drop _)] at uncommented
        exact uncommented.of_append

/-- What names a macro behind blanks names it in the text cut behind a token. -/
theorem Named.take_blanks {text : List Char} {limit : Nat}
    (named : Named (text.drop (Trivia.blankLength text))) (boundary : Whole text limit) :
    Named ((text.take limit).drop (Trivia.blankLength (text.take limit))) := by
  have bound := (Trivia.blankLength_run (text.take limit)).length_le
  by_cases all : Trivia.blankLength (text.take limit) = (text.take limit).length
  · rw [all, List.drop_length]
    intro starts
    cases starts
  · have same : Trivia.blankLength (text.take limit ++ text.drop limit) =
        Trivia.blankLength (text.take limit) :=
      Trivia.blankLength_of_lt (Nat.lt_of_le_of_ne bound all)
    rw [List.take_append_drop] at same
    rw [List.length_take] at bound
    rw [← same] at bound ⊢
    rw [List.drop_take]
    apply named.take
    apply (Trivia.blankLength_run text).whole.rest
    rw [Nat.add_sub_cancel' (by omega)]
    exact boundary

/-- The first character of a cut text is that of the text, and the cut falls behind it. -/
theorem eq_cons_of_head?_take {text : List Char} {limit : Nat} {c : Char}
    (first : (text.take limit).head? = some c) :
    ∃ rest more, text = c :: rest ∧ limit = more + 1 := by
  cases limit with
  | zero => cases first
  | succ more =>
      rw [List.head?_take, if_neg (Nat.succ_ne_zero more)] at first
      obtain ⟨rest, rfl⟩ := List.head?_eq_some_iff.mp first
      exact ⟨rest, more, rfl, rfl⟩

/-- A token of the cut text is one of the text, and the cut falls behind it. -/
theorem first_of_take {text : List Char} {limit length : Nat} {tag : Tag}
    (boundary : Whole text limit) (read : read? (text.take limit) = some (tag, length)) :
    read? text = some (tag, length) ∧ ∃ more, limit = length + more ∧
      Whole (text.drop length) more := by
  have full := Run.read?_of_take boundary read
  have bound := read?_length_le read
  rw [List.length_take] at bound
  obtain ⟨more, rfl⟩ := Nat.exists_eq_add_of_le (show length ≤ limit by omega)
  have word : Whole text length := .single full trivial
  exact ⟨full, more, rfl, word.rest boundary⟩

namespace Calm

variable {text : List Char} {limit : Nat}

theorem marks_take (calm : Calm text) {c : Char} (isMark : c = '#' ∨ c = '!')
    (first : (text.take limit).head? = some c) : Text.Uncommented (text.take limit).tail := by
  obtain ⟨rest, more, rfl, rfl⟩ := eq_cons_of_head?_take first
  have here : Text.Uncommented rest := by
    apply calm.marks
    rcases isMark with rfl | rfl
    · exact .inl rfl
    · exact .inr rfl
  rw [← List.take_append_drop more rest] at here
  exact here.of_append

theorem attributes_take (calm : Calm text) (plain : AllPlain text) (boundary : Whole text limit)
    (isHash : (text.take limit).head? = some '#') {mark : Attribute}
    (found : Attribute.read? (text.take limit).tail = some mark) :
    Quiet (text.take limit).tail mark.length := by
  obtain ⟨rest, more, rfl, rfl⟩ := eq_cons_of_head?_take isHash
  have sign : Whole ('#' :: rest) 1 := .single rfl trivial
  have behind : Whole rest more := by
    rw [Nat.add_comm] at boundary
    exact sign.rest boundary
  change Attribute.read? (rest.take more) = some mark at found
  obtain ⟨full, isFull, longer⟩ := Attribute.read?_of_take found
  exact (calm.attributes rfl full isFull).cut behind
    (Attribute.read?_whole ((plain.drop sign).take behind) found) longer

theorem heads_take (calm : Calm text) (plain : AllPlain text) (boundary : Whole text limit)
    {keyword : Keyword} {groups : List Delimiter} {length : Nat}
    (read : read? (text.take limit) = some (.word, length))
    (spelled : (text.take limit).take length = keyword.spelling)
    (declares : keyword.headGroups? = some groups)
    (notPointer : keyword = .function →
      Finding.isPointerType ((text.take limit).drop length) = false) :
    Quiet ((text.take limit).drop length)
      (Head.read groups ((text.take limit).drop length)).length := by
  obtain ⟨full, more, rfl, behind⟩ := first_of_take boundary read
  have word : Whole text length := .single full trivial
  rw [List.take_take, Nat.min_eq_left (Nat.le_add_right _ _)] at spelled
  rw [List.drop_take, Nat.add_sub_cancel_left] at notPointer ⊢
  have whole := Head.read_whole groups ((plain.drop word).take behind)
  by_cases pointer : keyword = .function ∧ Finding.isPointerType (text.drop length) = true
  · -- What told that this is a pointer is cut off, so that only blanks are left.
    obtain ⟨isFunction, isPointer⟩ := pointer
    rw [← List.take_append_drop more (text.drop length)] at isPointer
    rcases Finding.isPointerType_append isPointer with still | blank
    · rw [notPointer isFunction] at still
      cases still
    · exact (Quiet.of_blank blank).shorten whole (Head.read_length_le groups _)
  · refine (calm.heads keyword groups length full spelled declares ?_).cut behind whole
      (Head.read_length_take groups _ more)
    intro isFunction
    rw [Bool.eq_false_iff]
    exact fun isPointer => pointer ⟨isFunction, isPointer⟩

theorem definitions_take (calm : Calm text) (boundary : Whole text limit) {length trivia : Nat}
    {rest : List Char} (read : read? (text.take limit) = some (.word, length))
    (spelled : (text.take limit).take length = Keyword.macroRules.spelling)
    (run : TriviaRun ((text.take limit).drop length) trivia)
    (bang : (text.take limit).drop (length + trivia) = '!' :: rest) :
    Named (rest.drop (Trivia.blankLength rest)) := by
  obtain ⟨full, more, rfl, behind⟩ := first_of_take boundary read
  rw [List.take_take, Nat.min_eq_left (Nat.le_add_right _ _)] at spelled
  rw [← List.drop_drop] at bang
  rw [List.drop_take, Nat.add_sub_cancel_left] at run bang
  have runFull := run.of_take behind
  have inside := run.length_le
  rw [List.length_take] at inside
  obtain ⟨further, rfl⟩ := Nat.exists_eq_add_of_le (show trivia ≤ more by omega)
  have atBang := runFull.whole.rest behind
  rw [List.drop_take, Nat.add_sub_cancel_left] at bang
  have first : (((text.drop length).drop trivia).take further).head? = some '!' := by
    rw [bang]
    rfl
  obtain ⟨tail, beyond, split, rfl⟩ := eq_cons_of_head?_take first
  rw [split] at bang atBang
  rw [List.take_succ_cons, List.cons.injEq] at bang
  have sign : Whole ('!' :: tail) 1 := .single rfl trivial
  rw [Nat.add_comm] at atBang
  rw [List.drop_drop] at split
  rw [← bang.2]
  exact (calm.definitions length trivia tail full spelled runFull split).take_blanks
    (sign.rest atBang)

theorem take (calm : Calm text) (plain : AllPlain text) (boundary : Whole text limit) :
    Calm (text.take limit) where
  marks isMark := by
    rcases isMark with isHash | isBang
    · exact calm.marks_take (.inl rfl) isHash
    · exact calm.marks_take (.inr rfl) isBang
  attributes isHash _ found := calm.attributes_take plain boundary isHash found
  heads _ _ _ read spelled declares notPointer :=
    calm.heads_take plain boundary read spelled declares notPointer
  definitions _ _ _ read spelled run bang := calm.definitions_take boundary read spelled run bang

end Calm

theorem AllCalm.take {text : List Char} {limit : Nat} (calm : AllCalm text) (plain : AllPlain text)
    (boundary : Whole text limit) : AllCalm (text.take limit) := by
  intro count run
  have full := run.of_take boundary
  have bound := run.length_le
  rw [List.length_take] at bound
  obtain ⟨more, rfl⟩ := Nat.exists_eq_add_of_le (show count ≤ limit by omega)
  rw [List.drop_take, Nat.add_sub_cancel_left]
  exact (calm count full).take (plain.drop full) (full.rest boundary)

end Token
end Survey
