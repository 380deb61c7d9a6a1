import Survey.Proofs.TokenBoundaries
import Survey.Proofs.CommentsBehindTokens

set_option autoImplicit false

/-!
# Texts without their comments

Comments are written over with blanks: every byte of a comment becomes a space, and only
line feeds stay. A text goes over into one without comments token by token, so that it may
be cut between any two tokens. The significant tokens stay what they are, on their lines
and at their offsets; `Cursor.Blanked` says that two cursors stand at the same place of the
two texts.
-/

namespace Survey

/-- Is a token of the class a comment? -/
def Tag.isComment : Tag → Bool
  | .lineComment | .blockComment => true
  | _ => false

/-- A text written over with blanks: a space for every byte, except for line feeds. -/
def Text.shade (text : List Char) : List Char :=
  text.flatMap fun c => if c = '\n' then [c] else List.replicate c.utf8Size ' '

/-- The token as it is written, or written over if it is a comment. -/
def Token.blanked (token : Token) : List Char :=
  if token.tag.isComment then Text.shade token.lexeme else token.lexeme

/-- The text with all its comments written over. -/
def Text.withoutComments (text : List Char) : List Char :=
  (Cursor.ofText text).tokens.flatMap Token.blanked

namespace Text

theorem shade_cons (c : Char) (text : List Char) :
    shade (c :: text) =
      (if c = '\n' then [c] else List.replicate c.utf8Size ' ') ++ shade text := rfl

theorem eq_of_mem_shade {c : Char} {text : List Char} (member : c ∈ shade text) :
    c = ' ' ∨ c = '\n' := by
  obtain ⟨d, -, here⟩ := List.mem_flatMap.mp member
  split at here
  · rename_i feed
    rw [List.mem_singleton] at here
    exact .inr (here.trans feed)
  · exact .inl (List.eq_of_mem_replicate here)

theorem isBlank_of_mem_shade {c : Char} {text : List Char} (member : c ∈ shade text) :
    isBlank c = true := by
  rcases eq_of_mem_shade member with rfl | rfl <;> decide

/-- A comment is at least two blanks. -/
theorem shade_of_comment {text : List Char} {length : Nat}
    (commented : Comment.length? text = some length) :
    ∃ rest blanks, text = '/' :: rest ∧ shade (text.take length) = ' ' :: ' ' :: blanks := by
  obtain ⟨more, rfl⟩ := Nat.exists_eq_add_of_le' (Comment.two_le_length? commented)
  rcases Comment.length?_cases text with ⟨rest, rfl⟩ | ⟨rest, rfl⟩ | missing
  · exact ⟨_, shade (rest.take more), rfl, rfl⟩
  · exact ⟨_, shade (rest.take more), rfl, rfl⟩
  · rw [missing] at commented
    cases commented

end Text

/-! ### Token by token -/

namespace Token

theorem isComment_iff (tag : Tag) :
    tag.isComment = true ↔ tag.isTrivia = true ∧ tag ≠ .blank ∧ tag ≠ .newline := by
  cases tag <;> simp [Tag.isComment, Tag.isTrivia]

theorem isComment_of_significant {tag : Tag} (significant : tag.isTrivia = false) :
    tag.isComment = false := by
  rw [Bool.eq_false_iff]
  intro comment
  rw [((isComment_iff tag).mp comment).1] at significant
  cases significant

theorem read?_of_length? {text : List Char} {length : Nat}
    (commented : Comment.length? text = some length) :
    ∃ tag, read? text = some (tag, length) ∧ tag.isComment = true := by
  obtain ⟨rest, -, rfl, -⟩ := Text.shade_of_comment commented
  cases read : slash ('/' :: rest) with
  | mk tag size =>
      rcases slash_eq read with ⟨found, isComment⟩ | ⟨missing, -⟩
      · rw [commented] at found
        cases found
        exact ⟨tag, (Reading.slash read).read?, (isComment_iff tag).mpr isComment⟩
      · rw [missing] at commented
        cases commented

theorem punctuationTag_isComment (c : Char) : (punctuationTag c).isComment = false := by
  unfold punctuationTag
  split <;> first | rfl | (split <;> rfl)

theorem length?_of_read? {text : List Char} {tag : Tag} {length : Nat}
    (read : read? text = some (tag, length)) (comment : tag.isComment = true) :
    Comment.length? text = some length := by
  cases reading_of_read? read with
  | slash slashed =>
      rcases slash_eq slashed with ⟨commented, -⟩ | ⟨-, rfl, -⟩
      · exact commented
      · cases comment
  | quote quotes =>
      obtain ⟨quote, -, rfl⟩ := quoted_eq quotes
      cases quote <;> cases comment
  | literal starts parts ends notRaw found =>
      rcases literalAfter?_tag found with rfl | rfl | rfl <;> cases comment
  | punctuation rest other notStart notDigit notBlank =>
      rw [punctuationTag_isComment] at comment
      cases comment
  | newline | string | raw | word | number | blank => cases comment

end Token

theorem Cursor.flatMap_blanked_tokens (cursor : Cursor) :
    cursor.tokens.flatMap Token.blanked = Text.withoutComments cursor.rest := by
  induction size : cursor.rest.length using Nat.strongRecOn generalizing cursor with
  | ind size ih =>
      subst size
      unfold Text.withoutComments
      cases read : Token.read? cursor.rest with
      | none =>
          rw [tokens_of_end cursor read, tokens_of_end (.ofText cursor.rest) read]
          rfl
      | some pair =>
          obtain ⟨tag, length⟩ := pair
          have shorter := Token.length_drop_lt read
          rw [tokens_of_read cursor read, tokens_of_read (.ofText cursor.rest) read,
            List.flatMap_cons, List.flatMap_cons, ih _ shorter (cursor.skip length) rfl,
            ih _ shorter ((Cursor.ofText cursor.rest).skip length) rfl]
          rfl

namespace Text

@[simp] theorem withoutComments_nil : withoutComments [] = [] := by
  unfold withoutComments
  rw [Cursor.tokens_of_end (.ofText []) rfl]
  rfl

theorem withoutComments_of_read {text : List Char} {tag : Tag} {length : Nat}
    (read : Token.read? text = some (tag, length)) :
    withoutComments text =
      (if tag.isComment then shade (text.take length) else text.take length) ++
        withoutComments (text.drop length) := by
  have first := Cursor.tokens_of_read (.ofText text) read
  have later := Cursor.flatMap_blanked_tokens ((Cursor.ofText text).skip length)
  conv => lhs; unfold withoutComments
  rw [first, List.flatMap_cons, later]
  rfl

theorem withoutComments_of_comment {text : List Char} {length : Nat}
    (commented : Comment.length? text = some length) :
    withoutComments text = shade (text.take length) ++ withoutComments (text.drop length) := by
  obtain ⟨tag, read, comment⟩ := Token.read?_of_length? commented
  rw [withoutComments_of_read read, if_pos comment]

theorem withoutComments_of_other {text : List Char} {tag : Tag} {length : Nat}
    (read : Token.read? text = some (tag, length)) (other : tag.isComment = false) :
    withoutComments text = text.take length ++ withoutComments (text.drop length) := by
  rw [withoutComments_of_read read, if_neg (by rw [other]; exact Bool.false_ne_true)]

/-- The text without its comments is the text as far as the first of them. -/
theorem shaded_withoutComments (text : List Char) : Shaded text (withoutComments text) := by
  induction size : text.length using Nat.strongRecOn generalizing text with
  | ind size ih =>
      subst size
      cases read : Token.read? text with
      | none =>
          rw [Token.read?_eq_none_iff] at read
          rw [read, withoutComments_nil]
          exact .same []
      | some pair =>
          obtain ⟨tag, length⟩ := pair
          by_cases comment : tag.isComment = true
          · have commented := Token.length?_of_read? read comment
            rw [withoutComments_of_comment commented]
            obtain ⟨rest, blanks, rfl, shades⟩ := shade_of_comment commented
            rw [shades]
            exact .comment rest _
          · have later := ih _ (Token.length_drop_lt read) (text.drop length) rfl
            rw [withoutComments_of_other read (Bool.eq_false_iff.mpr comment)]
            exact later.append_take

theorem withoutComments_append {text : List Char} {count : Nat} (whole : Token.Whole text count) :
    withoutComments text =
      withoutComments (text.take count) ++ withoutComments (text.drop count) := by
  induction whole with
  | nothing text => rw [List.take_zero, withoutComments_nil, List.drop_zero, List.nil_append]
  | @onward text tag length more read isAllowed later ih =>
      have cut := Token.read?_take read (Nat.le_add_right length more)
      rw [withoutComments_of_read read, withoutComments_of_read cut, ih, List.drop_take,
        Nat.add_sub_cancel_left, List.take_take, Nat.min_eq_left (Nat.le_add_right _ _),
        List.drop_drop, List.append_assoc]

end Text

namespace Token

/-- The first characters of the text are whole tokens, none of which is a comment. -/
abbrev Quiet : List Char → Nat → Prop := Run fun tag => tag.isComment = false

theorem Run.withoutComments {text : List Char} {count : Nat} (quiet : Quiet text count) :
    Text.withoutComments text = text.take count ++ Text.withoutComments (text.drop count) := by
  induction quiet with
  | nothing text => rw [List.take_zero, List.drop_zero, List.nil_append]
  | onward read other later ih =>
      rw [Text.withoutComments_of_other read other, ih, List.drop_drop, List.take_add,
        List.append_assoc]

theorem Run.take_withoutComments {text : List Char} {count : Nat} (quiet : Quiet text count) :
    (Text.withoutComments text).take count = text.take count := by
  rw [quiet.withoutComments, List.take_left' (List.length_take_of_le quiet.length_le)]

theorem Run.drop_withoutComments {text : List Char} {count : Nat} (quiet : Quiet text count) :
    (Text.withoutComments text).drop count = Text.withoutComments (text.drop count) := by
  rw [quiet.withoutComments, List.drop_left' (List.length_take_of_le quiet.length_le)]

theorem isBlank_of_read? {text : List Char} {tag : Tag} {length : Nat}
    (read : read? text = some (tag, length)) (isBlank : tag = .blank ∨ tag = .newline) :
    ∀ c ∈ text.take length, Text.isBlank c = true := by
  cases reading_of_read? read with
  | newline rest =>
      intro c member
      rw [List.take_succ_cons, List.take_zero, List.mem_singleton] at member
      subst member
      decide
  | @blank d rest inLine blank =>
      have taken : (d :: rest).take
          (1 + (rest.takeWhile fun c => c != '\n' && Text.isBlank c).length) =
            d :: rest.takeWhile fun c => c != '\n' && Text.isBlank c := by
        rw [Nat.add_comm, List.take_succ_cons,
          ← List.prefix_iff_eq_take.mp (List.takeWhile_prefix _)]
      rw [taken, List.forall_mem_cons]
      refine ⟨blank, ?_⟩
      intro c member
      have kept := List.all_eq_true.mp List.all_takeWhile c member
      exact (Bool.and_eq_true_iff.mp kept).2
  | slash slashed =>
      rcases slash_eq slashed with ⟨-, -, notBlank, notNewline⟩ | ⟨-, rfl, -⟩
      · exact absurd isBlank (not_or.mpr ⟨notBlank, notNewline⟩)
      · rcases isBlank with isBlank | isBlank <;> cases isBlank
  | quote quotes =>
      obtain ⟨quote, -, rfl⟩ := quoted_eq quotes
      cases quote <;> rcases isBlank with isBlank | isBlank <;> cases isBlank
  | literal starts parts ends notRaw found =>
      rcases literalAfter?_tag found with rfl | rfl | rfl <;>
        rcases isBlank with isBlank | isBlank <;> cases isBlank
  | @punctuation d rest other notStart notDigit notBlank =>
      exfalso
      revert isBlank
      unfold punctuationTag
      split <;> first | decide | (split <;> decide)
  | string | raw | word | number => rcases isBlank with isBlank | isBlank <;> cases isBlank

/-- Trivia leave nothing but blanks. -/
theorem Run.blanks {text : List Char} {count : Nat} (trivia : TriviaRun text count) :
    ∃ blanks, Text.withoutComments text = blanks ++ Text.withoutComments (text.drop count) ∧
      ∀ c ∈ blanks, Text.isBlank c = true := by
  induction trivia with
  | nothing text => exact ⟨[], rfl, nofun⟩
  | @onward text tag length more read isTrivia later ih =>
      obtain ⟨blanks, split, all⟩ := ih
      refine ⟨(if tag.isComment then Text.shade (text.take length) else text.take length) ++ blanks,
        ?_, ?_⟩
      · rw [Text.withoutComments_of_read read, split, List.drop_drop, ← List.append_assoc]
      · intro c member
        rcases List.mem_append.mp member with first | behind
        · split at first
          · exact Text.isBlank_of_mem_shade first
          · rename_i other
            refine isBlank_of_read? read ?_ c first
            by_contra neither
            rw [not_or] at neither
            exact other ((isComment_iff tag).mpr ⟨isTrivia, neither⟩)
        · exact all c behind

/-- A token that means something is also there without the comments. -/
theorem read?_withoutComments {text : List Char} {tag : Tag} {length : Nat}
    (read : read? text = some (tag, length)) (significant : tag.isTrivia = false) :
    read? (Text.withoutComments text) = some (tag, length) := by
  rw [Text.withoutComments_of_other read (isComment_of_significant significant)]
  exact read?_shaded read significant (Text.shaded_withoutComments _)

end Token

theorem Trivia.blankLength_of_significant {text : List Char} {tag : Tag} {length : Nat}
    (read : Token.read? text = some (tag, length)) (significant : tag.isTrivia = false) :
    blankLength text = 0 := by
  cases text with
  | nil => rfl
  | cons c rest =>
      have notBlank : ¬ Text.isBlank c = true := by
        intro blank
        have trivia := Token.isTrivia_of_blank read (by rintro d ⟨⟩; exact blank)
        rw [trivia] at significant
        cases significant
      unfold blankLength
      rw [List.takeWhile_cons_of_neg notBlank]
      rfl

/-! ### Places -/

namespace Text

theorem length_le_shade (text : List Char) : text.length ≤ (shade text).length := by
  induction text with
  | nil => exact Nat.le_refl 0
  | cons c text ih =>
      have size := Char.utf8Size_pos c
      rw [shade_cons, List.length_append, List.length_cons]
      split
      · rw [List.length_singleton]
        omega
      · rw [List.length_replicate]
        omega

/-- Writing comments over never makes a text shorter. -/
theorem length_le_withoutComments (text : List Char) :
    text.length ≤ (withoutComments text).length := by
  induction size : text.length using Nat.strongRecOn generalizing text with
  | ind size ih =>
      subst size
      cases read : Token.read? text with
      | none =>
          rw [Token.read?_eq_none_iff] at read
          rw [read]
          exact Nat.zero_le _
      | some pair =>
          obtain ⟨tag, length⟩ := pair
          have later := ih _ (Token.length_drop_lt read) (text.drop length) rfl
          have first := length_le_shade (text.take length)
          have sum := congrArg List.length (List.take_append_drop length text)
          rw [List.length_append] at sum
          rw [withoutComments_of_read read, List.length_append]
          split <;> omega

/-- If writing comments over leaves the length as it is, it does so on both sides of a
place between two tokens. -/
theorem withoutComments_length_split {text : List Char} {count : Nat}
    (whole : Token.Whole text count) (narrow : (withoutComments text).length = text.length) :
    (withoutComments (text.take count)).length = (text.take count).length ∧
      (withoutComments (text.drop count)).length = (text.drop count).length := by
  have before := length_le_withoutComments (text.take count)
  have behind := length_le_withoutComments (text.drop count)
  have sum := congrArg List.length (List.take_append_drop count text)
  rw [withoutComments_append whole, List.length_append] at narrow
  rw [List.length_append] at sum
  omega

end Text

/-- The places have the same line and offset, and the same column if columns count. -/
structure Position.Level (columns : Bool) (place other : Position) : Prop where
  line : other.line = place.line
  offset : other.offset = place.offset
  column : columns = true → other.column = place.column

namespace Position

variable {columns : Bool} {place other : Position}

theorem pastAll_spaces (place : Position) (count : Nat) :
    place.pastAll (List.replicate count ' ') =
      ⟨place.line, place.column + count, place.offset + count⟩ := by
  induction count generalizing place with
  | zero => rfl
  | succ count ih =>
      rw [List.replicate_succ, pastAll_cons, ih, past_of_ne place (by decide)]
      have size : (' ' : Char).utf8Size = 1 := by decide
      simp only [size, mk.injEq, true_and]
      omega

namespace Level

theorem refl (columns : Bool) (place : Position) : Level columns place place :=
  ⟨rfl, rfl, fun _ => rfl⟩

theorem past (level : Level columns place other) (c : Char) :
    Level columns (place.past c) (other.past c) := by
  obtain ⟨line, offset, column⟩ := level
  by_cases feed : c = '\n'
  · subst feed
    exact ⟨congrArg (· + 1) line, congrArg (· + _) offset, fun _ => rfl⟩
  · rw [past_of_ne place feed, past_of_ne other feed]
    exact ⟨line, congrArg (· + _) offset, fun counts => congrArg (· + 1) (column counts)⟩

theorem pastAll (level : Level columns place other) (text : List Char) :
    Level columns (place.pastAll text) (other.pastAll text) := by
  induction text generalizing place other with
  | nil => exact level
  | cons c text ih => exact ih (level.past c)

theorem shade (level : Level columns place other) {text : List Char}
    (narrow : columns = true → (Text.shade text).length = text.length) :
    Level columns (place.pastAll text) (other.pastAll (Text.shade text)) := by
  induction text generalizing place other with
  | nil => exact level
  | cons c text ih =>
      have later := Text.length_le_shade text
      rw [Text.shade_cons, pastAll_append, pastAll_cons]
      by_cases feed : c = '\n'
      · rw [if_pos feed]
        refine ih (level.past c) ?_
        intro counts
        have length := narrow counts
        rw [Text.shade_cons, if_pos feed, List.length_append, List.length_singleton,
          List.length_cons] at length
        omega
      · have size := Char.utf8Size_pos c
        have narrows : columns = true →
            c.utf8Size = 1 ∧ (Text.shade text).length = text.length := by
          intro counts
          have length := narrow counts
          rw [Text.shade_cons, if_neg feed, List.length_append, List.length_replicate,
            List.length_cons] at length
          omega
        rw [if_neg feed]
        refine ih ?_ (fun counts => (narrows counts).2)
        rw [pastAll_spaces, past_of_ne place feed]
        refine ⟨level.line, congrArg (· + _) level.offset, ?_⟩
        intro counts
        dsimp only
        rw [(narrows counts).1, level.column counts]

/-- The same places are passed on the way over a text and over the text without its
comments. -/
theorem withoutComments (level : Level columns place other) {text : List Char}
    (narrow : columns = true → (Text.withoutComments text).length = text.length) :
    Level columns (place.pastAll text) (other.pastAll (Text.withoutComments text)) := by
  induction size : text.length using Nat.strongRecOn generalizing text place other with
  | ind size ih =>
      subst size
      cases read : Token.read? text with
      | none =>
          rw [Token.read?_eq_none_iff] at read
          subst read
          rw [Text.withoutComments_nil]
          exact level
      | some pair =>
          obtain ⟨tag, length⟩ := pair
          have whole : Token.Whole text length := .single read trivial
          have narrowBehind : columns = true →
              (Text.withoutComments (text.drop length)).length = (text.drop length).length :=
            fun counts => (Text.withoutComments_length_split whole (narrow counts)).2
          have parts := congrArg place.pastAll (List.take_append_drop length text)
          rw [pastAll_append] at parts
          rw [← parts]
          by_cases comment : tag.isComment = true
          · have shades := Text.withoutComments_of_comment (Token.length?_of_read? read comment)
            rw [shades, pastAll_append]
            refine ih _ (Token.length_drop_lt read) (level.shade ?_) narrowBehind rfl
            intro counts
            have sum := congrArg List.length (List.take_append_drop length text)
            have total := narrow counts
            rw [shades, List.length_append, narrowBehind counts] at total
            rw [List.length_append] at sum
            omega
          · rw [Text.withoutComments_of_other read (Bool.eq_false_iff.mpr comment), pastAll_append]
            exact ih _ (Token.length_drop_lt read) (level.pastAll _) narrowBehind rfl

end Level
end Position

/-! ### Cursors -/

/-- The other cursor stands where the cursor stands, in the text without the comments. -/
structure Cursor.Blanked (columns : Bool) (cursor other : Cursor) : Prop where
  rest : other.rest = Text.withoutComments cursor.rest
  place : cursor.place.Level columns other.place
  narrow : columns = true → other.rest.length = cursor.rest.length

namespace Cursor

theorem significant?_of_run {cursor : Cursor} {trivia size : Nat} {tag : Tag}
    (run : Token.TriviaRun cursor.rest trivia)
    (read : Token.read? (cursor.rest.drop trivia) = some (tag, size))
    (significant : tag.isTrivia = false) :
    cursor.significant? = some (⟨tag, (cursor.skip trivia).place,
      (cursor.rest.drop trivia).take size⟩, trivia + size) := by
  generalize behind : cursor.rest = text at run
  induction run generalizing cursor with
  | nothing text =>
      subst behind
      rw [List.drop_zero] at read
      rw [significant?_eq, read]
      simp only [significant, Bool.false_eq_true, if_false, skip_zero, List.drop_zero, Nat.zero_add]
  | @onward text first length more readFirst isTrivia later ih =>
      subst behind
      rw [← List.drop_drop] at read
      have next := @ih (cursor.skip length) read rfl
      rw [significant?_eq, readFirst]
      simp only [isTrivia, if_true, next, Option.map_some, skip_skip, List.drop_drop,
        Nat.add_assoc]

theorem run_of_significant?_none {cursor : Cursor} (atEnd : cursor.significant? = none) :
    Token.TriviaRun cursor.rest cursor.rest.length := by
  fun_induction significant? cursor with
  | case1 cursor ended =>
      rw [Token.read?_eq_none_iff] at ended
      rw [ended]
      exact .nothing []
  | case2 cursor tag length read isTrivia ih =>
      have bound := Token.read?_length_le read
      have later := ih (Option.map_eq_none_iff.mp atEnd)
      rw [skip_rest, List.length_drop] at later
      rw [show cursor.rest.length = length + (cursor.rest.length - length) by omega]
      exact .onward read isTrivia later
  | case3 cursor tag length read isSignificant => cases atEnd

namespace Blanked

variable {columns : Bool} {cursor other : Cursor}

theorem start (columns : Bool) {text : List Char}
    (narrow : columns = true → (Text.withoutComments text).length = text.length) :
    Blanked columns (.ofText text) (.ofText (Text.withoutComments text)) :=
  ⟨rfl, .refl columns _, narrow⟩

theorem take_rest (blanked : Blanked columns cursor other) {count more : Nat}
    (whole : Token.Whole cursor.rest count)
    (behind : other.rest.drop more = Text.withoutComments (cursor.rest.drop count)) :
    other.rest.take more = Text.withoutComments (cursor.rest.take count) := by
  have parts := List.take_append_drop more other.rest
  rw [behind, blanked.rest, Text.withoutComments_append whole] at parts
  rw [blanked.rest, Text.withoutComments_append whole]
  exact List.append_cancel_right parts

theorem skip (blanked : Blanked columns cursor other) {count more : Nat}
    (whole : Token.Whole cursor.rest count)
    (behind : other.rest.drop more = Text.withoutComments (cursor.rest.drop count)) :
    Blanked columns (cursor.skip count) (other.skip more) := by
  have taken := blanked.take_rest whole behind
  have split : columns = true → _ := fun counts =>
    Text.withoutComments_length_split whole (blanked.rest ▸ blanked.narrow counts)
  refine ⟨behind, ?_, ?_⟩
  · unfold Cursor.skip
    dsimp only
    rw [taken]
    exact blanked.place.withoutComments fun counts => (split counts).1
  · intro counts
    rw [skip_rest, skip_rest, behind]
    exact (split counts).2

theorem window (blanked : Blanked columns cursor other) {count more : Nat}
    (whole : Token.Whole cursor.rest count)
    (behind : other.rest.drop more = Text.withoutComments (cursor.rest.drop count)) :
    Blanked columns (cursor.window count) (other.window more) := by
  have taken := blanked.take_rest whole behind
  refine ⟨taken, blanked.place, ?_⟩
  intro counts
  change (other.rest.take more).length = (cursor.rest.take count).length
  rw [taken]
  exact (Text.withoutComments_length_split whole (blanked.rest ▸ blanked.narrow counts)).1

theorem significant_none (blanked : Blanked columns cursor other)
    (atEnd : cursor.significant? = none) : other.significant? = none := by
  obtain ⟨blanks, split, all⟩ := (run_of_significant?_none atEnd).blanks
  rw [List.drop_length, Text.withoutComments_nil, List.append_nil, ← blanked.rest] at split
  exact significant?_of_blank (split ▸ all)

/-- A token that means something is found again without the comments. -/
theorem significant (blanked : Blanked columns cursor other) {token : Token} {length : Nat}
    (next : cursor.significant? = some (token, length)) :
    ∃ start more, other.significant? = some (⟨token.tag, start, token.lexeme⟩, more) ∧
      token.start.Level columns start ∧
      Blanked columns (cursor.skip length) (other.skip more) := by
  obtain ⟨trivia, size, run, read, meant, rfl, start, lexeme⟩ := significant?_eq_some next
  obtain ⟨blanks, split, all⟩ := Token.Run.blanks run
  have again := Token.read?_withoutComments read meant
  have quiet : Token.Quiet (cursor.rest.drop trivia) size :=
    .single read (Token.isComment_of_significant meant)
  rw [← blanked.rest] at split
  have behind : other.rest.drop blanks.length = Text.withoutComments (cursor.rest.drop trivia) := by
    rw [split, List.drop_left]
  -- The blanks end where the token starts, since the token is not blank.
  have blankRun : Token.TriviaRun other.rest blanks.length := by
    have ends := Trivia.blankLength_of_significant again meant
    have run := Trivia.blankLength_run other.rest
    rw [split, Trivia.blankLength_append all, ends, Nat.add_zero, ← split] at run
    apply run.mono
    rintro tag (rfl | rfl) <;> rfl
  have here := blanked.skip run.whole behind
  refine ⟨(other.skip blanks.length).place, blanks.length + size, ?_, ?_, ?_⟩
  · rw [← behind] at again
    rw [significant?_of_run blankRun again meant, behind, quiet.take_withoutComments, ← lexeme]
  · rw [start]
    exact here.place
  · rw [← skip_skip, ← skip_skip]
    refine here.skip (.single read trivial) ?_
    rw [skip_rest, behind, quiet.drop_withoutComments]
    rfl

end Blanked
end Cursor
end Survey
