import Survey.Proofs.ClosingMarks
import Survey.Proofs.Sessions

set_option autoImplicit false

/-!
# Token by token to the end of the text

A session that is asked for the next token again and again answers the tokens of the text one
behind the other, then the token at the end of the text, and that one ever after. The tokens
lose nothing: each starts where the one before it ends, and joined they are the text. Asked
for significant tokens it answers the same ones without the trivia.
-/

namespace Survey

namespace Token

theorem punctuationTag_ne_endOfText (c : Char) : punctuationTag c ≠ .endOfText := by
  unfold punctuationTag
  split <;> first | decide | (split <;> decide)

/-- What is read is not the end of the text. -/
theorem tag_ne_endOfText {text : List Char} {tag : Tag} {length : Nat}
    (read : read? text = some (tag, length)) : tag ≠ .endOfText := by
  cases reading_of_read? read with
  | slash slashed =>
      rintro rfl
      rcases slash_eq slashed with ⟨-, trivia, -⟩ | ⟨-, isSlash, -⟩
      · cases trivia
      · cases isSlash
  | quote quotes =>
      obtain ⟨quote, -, rfl⟩ := quoted_eq quotes
      cases quote <;> decide
  | literal starts parts ends notRaw found =>
      rcases literalAfter?_tag found with rfl | rfl | rfl <;> decide
  | punctuation rest other notStart notDigit notBlank => exact punctuationTag_ne_endOfText _
  | newline | string | raw | word | number | blank => decide

/-- Is the token no trivia? -/
def isSignificant (token : Token) : Bool := !token.tag.isTrivia

theorem filter_isSignificant_of_trivia {trivia : List Token}
    (areTrivia : ∀ token ∈ trivia, token.tag.isTrivia = true) :
    trivia.filter isSignificant = [] := by
  rw [List.filter_eq_nil_iff]
  intro token member
  rw [isSignificant, areTrivia token member]
  exact Bool.false_ne_true

theorem byteLength_flatMap_lexeme (tokens : List Token) :
    Text.byteLength (tokens.flatMap lexeme) = (tokens.map length).sum := by
  induction tokens with
  | nil => rfl
  | cons token tokens ih =>
      rw [List.flatMap_cons, Text.byteLength_append, ih, List.map_cons, List.sum_cons]
      rfl

/-- The tokens, none of them empty, stand one behind the other all over the text, at true
places, and the last one at its end. -/
structure Cover (text : List Char) (tokens : List Token) (last : Token) : Prop where
  filled : ∀ token ∈ tokens, token.tag ≠ .endOfText ∧ 0 < token.length
  adjacent : ∀ before token after, tokens ++ [last] = before ++ token :: after →
    token.start.offset = (before.map length).sum ∧ token.start.IsTrueIn text
  joined : tokens.flatMap lexeme = text
  ends : last.tag = .endOfText ∧ last.length = 0 ∧ last.start.offset = Text.byteLength text

/-- A token of a cover is the slice of the text from its start on. -/
theorem Cover.slice {text : List Char} {tokens : List Token} {last token : Token}
    (cover : Cover text tokens last) (member : token ∈ tokens) :
    token.start.offset + token.length ≤ Text.byteLength text ∧
      Text.slice text token.start.offset (token.start.offset + token.length) = token.lexeme := by
  obtain ⟨before, after, rfl⟩ := List.append_of_mem member
  have start := (cover.adjacent before token (after ++ [last]) (by simp)).1
  rw [← byteLength_flatMap_lexeme] at start
  have whole : text = before.flatMap lexeme ++ (token.lexeme ++ after.flatMap lexeme) := by
    rw [← cover.joined, List.flatMap_append, List.flatMap_cons]
  have stop : token.start.offset + token.length =
      Text.byteLength (before.flatMap lexeme ++ token.lexeme) := by
    rw [start, Text.byteLength_append]
    rfl
  constructor
  · rw [stop, whole, ← List.append_assoc, Text.byteLength_append _ (after.flatMap lexeme)]
    exact Nat.le_add_right _ _
  · rw [stop, start, whole]
    exact Text.slice_append _ _ _

end Token

namespace Cursor

variable {cursor : Cursor}

/-- The first token starts at the cursor. It is the only one, or it is read there and the
others stand behind it. -/
theorem tokens_cons {first : Token} {later : List Token} (split : cursor.tokens = first :: later) :
    first.start = cursor.place ∧
      (later = [] ∨ ∃ length, Token.read? cursor.rest = some (first.tag, length) ∧
        first.lexeme = cursor.rest.take length ∧ later = (cursor.skip length).tokens) := by
  cases read : Token.read? cursor.rest with
  | none =>
      rw [tokens_of_end cursor read] at split
      obtain ⟨rfl, rfl⟩ := List.cons.inj split
      exact ⟨rfl, .inl rfl⟩
  | some pair =>
      rw [tokens_of_read cursor read] at split
      obtain ⟨rfl, rfl⟩ := List.cons.inj split
      exact ⟨rfl, .inr ⟨_, rfl, rfl, rfl⟩⟩

/-- A token starts behind the characters of the tokens before it. -/
theorem start_of_split {before after : List Token} {token : Token}
    (split : cursor.tokens = before ++ token :: after) :
    token.start = cursor.place.pastAll (before.flatMap Token.lexeme) := by
  induction before generalizing cursor with
  | nil => exact (tokens_cons split).1
  | cons first before ih =>
      rcases (tokens_cons split).2 with nothing | ⟨length, -, lexeme, later⟩
      · exact absurd nothing (by simp)
      · rw [ih later.symm, List.flatMap_cons, Position.pastAll_append, lexeme]
        rfl

theorem tag_of_mem_tokens {tokens : List Token} {last token : Token}
    (split : cursor.tokens = tokens ++ [last]) (member : token ∈ tokens) :
    token.tag ≠ .endOfText := by
  induction tokens generalizing cursor with
  | nil => cases member
  | cons first tokens ih =>
      rcases (tokens_cons split).2 with nothing | ⟨length, read, -, later⟩
      · exact absurd nothing (by simp)
      · rcases List.mem_cons.mp member with rfl | behind
        · exact Token.tag_ne_endOfText read
        · exact ih later.symm behind

/-- The tokens of a text cover it. -/
theorem tokens_cover (text : List Char) :
    ∃ tokens last, (ofText text).tokens = tokens ++ [last] ∧ Token.Cover text tokens last := by
  obtain ⟨tokens, split⟩ := (ofText text).exists_tokens_append
  have joined : tokens.flatMap Token.lexeme = text := by
    have all := (ofText text).flatMap_lexeme_tokens
    rw [split, List.flatMap_append] at all
    exact (List.append_nil _).symm.trans all
  refine ⟨tokens, _, split, ?_, ?_, joined, rfl, rfl, ofText_toEnd_offset text⟩
  · intro token member
    have tag := tag_of_mem_tokens split member
    have inside : token ∈ (ofText text).tokens := by
      rw [split]
      exact List.mem_append_left _ member
    exact ⟨tag, length_pos_of_mem_tokens inside tag⟩
  · intro before token after apart
    rw [← split] at apart
    have whole := (ofText text).flatMap_lexeme_tokens
    rw [apart, List.flatMap_append] at whole
    have start : token.start = .ofText (before.flatMap Token.lexeme) := start_of_split apart
    rw [start, Position.ofText_offset, Token.byteLength_flatMap_lexeme]
    refine ⟨rfl, ?_⟩
    have isTrue := Position.ofText_isTrueIn (before.flatMap Token.lexeme)
      ((token :: after).flatMap Token.lexeme)
    rwa [whole] at isTrue

theorem nextSignificant_toEnd (cursor : Cursor) :
    cursor.toEnd.nextSignificant = (.atEnd cursor.toEnd.place, cursor.toEnd) := by
  have nothing : cursor.toEnd.rest = [] := List.drop_length
  have ended : cursor.toEnd.significant? = none := by
    rw [significant?_eq, nothing]
    rfl
  have stays : cursor.toEnd.toEnd = cursor.toEnd := by
    rw [Cursor.toEnd, nothing]
    exact skip_zero _
  rw [nextSignificant, ended, stays]

/-- The significant tokens are the tokens without the trivia. -/
theorem significantTokens_eq_filter (cursor : Cursor) :
    cursor.significantTokens = cursor.tokens.filter Token.isSignificant := by
  fun_induction significantTokens cursor with
  | case1 cursor atEnd =>
      obtain ⟨trivia, split, areTrivia⟩ := cursor.tokens_of_run (run_of_significant?_none atEnd)
      have nothing : Token.read? (cursor.skip cursor.rest.length).rest = none := by
        rw [skip_rest, List.drop_length]
        rfl
      rw [split, List.filter_append, tokens_of_end _ nothing,
        Token.filter_isSignificant_of_trivia areTrivia]
      rfl
  | case2 cursor token length found ih =>
      obtain ⟨trivia, split, areTrivia⟩ := tokens_significant found
      obtain ⟨-, -, -, -, significant, -, -, -⟩ := significant?_eq_some found
      have kept : token.isSignificant = true := by
        rw [Token.isSignificant, significant]
        rfl
      rw [split, List.filter_append, Token.filter_isSignificant_of_trivia areTrivia, ih,
        List.filter_cons_of_pos kept]
      rfl

end Cursor

namespace Session

/-- The action answers the tokens one by one, and the last of them ever after. -/
inductive Delivers (action : Action) : Session → List Token → Prop
  | atEnd {session next : Session} {last : Token}
      (reached : session.run action = .ok (.token last, next))
      (stays : next.run action = .ok (.token last, next)) : Delivers action session [last]
  | onward {session next : Session} {token : Token} {tokens : List Token}
      (read : session.run action = .ok (.token token, next))
      (later : Delivers action next tokens) : Delivers action session (token :: tokens)

variable {text : List Char} {session : Session} {action : Action}

theorem runAll_replicate {last : Token} (stays : session.run action = .ok (.token last, session))
    (count : Nat) :
    session.runAll (List.replicate count action) =
      .ok (List.replicate count (.token last), session) := by
  induction count with
  | zero => rfl
  | succ count ih => exact runAll_cons stays ih

/-- Asked often enough, the session has answered all the tokens. -/
theorem Delivers.runAll {tokens : List Token} {last : Token}
    (delivers : Delivers action session (tokens ++ [last])) (more : Nat) :
    ∃ final, session.runAll (List.replicate (tokens.length + (1 + more)) action) =
      .ok ((tokens ++ List.replicate (1 + more) last).map .token, final) := by
  generalize all : tokens ++ [last] = listed at delivers
  induction delivers generalizing tokens with
  | @atEnd session next token reached stays =>
      obtain rfl : tokens = [] := by
        cases tokens with
        | nil => rfl
        | cons => simp at all
      cases all
      refine ⟨next, ?_⟩
      rw [List.length_nil, Nat.zero_add, Nat.add_comm, List.nil_append, List.map_replicate]
      exact runAll_cons reached (runAll_replicate stays more)
  | @onward session next token listed read later ih =>
      cases tokens with
      | nil =>
          obtain ⟨-, rfl⟩ := List.cons.inj all
          cases later
      | cons first tokens =>
          obtain ⟨rfl, behind⟩ := List.cons.inj all
          obtain ⟨final, answered⟩ := ih behind
          refine ⟨final, ?_⟩
          rw [List.length_cons, Nat.add_right_comm]
          exact runAll_cons read answered

theorem Sound.delivers_tokens (sound : session.Sound text)
    (small : Text.byteLength text ≤ 2 ^ 32 - 2) :
    Delivers .nextToken session session.cursor.tokens := by
  generalize here : session.cursor = cursor
  fun_induction Cursor.tokens cursor generalizing session with
  | case1 cursor ended =>
      subst here
      have stays : session.run .nextToken = .ok (.token (.atEnd session.cursor.place), session) := by
        have moves := sound.move_skip small (.token (.atEnd session.cursor.place)) 0
        rw [Cursor.skip_zero] at moves
        rw [Session.run, Cursor.nextToken_of_end ended]
        exact moves
      exact .atEnd stays stays
  | case2 cursor tag length read ih =>
      subst here
      refine .onward ?_ (ih (sound.skip length) rfl)
      rw [Session.run, Cursor.nextToken_of_read read]
      exact sound.move_skip small _ _

theorem Sound.delivers_significantTokens (sound : session.Sound text)
    (small : Text.byteLength text ≤ 2 ^ 32 - 2) :
    Delivers .nextSignificant session session.cursor.significantTokens := by
  generalize here : session.cursor = cursor
  fun_induction Cursor.significantTokens cursor generalizing session with
  | case1 cursor ended =>
      subst here
      have atEnd := (sound.skip session.cursor.rest.length).move_skip small
        (.token (.atEnd session.cursor.toEnd.place)) 0
      rw [Cursor.skip_zero] at atEnd
      have reached : session.run .nextSignificant =
          .ok (.token (.atEnd session.cursor.toEnd.place),
            { session with cursor := session.cursor.toEnd }) := by
        rw [Session.run, Cursor.nextSignificant, ended]
        exact sound.move_skip small _ _
      refine .atEnd reached ?_
      rw [Session.run, Cursor.nextSignificant_toEnd]
      exact atEnd
  | case2 cursor token length found ih =>
      subst here
      refine .onward ?_ (ih (sound.skip length) rfl)
      rw [Session.run, Cursor.nextSignificant, found]
      exact sound.move_skip small _ _

/-- A text of at most 2^32 - 2 bytes is read token by token to its end without a fault. The
tokens cover the text, each has the text that stands there, and at the end the token there is
answered again and again. Reading significant tokens answers the same without the trivia. -/
theorem nextToken_lossless (text : List Char) (small : Text.byteLength text ≤ 2 ^ 32 - 2) :
    ∃ tokens last, Token.Cover text tokens last ∧
      (∀ more, ∃ final,
        (start text).runAll (List.replicate (tokens.length + (1 + more)) .nextToken) =
          .ok ((tokens ++ List.replicate (1 + more) last).map .token, final)) ∧
      (∀ token ∈ tokens, ∀ session : Session, session.text = text →
        session.run (.tokenText token.start.offset token.length) =
          .ok (.text token.lexeme, session)) ∧
      ∀ more, ∃ final,
        (start text).runAll (List.replicate
            ((tokens.filter Token.isSignificant).length + (1 + more)) .nextSignificant) =
          .ok ((tokens.filter Token.isSignificant ++ List.replicate (1 + more) last).map .token,
            final) := by
  obtain ⟨tokens, last, split, cover⟩ := Cursor.tokens_cover text
  have sound := start_sound text
  have delivers : Delivers .nextToken (start text) (tokens ++ [last]) := by
    rw [← split]
    exact sound.delivers_tokens small
  have significant : Delivers .nextSignificant (start text)
      (tokens.filter Token.isSignificant ++ [last]) := by
    have kept : last.isSignificant = true := by
      rw [Token.isSignificant, cover.ends.1]
      rfl
    have all := (Cursor.ofText text).significantTokens_eq_filter
    rw [split, List.filter_append, List.filter_cons_of_pos kept, List.filter_nil] at all
    rw [← all]
    exact sound.delivers_significantTokens small
  refine ⟨tokens, last, cover, delivers.runAll, ?_, significant.runAll⟩
  intro token member session same
  obtain ⟨inside, sliced⟩ := cover.slice member
  have counted : token.start.offset + token.length < Counter.limit := by
    unfold Counter.limit
    omega
  rw [run, Counter.add_of_lt counted, same]
  change Except.ok (Reply.text (Text.slice text _ _), session) = _
  rw [sliced]

/-- A string with a wide character, a number with a point, and a comment that is not closed
behind a line feed. -/
theorem nextToken_lossless_unclosed :
    Text.byteLength "b\"é\" 1.5\n/*'".toList ≤ 2 ^ 32 - 2 ∧
      ∃ tokens last, Token.Cover "b\"é\" 1.5\n/*'".toList tokens last ∧
        ∀ more, ∃ final, (start "b\"é\" 1.5\n/*'".toList).runAll
            (List.replicate (tokens.length + (1 + more)) .nextToken) =
          .ok ((tokens ++ List.replicate (1 + more) last).map .token, final) := by
  have small : Text.byteLength "b\"é\" 1.5\n/*'".toList ≤ 2 ^ 32 - 2 := by
    decide
  obtain ⟨tokens, last, cover, answered, -, -⟩ := nextToken_lossless _ small
  exact ⟨small, tokens, last, cover, answered⟩

end Session
end Survey
