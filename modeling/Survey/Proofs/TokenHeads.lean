import Survey.Proofs.BracketBalance
import Survey.Proofs.ClosingMarks

set_option autoImplicit false

/-!
# Groups and heads as tokens

Where a group closes and where the head of a declaration ends is said here of lists of tokens,
by their classes alone. The readers of groups and of heads work on the characters of a file.
In a text whose tokens read the same in pieces they stop where the tokens say.
-/

namespace Survey

namespace Delimiter

/-- The class of the token that opens a group. -/
def openTag : Delimiter → Tag
  | .paren => .openParen
  | .bracket => .openBracket
  | .brace => .openBrace
  | .angle => .less

/-- The class of the token that closes a group. -/
def closeTag : Delimiter → Tag
  | .paren => .closeParen
  | .bracket => .closeBracket
  | .brace => .closeBrace
  | .angle => .greater

/-- In a group only the delimiters of its own kind count. -/
def brackets (kind : Delimiter) : Brackets Token where
  opens token := token.tag == kind.openTag
  closes token := token.tag == kind.closeTag
  isShaft token := token.tag == .minus || token.tag == .equal
  isTip token := token.tag == .greater

/-- Behind an opener stand its group, closer included, and the rest. A group that is never
closed takes all tokens. -/
def Group (kind : Delimiter) (group rest : List Token) : Prop :=
  kind.brackets.Closes group ∨ kind.brackets.StaysOpen group ∧ rest = []

end Delimiter

/-- Behind the keyword of a declaration stand its head, what ends it, and the rest. Of the head
neither comments nor groups of the chosen kinds are kept. -/
inductive IsHead (groups : List Delimiter) :
    List Token → List Token → List Token → List Token → Prop
  | endOfText : IsHead groups [] [] [] []
  | ending {token : Token} (ends : token.tag = .semicolon ∨ token.tag = .openBrace)
      (rest : List Token) : IsHead groups [] [] [token] rest
  | comment {token : Token} {head kept ending rest : List Token}
      (isComment : token.tag.isComment = true) (later : IsHead groups head kept ending rest) :
      IsHead groups (token :: head) kept ending rest
  | group {token : Token} {kind : Delimiter} {group head kept ending rest : List Token}
      (member : kind ∈ groups) (opens : token.tag = kind.openTag)
      (isGroup : kind.Group group (head ++ (ending ++ rest)))
      (later : IsHead groups head kept ending rest) :
      IsHead groups (token :: (group ++ head)) kept ending rest
  | kept {token : Token} {head kept ending rest : List Token}
      (notComment : token.tag.isComment = false)
      (goesOn : token.tag ≠ .semicolon ∧ token.tag ≠ .openBrace)
      (opensNone : ∀ kind ∈ groups, token.tag ≠ kind.openTag)
      (later : IsHead groups head kept ending rest) :
      IsHead groups (token :: head) (token :: kept) ending rest

/-- Behind a head that a brace ends stands a body, and behind any other none. -/
inductive IsBody : List Token → List Token → List Token → Prop
  | group {brace : Token} {body rest : List Token} (opens : brace.tag = .openBrace)
      (isGroup : Delimiter.brace.Group body rest) : IsBody [brace] body rest
  | nothing {ending : List Token} (noBrace : ∀ token ∈ ending, token.tag ≠ .openBrace)
      (rest : List Token) : IsBody ending [] rest

/-- Behind the keyword of a declaration stand its head, what ends it, its body with the brace that
closes it, and the rest. -/
structure IsDeclaration (groups : List Delimiter)
    (text head kept ending body rest : List Token) : Prop where
  split : text = head ++ (ending ++ (body ++ rest))
  isHead : IsHead groups head kept ending (body ++ rest)
  isBody : IsBody ending body rest

/-! ### One way to read a declaration -/

theorem Delimiter.Group.unique {kind : Delimiter} {group rest other left : List Token}
    (isGroup : kind.Group group rest) (another : kind.Group other left)
    (same : group ++ rest = other ++ left) : group = other ∧ rest = left := by
  rcases isGroup with closes | ⟨staysOpen, rfl⟩
  · rcases another with closesOther | ⟨staysOpen, rfl⟩
    · exact closes.unique closesOther same
    · rw [List.append_nil] at same
      rw [← same] at staysOpen
      exact absurd staysOpen (closes.not_staysOpen rest)
  · rw [List.append_nil] at same
    rcases another with closesOther | ⟨-, rfl⟩
    · rw [same] at staysOpen
      exact absurd staysOpen (closesOther.not_staysOpen left)
    · rw [List.append_nil] at same
      exact ⟨same, rfl⟩

namespace Delimiter

theorem openTag_inj {kind other : Delimiter} (same : kind.openTag = other.openTag) :
    kind = other := by
  cases kind <;> cases other <;> first | rfl | cases same

theorem openTag_isComment (kind : Delimiter) : kind.openTag.isComment = false := by
  cases kind <;> rfl

theorem openTag_ne_semicolon (kind : Delimiter) : kind.openTag ≠ .semicolon := by
  cases kind <;> nofun

end Delimiter

section Unique

variable {groups : List Delimiter} {text head kept ending body rest : List Token}
  {head' kept' ending' body' rest' : List Token}

/-- A head has one end. Were braces among the groups, one could be stepped over. -/
theorem IsHead.unique (noBrace : .brace ∉ groups) (isHead : IsHead groups head kept ending rest)
    (another : IsHead groups head' kept' ending' rest')
    (same : head ++ (ending ++ rest) = head' ++ (ending' ++ rest')) :
    head = head' ∧ kept = kept' ∧ ending = ending' ∧ rest = rest' := by
  have notEnding : ∀ {token : Token} {kind : Delimiter}, kind ∈ groups →
      token.tag = kind.openTag → token.tag ≠ .semicolon ∧ token.tag ≠ .openBrace := by
    intro token kind member opens
    rw [opens]
    refine ⟨kind.openTag_ne_semicolon, fun isBrace => noBrace ?_⟩
    rwa [← Delimiter.openTag_inj (isBrace.trans rfl : kind.openTag = Delimiter.openTag .brace)]
  induction isHead generalizing head' kept' with
  | endOfText =>
      cases another with
      | endOfText => exact ⟨rfl, rfl, rfl, rfl⟩
      | _ => cases same
  | @ending token ends rest =>
      cases another with
      | endOfText => cases same
      | ending =>
          cases same
          exact ⟨rfl, rfl, rfl, rfl⟩
      | comment isComment =>
          obtain ⟨rfl, -⟩ := List.cons.inj same
          rcases ends with isEnd | isEnd <;> rw [isEnd] at isComment <;> cases isComment
      | group member opens =>
          obtain ⟨rfl, -⟩ := List.cons.inj same
          obtain ⟨notSemicolon, notBrace⟩ := notEnding member opens
          exact absurd ends (not_or_intro notSemicolon notBrace)
      | kept notComment goesOn =>
          obtain ⟨rfl, -⟩ := List.cons.inj same
          exact absurd ends (not_or_intro goesOn.1 goesOn.2)
  | @comment token head kept ending rest isComment later ih =>
      cases another with
      | endOfText => cases same
      | ending ends =>
          obtain ⟨rfl, -⟩ := List.cons.inj same
          rcases ends with isEnd | isEnd <;> rw [isEnd] at isComment <;> cases isComment
      | comment _ another =>
          obtain ⟨rfl, behind⟩ := List.cons.inj same
          obtain ⟨rfl, rfl, rfl, rfl⟩ := ih another behind
          exact ⟨rfl, rfl, rfl, rfl⟩
      | @group _ kind _ _ _ _ _ member opens =>
          obtain ⟨rfl, -⟩ := List.cons.inj same
          rw [opens, kind.openTag_isComment] at isComment
          cases isComment
      | kept notComment =>
          obtain ⟨rfl, -⟩ := List.cons.inj same
          rw [notComment] at isComment
          cases isComment
  | @group token kind group head kept ending rest member opens isGroup later ih =>
      cases another with
      | endOfText => cases same
      | ending ends =>
          obtain ⟨rfl, -⟩ := List.cons.inj same
          obtain ⟨notSemicolon, notBrace⟩ := notEnding member opens
          exact absurd ends (not_or_intro notSemicolon notBrace)
      | comment isComment =>
          obtain ⟨rfl, -⟩ := List.cons.inj same
          rw [opens, kind.openTag_isComment] at isComment
          cases isComment
      | group _ opensOther isGroupOther another =>
          rw [List.cons_append, List.cons_append, List.append_assoc, List.append_assoc] at same
          obtain ⟨rfl, behind⟩ := List.cons.inj same
          obtain rfl := Delimiter.openTag_inj (opens.symm.trans opensOther)
          obtain ⟨rfl, further⟩ := isGroup.unique isGroupOther behind
          obtain ⟨rfl, rfl, rfl, rfl⟩ := ih another further
          exact ⟨rfl, rfl, rfl, rfl⟩
      | kept _ _ opensNone =>
          obtain ⟨rfl, -⟩ := List.cons.inj same
          exact absurd opens (opensNone kind member)
  | @kept token head kept ending rest notComment goesOn opensNone later ih =>
      cases another with
      | endOfText => cases same
      | ending ends =>
          obtain ⟨rfl, -⟩ := List.cons.inj same
          exact absurd ends (not_or_intro goesOn.1 goesOn.2)
      | comment isComment =>
          obtain ⟨rfl, -⟩ := List.cons.inj same
          rw [notComment] at isComment
          cases isComment
      | @group _ kind _ _ _ _ _ member opens =>
          obtain ⟨rfl, -⟩ := List.cons.inj same
          exact absurd opens (opensNone kind member)
      | kept _ _ _ another =>
          obtain ⟨rfl, behind⟩ := List.cons.inj same
          obtain ⟨rfl, rfl, rfl, rfl⟩ := ih another behind
          exact ⟨rfl, rfl, rfl, rfl⟩

theorem IsBody.unique (isBody : IsBody ending body rest) (another : IsBody ending body' rest')
    (same : body ++ rest = body' ++ rest') : body = body' ∧ rest = rest' := by
  cases isBody with
  | group opens isGroup =>
      cases another with
      | group _ isGroupOther => exact isGroup.unique isGroupOther same
      | nothing noBrace => exact absurd opens (noBrace _ List.mem_cons_self)
  | nothing noBrace =>
      cases another with
      | group opens => exact absurd opens (noBrace _ List.mem_cons_self)
      | nothing => exact ⟨rfl, same⟩

theorem IsDeclaration.unique (noBrace : .brace ∉ groups)
    (parts : IsDeclaration groups text head kept ending body rest)
    (others : IsDeclaration groups text head' kept' ending' body' rest') :
    head = head' ∧ kept = kept' ∧ ending = ending' ∧ body = body' ∧ rest = rest' := by
  obtain ⟨rfl, rfl, rfl, behind⟩ :=
    parts.isHead.unique noBrace others.isHead (parts.split.symm.trans others.split)
  obtain ⟨rfl, rfl⟩ := parts.isBody.unique others.isBody behind
  exact ⟨rfl, rfl, rfl, rfl, rfl⟩

end Unique

/-! ### Characters that readers take no note of -/

namespace Atom

/-- Characters and literals, none of them noted by a reader of groups or of heads. -/
inductive Inert : List Char → Nat → Prop
  | nothing (text : List Char) : Inert text 0
  | literal {text written : List Char} {length : Nat}
      (read : read? text = some (.literal written, length)) : Inert text length
  | char {c : Char} {rest : List Char} {more : Nat}
      (read : read? (c :: rest) = some (.char c, 1)) (inert : c ∉ notable)
      (later : Inert rest more) : Inert (c :: rest) (1 + more)

theorem Strand.isInert {text : List Char} {size : Nat} (strand : Strand text size) :
    Inert text size := by
  induction strand with
  | nothing text => exact .nothing text
  | literal read => exact .literal read
  | char bare inert named later ih => exact .char (read?_of_isBare bare) inert ih

end Atom

namespace Token

/-- What a token is to the readers of groups and of heads. -/
inductive Aspect : List Char → Tag → Nat → Prop
  | notable {c : Char} {rest : List Char} (member : c ∈ Atom.notable)
      (read : Atom.read? (c :: rest) = some (.char c, 1)) :
      Aspect (c :: rest) (punctuationTag c) 1
  | comment {text : List Char} {tag : Tag} {length : Nat} (isComment : tag.isComment = true)
      (read : Atom.read? text = some (.comment, length)) : Aspect text tag length
  | inert {text : List Char} {tag : Tag} {length : Nat}
      (other : ∀ c ∈ Atom.notable, tag ≠ punctuationTag c) (notComment : tag.isComment = false)
      (inert : Atom.Inert text length) : Aspect text tag length

theorem notable_isPunctuator : ∀ c ∈ Atom.notable, c ∈ punctuators := by
  decide

theorem read?_notable {c : Char} (member : c ∈ Atom.notable) (rest : List Char) :
    read? (c :: rest) = some (punctuationTag c, 1) := by
  simp only [Atom.notable, Atom.marks, List.cons_append, List.nil_append, List.mem_cons,
    List.not_mem_nil, or_false] at member
  rcases member with rfl | rfl | rfl | rfl | rfl | rfl | rfl | rfl | rfl | rfl | rfl <;> rfl

/-- A plain token is a character that is noted, a comment, or nothing that is noted. -/
theorem Plain.aspect {text : List Char} {tag : Tag} {length : Nat} (plain : Plain text)
    (read : read? text = some (tag, length)) : Aspect text tag length := by
  by_cases isNotable : ∃ c ∈ Atom.notable, tag = punctuationTag c
  · obtain ⟨c, member, rfl⟩ := isNotable
    obtain ⟨rest, rfl, rfl⟩ := read?_punctuator (notable_isPunctuator c member) read
    have ordinary : ∀ c ∈ Atom.notable, c ∉ ['/', '"', '\'', 'r'] := by
      decide
    exact .notable member (Atom.read?_ordinary (ordinary c member) rest)
  · have other : ∀ c ∈ Atom.notable, tag ≠ punctuationTag c :=
      fun c member same => isNotable ⟨c, member, same⟩
    by_cases isComment : tag.isComment = true
    · exact .comment isComment (Atom.read?_of_comment (length?_of_read? read isComment))
    · have notComment : tag.isComment = false := Bool.eq_false_iff.mpr isComment
      rcases plain.atom_or_strand read with ⟨atom, isAtom⟩ | strand
      · cases atom with
        | comment =>
            obtain ⟨commentTag, readComment, commented⟩ :=
              read?_of_length? (Atom.read?_comment_eq isAtom)
            rw [readComment] at read
            cases read
            exact absurd commented isComment
        | literal written => exact .inert other notComment (.literal isAtom)
        | char c =>
            obtain ⟨rest, rfl, rfl⟩ := Atom.eq_of_read?_char isAtom
            refine .inert other notComment (.char isAtom ?_ (.nothing rest))
            intro member
            rw [read?_notable member] at read
            cases read
            exact other c member rfl
      · exact .inert other notComment strand.isInert

end Token

/-! ### Groups -/

namespace Delimiter

theorem notable_opener (kind : Delimiter) : kind.opener ∈ Atom.notable := by
  cases kind <;> decide

theorem notable_closer (kind : Delimiter) : kind.closer ∈ Atom.notable := by
  cases kind <;> decide

theorem punctuationTag_opener (kind : Delimiter) :
    Token.punctuationTag kind.opener = kind.openTag := by
  cases kind <;> rfl

theorem punctuationTag_closer (kind : Delimiter) :
    Token.punctuationTag kind.closer = kind.closeTag := by
  cases kind <;> rfl

/-- A token of no class that is noted opens and closes nothing. -/
theorem turn_of_other {token : Token}
    (other : ∀ c ∈ Atom.notable, token.tag ≠ Token.punctuationTag c)
    (kind : Delimiter) (afterShaft : Bool) :
    kind.brackets.turn afterShaft token = 0 ∧ kind.brackets.isShaft token = false := by
  have notOpener := other _ kind.notable_opener
  have notCloser := other _ kind.notable_closer
  have notMinus : token.tag ≠ .minus := other '-' (by decide)
  have notEqual : token.tag ≠ .equal := other '=' (by decide)
  rw [punctuationTag_opener] at notOpener
  rw [punctuationTag_closer] at notCloser
  simp [brackets, Brackets.turn, notOpener, notCloser, notMinus, notEqual]

/-- A character that is noted counts as the reader of a group counts it. -/
theorem turn_of_notable {token : Token} {c : Char} (member : c ∈ Atom.notable)
    (isTag : token.tag = Token.punctuationTag c) (kind : Delimiter) (afterShaft : Bool) :
    kind.brackets.turn afterShaft token =
        (if kind.closes afterShaft c then -1 else if c = kind.opener then 1 else 0) ∧
      kind.brackets.isShaft token = isShaft c := by
  simp only [Brackets.turn, brackets, isTag]
  clear isTag
  revert c
  cases kind <;> cases afterShaft <;> decide

theorem closeFrom_inert {text : List Char} {size : Nat} (inert : Atom.Inert text size)
    (kind : Delimiter) (outer : Nat) (afterShaft : Bool) (taken : Nat) :
    kind.closeFrom outer afterShaft taken text =
      kind.closeFrom outer (afterShaft && size == 0) (taken + size) (text.drop size) := by
  induction inert generalizing afterShaft taken with
  | nothing text => simp
  | @literal text written length read =>
      have filled := (Atom.read?_pos read).1
      rw [closeFrom_eq, read]
      dsimp only
      rw [beq_false_of_ne (Nat.ne_of_gt filled), Bool.and_false]
  | @char c rest more read inert later ih =>
      have notCloser : c ≠ kind.closer := fun same => inert (same ▸ kind.notable_closer)
      have notOpener : c ≠ kind.opener := fun same => inert (same ▸ kind.notable_opener)
      have notShaft : isShaft c = false := by
        have notMinus : c ≠ '-' := fun same => inert (same ▸ by decide)
        have notEqual : c ≠ '=' := fun same => inert (same ▸ by decide)
        simp [isShaft, notMinus, notEqual]
      have stays : kind.closes afterShaft c = false := by
        simp [closes, notCloser]
      rw [closeFrom_eq, read]
      dsimp only
      rw [stays, if_neg Bool.false_ne_true, deepen, if_neg notOpener, notShaft, List.drop_succ_cons,
        List.drop_zero, ih, Nat.add_comm 1 more, List.drop_succ_cons, Bool.false_and]
      congr 1
      · simp
      · omega

/-- The search for a closer goes on token by token. -/
theorem closeFrom_token {text : List Char} {tag : Tag} {length : Nat} (plain : Token.Plain text)
    (read : Token.read? text = some (tag, length)) {token : Token} (isTag : token.tag = tag)
    (kind : Delimiter) (outer : Nat) (afterShaft : Bool) (taken : Nat) :
    kind.closeFrom outer afterShaft taken text =
      if (outer : Int) + kind.brackets.turn afterShaft token = -1 then taken + length
      else kind.closeFrom ((outer : Int) + kind.brackets.turn afterShaft token).toNat
        (kind.brackets.isShaft token) (taken + length) (text.drop length) := by
  have stays : ∀ {tag : Tag}, token.tag = tag → (∀ c ∈ Atom.notable, tag ≠ Token.punctuationTag c) →
      (outer : Int) + kind.brackets.turn afterShaft token = outer ∧
        kind.brackets.isShaft token = false := by
    rintro tag rfl other
    obtain ⟨turn, shaft⟩ := turn_of_other other kind afterShaft
    rw [turn, shaft]
    exact ⟨Int.add_zero _, rfl⟩
  cases plain.aspect read with
  | @notable c rest member readAtom =>
      obtain ⟨turn, shaft⟩ := turn_of_notable member isTag kind afterShaft
      rw [closeFrom_eq, readAtom, turn, shaft]
      dsimp only
      by_cases closes : kind.closes afterShaft c = true
      · rw [if_pos closes, if_pos closes]
        have isCloser : c = kind.closer := eq_of_beq (Bool.and_eq_true_iff.mp closes).1
        have notShaft : isShaft kind.closer = false := by
          cases kind <;> rfl
        cases outer with
        | zero => rw [if_pos (by omega)]
        | succ outer =>
            have inner : (((outer + 1 : Nat) : Int) + -1).toNat = outer := by
              omega
            rw [if_neg (by omega), inner, isCloser, notShaft]
      · rw [if_neg closes, if_neg closes, deepen]
        by_cases opens : c = kind.opener
        · have deeper : ((outer : Int) + 1).toNat = outer + 1 := by
            omega
          rw [if_pos opens, if_pos opens, if_neg (by omega), deeper]
        · rw [if_neg opens, if_neg opens, if_neg (by omega), Int.add_zero, Int.toNat_natCast]
  | comment isComment readAtom =>
      have other : ∀ c ∈ Atom.notable, tag ≠ Token.punctuationTag c := by
        rintro c - rfl
        rw [Token.punctuationTag_isComment] at isComment
        cases isComment
      obtain ⟨depth, shaft⟩ := stays isTag other
      rw [closeFrom_eq, readAtom, depth, shaft, if_neg (by omega), Int.toNat_natCast]
  | inert other notComment inert =>
      obtain ⟨depth, shaft⟩ := stays isTag other
      have filled := (Token.read?_pos read).1
      rw [closeFrom_inert inert, beq_false_of_ne (Nat.ne_of_gt filled), Bool.and_false, depth,
        shaft, if_neg (by omega), Int.toNat_natCast]

end Delimiter

namespace Cursor

/-- All tokens from here on but the one at the end of the text. -/
def written (cursor : Cursor) : List Token := cursor.tokens.dropLast

variable {cursor : Cursor} {count : Nat}

theorem tokens_ne_nil (cursor : Cursor) : cursor.tokens ≠ [] := by
  rw [tokens_eq]
  split <;> exact List.cons_ne_nil _ _

theorem written_of_end (atEnd : Token.read? cursor.rest = none) : cursor.written = [] := by
  rw [written, tokens_of_end cursor atEnd]
  rfl

theorem written_of_read {tag : Tag} {length : Nat}
    (read : Token.read? cursor.rest = some (tag, length)) :
    cursor.written =
      ⟨tag, cursor.place, cursor.rest.take length⟩ :: (cursor.skip length).written := by
  rw [written, tokens_of_read cursor read, List.dropLast_cons_of_ne_nil (tokens_ne_nil _)]
  rfl

theorem flatMap_lexeme_written (cursor : Cursor) :
    cursor.written.flatMap Token.lexeme = cursor.rest := by
  obtain ⟨passed, split⟩ := exists_tokens_append cursor
  have joined := cursor.flatMap_lexeme_tokens
  rw [split, List.flatMap_append] at joined
  rw [written, split, List.dropLast_concat]
  exact (List.append_nil _).symm.trans joined

/-- The tokens of a window are those up to its end. -/
theorem written_window (whole : Token.Whole cursor.rest count) :
    cursor.written = (cursor.window count).written ++ (cursor.skip count).written := by
  obtain ⟨passed, split, window⟩ := tokens_window whole
  rw [written, written, written, split, window, List.dropLast_concat,
    List.dropLast_append_of_ne_nil (tokens_ne_nil _)]

end Cursor

namespace Delimiter

/-- What is passed on the way to a closer is a group that closes there, or all tokens. -/
theorem closeFrom_closes (kind : Delimiter) (cursor : Cursor) (plain : Token.AllPlain cursor.rest)
    (outer : Nat) (afterShaft : Bool) :
    ∃ group, cursor.written =
        group ++ (cursor.skip (kind.closeFrom outer afterShaft 0 cursor.rest)).written ∧
      (kind.brackets.ClosesAt outer afterShaft group ∨
        kind.brackets.StaysOpenAt outer afterShaft group ∧
          (cursor.skip (kind.closeFrom outer afterShaft 0 cursor.rest)).written = []) := by
  induction cursor using Cursor.tokens.induct generalizing outer afterShaft with
  | case1 cursor atEnd =>
      have nothing := (Token.read?_eq_none_iff _).mp atEnd
      have here : kind.closeFrom outer afterShaft 0 cursor.rest = 0 := by
        rw [closeFrom_eq, nothing]
        rfl
      rw [here, Cursor.skip_zero]
      exact ⟨[], rfl, .inr ⟨.nil (Int.natCast_nonneg outer), Cursor.written_of_end atEnd⟩⟩
  | case2 cursor tag length read ih =>
      obtain ⟨token, isToken⟩ :
          ∃ token, (⟨tag, cursor.place, cursor.rest.take length⟩ : Token) = token := ⟨_, rfl⟩
      have isTag : token.tag = tag := by
        rw [← isToken]
      have least := kind.brackets.least_turn afterShaft token
      rw [closeFrom_token plain.first read isTag, Cursor.written_of_read read, isToken,
        Nat.zero_add]
      by_cases last : (outer : Int) + kind.brackets.turn afterShaft token = -1
      · rw [if_pos last]
        exact ⟨[token], rfl, .inl (Brackets.closesAt_last (Int.natCast_nonneg outer) last)⟩
      · rw [if_neg last]
        obtain ⟨depth, isDepth⟩ := Int.eq_ofNat_of_zero_le
          (show 0 ≤ (outer : Int) + kind.brackets.turn afterShaft token by omega)
        obtain ⟨group, split, closes⟩ := ih (plain.drop (.single read trivial)) depth
          (kind.brackets.isShaft token)
        rw [isDepth, Int.toNat_natCast, ← Nat.add_zero length, closeFrom_add, Nat.add_zero,
          ← Cursor.skip_skip]
        refine ⟨token :: group, congrArg _ split, ?_⟩
        rcases closes with closes | ⟨staysOpen, nothing⟩
        · rw [← isDepth] at closes
          exact .inl (.cons (Int.natCast_nonneg outer) closes)
        · rw [← isDepth] at staysOpen
          exact .inr ⟨.cons (Int.natCast_nonneg outer) staysOpen, nothing⟩

/-- What remains of a group is one. -/
theorem closeLength_group (kind : Delimiter) (cursor : Cursor)
    (plain : Token.AllPlain cursor.rest) :
    ∃ group, cursor.written =
        group ++ (cursor.skip (kind.closeLength cursor.rest)).written ∧
      kind.Group group (cursor.skip (kind.closeLength cursor.rest)).written :=
  kind.closeFrom_closes cursor plain 0 false

end Delimiter

/-! ### Heads -/

namespace Head

theorem readFrom_inert {text : List Char} {size : Nat} (inert : Atom.Inert text size)
    (groups : List Delimiter) (kept : List Char) (taken : Nat) :
    readFrom groups kept taken text =
      readFrom groups ((text.take size).reverse ++ kept) (taken + size) (text.drop size) := by
  induction inert generalizing kept taken with
  | nothing text => simp
  | literal read =>
      obtain ⟨-, rfl, -⟩ := Atom.read?_literal_eq read
      rw [readFrom_eq, read]
  | @char c rest more read inert later ih =>
      have notSemicolon : c ≠ ';' := fun same => inert (same ▸ by decide)
      have notBrace : c ≠ '\x7b' := fun same => inert (same ▸ by decide)
      have opensNone : Delimiter.groupAfter? groups c ((c :: rest).drop 1) = none := by
        refine Delimiter.groupAfter?_of_ne ?_ _
        intro kind _ same
        rw [same] at inert
        exact inert kind.notable_opener
      rw [readFrom_eq, read]
      dsimp only
      rw [if_neg notSemicolon, if_neg notBrace, opensNone]
      dsimp only
      rw [List.drop_succ_cons, List.drop_zero, ih, Nat.add_comm 1 more, List.drop_succ_cons,
        List.take_succ_cons, List.reverse_cons, List.append_assoc, List.singleton_append,
        Nat.add_assoc, Nat.add_comm 1 more]

/-- What a reader of heads does at a token. -/
inductive Step (groups : List Delimiter) (before : List Char) (taken : Nat) (text : List Char)
    (tag : Tag) (length : Nat) : Prop
  | semicolon (isSemicolon : tag = .semicolon)
      (reads : readFrom groups before taken text =
        ⟨before.reverse, taken + length, .semicolon⟩)
  | brace (isBrace : tag = .openBrace)
      (reads : readFrom groups before taken text = ⟨before.reverse, taken + length, .brace⟩)
  | comment (isComment : tag.isComment = true)
      (reads : readFrom groups before taken text =
        readFrom groups before (taken + length) (text.drop length))
  | group {kind : Delimiter} (member : kind ∈ groups) (opens : tag = kind.openTag)
      (reads : readFrom groups before taken text =
        readFrom groups before (taken + (length + kind.closeLength (text.drop length)))
          (text.drop (length + kind.closeLength (text.drop length))))
  | kept (notComment : tag.isComment = false) (goesOn : tag ≠ .semicolon ∧ tag ≠ .openBrace)
      (opensNone : ∀ kind ∈ groups, tag ≠ kind.openTag)
      (reads : readFrom groups before taken text =
        readFrom groups ((text.take length).reverse ++ before) (taken + length)
          (text.drop length))

theorem step_of_read? {text : List Char} {tag : Tag} {length : Nat} (plain : Token.Plain text)
    (read : Token.read? text = some (tag, length)) (groups : List Delimiter) (before : List Char)
    (taken : Nat) : Step groups before taken text tag length := by
  cases plain.aspect read with
  | @notable c rest member readAtom =>
      have reads := readFrom_eq groups before taken (c :: rest)
      rw [readAtom] at reads
      dsimp only at reads
      by_cases isSemicolon : c = ';'
      · subst isSemicolon
        exact .semicolon rfl reads
      · rw [if_neg isSemicolon] at reads
        by_cases isBrace : c = '\x7b'
        · subst isBrace
          exact .brace rfl reads
        · rw [if_neg isBrace] at reads
          have goesOn : Token.punctuationTag c ≠ .semicolon ∧
              Token.punctuationTag c ≠ .openBrace := by
            constructor
            · exact fun same => isSemicolon
                (Token.eq_of_punctuationTag (d := ';') (by decide) same)
            · exact fun same => isBrace
                (Token.eq_of_punctuationTag (d := '\x7b') (by decide) same)
          by_cases opens : ∃ kind ∈ groups, c = kind.opener
          · obtain ⟨kind, inGroups, rfl⟩ := opens
            rw [Delimiter.groupAfter?_opener inGroups] at reads
            exact .group inGroups kind.punctuationTag_opener reads
          · have opensNone : ∀ kind ∈ groups, c ≠ kind.opener :=
              fun kind inGroups same => opens ⟨kind, inGroups, same⟩
            rw [Delimiter.groupAfter?_of_ne opensNone] at reads
            refine .kept (Token.punctuationTag_isComment c) goesOn ?_ reads
            intro kind inGroups same
            rw [← kind.punctuationTag_opener] at same
            exact opensNone kind inGroups (Token.eq_of_punctuationTag
              (Token.notable_isPunctuator _ kind.notable_opener) same)
  | comment isComment readAtom =>
      refine .comment isComment ?_
      rw [readFrom_eq, readAtom]
  | inert other notComment inert =>
      refine .kept notComment ⟨other ';' (by decide), other '\x7b' (by decide)⟩ ?_
        (readFrom_inert inert groups before taken)
      intro kind _
      rw [← kind.punctuationTag_opener]
      exact other _ kind.notable_opener

/-- The tokens that end a head in this way. -/
def Closing : HeadEnd → List Token → Prop
  | .endOfText, ending => ending = []
  | .semicolon, ending => ∃ token, ending = [token] ∧ token.tag = .semicolon ∧ token.lexeme = [';']
  | .brace, ending => ∃ token, ending = [token] ∧ token.tag = .openBrace ∧ token.lexeme = ['\x7b']

theorem readFrom_isHead (groups : List Delimiter) (cursor : Cursor)
    (plain : Token.AllPlain cursor.rest) (before : List Char) (taken : Nat) :
    ∃ head kept ending count closing,
      readFrom groups before taken cursor.rest =
        ⟨before.reverse ++ kept.flatMap Token.lexeme, taken + count, closing⟩ ∧
      cursor.written = head ++ (ending ++ (cursor.skip count).written) ∧
      IsHead groups head kept ending (cursor.skip count).written ∧ Closing closing ending := by
  induction size : cursor.rest.length using Nat.strongRecOn generalizing cursor before taken with
  | ind size ih =>
      subst size
      cases read : Token.read? cursor.rest with
      | none =>
          have nothing := Cursor.written_of_end read
          rw [Token.read?_eq_none_iff] at read
          refine ⟨[], [], [], 0, .endOfText, ?_, rfl, ?_, rfl⟩
          · rw [readFrom_eq, read]
            simp [Atom.read?]
          · rw [Cursor.skip_zero, nothing]
            exact .endOfText
      | some pair =>
          obtain ⟨tag, length⟩ := pair
          have shorter := Token.length_drop_lt read
          have whole : Token.Whole cursor.rest length := .single read trivial
          rw [Cursor.written_of_read read]
          cases step_of_read? plain.first read groups before taken with
          | semicolon isSemicolon reads =>
              subst isSemicolon
              obtain ⟨rest, split, rfl⟩ := Token.read?_punctuator (d := ';') (by decide) read
              refine ⟨[], [], _, 1, .semicolon, ?_, rfl, .ending (.inl rfl) _, _, rfl, rfl, ?_⟩
              · rw [reads, List.flatMap_nil, List.append_nil]
              · rw [split]
                rfl
          | brace isBrace reads =>
              subst isBrace
              obtain ⟨rest, split, rfl⟩ := Token.read?_punctuator (d := '\x7b') (by decide) read
              refine ⟨[], [], _, 1, .brace, ?_, rfl, .ending (.inr rfl) _, _, rfl, rfl, ?_⟩
              · rw [reads, List.flatMap_nil, List.append_nil]
              · rw [split]
                rfl
          | comment isComment reads =>
              obtain ⟨head, kept, ending, count, closing, found, split, isHead, ends⟩ :=
                ih _ shorter (cursor.skip length) (plain.drop whole) before (taken + length) rfl
              rw [Cursor.skip_skip] at split isHead
              refine ⟨⟨tag, cursor.place, cursor.rest.take length⟩ :: head, kept, ending,
                length + count, closing, ?_, ?_, .comment isComment isHead, ends⟩
              · rw [reads, ← Nat.add_assoc]
                exact found
              · rw [split]
                rfl
          | @group kind member opens reads =>
              obtain ⟨group, behind, isGroup⟩ :=
                kind.closeLength_group (cursor.skip length) (plain.drop whole)
              have passed := whole.append (kind.closeLength_whole (plain.drop whole))
              rw [Cursor.skip_skip, Cursor.skip_rest] at behind isGroup
              have smaller : (cursor.rest.drop (length +
                  kind.closeLength (cursor.rest.drop length))).length < cursor.rest.length := by
                rw [← List.drop_drop, List.length_drop]
                omega
              obtain ⟨head, kept, ending, count, closing, found, split, isHead, ends⟩ :=
                ih _ smaller (cursor.skip (length + kind.closeLength (cursor.rest.drop length)))
                  (plain.drop passed) before
                  (taken + (length + kind.closeLength (cursor.rest.drop length))) rfl
              rw [Cursor.skip_skip] at split isHead
              rw [split] at isGroup
              refine ⟨⟨tag, cursor.place, cursor.rest.take length⟩ :: (group ++ head), kept, ending,
                _, closing, ?_, ?_, .group member opens isGroup isHead, ends⟩
              · rw [reads, ← Nat.add_assoc taken _ count]
                exact found
              · rw [behind, split]
                simp
          | kept notComment goesOn opensNone reads =>
              obtain ⟨head, kept, ending, count, closing, found, split, isHead, ends⟩ :=
                ih _ shorter (cursor.skip length) (plain.drop whole)
                  ((cursor.rest.take length).reverse ++ before) (taken + length) rfl
              rw [Cursor.skip_skip] at split isHead
              refine ⟨⟨tag, cursor.place, cursor.rest.take length⟩ :: head,
                ⟨tag, cursor.place, cursor.rest.take length⟩ :: kept, ending, length + count,
                closing, ?_, ?_, .kept notComment goesOn opensNone isHead, ends⟩
              · rw [reads, ← Nat.add_assoc]
                refine found.trans ?_
                simp
              · rw [split]
                rfl

theorem Closing.length {closing : HeadEnd} {ending : List Token} (ends : Closing closing ending) :
    (ending.flatMap Token.lexeme).length = closing.size := by
  cases closing with
  | endOfText =>
      rw [show ending = [] from ends]
      rfl
  | semicolon =>
      obtain ⟨token, rfl, -, lexeme⟩ := ends
      rw [List.flatMap_singleton, lexeme]
      rfl
  | brace =>
      obtain ⟨token, rfl, -, lexeme⟩ := ends
      rw [List.flatMap_singleton, lexeme]
      rfl

theorem bodyLength?_eq_some {head : Head} {text : List Char} {count : Nat}
    (hasBody : head.bodyLength? text = some count) :
    head.ending = .brace ∧ Delimiter.brace.closeLength (text.drop head.length) = count := by
  unfold bodyLength? at hasBody
  split at hasBody
  · exact ⟨‹_›, Option.some.inj hasBody⟩
  · cases hasBody
  · cases hasBody

theorem signature_isPrefix (head : Head) (text : List Char) : head.signature text <+: text := by
  unfold signature
  split <;> exact List.take_prefix _ _

theorem Closing.exists_brace_iff {closing : HeadEnd} {ending : List Token}
    (ends : Closing closing ending) :
    (∃ brace ∈ ending, brace.tag = .openBrace) ↔ closing = .brace := by
  cases closing with
  | endOfText =>
      rw [show ending = [] from ends]
      simp
  | semicolon =>
      obtain ⟨token, rfl, isSemicolon, -⟩ := ends
      simp [isSemicolon]
  | brace =>
      obtain ⟨token, rfl, isBrace, -⟩ := ends
      simp [isBrace]

/-- What is read as a head is one: its tokens make up the signature, and those that are kept make
up what is kept of it. -/
theorem read_isHead (groups : List Delimiter) (cursor : Cursor)
    (plain : Token.AllPlain cursor.rest) :
    ∃ head kept ending,
      cursor.written =
        head ++ (ending ++ (cursor.skip (read groups cursor.rest).length).written) ∧
      IsHead groups head kept ending (cursor.skip (read groups cursor.rest).length).written ∧
      Closing (read groups cursor.rest).ending ending ∧
      head.flatMap Token.lexeme = (read groups cursor.rest).signature cursor.rest ∧
      kept.flatMap Token.lexeme = (read groups cursor.rest).kept := by
  obtain ⟨head, kept, ending, count, closing, found, split, isHead, ends⟩ :=
    readFrom_isHead groups cursor plain [] 0
  have isRead : read groups cursor.rest = ⟨kept.flatMap Token.lexeme, count, closing⟩ := by
    rw [read, found, Nat.zero_add]
    rfl
  have inside := (read_whole groups plain).length_le
  have reaches := (read_surface groups cursor.rest).2.2
  obtain ⟨after, whole⟩ := (read groups cursor.rest).signature_isPrefix cursor.rest
  rw [isRead] at inside reaches whole ⊢
  dsimp only at inside reaches whole ⊢
  refine ⟨head, kept, ending, split, isHead, ends, ?_, rfl⟩
  -- Both stand at the start of the text and have the same length.
  have joined := congrArg (List.flatMap Token.lexeme) split
  rw [List.flatMap_append, List.flatMap_append, Cursor.flatMap_lexeme_written,
    Cursor.flatMap_lexeme_written, Cursor.skip_rest] at joined
  have lengths := congrArg List.length joined
  rw [List.length_append, List.length_append, ends.length, List.length_drop] at lengths
  exact (List.append_inj (whole.trans joined) (by omega)).1.symm

end Head

/-! ### Declarations -/

namespace Cursor

variable {cursor : Cursor} {groups : List Delimiter} {head kept ending body : List Token}

/-- The parts of the declaration that is read at a cursor. -/
structure Declares (groups : List Delimiter) (cursor : Cursor)
    (head kept ending body : List Token) : Prop where
  parts : IsDeclaration groups cursor.written head kept ending body
    (cursor.skip ((Head.read groups cursor.rest).fullLength cursor.rest)).written
  signature : head.flatMap Token.lexeme = (Head.read groups cursor.rest).signature cursor.rest
  kept : kept.flatMap Token.lexeme = (Head.read groups cursor.rest).kept
  closing : Head.Closing (Head.read groups cursor.rest).ending ending
  atHead : (cursor.window (Head.read groups cursor.rest).length).written = head ++ ending
  atBody : (cursor.bodyBehind groups).written = body
  behindHead : (cursor.skip (Head.read groups cursor.rest).length).written =
    body ++ (cursor.skip ((Head.read groups cursor.rest).fullLength cursor.rest)).written

theorem written_bodyBehind_of_none
    (noBody : (Head.read groups cursor.rest).bodyLength? cursor.rest = none) :
    (cursor.bodyBehind groups).written = [] := by
  unfold bodyBehind Head.fullLength
  dsimp only
  rw [noBody, Option.getD_none, Nat.add_zero, Nat.sub_self]
  exact written_of_end rfl

theorem written_bodyBehind_of_some {count : Nat}
    (hasBody : (Head.read groups cursor.rest).bodyLength? cursor.rest = some count)
    (whole : Token.Whole (cursor.skip (Head.read groups cursor.rest).length).rest count) :
    (cursor.skip (Head.read groups cursor.rest).length).written =
      (cursor.bodyBehind groups).written ++
        (cursor.skip ((Head.read groups cursor.rest).fullLength cursor.rest)).written := by
  have window := written_window whole
  unfold bodyBehind Head.fullLength
  dsimp only
  rw [hasBody, Option.getD_some, Nat.add_sub_cancel_left, ← skip_skip]
  exact window

/-- What is read as a declaration is one. -/
theorem exists_declares (groups : List Delimiter) (cursor : Cursor)
    (plain : Token.AllPlain cursor.rest) :
    ∃ head kept ending body, cursor.Declares groups head kept ending body := by
  obtain ⟨head, kept, ending, split, isHead, closing, signature, kept'⟩ :=
    Head.read_isHead groups cursor plain
  have whole := Head.read_whole groups plain
  have atHead := written_window whole
  rw [split, ← List.append_assoc] at atHead
  have atHead := (List.append_cancel_right atHead).symm
  cases hasBody : (Head.read groups cursor.rest).bodyLength? cursor.rest with
  | none =>
      have noBody := written_bodyBehind_of_none hasBody
      have full : (Head.read groups cursor.rest).fullLength cursor.rest =
          (Head.read groups cursor.rest).length := by
        rw [Head.fullLength, hasBody]
        rfl
      have notBrace : ∀ token ∈ ending, token.tag ≠ .openBrace := by
        intro token member isBrace
        rw [Head.bodyLength?, closing.exists_brace_iff.mp ⟨token, member, isBrace⟩] at hasBody
        cases hasBody
      refine ⟨head, kept, ending, [], ⟨?_, ?_, .nothing notBrace _⟩, signature, kept', closing,
        atHead, noBody, ?_⟩
      · rw [full]
        exact split
      · rw [full]
        exact isHead
      · rw [full]
        rfl
  | some count =>
      obtain ⟨brace, rfl⟩ := Head.bodyLength?_eq_some hasBody
      have inside := plain.drop whole
      have behindHead := written_bodyBehind_of_some hasBody
        (Delimiter.brace.closeLength_whole inside)
      obtain ⟨group, behind, isGroup⟩ := Delimiter.brace.closeLength_group
        (cursor.skip (Head.read groups cursor.rest).length) inside
      have full : (Head.read groups cursor.rest).fullLength cursor.rest =
          (Head.read groups cursor.rest).length + Delimiter.brace.closeLength
            (cursor.skip (Head.read groups cursor.rest).length).rest := by
        rw [Head.fullLength, hasBody]
        rfl
      rw [skip_skip, ← full] at behind isGroup
      obtain rfl := List.append_cancel_right (behindHead.symm.trans behind)
      rw [brace] at closing
      obtain ⟨token, rfl, isBrace, lexeme⟩ := closing
      refine ⟨head, kept, [token], _, ⟨?_, ?_, .group isBrace isGroup⟩, signature, kept', ?_,
        atHead, rfl, behindHead⟩
      · rw [← behindHead]
        exact split
      · rw [← behindHead]
        exact isHead
      · rw [brace]
        exact ⟨token, rfl, isBrace, lexeme⟩

end Cursor
end Survey
