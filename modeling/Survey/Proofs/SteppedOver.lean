import Survey.Proofs.FindingsWithoutComments
import Survey.Proofs.TokenHeads
import Survey.Proofs.TokenStreams
import Survey.Proofs.UnnamedHeads

set_option autoImplicit false

/-!
# What a survey steps over

A survey looks for unsafe blocks between the declarations of a file and in the bodies of the
functions that it records. It steps over the heads of functions, traits and implementations,
over the bodies of those without a name, over the groups between the items of a body, and over
what a trait holds behind the brace at which its items stop. Where it reads and what it steps
over is said here of the tokens of a file alone.
-/

namespace Survey

/-! ### What is read and what is stepped over -/

/-- Where declarations are read: in a file, or among the items of an implementation or a trait. -/
inductive Scope where
  | file
  | implementation
  | trait
deriving DecidableEq, Repr

/-- Blanks apart, a parenthesis comes next, as in the type of a function pointer. -/
def PointerNext (tokens : List Token) : Prop :=
  ∃ blanks paren rest, tokens = blanks ++ paren :: rest ∧
    (∀ token ∈ blanks, token.tag = .blank ∨ token.tag = .newline) ∧ paren.tag = .openParen

/-- Trivia apart, a brace comes next. -/
def BlockNext (tokens : List Token) : Prop :=
  ∃ trivia brace rest, tokens = trivia ++ brace :: rest ∧
    (∀ token ∈ trivia, token.tag.isTrivia = true) ∧ brace.tag = .openBrace

/-- With the rest behind it, the token announces something that is read here. -/
def Announces (scope : Scope) (token : Token) (rest : List Token) : Prop :=
  token.keyword? = some .function ∧ ¬ PointerNext rest ∨
    match scope with
    | .file => token.keyword? = some .trait ∨ token.keyword? = some .implementation ∨
        token.keyword? = some .unsafeMark ∧ BlockNext rest
    | .implementation | .trait => token.tag = .openBrace ∨ token.tag = .closeBrace

/-- The keyword declares something that is read here. Only functions are items. -/
def DeclaredIn (scope : Scope) (keyword : Keyword) (text : List Token) : Prop :=
  keyword = .function ∧ ¬ PointerNext text ∨
    scope = .file ∧ (keyword = .trait ∨ keyword = .implementation)

/-- The groups that the head of a declaration may hold. -/
def headGroups (keyword : Keyword) : List Delimiter :=
  if keyword = .trait then [.angle, .paren] else [.angle, .paren, .bracket]

/-- A declaration of this kind stands here, with these parts behind its keyword. -/
structure Declaration (scope : Scope) (keyword : Keyword) (token : Token)
    (text head kept ending body rest : List Token) : Prop where
  announces : token.keyword? = some keyword
  declared : DeclaredIn scope keyword text
  parts : IsDeclaration (headGroups keyword) text head kept ending body rest

/-- The head of a declaration names nothing. -/
def NamesNothing (keyword : Keyword) (head kept : List Token) : Prop :=
  match keyword with
  | .implementation => Signature.Untargeted (head.flatMap Token.lexeme)
  | .trait => Signature.Unnamed [':', '<'] (kept.flatMap Token.lexeme)
  | _ => Signature.Unnamed ['<', '('] (head.flatMap Token.lexeme)

/-- The body of an implementation is read together with what follows it. -/
def IsEntered (keyword : Keyword) (head kept ending : List Token) : Prop :=
  keyword = .implementation ∧ (∃ brace ∈ ending, brace.tag = .openBrace) ∧
    ¬ NamesNothing keyword head kept

/-- The tokens that a survey of a file goes on with, and where they are read. -/
inductive Reads (tokens : List Token) : Scope → List Token → Prop
  | start : Reads tokens .file tokens.dropLast
  | onward {scope : Scope} {token : Token} {rest : List Token}
      (reads : Reads tokens scope (token :: rest)) (passed : ¬ Announces scope token rest) :
      Reads tokens scope rest
  | block {token brace : Token} {trivia group rest : List Token}
      (reads : Reads tokens .file (token :: (trivia ++ brace :: (group ++ rest))))
      (marks : token.keyword? = some .unsafeMark)
      (areTrivia : ∀ passed ∈ trivia, passed.tag.isTrivia = true)
      (opens : brace.tag = .openBrace) (isGroup : Delimiter.brace.Group group rest) :
      Reads tokens .file rest
  | declaration {scope : Scope} {keyword : Keyword} {token : Token}
      {text head kept ending body rest : List Token} (reads : Reads tokens scope (token :: text))
      (declares : Declaration scope keyword token text head kept ending body rest)
      (passed : ¬ IsEntered keyword head kept ending) : Reads tokens scope rest
  | implementation {token : Token} {text head kept ending body rest : List Token}
      (reads : Reads tokens .file (token :: text))
      (declares : Declaration .file .implementation token text head kept ending body rest)
      (entered : IsEntered .implementation head kept ending) :
      Reads tokens .implementation (body ++ rest)
  | trait {token : Token} {text head kept ending body rest : List Token}
      (reads : Reads tokens .file (token :: text))
      (declares : Declaration .file .trait token text head kept ending body rest)
      (named : ¬ NamesNothing .trait head kept) : Reads tokens .trait body
  | group {scope : Scope} {brace : Token} {group rest : List Token}
      (reads : Reads tokens scope (brace :: (group ++ rest))) (amongItems : scope ≠ .file)
      (opens : brace.tag = .openBrace) (isGroup : Delimiter.brace.Group group rest) :
      Reads tokens scope rest
  | close {brace : Token} {rest : List Token}
      (reads : Reads tokens .implementation (brace :: rest)) (closes : brace.tag = .closeBrace) :
      Reads tokens .file rest

/-- What is stepped over where a survey goes on with these tokens. -/
inductive Unwatched : Scope → List Token → List Token → Prop
  | head {scope : Scope} {keyword : Keyword} {token : Token}
      {text head kept ending body rest : List Token}
      (declares : Declaration scope keyword token text head kept ending body rest) :
      Unwatched scope (token :: text) (head ++ ending)
  | body {scope : Scope} {keyword : Keyword} {token : Token}
      {text head kept ending body rest : List Token}
      (declares : Declaration scope keyword token text head kept ending body rest)
      (nothing : NamesNothing keyword head kept) : Unwatched scope (token :: text) body
  | group {scope : Scope} {brace : Token} {group rest : List Token} (amongItems : scope ≠ .file)
      (opens : brace.tag = .openBrace) (isGroup : Delimiter.brace.Group group rest) :
      Unwatched scope (brace :: (group ++ rest)) (brace :: group)
  | leftOver {brace : Token} {rest : List Token} (closes : brace.tag = .closeBrace) :
      Unwatched .trait (brace :: rest) rest

/-- A token that is stepped over starts there. -/
def Overlooked (tokens : List Token) (place : Position) : Prop :=
  ∃ scope left stretch, Reads tokens scope left ∧ Unwatched scope left stretch ∧
    ∃ token ∈ stretch, token.start = place

/-! ### Tokens at a cursor -/

theorem Token.keyword?_of_isTrivia {token : Token} (isTrivia : token.tag.isTrivia = true) :
    token.keyword? = none := by
  unfold Token.keyword?
  refine if_neg ?_
  intro isWord
  rw [isWord] at isTrivia
  cases isTrivia

section Reading

variable {tokens rest : List Token} {scope : Scope} {token : Token}

theorem not_announces_of_isTrivia (isTrivia : token.tag.isTrivia = true) :
    ¬ Announces scope token rest := by
  have noKeyword := Token.keyword?_of_isTrivia isTrivia
  have notOpen : token.tag ≠ .openBrace := by
    intro opens
    rw [opens] at isTrivia
    cases isTrivia
  have notClose : token.tag ≠ .closeBrace := by
    intro closes
    rw [closes] at isTrivia
    cases isTrivia
  cases scope <;> simp [Announces, noKeyword, notOpen, notClose]

/-- A word announces nothing but what its keyword does. -/
theorem not_announces_of_keyword {keyword : Keyword} (isKeyword : token.keyword? = some keyword)
    (notFunction : keyword = .function → PointerNext rest)
    (notDeclared : scope = .file → keyword ≠ .trait ∧ keyword ≠ .implementation)
    (noBlock : scope = .file → keyword = .unsafeMark → ¬ BlockNext rest) :
    ¬ Announces scope token rest := by
  have isWord := (Token.lexeme_of_keyword? isKeyword).1
  unfold Announces
  rw [isKeyword, isWord]
  rintro (⟨isFunction, notPointer⟩ | other)
  · exact notPointer (notFunction (Option.some.inj isFunction))
  · cases scope with
    | file =>
        obtain ⟨notTrait, notImplementation⟩ := notDeclared rfl
        rcases other with isTrait | isImplementation | ⟨marks, block⟩
        · exact notTrait (Option.some.inj isTrait)
        · exact notImplementation (Option.some.inj isImplementation)
        · exact noBlock rfl (Option.some.inj marks) block
    | implementation => simp at other
    | trait => simp at other

theorem Reads.trivia {passed : List Token} (reads : Reads tokens scope (passed ++ rest))
    (areTrivia : ∀ token ∈ passed, token.tag.isTrivia = true) : Reads tokens scope rest := by
  induction passed with
  | nil => exact reads
  | cons first passed ih =>
      obtain ⟨isTrivia, later⟩ := List.forall_mem_cons.mp areTrivia
      exact ih (reads.onward (not_announces_of_isTrivia isTrivia)) later

end Reading

namespace Cursor

variable {cursor : Cursor} {place : Position}

theorem tokens_eq_written (cursor : Cursor) :
    ∃ last, cursor.tokens = cursor.written ++ [last] ∧ last.tag = .endOfText := by
  obtain ⟨passed, split⟩ := exists_tokens_append cursor
  refine ⟨.atEnd cursor.toEnd.place, ?_, rfl⟩
  rw [written, split, List.dropLast_concat]

theorem written_of_run {allowed : Tag → Prop} {count : Nat}
    (run : Token.Run allowed cursor.rest count) :
    ∃ passed, cursor.written = passed ++ (cursor.skip count).written ∧
      ∀ token ∈ passed, allowed token.tag := by
  obtain ⟨passed, split, all⟩ := cursor.tokens_of_run run
  refine ⟨passed, ?_, all⟩
  rw [written, split, List.dropLast_append_of_ne_nil (tokens_ne_nil _)]
  rfl

theorem written_significant {token : Token} {length : Nat}
    (next : cursor.significant? = some (token, length)) :
    ∃ trivia, cursor.written = trivia ++ token :: (cursor.skip length).written ∧
      ∀ passed ∈ trivia, passed.tag.isTrivia = true := by
  obtain ⟨trivia, split, areTrivia⟩ := tokens_significant next
  refine ⟨trivia, ?_, areTrivia⟩
  rw [written, split, List.append_cons, List.dropLast_append_of_ne_nil (tokens_ne_nil _),
    ← List.append_cons]
  rfl

theorem significant?_of_written {trivia rest : List Token} {token : Token}
    (split : cursor.written = trivia ++ token :: rest)
    (areTrivia : ∀ passed ∈ trivia, passed.tag.isTrivia = true)
    (significant : token.tag.isTrivia = false) :
    ∃ length, cursor.significant? = some (token, length) ∧
      (cursor.skip length).written = rest := by
  obtain ⟨last, ends, -⟩ := cursor.tokens_eq_written
  have notEnd : token.tag ≠ .endOfText := tag_of_mem_tokens ends (by rw [split]; simp)
  rw [split, List.append_assoc, List.cons_append] at ends
  obtain ⟨length, next, behind⟩ := significant?_of_tokens ends areTrivia significant notEnd
  refine ⟨length, next, ?_⟩
  rw [written, behind, List.dropLast_concat]

theorem offset_lt_skip_of_read {tag : Tag} {length : Nat}
    (read : Token.read? cursor.rest = some (tag, length)) :
    cursor.place.offset < (cursor.skip length).place.offset := by
  obtain ⟨positive, filled⟩ := Token.read?_pos read
  have lt := offset_skip_lt cursor positive (by rwa [skip_zero])
  rwa [skip_zero] at lt

theorem offset_of_mem_written {token : Token} (member : token ∈ cursor.written) :
    cursor.place.offset ≤ token.start.offset ∧
      token.start.offset < cursor.toEnd.place.offset := by
  induction cursor using tokens.induct with
  | case1 cursor atEnd =>
      rw [written_of_end atEnd] at member
      cases member
  | case2 cursor tag length read ih =>
      have onward := offset_lt_skip_of_read read
      rw [written_of_read read] at member
      rcases List.mem_cons.mp member with rfl | later
      · exact ⟨Nat.le_refl _, Nat.lt_of_lt_of_le onward (offset_skip_le_toEnd cursor length)⟩
      · obtain ⟨below, above⟩ := ih later
        exact ⟨Nat.le_trans (Nat.le_of_lt onward) below,
          Nat.lt_of_lt_of_le above (offset_toEnd_skip_le cursor length)⟩

/-- A brace that makes a block unsafe is one of the tokens. -/
theorem mem_written_of_unsafeBraceAt (stands : Token.UnsafeBraceAt cursor.tokens place) :
    ∃ token ∈ cursor.written, token.start = place := by
  obtain ⟨before, mark, trivia, brace, after, split, -, -, -, isBrace, start⟩ := stands
  obtain ⟨last, written, atEnd⟩ := cursor.tokens_eq_written
  have member : brace ∈ cursor.written ++ [last] := by
    rw [← written, split]
    simp
  rcases List.mem_append.mp member with inside | isLast
  · exact ⟨brace, inside, start⟩
  · rw [List.mem_singleton.mp isLast, atEnd] at isBrace
    cases isBrace

theorem offset_of_unsafeBraceAt (stands : Token.UnsafeBraceAt cursor.tokens place) :
    cursor.place.offset ≤ place.offset ∧ place.offset < cursor.toEnd.place.offset := by
  obtain ⟨token, member, rfl⟩ := mem_written_of_unsafeBraceAt stands
  exact offset_of_mem_written member

theorem braceNext_of_blockNext (block : BlockNext cursor.written) :
    ∃ place, cursor.BraceNext place := by
  obtain ⟨trivia, brace, rest, split, areTrivia, opens⟩ := block
  obtain ⟨last, written, -⟩ := cursor.tokens_eq_written
  have onward : cursor.tokens = trivia ++ brace :: (rest ++ [last]) := by
    rw [written, split, List.append_assoc, List.cons_append]
  exact ⟨brace.start, braceNext_of_tokens onward areTrivia opens rfl⟩

theorem blockNext_iff (cursor : Cursor) :
    BlockNext cursor.written ↔
      ∃ inner, cursor.rest.drop (Trivia.length cursor.rest) = '\x7b' :: inner := by
  constructor
  · intro block
    obtain ⟨place, next⟩ := braceNext_of_blockNext block
    obtain ⟨inner, found, -⟩ := next.trivia
    exact ⟨inner, found⟩
  · rintro ⟨inner, brace⟩
    obtain ⟨trivia, split, areTrivia⟩ := written_of_run (Trivia.length_run cursor.rest)
    have read : Token.read? (cursor.skip (Trivia.length cursor.rest)).rest =
        some (.openBrace, 1) := by
      rw [skip_rest, brace]
      rfl
    rw [written_of_read read] at split
    exact ⟨trivia, _, _, split, areTrivia, rfl⟩

theorem isPointerType_append {blanks : List Char} (blank : ∀ c ∈ blanks, Text.isBlank c = true)
    (rest : List Char) :
    Finding.isPointerType (blanks ++ rest) = Finding.isPointerType rest := by
  unfold Finding.isPointerType
  rw [Trivia.blankLength_append blank, ← List.drop_drop, List.drop_left]

/-- The type of a function pointer is told by its tokens. -/
theorem pointerNext_iff (cursor : Cursor) :
    PointerNext cursor.written ↔ Finding.isPointerType cursor.rest = true := by
  constructor
  · rintro ⟨blanks, paren, rest, split, areBlank, opens⟩
    induction blanks generalizing cursor with
    | nil =>
        cases read : Token.read? cursor.rest with
        | none =>
            rw [written_of_end read] at split
            cases split
        | some pair =>
            obtain ⟨tag, length⟩ := pair
            rw [written_of_read read] at split
            obtain ⟨rfl, -⟩ := List.cons.inj split
            obtain rfl : tag = .openParen := opens
            obtain ⟨inner, isParen, -⟩ := Token.read?_punctuator (d := '(') (by decide) read
            rw [isParen]
            rfl
    | cons first blanks ih =>
        cases read : Token.read? cursor.rest with
        | none =>
            rw [written_of_end read] at split
            cases split
        | some pair =>
            obtain ⟨tag, length⟩ := pair
            rw [written_of_read read] at split
            obtain ⟨rfl, behind⟩ := List.cons.inj split
            obtain ⟨isBlank, later⟩ := List.forall_mem_cons.mp areBlank
            have found := ih (cursor.skip length) behind later
            rw [skip_rest] at found
            rwa [← List.take_append_drop length cursor.rest,
              isPointerType_append (Token.isBlank_of_read? read isBlank)]
  · intro pointer
    obtain ⟨blanks, split, areBlank⟩ := written_of_run (Trivia.blankLength_run cursor.rest)
    obtain ⟨inner, isParen⟩ := List.head?_eq_some_iff.mp (eq_of_beq pointer)
    have read : Token.read? (cursor.skip (Trivia.blankLength cursor.rest)).rest =
        some (.openParen, 1) := by
      rw [skip_rest, isParen]
      rfl
    rw [written_of_read read] at split
    exact ⟨blanks, _, _, split, areBlank, rfl⟩

end Cursor

theorem Reads.significant {tokens : List Token} {scope : Scope} {cursor : Cursor} {token : Token}
    {length : Nat} (reads : Reads tokens scope cursor.written)
    (next : cursor.significant? = some (token, length)) :
    Reads tokens scope (token :: (cursor.skip length).written) := by
  obtain ⟨trivia, split, areTrivia⟩ := Cursor.written_significant next
  rw [split] at reads
  exact reads.trivia areTrivia

/-! ### Clear texts -/

/-- The token announces neither an attribute nor a macro, neither a struct nor an
enumeration. -/
def Token.IsClear (token : Token) : Prop :=
  token.tag ≠ .bang ∧ token.tag ≠ .hash ∧ token.keyword? ≠ some .struct ∧
    token.keyword? ≠ some .enum

instance (token : Token) : Decidable token.IsClear :=
  inferInstanceAs (Decidable (_ ∧ _))

namespace Cursor

/-- What the cursor has left reads the same in pieces, and all its tokens are clear. -/
structure Clear (cursor : Cursor) : Prop where
  plain : Token.AllPlain cursor.rest
  tokens : ∀ token ∈ cursor.tokens, token.IsClear

variable {cursor : Cursor} {count : Nat} {place : Position}

theorem Clear.skip (clear : cursor.Clear) (whole : Token.Whole cursor.rest count) :
    (cursor.skip count).Clear where
  plain := clear.plain.drop whole
  tokens token member := by
    obtain ⟨passed, split, -⟩ := tokens_window whole
    apply clear.tokens
    rw [split]
    exact List.mem_append_right _ member

theorem Clear.window (clear : cursor.Clear) (whole : Token.Whole cursor.rest count) :
    (cursor.window count).Clear where
  plain := clear.plain.take whole
  tokens token member := by
    obtain ⟨passed, split, window⟩ := tokens_window whole
    rw [window] at member
    rcases List.mem_append.mp member with inside | isLast
    · apply clear.tokens
      rw [split]
      exact List.mem_append_left _ inside
    · rw [List.mem_singleton.mp isLast]
      exact ⟨nofun, nofun, nofun, nofun⟩

theorem whole_of_significant {token : Token} {length : Nat}
    (next : cursor.significant? = some (token, length)) : Token.Whole cursor.rest length := by
  obtain ⟨trivia, size, run, read, -, rfl, -, -⟩ := significant?_eq_some next
  exact run.whole.append (.single read trivial)

theorem Clear.significant {token : Token} {length : Nat} (clear : cursor.Clear)
    (next : cursor.significant? = some (token, length)) :
    token.IsClear ∧ (cursor.skip length).Clear := by
  constructor
  · obtain ⟨trivia, split, -⟩ := tokens_significant next
    apply clear.tokens
    rw [split]
    simp
  · exact clear.skip (whole_of_significant next)

/-! ### Stretches that are stepped over -/

theorem Clear.close (clear : cursor.Clear) (kind : Delimiter) :
    Token.Fenced cursor.rest (kind.closeLength cursor.rest) :=
  Token.fenced_of_atoms clear.plain (kind.closeFrom_fenced 0 false 0 _ (Nat.zero_add _).symm)

theorem Clear.head (clear : cursor.Clear) (groups : List Delimiter) :
    Token.Fenced cursor.rest (Head.read groups cursor.rest).length :=
  Token.fenced_of_atoms clear.plain (Head.read_fenced groups cursor.rest)

theorem Clear.full (clear : cursor.Clear) (groups : List Delimiter) :
    Token.Fenced cursor.rest ((Head.read groups cursor.rest).fullLength cursor.rest) := by
  have head := clear.head groups
  unfold Head.fullLength Head.bodyLength?
  cases (Head.read groups cursor.rest).ending with
  | brace => exact head.append ((clear.skip head.whole).close .brace)
  | endOfText => exact head
  | semicolon => exact head

/-- An unsafe brace behind a head stands in the body or behind that. -/
theorem Clear.body_cases (clear : cursor.Clear) (groups : List Delimiter)
    (stands : Token.UnsafeBraceAt
      (cursor.skip (Head.read groups cursor.rest).length).tokens place) :
    Token.UnsafeBraceAt (cursor.bodyBehind groups).tokens place ∨
      Token.UnsafeBraceAt
        (cursor.skip ((Head.read groups cursor.rest).fullLength cursor.rest)).tokens place := by
  have head := clear.head groups
  unfold bodyBehind Head.fullLength Head.bodyLength?
  dsimp only
  cases (Head.read groups cursor.rest).ending with
  | brace =>
      rw [Option.getD_some, Nat.add_sub_cancel_left, ← skip_skip]
      exact unsafeBraceAt_cases ((clear.skip head.whole).close .brace) stands
  | endOfText => exact .inr stands
  | semicolon => exact .inr stands

theorem bodyBehind_toEnd_place (groups : List Delimiter) (cursor : Cursor) :
    (cursor.bodyBehind groups).toEnd.place =
      (cursor.skip ((Head.read groups cursor.rest).fullLength cursor.rest)).place := by
  unfold bodyBehind
  rw [toEnd_window_place, skip_skip, Head.fullLength, Nat.add_sub_cancel_left]

theorem Clear.bodyBehind (clear : cursor.Clear) (groups : List Delimiter) :
    (cursor.bodyBehind groups).Clear := by
  have head := clear.head groups
  have atBody := clear.skip head.whole
  unfold Cursor.bodyBehind Head.fullLength Head.bodyLength?
  dsimp only
  cases (Head.read groups cursor.rest).ending with
  | brace =>
      rw [Option.getD_some, Nat.add_sub_cancel_left]
      exact atBody.window (atBody.close .brace).whole
  | endOfText =>
      rw [Option.getD_none, Nat.add_zero, Nat.sub_self]
      exact atBody.window (.nothing _)
  | semicolon =>
      rw [Option.getD_none, Nat.add_zero, Nat.sub_self]
      exact atBody.window (.nothing _)

end Cursor

end Survey
