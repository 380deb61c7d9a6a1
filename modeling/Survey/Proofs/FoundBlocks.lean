import Survey.Proofs.SteppedOver
import Survey.Proofs.VainSearches

set_option autoImplicit false

/-!
# Unsafe blocks are found or stepped over

In a file without attributes, macros, structs and enumerations a survey accounts for every brace
behind an unsafe mark. Each reader leads to one of three ends: the brace stands in a block that
is found, in a stretch that is stepped over, or behind what the reader passes, where the survey
goes on.
-/

namespace Survey

/-! ### Unsafe blocks that are found -/

/-- The place lies in the extent. -/
def Extent.Covers (extent : Extent) (place : Position) : Prop :=
  extent.start.offset ≤ place.offset ∧ place.offset < extent.stop.offset

namespace Finding

variable {tokens : List Token} {scope : Scope} {found : List Finding} {cursor : Cursor}
  {place : Position} {token : Token} {owner : Owner}

/-- The place lies in an unsafe block that was found. -/
def InBlock (found : List Finding) (place : Position) : Prop :=
  ∃ extent, ⟨.unsafeBlock, extent⟩ ∈ outlines found ∧ extent.Covers place

theorem InBlock.mono {more : List Finding} (inBlock : InBlock found place)
    (foundMore : outlines found ⊆ outlines more) : InBlock more place := by
  obtain ⟨extent, member, covers⟩ := inBlock
  exact ⟨extent, foundMore member, covers⟩

theorem afterUnsafe_braceNext (next : cursor.BraceNext place) :
    InBlock (afterUnsafe cursor).found place := by
  obtain ⟨inner, brace, rfl⟩ := next.trivia
  rw [afterUnsafe_of_brace brace]
  refine ⟨_, List.mem_singleton_self _, Nat.le_refl _, ?_⟩
  apply Cursor.offset_skip_lt
  · omega
  · rw [Cursor.skip_rest, brace]
    exact List.cons_ne_nil _ _

theorem afterUnsafe_length_of_other
    (other : ¬ ∃ inner, cursor.rest.drop (Trivia.length cursor.rest) = '\x7b' :: inner) :
    (afterUnsafe cursor).length = 0 := by
  refine (afterUnsafe_of_other ?_).1
  intro first
  exact other (List.head?_eq_some_iff.mp first)

/-- A block that is found behind an unsafe mark is a group of tokens. -/
theorem afterUnsafe_block (clear : cursor.Clear) {inner : List Char}
    (brace : cursor.rest.drop (Trivia.length cursor.rest) = '\x7b' :: inner) :
    ∃ trivia opener group,
      cursor.written =
        trivia ++ opener :: (group ++ (cursor.skip (afterUnsafe cursor).length).written) ∧
      (∀ passed ∈ trivia, passed.tag.isTrivia = true) ∧ opener.tag = .openBrace ∧
      Delimiter.brace.Group group (cursor.skip (afterUnsafe cursor).length).written := by
  obtain ⟨trivia, split, areTrivia⟩ := Cursor.written_of_run (Trivia.length_run cursor.rest)
  have read : Token.read? (cursor.skip (Trivia.length cursor.rest)).rest =
      some (.openBrace, 1) := by
    rw [Cursor.skip_rest, brace]
    rfl
  have whole := (Trivia.length_run cursor.rest).whole.append (.single read trivial)
  obtain ⟨group, behind, isGroup⟩ := Delimiter.brace.closeLength_group
    (cursor.skip (Trivia.length cursor.rest + 1)) (clear.skip whole).plain
  have rest : (cursor.skip (Trivia.length cursor.rest + 1)).rest = inner := by
    rw [Cursor.skip_rest, ← List.drop_drop, brace]
    rfl
  rw [Cursor.skip_skip, rest] at behind isGroup
  rw [Cursor.written_of_read read, Cursor.skip_skip, behind] at split
  rw [afterUnsafe_of_brace brace]
  exact ⟨trivia, _, group, split, areTrivia, rfl, isGroup⟩

/-- Behind an unsafe mark a brace stands in its block or behind what was read. -/
theorem afterUnsafe_inBlock (clear : cursor.Clear)
    (stands : Token.UnsafeBraceAt cursor.tokens place) :
    InBlock (afterUnsafe cursor).found place ∨
      Token.UnsafeBraceAt (cursor.skip (afterUnsafe cursor).length).tokens place := by
  cases behind : cursor.rest.drop (Trivia.length cursor.rest) with
  | nil =>
      right
      rwa [afterUnsafe_of_nil behind, Cursor.skip_zero]
  | cons c inner =>
      by_cases isBrace : c = '\x7b'
      · subst isBrace
        have read : Token.read? (cursor.rest.drop (Trivia.length cursor.rest)) =
            some (.openBrace, 1) := by
          rw [behind]
          rfl
        have next := Cursor.significant?_of_run (Trivia.length_run cursor.rest) read rfl
        obtain ⟨-, inside⟩ := clear.significant next
        rcases Cursor.unsafeBraceAt_significant next stands with ⟨marks, -⟩ | later
        · cases marks
        · have rest : (cursor.skip (Trivia.length cursor.rest + 1)).rest = inner := by
            rw [Cursor.skip_rest, ← List.drop_drop, behind]
            rfl
          rw [afterUnsafe_of_brace behind, ← rest]
          rcases Cursor.unsafeBraceAt_cases (inside.close .brace) later with within | beyond
          · left
            obtain ⟨below, above⟩ := Cursor.offset_of_unsafeBraceAt within
            rw [Cursor.toEnd_window_place, Cursor.skip_skip] at above
            refine ⟨_, List.mem_singleton_self _, ?_, above⟩
            exact Nat.le_trans (Cursor.offset_skip_le cursor (Nat.le_succ _)) below
          · right
            rwa [Cursor.skip_skip] at beyond
      · right
        rwa [afterUnsafe_of_char behind isBrace, Visit.skipped, Cursor.skip_zero]

/-- In the body of a function every unsafe brace stands in a block that is found. -/
theorem unsafeIn_inBlock (clear : cursor.Clear)
    (stands : Token.UnsafeBraceAt cursor.tokens place) : InBlock (unsafeIn cursor) place := by
  induction cursor using Cursor.significant_induction with
  | atEnd cursor atEnd => exact absurd stands (Cursor.not_unsafeBraceAt_of_none atEnd)
  | onward cursor token length next ih =>
      obtain ⟨⟨-, notHash, -⟩, inside⟩ := clear.significant next
      rw [unsafeIn_of_some next]
      by_cases marks : token.keyword? = some .unsafeMark
      · have visit : inBody token (cursor.skip length) = afterUnsafe (cursor.skip length) := by
          unfold inBody
          rw [if_neg notHash, if_pos marks]
        have settles : InBlock (afterUnsafe (cursor.skip length)).found place ∨
            Token.UnsafeBraceAt ((cursor.skip length).skip
              (afterUnsafe (cursor.skip length)).length).tokens place := by
          rcases Cursor.unsafeBraceAt_significant next stands with ⟨-, brace⟩ | later
          · exact .inl (afterUnsafe_braceNext brace)
          · exact afterUnsafe_inBlock inside later
        rw [visit]
        rcases settles with inBlock | later
        · refine inBlock.mono ?_
          rw [outlines_append]
          exact List.subset_append_left _ _
        · have beyond := inside.skip (afterUnsafe_whole inside.plain)
          rw [Cursor.skip_skip] at later beyond
          refine (ih _ beyond later).mono ?_
          rw [outlines_append]
          exact List.subset_append_right _ _
      · have visit : inBody token (cursor.skip length) = .skipped 0 := by
          unfold inBody
          rw [if_neg notHash, if_neg marks]
        rw [visit]
        rcases Cursor.unsafeBraceAt_significant next stands with ⟨isMark, -⟩ | later
        · exact absurd isMark marks
        · exact ih 0 inside later

/-! ### Every unsafe brace is accounted for -/

/-- The place lies in an unsafe block that was found, or is overlooked. -/
def Settled (tokens : List Token) (found : List Finding) (place : Position) : Prop :=
  InBlock found place ∨ Overlooked tokens place

theorem Settled.mono {more : List Finding} (settled : Settled tokens found place)
    (foundMore : outlines found ⊆ outlines more) : Settled tokens more place :=
  settled.imp_left (·.mono foundMore)

/-- A survey goes on at the cursor, and the brace stands there. -/
structure Ahead (tokens : List Token) (scope : Scope) (cursor : Cursor) (place : Position) :
    Prop where
  reads : Reads tokens scope cursor.written
  stands : Token.UnsafeBraceAt cursor.tokens place

theorem overlooked_of_unwatched {left : List Token} (reads : Reads tokens scope left)
    (unwatched : Unwatched scope left cursor.written)
    (stands : Token.UnsafeBraceAt cursor.tokens place) : Overlooked tokens place :=
  ⟨scope, left, _, reads, unwatched, Cursor.mem_written_of_unsafeBraceAt stands⟩

/-- A brace behind the keyword of a declaration stands in its head, which is overlooked, in its
body, or behind it. -/
theorem declaration_cases {keyword : Keyword} (clear : cursor.Clear)
    (reads : Reads tokens scope (token :: cursor.written))
    (announces : token.keyword? = some keyword)
    (declared : DeclaredIn scope keyword cursor.written)
    (stands : Token.UnsafeBraceAt cursor.tokens place) :
    ∃ head kept ending body,
      cursor.Declares (headGroups keyword) head kept ending body ∧
      Declaration scope keyword token cursor.written head kept ending body
        (cursor.skip ((Head.read (headGroups keyword) cursor.rest).fullLength
          cursor.rest)).written ∧
      (Overlooked tokens place ∨
        Token.UnsafeBraceAt
          (cursor.skip (Head.read (headGroups keyword) cursor.rest).length).tokens place) := by
  obtain ⟨head, kept, ending, body, declares⟩ :=
    Cursor.exists_declares (headGroups keyword) cursor clear.plain
  have declaration : Declaration scope keyword token cursor.written head kept ending body _ :=
    ⟨announces, declared, declares.parts⟩
  refine ⟨head, kept, ending, body, declares, declaration, ?_⟩
  rcases Cursor.unsafeBraceAt_cases (clear.head (headGroups keyword)) stands with inHead | behind
  · left
    refine overlooked_of_unwatched reads ?_ inHead
    rw [declares.atHead]
    exact .head declaration
  · exact .inr behind

/-! ### Heads that name nothing -/

section Heads

variable {head kept ending body : List Token}

theorem namesNothing_function (declares : cursor.Declares signatureGroups head kept ending body) :
    NamesNothing .function head kept ↔ (Signature.functionParts
      ((Head.read signatureGroups cursor.rest).signature cursor.rest)).name = [] := by
  rw [Signature.functionParts_name_eq_nil_iff, ← declares.signature]
  rfl

theorem namesNothing_trait (declares : cursor.Declares [.angle, .paren] head kept ending body) :
    NamesNothing .trait head kept ↔
      Signature.leadingName (Head.read [.angle, .paren] cursor.rest).kept = [] := by
  rw [Signature.leadingName_eq_nil_iff, ← declares.kept]
  rfl

theorem namesNothing_implementation
    (declares : cursor.Declares signatureGroups head kept ending body) :
    NamesNothing .implementation head kept ↔ Signature.target?
      ((Head.read signatureGroups cursor.rest).signature cursor.rest) = none := by
  rw [Signature.target?_eq_none_iff, ← declares.signature]
  rfl

theorem isEntered_implementation
    (declares : cursor.Declares signatureGroups head kept ending body) :
    IsEntered .implementation head kept ending ↔
      ¬ ((Head.read signatureGroups cursor.rest).ending = .brace → Signature.target?
        ((Head.read signatureGroups cursor.rest).signature cursor.rest) = none) := by
  rw [IsEntered, namesNothing_implementation declares, declares.closing.exists_brace_iff,
    Classical.not_imp]
  exact ⟨And.right, fun both => ⟨rfl, both⟩⟩

end Heads

/-! ### Functions -/

theorem afterFunction_settles (clear : cursor.Clear)
    (reads : Reads tokens scope (token :: cursor.written))
    (announces : token.keyword? = some .function) (owner : Owner) (start : Position)
    (stands : Token.UnsafeBraceAt cursor.tokens place) :
    Settled tokens (afterFunction owner start cursor).found place ∨
      Ahead tokens scope (cursor.skip (afterFunction owner start cursor).length) place := by
  by_cases pointer : isPointerType cursor.rest = true
  · right
    have passed : ¬ Announces scope token cursor.written :=
      not_announces_of_keyword announces (fun _ => cursor.pointerNext_iff.mpr pointer)
        (fun _ => ⟨nofun, nofun⟩) (fun _ => nofun)
    rw [afterFunction_of_pointer pointer, Visit.skipped, Cursor.skip_zero]
    exact ⟨reads.onward passed, stands⟩
  · have declared : DeclaredIn scope .function cursor.written :=
      .inl ⟨rfl, fun next => pointer (cursor.pointerNext_iff.mp next)⟩
    obtain ⟨head, kept, ending, body, declares, declaration, cases⟩ :=
      declaration_cases clear reads announces declared stands
    rw [show headGroups .function = signatureGroups from rfl] at declares declaration cases
    have names := namesNothing_function declares
    unfold afterFunction
    dsimp only
    rw [if_neg pointer]
    rcases cases with overlooked | behind
    · exact .inl (.inr overlooked)
    · rcases clear.body_cases signatureGroups behind with inBody | beyond
      · left
        by_cases unnamed : (Signature.functionParts
            ((Head.read signatureGroups cursor.rest).signature cursor.rest)).name.isEmpty = true
        · right
          refine overlooked_of_unwatched reads ?_ inBody
          rw [declares.atBody]
          exact .body declaration (names.mpr (List.isEmpty_iff.mp unnamed))
        · left
          rw [if_neg unnamed]
          refine (unsafeIn_inBlock (clear.bodyBehind signatureGroups) inBody).mono ?_
          unfold ofFunction
          rw [outlines_append, outlines_append]
          exact List.subset_append_of_subset_right _ (List.subset_append_left _ _)
      · right
        refine ⟨reads.declaration declaration ?_, beyond⟩
        rintro ⟨isImplementation, -⟩
        cases isImplementation

theorem afterFunction_whole (clear : cursor.Clear) (owner : Owner) (start : Position) :
    Token.Whole cursor.rest (afterFunction owner start cursor).length := by
  unfold afterFunction
  split
  · exact .nothing _
  · exact (clear.full signatureGroups).whole

/-! ### Items -/

theorem amongItems_whole (clear : cursor.Clear) (owner : Owner) {token : Token}
    (isClear : token.IsClear) :
    Token.Whole cursor.rest (amongItems owner token cursor).length := by
  obtain ⟨notBang, notHash, -⟩ := isClear
  unfold amongItems
  split
  · exact (clear.close .brace).whole
  · rename_i isBang
    exact absurd isBang notBang
  · rename_i isHash
    exact absurd isHash notHash
  · split
    · exact afterFunction_whole clear owner token.start
    · exact .nothing _

theorem items_whole (clear : cursor.Clear) (owner : Owner) :
    Token.Whole cursor.rest (items owner cursor).length := by
  induction cursor using Cursor.significant_induction with
  | atEnd cursor atEnd =>
      rw [items_of_none atEnd]
      exact .to_end cursor.rest
  | onward cursor token length next ih =>
      obtain ⟨isClear, inside⟩ := clear.significant next
      have first := Cursor.whole_of_significant next
      by_cases closes : token.tag = .closeBrace
      · rw [items_of_close next closes]
        exact first
      · rw [items_of_some next closes]
        have item := first.append (amongItems_whole inside owner isClear)
        exact item.append (ih _ (clear.skip item))

/-- A group among the items is overlooked with its brace. -/
theorem group_settles (clear : cursor.Clear) (reads : Reads tokens scope (token :: cursor.written))
    (inItems : scope ≠ .file) (opens : token.tag = .openBrace) :
    Reads tokens scope (cursor.skip (Delimiter.brace.closeLength cursor.rest)).written ∧
      Overlooked tokens token.start ∧
      ∀ place, Token.UnsafeBraceAt
          (cursor.window (Delimiter.brace.closeLength cursor.rest)).tokens place →
        Overlooked tokens place := by
  obtain ⟨group, split, isGroup⟩ := Delimiter.brace.closeLength_group cursor clear.plain
  have window := Cursor.written_window (clear.close .brace).whole
  obtain rfl := List.append_cancel_right (split.symm.trans window)
  rw [split] at reads
  have unwatched : Unwatched scope _ (token :: _) := .group inItems opens isGroup
  refine ⟨reads.group inItems opens isGroup,
    ⟨scope, _, _, reads, unwatched, token, List.mem_cons_self, rfl⟩, ?_⟩
  intro place stands
  obtain ⟨inner, member, start⟩ := Cursor.mem_written_of_unsafeBraceAt stands
  exact ⟨scope, _, _, reads, unwatched, inner, List.mem_cons_of_mem _ member, start⟩

/-- What a token among the items leads to settles what stands behind the token. -/
theorem amongItems_settles (clear : cursor.Clear)
    (reads : Reads tokens scope (token :: cursor.written)) (inItems : scope ≠ .file)
    (notClose : token.tag ≠ .closeBrace) (isClear : token.IsClear) (owner : Owner)
    (stands : Token.UnsafeBraceAt cursor.tokens place) :
    Settled tokens (amongItems owner token cursor).found place ∨
      Ahead tokens scope (cursor.skip (amongItems owner token cursor).length) place := by
  obtain ⟨notBang, notHash, -⟩ := isClear
  unfold amongItems
  split
  · rename_i opens
    obtain ⟨later, -, inGroup⟩ := group_settles clear reads inItems opens
    rcases Cursor.unsafeBraceAt_cases (clear.close .brace) stands with inside | beyond
    · exact .inl (.inr (inGroup place inside))
    · exact .inr ⟨later, beyond⟩
  · rename_i isBang
    exact absurd isBang notBang
  · rename_i isHash
    exact absurd isHash notHash
  · rename_i notBrace _ _
    have notOpen : token.tag ≠ .openBrace := notBrace
    by_cases announces : token.keyword? = some .function
    · rw [if_pos announces]
      exact afterFunction_settles clear reads announces owner token.start stands
    · rw [if_neg announces, Visit.skipped, Cursor.skip_zero]
      refine .inr ⟨reads.onward ?_, stands⟩
      cases scope with
      | file => exact absurd rfl inItems
      | implementation => simp [Announces, announces, notOpen, notClose]
      | trait => simp [Announces, announces, notOpen, notClose]

/-- A survey of items goes on at the cursor, and the brace comes next or stands there. -/
structure AheadAmong (tokens : List Token) (scope : Scope) (cursor : Cursor) (place : Position) :
    Prop where
  reads : Reads tokens scope cursor.written
  stands : cursor.BraceNext place ∨ Token.UnsafeBraceAt cursor.tokens place

/-- A token among the items of a body settles a brace, or leaves it to what comes later. The
brace may be the token itself: it then opens a group that is stepped over. -/
theorem item_settles (clear : cursor.Clear) (ahead : AheadAmong tokens scope cursor place)
    (inItems : scope ≠ .file) (owner : Owner) {length : Nat}
    (next : cursor.significant? = some (token, length)) (notClose : token.tag ≠ .closeBrace) :
    Settled tokens (amongItems owner token (cursor.skip length)).found place ∨
      AheadAmong tokens scope (cursor.skip (length + (amongItems owner token
        (cursor.skip length)).length)) place := by
  obtain ⟨reads, stands⟩ := ahead
  obtain ⟨isClear, inside⟩ := clear.significant next
  have reads := reads.significant next
  rcases stands with ⟨other, size, nextOther, opens, rfl⟩ | stands
  · rw [next] at nextOther
    cases nextOther
    obtain ⟨-, overlooked, -⟩ := group_settles inside reads inItems opens
    exact .inl (.inr overlooked)
  · rcases Cursor.unsafeBraceAt_significant next stands with ⟨marks, brace⟩ | later
    · right
      have stays : amongItems owner token (cursor.skip length) = .skipped 0 := by
        unfold amongItems
        rw [(Token.lexeme_of_keyword? marks).1, marks]
        rfl
      have passed : ¬ Announces scope token (cursor.skip length).written :=
        not_announces_of_keyword marks nofun (fun isFile => absurd isFile inItems)
          (fun isFile => absurd isFile inItems)
      rw [stays]
      exact ⟨reads.onward passed, .inl brace⟩
    · rcases amongItems_settles inside reads inItems notClose isClear owner later with
        settled | behind
      · exact .inl settled
      · rw [Cursor.skip_skip] at behind
        exact .inr ⟨behind.reads, .inr behind.stands⟩

/-- The brace that closes a body is not one that is looked for. -/
theorem close_leaves {length : Nat} (next : cursor.significant? = some (token, length))
    (closes : token.tag = .closeBrace)
    (stands : cursor.BraceNext place ∨ Token.UnsafeBraceAt cursor.tokens place) :
    Token.UnsafeBraceAt (cursor.skip length).tokens place := by
  rcases stands with ⟨other, size, nextOther, opens, -⟩ | stands
  · rw [next] at nextOther
    cases nextOther
    rw [closes] at opens
    cases opens
  · rcases Cursor.unsafeBraceAt_significant next stands with ⟨marks, -⟩ | later
    · rw [(Token.lexeme_of_keyword? marks).1] at closes
      cases closes
    · exact later

/-- A brace among the items of a body is settled, or stands behind the brace that closes it. -/
theorem items_settles (clear : cursor.Clear) (ahead : AheadAmong tokens scope cursor place)
    (inItems : scope ≠ .file) (owner : Owner) :
    Settled tokens (items owner cursor).found place ∨
      ∃ close : Token, close.tag = .closeBrace ∧
        Reads tokens scope (close :: (cursor.skip (items owner cursor).length).written) ∧
        Token.UnsafeBraceAt (cursor.skip (items owner cursor).length).tokens place := by
  induction cursor using Cursor.significant_induction with
  | atEnd cursor atEnd =>
      rcases ahead.stands with ⟨token, length, next, -⟩ | stands
      · rw [atEnd] at next
        cases next
      · exact absurd stands (Cursor.not_unsafeBraceAt_of_none atEnd)
  | onward cursor token length next ih =>
      by_cases closes : token.tag = .closeBrace
      · rw [items_of_close next closes]
        exact .inr ⟨token, closes, ahead.reads.significant next,
          close_leaves next closes ahead.stands⟩
      · rw [items_of_some next closes]
        obtain ⟨isClear, inside⟩ := clear.significant next
        have beyond := inside.skip (amongItems_whole inside owner isClear)
        rw [Cursor.skip_skip] at beyond
        rcases item_settles clear ahead inItems owner next closes with settled | behind
        · refine .inl (settled.mono ?_)
          rw [outlines_append]
          exact List.subset_append_left _ _
        · rcases ih _ beyond behind with settled | ⟨close, isClose, reads, further⟩
          · refine .inl (settled.mono ?_)
            rw [outlines_append]
            exact List.subset_append_right _ _
          · rw [Cursor.skip_skip] at reads further
            exact .inr ⟨close, isClose, reads, further⟩

/-! ### Declarations -/

theorem afterTrait_settles (clear : cursor.Clear)
    (reads : Reads tokens .file (token :: cursor.written))
    (announces : token.keyword? = some .trait) (start : Position)
    (stands : Token.UnsafeBraceAt cursor.tokens place) :
    Settled tokens (afterTrait start cursor).found place ∨
      Ahead tokens .file (cursor.skip (afterTrait start cursor).length) place := by
  obtain ⟨head, kept, ending, body, declares, declaration, cases⟩ :=
    declaration_cases clear reads announces (.inr ⟨rfl, .inl rfl⟩) stands
  rw [show headGroups .trait = [.angle, .paren] from rfl] at declares declaration cases
  obtain ⟨name, hasName⟩ : ∃ name, String.ofList (Signature.leadingName
      (Head.read [.angle, .paren] cursor.rest).kept) = name := ⟨_, rfl⟩
  have names : NamesNothing .trait head kept ↔ name.isEmpty = true := by
    rw [namesNothing_trait declares, ← hasName]
    simp
  rw [afterTrait_length]
  rcases cases with overlooked | behind
  · exact .inl (.inr overlooked)
  · rcases clear.body_cases [.angle, .paren] behind with inBody | beyond
    · left
      by_cases unnamed : name.isEmpty = true
      · right
        refine overlooked_of_unwatched reads ?_ inBody
        rw [declares.atBody]
        exact .body declaration (names.mpr unnamed)
      · cases hasBody : (Head.read [.angle, .paren] cursor.rest).bodyLength? cursor.rest with
        | none =>
            obtain ⟨inner, member, -⟩ := Cursor.mem_written_of_unsafeBraceAt inBody
            rw [Cursor.written_bodyBehind_of_none hasBody] at member
            cases member
        | some count =>
            obtain ⟨functions, found⟩ := afterTrait_of_body start hasName unnamed hasBody
            have inside : Reads tokens .trait (cursor.bodyBehind [.angle, .paren]).written := by
              rw [declares.atBody]
              exact reads.trait declaration (fun nothing => unnamed (names.mp nothing))
            rcases items_settles (clear.bodyBehind [.angle, .paren]) ⟨inside, .inr inBody⟩ nofun
              ⟨none, some name⟩ with settled | ⟨close, closes, reads, leftOver⟩
            · refine settled.mono ?_
              rw [found, outlines_cons, outlines_append]
              exact List.subset_append_of_subset_right _ (List.subset_append_left _ _)
            · exact .inr (overlooked_of_unwatched reads (.leftOver closes) leftOver)
    · refine .inr ⟨reads.declaration declaration ?_, beyond⟩
      rintro ⟨isImplementation, -⟩
      cases isImplementation

theorem afterImplementation_length_of_unresolved (start : Position)
    (unresolved : (Head.read signatureGroups cursor.rest).ending = .brace →
      Signature.target? ((Head.read signatureGroups cursor.rest).signature cursor.rest) = none) :
    (afterImplementation start cursor).length =
      (Head.read signatureGroups cursor.rest).fullLength cursor.rest := by
  unfold afterImplementation
  cases ending : (Head.read signatureGroups cursor.rest).ending with
  | endOfText => simp [ending, Head.fullLength, Head.bodyLength?]
  | semicolon => simp [ending, Head.fullLength, Head.bodyLength?, Visit.skipped]
  | brace => simp [ending, unresolved ending]

theorem afterImplementation_length_of_resolved (start : Position) {resolved : Signature.Target}
    (brace : (Head.read signatureGroups cursor.rest).ending = .brace)
    (isResolved : Signature.target?
      ((Head.read signatureGroups cursor.rest).signature cursor.rest) = some resolved) :
    (afterImplementation start cursor).length =
      (Head.read signatureGroups cursor.rest).length +
        (items ⟨some (String.ofList resolved.typeName), resolved.traitName?.map String.ofList⟩
          (cursor.skip (Head.read signatureGroups cursor.rest).length)).length := by
  unfold afterImplementation
  simp [brace, isResolved]

theorem afterImplementation_settles (clear : cursor.Clear)
    (reads : Reads tokens .file (token :: cursor.written))
    (announces : token.keyword? = some .implementation) (start : Position)
    (stands : Token.UnsafeBraceAt cursor.tokens place) :
    Settled tokens (afterImplementation start cursor).found place ∨
      Ahead tokens .file (cursor.skip (afterImplementation start cursor).length) place := by
  obtain ⟨head, kept, ending, body, declares, declaration, cases⟩ :=
    declaration_cases clear reads announces (.inr ⟨rfl, .inr rfl⟩) stands
  rw [show headGroups .implementation = signatureGroups from rfl] at declares declaration cases
  have names := namesNothing_implementation declares
  have entered := isEntered_implementation declares
  rcases cases with overlooked | behind
  · exact .inl (.inr overlooked)
  · by_cases unresolved : (Head.read signatureGroups cursor.rest).ending = .brace →
        Signature.target? ((Head.read signatureGroups cursor.rest).signature cursor.rest) = none
    · rw [afterImplementation_length_of_unresolved start unresolved]
      rcases clear.body_cases signatureGroups behind with inBody | beyond
      · cases hasBody : (Head.read signatureGroups cursor.rest).bodyLength? cursor.rest with
        | none =>
            obtain ⟨inner, member, -⟩ := Cursor.mem_written_of_unsafeBraceAt inBody
            rw [Cursor.written_bodyBehind_of_none hasBody] at member
            cases member
        | some count =>
            obtain ⟨brace, -⟩ := Head.bodyLength?_eq_some hasBody
            refine .inl (.inr (overlooked_of_unwatched reads ?_ inBody))
            rw [declares.atBody]
            exact .body declaration (names.mpr (unresolved brace))
      · have passed := fun isEntered => entered.mp isEntered unresolved
        exact .inr ⟨reads.declaration declaration passed, beyond⟩
    · obtain ⟨brace, isResolved⟩ := Classical.not_imp.mp unresolved
      obtain ⟨resolved, isResolved⟩ := Option.ne_none_iff_exists'.mp isResolved
      obtain ⟨methods, found⟩ := afterImplementation_of_resolved start rfl brace isResolved
      have inside : Reads tokens .implementation
          (cursor.skip (Head.read signatureGroups cursor.rest).length).written := by
        rw [declares.behindHead]
        exact reads.implementation declaration (entered.mpr unresolved)
      have onward := clear.skip (clear.head signatureGroups).whole
      rw [afterImplementation_length_of_resolved start brace isResolved, found, ← Cursor.skip_skip]
      rcases items_settles onward ⟨inside, .inr behind⟩ nofun
        ⟨some (String.ofList resolved.typeName), resolved.traitName?.map String.ofList⟩ with
        settled | ⟨close, closes, reads, beyond⟩
      · refine .inl (settled.mono ?_)
        rw [outlines_append, outlines_append]
        exact List.subset_append_of_subset_right _ (List.subset_append_left _ _)
      · exact .inr ⟨reads.close closes, beyond⟩

/-! ### Files -/

theorem inFile_of_clear (config : Config) (inDefinition : Bool) {token : Token}
    (isClear : token.IsClear) (cursor : Cursor) :
    inFile config inDefinition token cursor =
      match token.keyword? with
      | some .function => afterFunction .none token.start cursor
      | some .trait => afterTrait token.start cursor
      | some .implementation => afterImplementation token.start cursor
      | some .unsafeMark => afterUnsafe cursor
      | _ => .skipped 0 := by
  obtain ⟨notBang, notHash, notStruct, notEnum⟩ := isClear
  rw [inFile_of_unmarked config inDefinition ⟨notBang, notHash⟩]
  cases announces : token.keyword? with
  | none => rfl
  | some keyword =>
      cases keyword with
      | struct => exact absurd announces notStruct
      | enum => exact absurd announces notEnum
      | _ => rfl

theorem inFile_whole (clear : cursor.Clear) (config : Config) (inDefinition : Bool) {token : Token}
    (isClear : token.IsClear) :
    Token.Whole cursor.rest (inFile config inDefinition token cursor).length := by
  rw [inFile_of_clear config inDefinition isClear]
  split
  · exact afterFunction_whole clear .none token.start
  · rw [afterTrait_length]
    exact (clear.full [.angle, .paren]).whole
  · by_cases unresolved : (Head.read signatureGroups cursor.rest).ending = .brace →
        Signature.target? ((Head.read signatureGroups cursor.rest).signature cursor.rest) = none
    · rw [afterImplementation_length_of_unresolved token.start unresolved]
      exact (clear.full signatureGroups).whole
    · obtain ⟨brace, isResolved⟩ := Classical.not_imp.mp unresolved
      obtain ⟨resolved, isResolved⟩ := Option.ne_none_iff_exists'.mp isResolved
      have head := (clear.head signatureGroups).whole
      rw [afterImplementation_length_of_resolved token.start brace isResolved]
      exact head.append (items_whole (clear.skip head) _)
  · exact afterUnsafe_whole clear.plain
  · exact .nothing _

/-- Behind an unsafe mark a survey goes on behind its block, or with the next token. -/
theorem afterUnsafe_reads (clear : cursor.Clear)
    (reads : Reads tokens .file (token :: cursor.written))
    (marks : token.keyword? = some .unsafeMark) :
    Reads tokens .file (cursor.skip (afterUnsafe cursor).length).written := by
  by_cases brace : ∃ inner, cursor.rest.drop (Trivia.length cursor.rest) = '\x7b' :: inner
  · obtain ⟨inner, brace⟩ := brace
    obtain ⟨trivia, opener, group, split, areTrivia, opens, isGroup⟩ :=
      afterUnsafe_block clear brace
    rw [split] at reads
    exact reads.block marks areTrivia opens isGroup
  · have noBlock : ¬ BlockNext cursor.written := fun block => brace (cursor.blockNext_iff.mp block)
    have passed : ¬ Announces .file token cursor.written :=
      not_announces_of_keyword marks nofun (fun _ => ⟨nofun, nofun⟩) (fun _ _ => noBlock)
    rw [afterUnsafe_length_of_other brace, Cursor.skip_zero]
    exact reads.onward passed

theorem inFile_settles (clear : cursor.Clear) (reads : Reads tokens .file (token :: cursor.written))
    (isClear : token.IsClear) (config : Config) (inDefinition : Bool)
    (stands : token.keyword? = some .unsafeMark ∧ cursor.BraceNext place ∨
      Token.UnsafeBraceAt cursor.tokens place) :
    Settled tokens (inFile config inDefinition token cursor).found place ∨
      Ahead tokens .file (cursor.skip (inFile config inDefinition token cursor).length) place := by
  rw [inFile_of_clear config inDefinition isClear]
  -- Only behind an unsafe mark the brace may come next.
  have behind : token.keyword? ≠ some .unsafeMark → Token.UnsafeBraceAt cursor.tokens place :=
    fun notMark => stands.resolve_left fun both => notMark both.1
  obtain ⟨-, -, notStruct, notEnum⟩ := isClear
  cases announces : token.keyword? with
  | none =>
      have passed : ¬ Announces .file token cursor.written := by
        simp [Announces, announces]
      refine .inr ⟨reads.onward passed, behind ?_⟩
      rw [announces]
      decide
  | some keyword =>
      rw [announces] at behind
      cases keyword with
      | function =>
          exact afterFunction_settles clear reads announces .none token.start (behind (by decide))
      | trait => exact afterTrait_settles clear reads announces token.start (behind (by decide))
      | implementation =>
          exact afterImplementation_settles clear reads announces token.start (behind (by decide))
      | unsafeMark =>
          have later := afterUnsafe_reads clear reads announces
          rcases stands with ⟨-, brace⟩ | stands
          · exact .inl (.inl (afterUnsafe_braceNext brace))
          · rcases afterUnsafe_inBlock clear stands with inBlock | beyond
            · exact .inl (.inl inBlock)
            · exact .inr ⟨later, beyond⟩
      | struct => exact absurd announces notStruct
      | enum => exact absurd announces notEnum
      | macroRules =>
          have passed : ¬ Announces .file token cursor.written := by
            simp [Announces, announces]
          exact .inr ⟨reads.onward passed, behind (by decide)⟩

/-- In a clear file every unsafe brace stands in a block that is found, or is overlooked. -/
theorem stream_settles (clear : cursor.Clear) (ahead : Ahead tokens .file cursor place)
    (config : Config) (inDefinition : Bool) :
    Settled tokens (stream config inDefinition cursor) place := by
  induction cursor using Cursor.significant_induction generalizing inDefinition with
  | atEnd cursor atEnd => exact absurd ahead.stands (Cursor.not_unsafeBraceAt_of_none atEnd)
  | onward cursor token length next ih =>
      obtain ⟨isClear, inside⟩ := clear.significant next
      have reads := ahead.reads.significant next
      have stands := Cursor.unsafeBraceAt_significant next ahead.stands
      rw [stream_of_some next]
      rcases inFile_settles inside reads isClear config inDefinition stands with settled | beyond
      · refine settled.mono ?_
        rw [outlines_append]
        exact List.subset_append_left _ _
      · have onward := inside.skip (inFile_whole inside config inDefinition isClear)
        rw [Cursor.skip_skip] at beyond onward
        have later := ih _ onward beyond (token.keyword? == some .macroRules)
        refine later.mono ?_
        rw [outlines_append]
        exact List.subset_append_right _ _

end Finding

end Survey
