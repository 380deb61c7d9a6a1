import Survey.Proofs.ReadersWithoutComments
import Mathlib.Data.List.Forall2

set_option autoImplicit false

/-!
# Findings without the comments

A survey of a text and one of the text without its comments go through the same steps.
`Cursor.Matched` says that the two stand at the same place of a calm text. Each step leads
from there to such a place again, and what is found on the way is alike.
-/

namespace Survey

structure Extent.Level (columns : Bool) (extent other : Extent) : Prop where
  start : extent.start.Level columns other.start
  stop : extent.stop.Level columns other.stop

namespace Finding

/-- The findings differ in columns at most, unless columns count, and in the texts of
variants. -/
inductive Alike (columns : Bool) : Finding → Finding → Prop
  | unsafeBlock {extent other : Extent} (level : extent.Level columns other) :
      Alike columns (.unsafeBlock extent) (.unsafeBlock other)
  | function (name : String) (parameters : List String) (result : String) (owner : Owner)
      (blocks : Nat) {extent other : Extent} (level : extent.Level columns other) :
      Alike columns (.function ⟨name, parameters, result, extent, owner⟩ blocks)
        (.function ⟨name, parameters, result, other, owner⟩ blocks)
  | struct (name : String) {extent other : Extent} (level : extent.Level columns other) :
      Alike columns (.struct name extent) (.struct name other)
  | enum (name : String) {variants others : List String} {extent other : Extent}
      (counts : others.length = variants.length) (level : extent.Level columns other) :
      Alike columns (.enum name variants extent) (.enum name others other)
  | trait (name : String) {extent other : Extent} (level : extent.Level columns other) :
      Alike columns (.trait name extent) (.trait name other)
  | test (name : String) {extent other : Extent} (level : extent.Level columns other) :
      Alike columns (.test name extent) (.test name other)
  | same {finding : Finding} (bare : finding.outline? = none) : Alike columns finding finding

/-- Findings that are alike one by one. -/
abbrev AllAlike (columns : Bool) : List Finding → List Finding → Prop :=
  List.Forall₂ (Alike columns)

variable {columns : Bool}

theorem AllAlike.append {first later firstOther laterOther : List Finding}
    (alike : AllAlike columns first firstOther) (alikeLater : AllAlike columns later laterOther) :
    AllAlike columns (first ++ later) (firstOther ++ laterOther) :=
  List.rel_append alike alikeLater

theorem AllAlike.single {finding other : Finding} (alike : Alike columns finding other) :
    AllAlike columns [finding] [other] :=
  .cons alike .nil

theorem AllAlike.countP {found other : List Finding} (alike : AllAlike columns found other)
    (property : Finding → Bool)
    (respects : ∀ finding like, Alike columns finding like → property like = property finding) :
    other.countP property = found.countP property := by
  induction alike with
  | nil => rfl
  | cons same _ ih => rw [List.countP_cons, List.countP_cons, ih, respects _ _ same]

theorem Alike.isUnsafeBlock {finding other : Finding} (alike : Alike columns finding other) :
    other.isUnsafeBlock = finding.isUnsafeBlock := by
  cases alike <;> rfl

theorem Alike.isFunction {finding other : Finding} (alike : Alike columns finding other) :
    other.isFunction = finding.isFunction := by
  cases alike <;> rfl

end Finding

/-! ### Standing at the same place -/

/-- What a token announces in the text behind it has no comments. -/
structure Token.Leads (token : Token) (text : List Char) : Prop where
  marks : token.tag = .hash ∨ token.tag = .bang → Text.Uncommented text
  attributes : token.tag = .hash → ∀ mark, Attribute.read? text = some mark →
    Quiet text mark.length
  heads : ∀ (keyword : Keyword) groups, token.keyword? = some keyword →
    keyword.headGroups? = some groups →
    (keyword = .function → Finding.isPointerType text = false) →
      Quiet text (Head.read groups text).length
  definitions : token.keyword? = some .macroRules → ∀ trivia rest, TriviaRun text trivia →
    text.drop trivia = '!' :: rest → Named (rest.drop (Trivia.blankLength rest))

/-- Two tokens that are written the same, at places of the same line and offset. -/
structure Token.Alike (columns : Bool) (token other : Token) : Prop where
  tag : other.tag = token.tag
  lexeme : other.lexeme = token.lexeme
  start : token.start.Level columns other.start

theorem Token.Alike.keyword? {columns : Bool} {token other : Token}
    (alike : Alike columns token other) : other.keyword? = token.keyword? := by
  unfold Token.keyword?
  rw [alike.tag, alike.lexeme]

/-- What was found behind the one cursor is like what was found behind the other, and both
visits end at the same place. -/
structure Visit.Alike (columns : Bool) (cursor other : Cursor) (visit like : Visit) : Prop where
  found : Finding.AllAlike columns visit.found like.found
  whole : Token.Whole cursor.rest visit.length
  behind : other.rest.drop like.length = Text.withoutComments (cursor.rest.drop visit.length)

theorem Visit.Alike.append {columns : Bool} {cursor other : Cursor} {first like later after : Visit}
    (alike : first.Alike columns cursor other like)
    (goesOn : later.Alike columns (cursor.skip first.length) (other.skip like.length) after) :
    Visit.Alike columns cursor other ⟨first.found ++ later.found, first.length + later.length⟩
      ⟨like.found ++ after.found, like.length + after.length⟩ := by
  refine ⟨alike.found.append goesOn.found, alike.whole.append goesOn.whole, ?_⟩
  have behind := goesOn.behind
  rwa [Cursor.skip_rest, Cursor.skip_rest, List.drop_drop, List.drop_drop] at behind

theorem Visit.Alike.toEnd (columns : Bool) (cursor other : Cursor) :
    (skipped cursor.rest.length).Alike columns cursor other (.skipped other.rest.length) := by
  refine ⟨.nil, .to_end _, ?_⟩
  rw [skipped, skipped, List.drop_length, List.drop_length, Text.withoutComments_nil]

namespace Cursor

/-- The other cursor stands where the cursor stands, in the text without the comments, and
the rest of the text is calm. -/
structure Matched (columns : Bool) (cursor other : Cursor) : Prop extends
    Blanked columns cursor other where
  plain : Token.AllPlain cursor.rest
  calm : Token.AllCalm cursor.rest

namespace Matched

variable {columns : Bool} {cursor other : Cursor} {count more : Nat}

theorem veiled (matched : Matched columns cursor other) : Token.AllVeiled cursor.rest :=
  matched.calm.allVeiled matched.plain

theorem skip (matched : Matched columns cursor other) (whole : Token.Whole cursor.rest count)
    (behind : other.rest.drop more = Text.withoutComments (cursor.rest.drop count)) :
    Matched columns (cursor.skip count) (other.skip more) where
  toBlanked := matched.toBlanked.skip whole behind
  plain := matched.plain.drop whole
  calm := matched.calm.drop whole

theorem window (matched : Matched columns cursor other) (whole : Token.Whole cursor.rest count)
    (behind : other.rest.drop more = Text.withoutComments (cursor.rest.drop count)) :
    Matched columns (cursor.window count) (other.window more) where
  toBlanked := matched.toBlanked.window whole behind
  plain := matched.plain.take whole
  calm := matched.calm.take matched.plain whole

theorem behind (matched : Matched columns cursor other) {visit like : Visit}
    (alike : visit.Alike columns cursor other like) :
    Matched columns (cursor.skip visit.length) (other.skip like.length) :=
  matched.skip alike.whole alike.behind

/-- The next token is found again, and both cursors may go on behind it. -/
theorem significant (matched : Matched columns cursor other) {token : Token} {length : Nat}
    (next : cursor.significant? = some (token, length)) :
    ∃ like more, other.significant? = some (like, more) ∧ token.Alike columns like ∧
      token.Leads (cursor.skip length).rest ∧
      (Visit.skipped length).Alike columns cursor other (.skipped more) := by
  obtain ⟨start, more, nextOther, level, blanked⟩ := matched.toBlanked.significant next
  obtain ⟨trivia, size, run, read, meant, rfl, -, lexeme⟩ := significant?_eq_some next
  have whole : Token.Whole cursor.rest (trivia + size) := run.whole.append (.single read trivial)
  have calm := matched.calm _ run.whole
  have rest : (cursor.skip (trivia + size)).rest = (cursor.rest.drop trivia).drop size :=
    (List.drop_drop ..).symm
  -- A sign is one character, and the text behind it is the tail.
  have sign : ∀ {c : Char}, c = '#' ∨ c = '!' → token.tag = Token.punctuationTag c →
      (cursor.rest.drop trivia).head? = some c ∧
        (cursor.skip (trivia + size)).rest = (cursor.rest.drop trivia).tail := by
    intro c isSign isTag
    rw [isTag] at read
    have member : c ∈ Token.punctuators := by
      rcases isSign with rfl | rfl <;> decide
    obtain ⟨tail, split, rfl⟩ := Token.read?_punctuator member read
    rw [rest, split]
    exact ⟨rfl, rfl⟩
  refine ⟨_, more, nextOther, ⟨rfl, rfl, level⟩, ?_, ?_⟩
  · constructor
    · rintro (isHash | isBang)
      · obtain ⟨first, tail⟩ := sign (.inl rfl) isHash
        rw [tail]
        exact calm.marks (.inl first)
      · obtain ⟨first, tail⟩ := sign (.inr rfl) isBang
        rw [tail]
        exact calm.marks (.inr first)
    · intro isHash
      obtain ⟨first, tail⟩ := sign (.inl rfl) isHash
      rw [tail]
      exact calm.attributes first
    · intro keyword groups announces declares notPointer
      obtain ⟨isWord, spelled⟩ := Token.lexeme_of_keyword? announces
      rw [isWord] at read
      rw [rest] at notPointer ⊢
      exact calm.heads keyword groups size read (lexeme.symm.trans spelled) declares notPointer
    · intro announces blanks name run bang
      obtain ⟨isWord, spelled⟩ := Token.lexeme_of_keyword? announces
      rw [isWord] at read
      rw [rest] at run bang
      rw [List.drop_drop] at bang
      exact calm.definitions size blanks name read (lexeme.symm.trans spelled) run bang
  · exact ⟨.nil, whole, blanked.rest⟩

end Matched
end Cursor

namespace Cursor.Matched

variable {columns : Bool} {cursor other : Cursor}

theorem stays (matched : Matched columns cursor other) :
    (Visit.skipped 0).Alike columns cursor other (.skipped 0) :=
  ⟨.nil, .nothing _, matched.rest⟩

theorem close (matched : Matched columns cursor other) (kind : Delimiter) :
    (Visit.skipped (kind.closeLength cursor.rest)).Alike columns cursor other
      (.skipped (kind.closeLength other.rest)) := by
  refine ⟨.nil, kind.closeLength_whole matched.plain, ?_⟩
  rw [matched.rest]
  exact kind.closeLength_withoutComments matched.plain matched.veiled

theorem readAttribute (matched : Matched columns cursor other) {token : Token}
    (leads : token.Leads cursor.rest) (isHash : token.tag = .hash) :
    Attribute.read? other.rest = Attribute.read? cursor.rest := by
  rw [matched.rest]
  exact Attribute.read?_withoutComments matched.plain matched.calm matched.veiled
    (leads.marks (.inl isHash)) (leads.attributes isHash)

theorem passes (matched : Matched columns cursor other) {count : Nat}
    (quiet : Token.Quiet cursor.rest count) :
    (Visit.skipped count).Alike columns cursor other (.skipped count) := by
  refine ⟨.nil, quiet.whole, ?_⟩
  rw [matched.rest]
  exact quiet.drop_withoutComments

theorem skipAttribute (matched : Matched columns cursor other) {token : Token}
    (leads : token.Leads cursor.rest) (isHash : token.tag = .hash) :
    (Visit.skipped (Attribute.skipLength cursor.rest)).Alike columns cursor other
      (.skipped (Attribute.skipLength other.rest)) := by
  have same : Attribute.skipLength other.rest = Attribute.skipLength cursor.rest := by
    unfold Attribute.skipLength
    rw [matched.readAttribute leads isHash]
  rw [same]
  apply matched.passes
  unfold Attribute.skipLength
  cases found : Attribute.read? cursor.rest with
  | none => exact .nothing _
  | some mark => exact leads.attributes isHash mark found

theorem passMacro (matched : Matched columns cursor other) (isDefinition : Bool) {token : Token}
    (leads : token.Leads cursor.rest) (isBang : token.tag = .bang)
    (named : isDefinition = true →
      Token.Named (cursor.rest.drop (Trivia.blankLength cursor.rest))) :
    (Visit.skipped (macroLength isDefinition cursor.rest)).Alike columns cursor other
      (.skipped (macroLength isDefinition other.rest)) := by
  obtain ⟨whole, behind⟩ := macroLength_withoutComments isDefinition matched.plain matched.veiled
    (leads.marks (.inr isBang)) named
  rw [← matched.rest] at behind
  exact ⟨.nil, whole, behind⟩

end Cursor.Matched

/-! ### Unsafe blocks -/

namespace Finding

variable {columns : Bool} {cursor other : Cursor}

theorem afterUnsafe_of_nil (atEnd : cursor.rest.drop (Trivia.length cursor.rest) = []) :
    afterUnsafe cursor = ⟨[.unsafeAtEnd], 0⟩ := by
  unfold afterUnsafe
  dsimp only
  rw [atEnd]

theorem afterUnsafe_of_char {c : Char} {inner : List Char}
    (first : cursor.rest.drop (Trivia.length cursor.rest) = c :: inner) (notBrace : c ≠ '\x7b') :
    afterUnsafe cursor = .skipped 0 := by
  unfold afterUnsafe
  dsimp only
  rw [first]
  exact if_neg notBrace

theorem afterUnsafe_alike (matched : cursor.Matched columns other) :
    (afterUnsafe cursor).Alike columns cursor other (afterUnsafe other) := by
  have behind : other.rest.drop (Trivia.length other.rest) =
      Text.withoutComments (cursor.rest.drop (Trivia.length cursor.rest)) := by
    rw [matched.rest]
    exact Trivia.length_withoutComments cursor.rest
  have trivia : (Visit.skipped (Trivia.length cursor.rest)).Alike columns cursor other
      (.skipped (Trivia.length other.rest)) :=
    ⟨.nil, (Trivia.length_run cursor.rest).whole, behind⟩
  cases next : cursor.rest.drop (Trivia.length cursor.rest) with
  | nil =>
      have nextOther : other.rest.drop (Trivia.length other.rest) = [] := by
        rw [behind, next, Text.withoutComments_nil]
      rw [afterUnsafe_of_nil next, afterUnsafe_of_nil nextOther]
      exact ⟨.single (.same rfl), .nothing _, matched.rest⟩
  | cons c inner =>
      have first := Text.head?_withoutComments (Trivia.length_drop cursor.rest).2
      rw [← behind, next] at first
      obtain ⟨innerOther, nextOther⟩ := List.head?_eq_some_iff.mp first
      by_cases brace : c = '\x7b'
      · subst brace
        have atBrace := matched.behind trivia
        have read : Token.read? (cursor.skip (Trivia.length cursor.rest)).rest =
            some (.openBrace, 1) := by
          rw [Cursor.skip_rest, next]
          rfl
        have opened := atBrace.passes (.single read rfl)
        have closed := (atBrace.behind opened).close .brace
        have block := trivia.append (opened.append closed)
        have rests : ∀ {place : Cursor} {count : Nat} {rest : List Char},
            place.rest.drop count = '\x7b' :: rest → ((place.skip count).skip 1).rest = rest := by
          intro place count rest split
          rw [Cursor.skip_rest, Cursor.skip_rest, split]
          rfl
        simp only [Visit.skipped, rests next, rests nextOther, ← Nat.add_assoc] at block
        rw [afterUnsafe_of_brace next, afterUnsafe_of_brace nextOther]
        exact ⟨.single (.unsafeBlock ⟨atBrace.place, (matched.behind block).place⟩), block.whole,
          block.behind⟩
      · rw [afterUnsafe_of_char next brace, afterUnsafe_of_char nextOther brace]
        exact matched.stays

theorem inBody_alike (matched : cursor.Matched columns other) {token like : Token}
    (alike : token.Alike columns like) (leads : token.Leads cursor.rest) :
    (inBody token cursor).Alike columns cursor other (inBody like other) := by
  unfold inBody
  rw [alike.tag, alike.keyword?]
  by_cases isHash : token.tag = .hash
  · rw [if_pos isHash, if_pos isHash]
    exact matched.skipAttribute leads isHash
  · rw [if_neg isHash, if_neg isHash]
    by_cases isUnsafe : token.keyword? = some .unsafeMark
    · rw [if_pos isUnsafe, if_pos isUnsafe]
      exact afterUnsafe_alike matched
    · rw [if_neg isUnsafe, if_neg isUnsafe]
      exact matched.stays

theorem unsafeIn_alike (matched : cursor.Matched columns other) :
    AllAlike columns (unsafeIn cursor) (unsafeIn other) := by
  induction cursor using Cursor.significant_induction generalizing other with
  | atEnd cursor atEnd =>
      rw [unsafeIn_of_none atEnd, unsafeIn_of_none (matched.significant_none atEnd)]
      exact .nil
  | onward cursor token length next ih =>
      obtain ⟨like, more, nextOther, alike, leads, passed⟩ := matched.significant next
      have visit := inBody_alike (matched.behind passed) alike leads
      rw [unsafeIn_of_some next, unsafeIn_of_some nextOther]
      exact visit.found.append (ih _ (matched.behind (passed.append visit)))

end Finding

/-! ### Functions and declarations -/

namespace Cursor.Matched

variable {columns : Bool} {cursor other : Cursor} (groups : List Delimiter)

theorem head (matched : Matched columns cursor other) :
    (Visit.skipped (Head.read groups cursor.rest).length).Alike columns cursor other
      (.skipped (Head.read groups other.rest).length) := by
  refine ⟨.nil, Head.read_whole groups matched.plain, ?_⟩
  rw [matched.rest]
  exact (Head.read_withoutComments groups matched.plain matched.veiled).2

theorem full (matched : Matched columns cursor other) :
    (Visit.skipped ((Head.read groups cursor.rest).fullLength cursor.rest)).Alike columns cursor
      other (.skipped ((Head.read groups other.rest).fullLength other.rest)) := by
  refine ⟨.nil, Head.fullLength_whole groups matched.plain, ?_⟩
  rw [matched.rest]
  exact Head.fullLength_withoutComments groups matched.plain matched.veiled

theorem bodyBehind (matched : Matched columns cursor other) :
    Matched columns (cursor.bodyBehind groups) (other.bodyBehind groups) := by
  have head := matched.head groups
  have full := matched.full groups
  refine (matched.behind head).window ?_ ?_
  · apply head.whole.rest
    rw [Visit.skipped, Nat.add_sub_cancel' (Finding.fullLength_ge _ _)]
    exact full.whole
  · have behind := full.behind
    simp only [Visit.skipped] at behind ⊢
    rw [skip_rest, skip_rest, List.drop_drop, List.drop_drop,
      Nat.add_sub_cancel' (Finding.fullLength_ge _ _),
      Nat.add_sub_cancel' (Finding.fullLength_ge _ _)]
    exact behind

theorem variants (matched : Matched columns cursor other) :
    (VariantList.read cursor.rest).Level (VariantList.read other.rest) ∧
      (Visit.skipped (VariantList.read cursor.rest).length).Alike columns cursor other
        (.skipped (VariantList.read other.rest).length) := by
  have read := VariantList.read_withoutComments matched.plain matched.veiled
  rw [← matched.rest] at read
  exact ⟨read.1, .nil, VariantList.read_whole matched.plain, read.2⟩

variable {groups}

theorem read_head (matched : Matched columns cursor other)
    (quiet : Token.Quiet cursor.rest (Head.read groups cursor.rest).length) :
    Head.read groups other.rest = Head.read groups cursor.rest := by
  rw [matched.rest]
  exact Head.read_of_quiet groups matched.plain matched.veiled quiet

theorem signature (matched : Matched columns cursor other) {head : Head}
    (quiet : Token.Quiet cursor.rest head.length) :
    head.signature other.rest = head.signature cursor.rest := by
  have same : other.rest.take head.length = cursor.rest.take head.length := by
    rw [matched.rest]
    exact quiet.take_withoutComments
  have shorter := congrArg (List.take (head.length - 1)) same
  rw [List.take_take, List.take_take, Nat.min_eq_left (Nat.sub_le _ _)] at shorter
  unfold Head.signature
  cases head.ending with
  | endOfText => exact same
  | semicolon => exact shorter
  | brace => exact shorter

end Cursor.Matched

namespace Finding

variable {columns : Bool} {cursor other : Cursor} {start startOther : Position}

theorem afterFunction_alike (matched : cursor.Matched columns other)
    (level : start.Level columns startOther)
    (quiet : isPointerType cursor.rest = false →
      Token.Quiet cursor.rest (Head.read signatureGroups cursor.rest).length) (owner : Owner) :
    (afterFunction owner start cursor).Alike columns cursor other
      (afterFunction owner startOther other) := by
  by_cases pointer : isPointerType cursor.rest = true
  · have pointerOther : isPointerType other.rest = true := by
      rw [matched.rest, isPointerType_withoutComments (uncommented_of_isPointerType pointer)]
      exact pointer
    rw [afterFunction_of_pointer pointer, afterFunction_of_pointer pointerOther]
    exact matched.stays
  · have noComment := quiet (Bool.eq_false_iff.mpr pointer)
    have notPointer : ¬ isPointerType other.rest = true := by
      rw [matched.rest, isPointerType_withoutComments (Head.uncommented_of_quiet _ noComment)]
      exact pointer
    have read := matched.read_head noComment
    have parts := congrArg Signature.functionParts (matched.signature noComment)
    have full := matched.full signatureGroups
    have body := unsafeIn_alike (matched.bodyBehind signatureGroups)
    unfold Cursor.bodyBehind at body
    dsimp only at body
    rw [read] at full body
    unfold afterFunction
    rw [if_neg pointer, if_neg notPointer]
    dsimp only
    rw [read, parts]
    refine ⟨?_, full.whole, full.behind⟩
    refine AllAlike.append ?_ ?_
    · rw [level.line]
      split
      · exact .single (.same rfl)
      · exact .nil
    · split
      · exact .nil
      · unfold ofFunction
        rw [body.countP isUnsafeBlock fun _ _ alike => alike.isUnsafeBlock]
        exact body.append (.single (.function _ _ _ _ _ ⟨level, (matched.behind full).place⟩))

theorem afterStruct_alike (matched : cursor.Matched columns other)
    (level : start.Level columns startOther)
    (quiet : Token.Quiet cursor.rest (Head.read [.paren, .angle] cursor.rest).length) :
    (afterStruct start cursor).Alike columns cursor other (afterStruct startOther other) := by
  have read := matched.read_head quiet
  have full := matched.full [.paren, .angle]
  unfold afterStruct
  rw [read] at full ⊢
  refine ⟨?_, full.whole, full.behind⟩
  dsimp only
  split
  · exact .nil
  · exact .single (.struct _ ⟨level, (matched.behind full).place⟩)

theorem afterEnum_alike (matched : cursor.Matched columns other)
    (level : start.Level columns startOther)
    (quiet : Token.Quiet cursor.rest (Head.read [.angle] cursor.rest).length) :
    (afterEnum start cursor).Alike columns cursor other (afterEnum startOther other) := by
  have read := matched.read_head quiet
  have head := matched.head [.angle]
  have atBody := matched.behind head
  rw [read] at head
  -- What comes of a body, whether it is there or not.
  have visits : ∀ (body bodyOther : VariantList), body.Level bodyOther →
      (Visit.skipped body.length).Alike columns
        (cursor.skip (Head.read [.angle] cursor.rest).length)
        (other.skip (Head.read [.angle] cursor.rest).length) (.skipped bodyOther.length) →
      ∀ name, Visit.Alike columns cursor other
        ⟨(if body.isClosed then [] else [.enumAtEnd name]) ++
          [.enum name (body.variants.map String.ofList) ⟨start, (cursor.skip
            ((Head.read [.angle] cursor.rest).length + body.length)).place⟩],
          (Head.read [.angle] cursor.rest).length + body.length⟩
        ⟨(if bodyOther.isClosed then [] else [.enumAtEnd name]) ++
          [.enum name (bodyOther.variants.map String.ofList) ⟨startOther, (other.skip
            ((Head.read [.angle] cursor.rest).length + bodyOther.length)).place⟩],
          (Head.read [.angle] cursor.rest).length + bodyOther.length⟩ := by
    intro body bodyOther same passed name
    have whole := head.append passed
    refine ⟨AllAlike.append ?_ (.single (.enum name ?_ ⟨level, (matched.behind whole).place⟩)),
      whole.whole, whole.behind⟩
    · rw [same.isClosed]
      split
      · exact .nil
      · exact .single (.same rfl)
    · rw [List.length_map, List.length_map, same.variants]
  unfold afterEnum
  rw [read]
  dsimp only
  split
  · exact head
  · by_cases brace : (Head.read [.angle] cursor.rest).ending = .brace
    · rw [if_pos brace, if_pos brace]
      obtain ⟨same, passed⟩ := atBody.variants
      rw [Visit.skipped, Visit.skipped, read] at same passed
      exact visits _ _ same passed _
    · rw [if_neg brace, if_neg brace]
      refine visits ⟨[], 0, true⟩ ⟨[], 0, true⟩ ⟨rfl, rfl⟩ ?_ _
      have stays := atBody.stays
      rwa [Visit.skipped, Visit.skipped, read] at stays

/-! ### Bodies of traits and implementations -/

theorem amongItems_alike (matched : cursor.Matched columns other) {token like : Token}
    (alike : token.Alike columns like) (leads : token.Leads cursor.rest) (owner : Owner) :
    (amongItems owner token cursor).Alike columns cursor other (amongItems owner like other) := by
  unfold amongItems
  rw [alike.tag, alike.keyword?]
  split
  · exact matched.close .brace
  · rename_i isBang
    exact matched.passMacro false leads isBang nofun
  · rename_i isHash
    exact matched.skipAttribute leads isHash
  · split
    · rename_i isFunction
      exact afterFunction_alike matched alike.start
        (fun notPointer => leads.heads .function _ isFunction rfl fun _ => notPointer) owner
    · exact matched.stays

theorem items_alike (matched : cursor.Matched columns other) (owner : Owner) :
    (items owner cursor).Alike columns cursor other (items owner other) := by
  induction cursor using Cursor.significant_induction generalizing other with
  | atEnd cursor atEnd =>
      rw [items_of_none atEnd, items_of_none (matched.significant_none atEnd)]
      exact .toEnd columns cursor other
  | onward cursor token length next ih =>
      obtain ⟨like, more, nextOther, alike, leads, passed⟩ := matched.significant next
      by_cases closes : token.tag = .closeBrace
      · rw [items_of_close next closes, items_of_close nextOther (alike.tag.trans closes)]
        exact passed
      · have visit := passed.append (amongItems_alike (matched.behind passed) alike leads owner)
        have later := visit.append (ih _ (matched.behind visit))
        rw [items_of_some next closes, items_of_some nextOther (by rwa [alike.tag])]
        exact later

theorem afterTrait_alike (matched : cursor.Matched columns other)
    (level : start.Level columns startOther)
    (quiet : Token.Quiet cursor.rest (Head.read [.angle, .paren] cursor.rest).length) :
    (afterTrait start cursor).Alike columns cursor other (afterTrait startOther other) := by
  have read := matched.read_head quiet
  have full := matched.full [.angle, .paren]
  have body := matched.bodyBehind [.angle, .paren]
  unfold Cursor.bodyBehind Head.fullLength Head.bodyLength? at body
  dsimp only at body
  rw [read] at full body
  unfold afterTrait
  dsimp only
  rw [read]
  split
  · exact full
  · have declared := (matched.behind full).place
    unfold Head.bodyLength?
    cases ending : (Head.read [.angle, .paren] cursor.rest).ending with
    | endOfText => exact ⟨.single (.trait _ ⟨level, declared⟩), full.whole, full.behind⟩
    | semicolon => exact ⟨.single (.trait _ ⟨level, declared⟩), full.whole, full.behind⟩
    | brace =>
        rw [ending, Option.getD_some, Option.getD_some, Nat.add_sub_cancel_left,
          Nat.add_sub_cancel_left] at body
        have inside := (items_alike body ⟨none, some (String.ofList (Signature.leadingName
          (Head.read [.angle, .paren] cursor.rest).kept))⟩).found
        dsimp only
        rw [level.line, inside.countP isFunction fun _ _ alike => alike.isFunction]
        refine ⟨.append (.cons (.trait _ ⟨level, declared⟩) inside) (.single (.same rfl)),
          full.whole, full.behind⟩

theorem afterImplementation_alike (matched : cursor.Matched columns other)
    (level : start.Level columns startOther)
    (quiet : Token.Quiet cursor.rest (Head.read signatureGroups cursor.rest).length) :
    (afterImplementation start cursor).Alike columns cursor other
      (afterImplementation startOther other) := by
  have read := matched.read_head quiet
  have signature := matched.signature quiet
  have head := matched.head signatureGroups
  have full := matched.full signatureGroups
  have atBody := matched.behind head
  rw [read] at head full
  unfold Visit.skipped at atBody
  dsimp only at atBody
  rw [read] at atBody
  unfold afterImplementation
  dsimp only
  rw [read, signature, level.line]
  split
  · exact ⟨.single (.same rfl), head.whole, head.behind⟩
  · exact head
  · split
    · exact ⟨.single (.same rfl), full.whole, full.behind⟩
    · rename_i resolved isResolved
      have inside := items_alike atBody ⟨some (String.ofList resolved.typeName),
        resolved.traitName?.map String.ofList⟩
      have visit := head.append inside
      rw [inside.found.countP isFunction fun _ _ alike => alike.isFunction]
      exact ⟨.append (.cons (.same rfl) inside.found) (.single (.same rfl)),
        visit.whole, visit.behind⟩

/-! ### Tests -/

theorem qualifierLength?_alike (matched : cursor.Matched columns other) {token like : Token}
    (alike : token.Alike columns like) (leads : token.Leads cursor.rest) :
    (qualifierLength? token cursor = none ∧ qualifierLength? like other = none) ∨
      ∃ length more, qualifierLength? token cursor = some length ∧
        qualifierLength? like other = some more ∧
        (Visit.skipped length).Alike columns cursor other (.skipped more) := by
  unfold qualifierLength?
  rw [alike.tag, alike.keyword?]
  by_cases isHash : token.tag = .hash
  · rw [if_pos isHash, if_pos isHash]
    exact .inr ⟨_, _, rfl, rfl, matched.skipAttribute leads isHash⟩
  · rw [if_neg isHash, if_neg isHash]
    by_cases isParen : token.tag = .openParen
    · rw [if_pos isParen, if_pos isParen]
      exact .inr ⟨_, _, rfl, rfl, matched.close .paren⟩
    · rw [if_neg isParen, if_neg isParen]
      split
      · exact .inr ⟨0, 0, rfl, rfl, matched.stays⟩
      · split
        · exact .inr ⟨0, 0, rfl, rfl, matched.stays⟩
        · exact .inl ⟨rfl, rfl⟩

/-- Both searches found the same name, and end at the same place. -/
structure NameSearch.Alike (columns : Bool) (cursor other : Cursor) (search like : NameSearch) :
    Prop where
  name? : like.name? = search.name?
  passed : (Visit.skipped search.length).Alike columns cursor other (.skipped like.length)

theorem nameAfterKeyword_alike (matched : cursor.Matched columns other) :
    (nameAfterKeyword cursor).Alike columns cursor other (nameAfterKeyword other) := by
  unfold nameAfterKeyword
  cases next : cursor.significant? with
  | none =>
      rw [matched.significant_none next]
      exact ⟨rfl, .toEnd columns cursor other⟩
  | some pair =>
      obtain ⟨token, length⟩ := pair
      obtain ⟨like, more, nextOther, alike, -, passed⟩ := matched.significant next
      rw [nextOther]
      dsimp only
      rw [alike.tag, alike.lexeme]
      exact ⟨rfl, passed⟩

theorem markedName_alike (matched : cursor.Matched columns other) :
    (markedName cursor).Alike columns cursor other (markedName other) := by
  induction cursor using Cursor.significant_induction generalizing other with
  | atEnd cursor atEnd =>
      rw [markedName_of_none atEnd, markedName_of_none (matched.significant_none atEnd)]
      exact ⟨rfl, .toEnd columns cursor other⟩
  | onward cursor token length next ih =>
      obtain ⟨like, more, nextOther, alike, leads, passed⟩ := matched.significant next
      have behind := matched.behind passed
      rcases qualifierLength?_alike behind alike leads with
        ⟨none, noneOther⟩ | ⟨further, furtherOther, qualified, qualifiedOther, skipped⟩
      · by_cases isFunction : token.keyword? = some .function
        · have name := nameAfterKeyword_alike behind
          rw [markedName_of_function next none isFunction,
            markedName_of_function nextOther noneOther (alike.keyword?.trans isFunction)]
          exact ⟨name.name?, passed.append name.passed⟩
        · rw [markedName_of_other next none isFunction,
            markedName_of_other nextOther noneOther (by rwa [alike.keyword?])]
          exact ⟨rfl, passed⟩
      · have both := passed.append skipped
        have later := ih further (matched.behind both)
        rw [markedName_of_qualifier next qualified,
          markedName_of_qualifier nextOther qualifiedOther]
        exact ⟨later.name?, both.append later.passed⟩

theorem afterTestMark_alike (matched : cursor.Matched columns other)
    (level : start.Level columns startOther) :
    (afterTestMark start cursor).Alike columns cursor other (afterTestMark startOther other) := by
  have search := markedName_alike matched
  cases named : markedName cursor with
  | mk name? read =>
      cases namedOther : markedName other with
      | mk nameOther? readOther =>
          obtain ⟨same, passed⟩ := search
          rw [named, namedOther] at same passed
          dsimp only at same passed
          subst same
          cases nameOther? with
          | none =>
              rw [afterTestMark_of_none named, afterTestMark_of_none namedOther]
              exact passed
          | some name =>
              have behind := matched.behind passed
              have body := unsafeIn_alike (behind.bodyBehind signatureGroups)
              have whole := passed.append (behind.full signatureGroups)
              unfold afterTestMark
              rw [named, namedOther]
              dsimp only
              refine ⟨body.append (.single (.test _ ⟨level, ?_⟩)), whole.whole, whole.behind⟩
              rw [Cursor.skip_skip, Cursor.skip_skip]
              exact (matched.behind whole).place

/-! ### Files -/

theorem afterHash_alike (matched : cursor.Matched columns other)
    (level : start.Level columns startOther) {token : Token} (leads : token.Leads cursor.rest)
    (isHash : token.tag = .hash) (config : Config) :
    (afterHash config start cursor).Alike columns cursor other
      (afterHash config startOther other) := by
  unfold afterHash
  rw [matched.readAttribute leads isHash]
  cases found : Attribute.read? cursor.rest with
  | none => exact matched.stays
  | some mark =>
      have passed := matched.passes (leads.attributes isHash mark found)
      dsimp only
      split
      · rw [level.line]
        exact ⟨.single (.same rfl), passed.whole, passed.behind⟩
      · split
        · exact passed.append (afterTestMark_alike (matched.behind passed) level)
        · exact passed

theorem afterKeyword_alike (matched : cursor.Matched columns other)
    (level : start.Level columns startOther) {token : Token} (leads : token.Leads cursor.rest)
    {keyword : Keyword} (announces : token.keyword? = some keyword) :
    (afterKeyword keyword start cursor).Alike columns cursor other
      (afterKeyword keyword startOther other) := by
  have quiet := leads.heads keyword
  cases keyword with
  | function =>
      exact afterFunction_alike matched level
        (fun notPointer => quiet _ announces rfl fun _ => notPointer) .none
  | struct => exact afterStruct_alike matched level (quiet _ announces rfl nofun)
  | enum => exact afterEnum_alike matched level (quiet _ announces rfl nofun)
  | trait => exact afterTrait_alike matched level (quiet _ announces rfl nofun)
  | implementation => exact afterImplementation_alike matched level (quiet _ announces rfl nofun)
  | unsafeMark => exact afterUnsafe_alike matched
  | macroRules => exact matched.stays

theorem inFile_alike (matched : cursor.Matched columns other) {token like : Token}
    (alike : token.Alike columns like) (leads : token.Leads cursor.rest) (config : Config)
    (inDefinition : Bool)
    (named : inDefinition = true → token.tag = .bang →
      Token.Named (cursor.rest.drop (Trivia.blankLength cursor.rest))) :
    (inFile config inDefinition token cursor).Alike columns cursor other
      (inFile config inDefinition like other) := by
  unfold inFile
  rw [alike.tag, alike.keyword?]
  split
  · rename_i isBang
    exact matched.passMacro inDefinition leads isBang fun isDefinition => named isDefinition isBang
  · rename_i isHash
    exact afterHash_alike matched alike.start leads isHash config
  · cases announces : token.keyword? with
    | none => exact matched.stays
    | some keyword => exact afterKeyword_alike matched alike.start leads announces

/-- Where a definition is announced, the name of its macro is calm. -/
theorem named_of_announced {token bang : Token} {length : Nat} (leads : token.Leads cursor.rest)
    (isRules : token.keyword? = some .macroRules)
    (next : cursor.significant? = some (bang, length)) (isBang : bang.tag = .bang) :
    Token.Named
      ((cursor.skip length).rest.drop (Trivia.blankLength (cursor.skip length).rest)) := by
  obtain ⟨trivia, size, run, read, -, rfl, -, -⟩ := Cursor.significant?_eq_some next
  rw [isBang] at read
  obtain ⟨rest, split, rfl⟩ := Token.read?_punctuator (d := '!') (by decide) read
  have behind : (cursor.skip (trivia + 1)).rest = rest := by
    rw [Cursor.skip_rest, ← List.drop_drop, split]
    rfl
  rw [behind]
  exact leads.definitions isRules trivia rest run split

theorem inFile_of_rules (config : Config) (inDefinition : Bool) {token : Token}
    (isRules : token.keyword? = some .macroRules) (cursor : Cursor) :
    inFile config inDefinition token cursor = .skipped 0 := by
  have isWord := (Token.lexeme_of_keyword? isRules).1
  unfold inFile
  rw [isWord, isRules]
  rfl

/-- A survey finds the same without the comments. -/
theorem stream_alike (matched : cursor.Matched columns other) (config : Config)
    (inDefinition : Bool)
    (announced : inDefinition = true →
      ∃ token : Token, token.keyword? = some .macroRules ∧ token.Leads cursor.rest) :
    AllAlike columns (stream config inDefinition cursor) (stream config inDefinition other) := by
  induction cursor using Cursor.significant_induction generalizing other inDefinition with
  | atEnd cursor atEnd =>
      rw [stream_of_none atEnd, stream_of_none (matched.significant_none atEnd)]
      exact .nil
  | onward cursor token length next ih =>
      obtain ⟨like, more, nextOther, alike, leads, passed⟩ := matched.significant next
      have visit := inFile_alike (matched.behind passed) alike leads config inDefinition (by
        intro isDefinition isBang
        obtain ⟨rules, isRules, leadsHere⟩ := announced isDefinition
        exact named_of_announced leadsHere isRules next isBang)
      have later := matched.behind (passed.append visit)
      rw [stream_of_some next, stream_of_some nextOther, alike.keyword?]
      refine visit.found.append (ih _ later _ ?_)
      intro isRules
      refine ⟨token, eq_of_beq isRules, ?_⟩
      rw [inFile_of_rules config inDefinition (eq_of_beq isRules)]
      exact leads

end Finding
end Survey
