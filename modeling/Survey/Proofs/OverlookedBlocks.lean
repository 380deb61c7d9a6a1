import Survey.Proofs.FoundBlocks

set_option autoImplicit false

/-!
# Blocks that are stepped over are not found

In a clear file a survey reaches all tokens that it goes on with, each time with a cursor of its
own. What it finds elsewhere lies before that cursor or behind all that the cursor has left, and
what it finds from there on lies behind the stretch that it steps over. So no block that is found
covers what is stepped over.
-/

namespace Survey

namespace Finding

variable {config : Config} {text : List Char} {scope : Scope} {cursor : Cursor}
  {found : List Finding} {token : Token} {length : Nat} {visit : Visit} {left rest : List Token}

/-! ### Where a survey goes on -/

/-- What is found from the cursor on, where declarations are read in this scope. -/
inductive Onward (config : Config) : Scope → Cursor → List Finding → Prop
  | file (inDefinition : Bool) (cursor : Cursor) :
      Onward config .file cursor (stream config inDefinition cursor)
  | implementation (owner : Owner) (inDefinition : Bool) (cursor : Cursor) :
      Onward config .implementation cursor ((items owner cursor).found ++
        stream config inDefinition (cursor.skip (items owner cursor).length))
  | trait (owner : Owner) (cursor : Cursor) :
      Onward config .trait cursor (items owner cursor).found

/-- What a token leads to, where declarations are read in this scope. -/
inductive Visits (config : Config) : Scope → Token → Cursor → Visit → Prop
  | file (inDefinition : Bool) (token : Token) (cursor : Cursor) :
      Visits config .file token cursor (inFile config inDefinition token cursor)
  | item {scope : Scope} (inItems : scope ≠ .file) (owner : Owner) (token : Token)
      (cursor : Cursor) : Visits config scope token cursor (amongItems owner token cursor)

/-- Everything found lies behind the cursor. -/
theorem Onward.place_le (onward : Onward config scope cursor found) (stands : cursor.StandsIn text)
    {outline : Outline} (member : outline ∈ outlines found) :
    cursor.place.offset ≤ outline.extent.start.offset := by
  cases onward with
  | file inDefinition =>
      exact ((stream_arranged config inDefinition stands).liesIn outline member).low_le
  | implementation owner inDefinition =>
      rw [outlines_append] at member
      rcases List.mem_append.mp member with inside | beyond
      · exact ((items_arranged owner stands).liesIn outline inside).low_le
      · have behind := stands.skip (items owner cursor).length
        exact Nat.le_trans (Cursor.offset_le_skip cursor _)
          ((stream_arranged config inDefinition behind).liesIn outline beyond).low_le
  | trait owner =>
      exact ((items_arranged owner stands).liesIn outline member).low_le

theorem Onward.step (onward : Onward config scope cursor found)
    (next : cursor.significant? = some (token, length))
    (goesOn : scope = .file ∨ token.tag ≠ .closeBrace) :
    ∃ visit later, Visits config scope token (cursor.skip length) visit ∧
      found = visit.found ++ later ∧
      Onward config scope (cursor.skip (length + visit.length)) later := by
  cases onward with
  | file inDefinition =>
      exact ⟨_, _, .file inDefinition _ _, stream_of_some next config inDefinition, .file _ _⟩
  | implementation owner inDefinition =>
      have inItems : Scope.implementation ≠ .file := nofun
      have goesOn := goesOn.resolve_left inItems
      refine ⟨_, _, .item inItems owner _ _, ?_, .implementation owner inDefinition _⟩
      rw [items_of_some next goesOn, Cursor.skip_skip]
      exact List.append_assoc _ _ _
  | trait owner =>
      have inItems : Scope.trait ≠ .file := nofun
      have goesOn := goesOn.resolve_left inItems
      refine ⟨_, _, .item inItems owner _ _, ?_, .trait owner _⟩
      rw [items_of_some next goesOn]

theorem Visits.led (visits : Visits config scope token cursor visit)
    (behind : Behind text token.start cursor) : Led text Kind.all token.start cursor visit := by
  cases visits with
  | file inDefinition => exact inFile_led config inDefinition token behind
  | item inItems owner =>
      exact (amongItems_led owner token behind).widen fun kind _ => Kind.mem_all kind

theorem Visits.whole (visits : Visits config scope token cursor visit) (clear : cursor.Clear)
    (isClear : token.IsClear) : Token.Whole cursor.rest visit.length := by
  cases visits with
  | file inDefinition => exact inFile_whole clear config inDefinition isClear
  | item inItems owner => exact amongItems_whole clear owner isClear

/-- A survey of the text goes on at the cursor, and blocks that it finds elsewhere lie before the
cursor or behind all that the cursor has left. -/
structure Reached (config : Config) (text : List Char) (scope : Scope) (cursor : Cursor)
    (found : List Finding) : Prop where
  clear : cursor.Clear
  stands : cursor.StandsIn text
  onward : Onward config scope cursor found
  elsewhere : ∀ extent, ⟨.unsafeBlock, extent⟩ ∈ outlines (ofText config text) →
    ⟨.unsafeBlock, extent⟩ ∈ outlines found ∨ extent.stop.offset ≤ cursor.place.offset ∨
      cursor.toEnd.place.offset ≤ extent.start.offset

/-- A part of what the cursor has left is reached if what is found outside of it lies outside. -/
theorem Reached.narrow (reached : Reached config text scope cursor found) {inner : Scope}
    {other : Cursor} {later : List Finding} (clear : other.Clear) (stands : other.StandsIn text)
    (onward : Onward config inner other later)
    (low : cursor.place.offset ≤ other.place.offset)
    (high : other.toEnd.place.offset ≤ cursor.toEnd.place.offset)
    (outside : ∀ extent, ⟨.unsafeBlock, extent⟩ ∈ outlines found →
      ⟨.unsafeBlock, extent⟩ ∈ outlines later ∨ extent.stop.offset ≤ other.place.offset ∨
        other.toEnd.place.offset ≤ extent.start.offset) :
    Reached config text inner other later where
  clear := clear
  stands := stands
  onward := onward
  elsewhere extent member := by
    rcases reached.elsewhere extent member with inside | before | behind
    · exact outside extent inside
    · exact .inr (.inl (Nat.le_trans before low))
    · exact .inr (.inr (Nat.le_trans high behind))

/-- Behind what a token leads to a survey goes on. -/
theorem Reached.step (reached : Reached config text scope cursor found)
    (next : cursor.significant? = some (token, length))
    (goesOn : scope = .file ∨ token.tag ≠ .closeBrace) :
    ∃ visit later, Visits config scope token (cursor.skip length) visit ∧
      found = visit.found ++ later ∧
      Reached config text scope (cursor.skip (length + visit.length)) later := by
  obtain ⟨visit, later, visits, split, onward⟩ := reached.onward.step next goesOn
  obtain ⟨isClear, inside⟩ := reached.clear.significant next
  have first := Cursor.whole_of_significant next
  refine ⟨visit, later, visits, split, ?_⟩
  refine reached.narrow (reached.clear.skip (first.append (visits.whole inside isClear)))
    (reached.stands.skip _) onward (Cursor.offset_le_skip cursor _)
    (Cursor.offset_toEnd_skip_le cursor _) ?_
  intro extent member
  rw [split, outlines_append] at member
  rcases List.mem_append.mp member with inVisit | inLater
  · have led := visits.led (behind_significant reached.stands next)
    rw [← Cursor.skip_skip]
    exact .inr (.inl (led.arranged.liesIn _ inVisit).le_high)
  · exact .inl inLater

/-! ### Declarations -/

section Declarations

variable {keyword : Keyword} {head kept ending body : List Token} {extent : Extent}

/-- What stands behind a keyword is read as the declaration that it is. -/
theorem declares_of_declaration (clear : cursor.Clear)
    (declaration : Declaration scope keyword token cursor.written head kept ending body rest) :
    cursor.Declares (headGroups keyword) head kept ending body ∧
      (cursor.skip ((Head.read (headGroups keyword) cursor.rest).fullLength
        cursor.rest)).written = rest := by
  have noBrace : .brace ∉ headGroups keyword := by
    cases keyword <;> decide
  obtain ⟨head, kept, ending, body, declares⟩ :=
    Cursor.exists_declares (headGroups keyword) cursor clear.plain
  obtain ⟨rfl, rfl, rfl, rfl, behind⟩ := declares.parts.unique noBrace declaration.parts
  exact ⟨declares, behind⟩

/-- Blocks of a function stand in its body, and it has a name. -/
theorem afterFunction_block {owner : Owner} {start : Position}
    (member : ⟨.unsafeBlock, extent⟩ ∈ outlines (afterFunction owner start cursor).found) :
    (Signature.functionParts
      ((Head.read signatureGroups cursor.rest).signature cursor.rest)).name ≠ [] ∧
      ⟨.unsafeBlock, extent⟩ ∈ outlines (unsafeIn (cursor.bodyBehind signatureGroups)) := by
  unfold afterFunction at member
  by_cases pointer : isPointerType cursor.rest = true
  · rw [if_pos pointer] at member
    cases member
  · rw [if_neg pointer, outlines_append] at member
    rcases List.mem_append.mp member with inNotice | inFunction
    · split at inNotice <;> cases inNotice
    · split at inFunction
      · cases inFunction
      · rename_i named
        refine ⟨fun nothing => named (List.isEmpty_iff.mpr nothing), ?_⟩
        unfold ofFunction at inFunction
        rw [outlines_append] at inFunction
        rcases List.mem_append.mp inFunction with inside | last
        · exact inside
        · cases List.mem_singleton.mp last

/-- Blocks of a trait stand among its items, and it has a name. -/
theorem afterTrait_block {start : Position}
    (member : ⟨.unsafeBlock, extent⟩ ∈ outlines (afterTrait start cursor).found) :
    Signature.leadingName (Head.read [.angle, .paren] cursor.rest).kept ≠ [] ∧
      ⟨.unsafeBlock, extent⟩ ∈ outlines (items ⟨none, some (String.ofList
        (Signature.leadingName (Head.read [.angle, .paren] cursor.rest).kept))⟩
          (cursor.bodyBehind [.angle, .paren])).found := by
  by_cases unnamed : (String.ofList (Signature.leadingName
      (Head.read [.angle, .paren] cursor.rest).kept)).isEmpty = true
  · rw [afterTrait_of_unnamed start rfl unnamed] at member
    cases member
  · refine ⟨fun nothing => unnamed (by rw [nothing]; rfl), ?_⟩
    cases hasBody : (Head.read [.angle, .paren] cursor.rest).bodyLength? cursor.rest with
    | none =>
        rw [afterTrait_of_bodiless start rfl unnamed hasBody] at member
        cases List.mem_singleton.mp member
    | some count =>
        obtain ⟨functions, found⟩ := afterTrait_of_body start rfl unnamed hasBody
        rw [found, outlines_cons, outlines_append] at member
        rcases List.mem_append.mp member with first | later
        · cases List.mem_singleton.mp first
        · exact (List.mem_append.mp later).resolve_right List.not_mem_nil

/-- Blocks of an implementation stand among its items, and its target is known. -/
theorem afterImplementation_block {start : Position}
    (member : ⟨.unsafeBlock, extent⟩ ∈ outlines (afterImplementation start cursor).found) :
    ∃ resolved, Signature.target? ((Head.read signatureGroups cursor.rest).signature
        cursor.rest) = some resolved ∧
      ⟨.unsafeBlock, extent⟩ ∈ outlines (items ⟨some (String.ofList resolved.typeName),
        resolved.traitName?.map String.ofList⟩
          (cursor.skip (Head.read signatureGroups cursor.rest).length)).found := by
  by_cases unresolved : (Head.read signatureGroups cursor.rest).ending = .brace →
      Signature.target? ((Head.read signatureGroups cursor.rest).signature cursor.rest) = none
  · rw [afterImplementation_of_unresolved start rfl unresolved] at member
    cases member
  · obtain ⟨brace, isResolved⟩ := Classical.not_imp.mp unresolved
    obtain ⟨resolved, isResolved⟩ := Option.ne_none_iff_exists'.mp isResolved
    obtain ⟨methods, found⟩ := afterImplementation_of_resolved start rfl brace isResolved
    refine ⟨resolved, isResolved, ?_⟩
    rw [found, outlines_append, outlines_append] at member
    rcases List.mem_append.mp member with first | later
    · cases first
    · exact (List.mem_append.mp later).resolve_right List.not_mem_nil

/-- What a keyword leads to is read as a function, a trait or an implementation. -/
theorem Visits.cases (visits : Visits config scope token cursor visit) (isClear : token.IsClear)
    (announces : token.keyword? = some keyword)
    (declared : DeclaredIn scope keyword cursor.written) :
    (keyword = .function ∧ ∃ owner, visit = afterFunction owner token.start cursor) ∨
      (keyword = .trait ∧ visit = afterTrait token.start cursor) ∨
      (keyword = .implementation ∧ visit = afterImplementation token.start cursor) := by
  have isWord := (Token.lexeme_of_keyword? announces).1
  cases visits with
  | file inDefinition =>
      rw [inFile_of_clear config inDefinition isClear, announces]
      rcases declared with ⟨rfl, -⟩ | ⟨-, rfl | rfl⟩
      · exact .inl ⟨rfl, _, rfl⟩
      · exact .inr (.inl ⟨rfl, rfl⟩)
      · exact .inr (.inr ⟨rfl, rfl⟩)
  | item inItems owner =>
      rcases declared with ⟨rfl, -⟩ | ⟨isFile, -⟩
      · left
        refine ⟨rfl, owner, ?_⟩
        unfold amongItems
        rw [isWord, announces]
        rfl
      · exact absurd isFile inItems

/-- Blocks that a declaration leads to stand in its body, and it has a name. -/
theorem Visits.block (visits : Visits config scope token cursor visit) (isClear : token.IsClear)
    (stands : cursor.StandsIn text) (clear : cursor.Clear)
    (declaration : Declaration scope keyword token cursor.written head kept ending body rest)
    (member : ⟨.unsafeBlock, extent⟩ ∈ outlines visit.found) :
    ¬ NamesNothing keyword head kept ∧
      (cursor.skip (Head.read (headGroups keyword) cursor.rest).length).place.offset ≤
        extent.start.offset := by
  obtain ⟨declares, -⟩ := declares_of_declaration clear declaration
  rcases visits.cases isClear declaration.announces declaration.declared with
    ⟨rfl, owner, rfl⟩ | ⟨rfl, rfl⟩ | ⟨rfl, rfl⟩
  · obtain ⟨named, inside⟩ := afterFunction_block member
    refine ⟨fun nothing => named ((namesNothing_function declares).mp nothing), ?_⟩
    exact ((unsafeIn_arranged (bodyBehind_standsIn _ stands)).liesIn _ inside).low_le
  · obtain ⟨named, inside⟩ := afterTrait_block member
    refine ⟨fun nothing => named ((namesNothing_trait declares).mp nothing), ?_⟩
    exact ((items_arranged _ (bodyBehind_standsIn _ stands)).liesIn _ inside).low_le
  · obtain ⟨resolved, isResolved, inside⟩ := afterImplementation_block member
    constructor
    · intro nothing
      rw [(namesNothing_implementation declares).mp nothing] at isResolved
      cases isResolved
    · exact ((items_arranged _ (stands.skip _)).liesIn _ inside).low_le

/-- A declaration that is not entered is passed as a whole. -/
theorem Visits.length_of_declaration (visits : Visits config scope token cursor visit)
    (isClear : token.IsClear) (clear : cursor.Clear)
    (declaration : Declaration scope keyword token cursor.written head kept ending body rest)
    (passed : ¬ IsEntered keyword head kept ending) :
    visit.length = (Head.read (headGroups keyword) cursor.rest).fullLength cursor.rest := by
  obtain ⟨declares, -⟩ := declares_of_declaration clear declaration
  rcases visits.cases isClear declaration.announces declaration.declared with
    ⟨rfl, owner, rfl⟩ | ⟨rfl, rfl⟩ | ⟨rfl, rfl⟩
  · have notPointer : ¬ isPointerType cursor.rest = true := by
      rcases declaration.declared with ⟨-, notPointer⟩ | ⟨-, isTrait | isImplementation⟩
      · exact fun pointer => notPointer (cursor.pointerNext_iff.mpr pointer)
      · cases isTrait
      · cases isImplementation
    unfold afterFunction
    rw [if_neg notPointer]
    rfl
  · exact afterTrait_length token.start cursor
  · rw [isEntered_implementation declares] at passed
    exact afterImplementation_length_of_unresolved token.start (Classical.not_not.mp passed)

/-- What is not announced is not passed together with what follows it. -/
theorem Visits.length_of_not_announces (visits : Visits config scope token cursor visit)
    (isClear : token.IsClear) (passed : ¬ Announces scope token cursor.written) :
    visit.length = 0 := by
  have pointer : token.keyword? = some .function → isPointerType cursor.rest = true := by
    intro announces
    by_contra notPointer
    exact passed (.inl ⟨announces, fun next => notPointer (cursor.pointerNext_iff.mp next)⟩)
  cases visits with
  | file inDefinition =>
      rw [inFile_of_clear config inDefinition isClear]
      split
      · rename_i announces
        rw [afterFunction_of_pointer (pointer announces)]
        rfl
      · rename_i announces
        exact absurd (.inr (.inl announces)) passed
      · rename_i announces
        exact absurd (.inr (.inr (.inl announces))) passed
      · rename_i marks
        refine afterUnsafe_length_of_other fun brace => passed ?_
        exact .inr (.inr (.inr ⟨marks, cursor.blockNext_iff.mpr brace⟩))
      · rfl
  | item inItems owner =>
      have notOpen : token.tag ≠ .openBrace := by
        intro opens
        apply passed
        cases scope with
        | file => exact absurd rfl inItems
        | implementation => exact .inr (.inl opens)
        | trait => exact .inr (.inl opens)
      unfold amongItems
      split
      · exact absurd ‹_› notOpen
      · exact absurd ‹_› isClear.1
      · exact absurd ‹_› isClear.2.1
      · by_cases announces : token.keyword? = some .function
        · rw [if_pos announces, afterFunction_of_pointer (pointer announces)]
          rfl
        · rw [if_neg announces]
          rfl

/-! ### What is read is reached -/

/-- A survey of the text goes on with these tokens, trivia before them apart. -/
def GoesOn (config : Config) (text : List Char) (scope : Scope) (left : List Token) : Prop :=
  ∃ cursor found passed, Reached config text scope cursor found ∧
    cursor.written = passed ++ left ∧ ∀ token ∈ passed, token.tag.isTrivia = true

theorem Reached.goesOn (reached : Reached config text scope cursor found) :
    GoesOn config text scope cursor.written :=
  ⟨cursor, found, [], reached, rfl, List.forall_mem_nil _⟩

theorem GoesOn.significant (goesOn : GoesOn config text scope (token :: rest))
    (significant : token.tag.isTrivia = false) :
    ∃ cursor found length, Reached config text scope cursor found ∧
      cursor.significant? = some (token, length) ∧ (cursor.skip length).written = rest := by
  obtain ⟨cursor, found, passed, reached, split, areTrivia⟩ := goesOn
  obtain ⟨length, next, behind⟩ := Cursor.significant?_of_written split areTrivia significant
  exact ⟨cursor, found, length, reached, next, behind⟩

theorem significant_of_keyword (announces : token.keyword? = some keyword) :
    token.tag.isTrivia = false ∧ token.tag ≠ .closeBrace := by
  rw [(Token.lexeme_of_keyword? announces).1]
  exact ⟨rfl, nofun⟩

theorem GoesOn.onward (goesOn : GoesOn config text scope (token :: rest))
    (passed : ¬ Announces scope token rest) : GoesOn config text scope rest := by
  by_cases isTrivia : token.tag.isTrivia = true
  · obtain ⟨cursor, found, before, reached, split, areTrivia⟩ := goesOn
    refine ⟨cursor, found, before ++ [token], reached, ?_, ?_⟩
    · rw [split, List.append_assoc, List.singleton_append]
    · intro other member
      rcases List.mem_append.mp member with earlier | isLast
      · exact areTrivia other earlier
      · rwa [List.mem_singleton.mp isLast]
  · obtain ⟨cursor, found, length, reached, next, rfl⟩ :=
      goesOn.significant (Bool.eq_false_iff.mpr isTrivia)
    have notClose : scope = .file ∨ token.tag ≠ .closeBrace := by
      cases scope with
      | file => exact .inl rfl
      | implementation => exact .inr fun closes => passed (.inr (.inr closes))
      | trait => exact .inr fun closes => passed (.inr (.inr closes))
    have isClear := (reached.clear.significant next).1
    obtain ⟨visit, later, visits, -, onward⟩ := reached.step next notClose
    rw [visits.length_of_not_announces isClear passed] at onward
    exact onward.goesOn

theorem GoesOn.block {brace : Token} {trivia group : List Token}
    (goesOn : GoesOn config text .file (token :: (trivia ++ brace :: (group ++ rest))))
    (marks : token.keyword? = some .unsafeMark)
    (areTrivia : ∀ passed ∈ trivia, passed.tag.isTrivia = true)
    (opens : brace.tag = .openBrace) (isGroup : Delimiter.brace.Group group rest) :
    GoesOn config text .file rest := by
  obtain ⟨cursor, found, length, reached, next, split⟩ :=
    goesOn.significant (significant_of_keyword marks).1
  obtain ⟨isClear, inside⟩ := reached.clear.significant next
  obtain ⟨inner, isBrace⟩ :=
    (cursor.skip length).blockNext_iff.mp ⟨trivia, brace, _, split, areTrivia, opens⟩
  obtain ⟨passed, opener, group', split', arePassed, opens', isGroup'⟩ :=
    afterUnsafe_block inside isBrace
  -- Both say which token that is not trivia comes first.
  obtain ⟨first, isFirst, behind⟩ :=
    Cursor.significant?_of_written split areTrivia (by rw [opens]; rfl)
  obtain ⟨other, isOther, behind'⟩ :=
    Cursor.significant?_of_written split' arePassed (by rw [opens']; rfl)
  obtain ⟨-, rfl⟩ := Prod.mk.inj (Option.some.inj (isFirst.symm.trans isOther))
  obtain ⟨-, same⟩ := isGroup.unique isGroup' (behind.symm.trans behind')
  obtain ⟨visit, later, visits, -, onward⟩ := reached.step next (.inl rfl)
  cases visits with
  | file inDefinition =>
      rw [inFile_of_clear config inDefinition isClear, marks, ← Cursor.skip_skip] at onward
      rw [same]
      exact onward.goesOn
  | item inItems => exact absurd rfl inItems

theorem GoesOn.declaration {keyword : Keyword} {other head kept ending body : List Token}
    (goesOn : GoesOn config text scope (token :: other))
    (declares : Declaration scope keyword token other head kept ending body rest)
    (passed : ¬ IsEntered keyword head kept ending) : GoesOn config text scope rest := by
  obtain ⟨significant, notClose⟩ := significant_of_keyword declares.announces
  obtain ⟨cursor, found, length, reached, next, rfl⟩ := goesOn.significant significant
  obtain ⟨isClear, inside⟩ := reached.clear.significant next
  obtain ⟨visit, later, visits, -, onward⟩ := reached.step next (.inr notClose)
  obtain ⟨-, behind⟩ := declares_of_declaration inside declares
  rw [visits.length_of_declaration isClear inside declares passed, ← Cursor.skip_skip] at onward
  rw [← behind]
  exact onward.goesOn

/-- The items of an implementation are read together with what follows them. -/
theorem Reached.implementation (reached : Reached config text .file cursor found)
    (next : cursor.significant? = some (token, length))
    (announces : token.keyword? = some .implementation) {resolved : Signature.Target}
    (brace : (Head.read signatureGroups (cursor.skip length).rest).ending = .brace)
    (isResolved : Signature.target? ((Head.read signatureGroups (cursor.skip length).rest).signature
      (cursor.skip length).rest) = some resolved) :
    ∃ later, Reached config text .implementation
      ((cursor.skip length).skip (Head.read signatureGroups (cursor.skip length).rest).length)
      later := by
  obtain ⟨isClear, inside⟩ := reached.clear.significant next
  obtain ⟨visit, later, visits, split, onward⟩ := reached.step next (.inl rfl)
  have read : visit = afterImplementation token.start (cursor.skip length) := by
    cases visits with
    | file inDefinition =>
        rw [inFile_of_clear config inDefinition isClear, announces]
    | item inItems => exact absurd rfl inItems
  subst read
  have behind := onward.onward
  rw [afterImplementation_length_of_resolved token.start brace isResolved, ← Cursor.skip_skip,
    ← Cursor.skip_skip] at behind
  cases behind with
  | file inDefinition =>
      refine ⟨_, reached.narrow (inside.skip (inside.head _).whole)
        ((reached.stands.skip _).skip _) (.implementation ⟨some (String.ofList resolved.typeName),
          resolved.traitName?.map String.ofList⟩ inDefinition _) ?_ ?_ ?_⟩
      · exact Nat.le_trans (Cursor.offset_le_skip cursor _) (Cursor.offset_le_skip _ _)
      · exact Nat.le_trans (Cursor.offset_toEnd_skip_le _ _) (Cursor.offset_toEnd_skip_le cursor _)
      · intro extent member
        left
        rw [split, outlines_append] at member
        rw [outlines_append]
        rcases List.mem_append.mp member with first | last
        · obtain ⟨other, isOther, among⟩ := afterImplementation_block first
          rw [isResolved] at isOther
          cases isOther
          exact List.mem_append_left _ among
        · exact List.mem_append_right _ last

/-- The items of a trait are read up to where its body ends. -/
theorem Reached.trait (reached : Reached config text .file cursor found)
    (next : cursor.significant? = some (token, length))
    (announces : token.keyword? = some .trait) :
    ∃ later, Reached config text .trait ((cursor.skip length).bodyBehind [.angle, .paren])
      later := by
  obtain ⟨isClear, inside⟩ := reached.clear.significant next
  obtain ⟨visit, later, visits, split, onward⟩ := reached.step next (.inl rfl)
  have read : visit = afterTrait token.start (cursor.skip length) := by
    cases visits with
    | file inDefinition =>
        rw [inFile_of_clear config inDefinition isClear, announces]
    | item inItems => exact absurd rfl inItems
  subst read
  have bodyEnd : ((cursor.skip length).bodyBehind [.angle, .paren]).toEnd.place =
      (cursor.skip (length + (afterTrait token.start (cursor.skip length)).length)).place := by
    rw [Cursor.bodyBehind_toEnd_place, Cursor.skip_skip, afterTrait_length]
  refine ⟨_, reached.narrow (inside.bodyBehind _) (bodyBehind_standsIn _ (reached.stands.skip _))
    (.trait ⟨none, some (String.ofList (Signature.leadingName
      (Head.read [.angle, .paren] (cursor.skip length).rest).kept))⟩ _) ?_ ?_ ?_⟩
  · exact Nat.le_trans (Cursor.offset_le_skip cursor _) (Cursor.offset_le_skip _ _)
  · rw [bodyEnd]
    exact Cursor.offset_skip_le_toEnd cursor _
  · intro extent member
    rw [split, outlines_append] at member
    rcases List.mem_append.mp member with first | last
    · exact .inl (afterTrait_block first).2
    · right
      right
      rw [bodyEnd]
      exact onward.onward.place_le onward.stands last

theorem GoesOn.implementation {other head kept ending body : List Token}
    (goesOn : GoesOn config text .file (token :: other))
    (declares : Declaration .file .implementation token other head kept ending body rest)
    (entered : IsEntered .implementation head kept ending) :
    GoesOn config text .implementation (body ++ rest) := by
  obtain ⟨cursor, found, length, reached, next, rfl⟩ :=
    goesOn.significant (significant_of_keyword declares.announces).1
  obtain ⟨-, inside⟩ := reached.clear.significant next
  obtain ⟨isRead, behind⟩ := declares_of_declaration inside declares
  obtain ⟨brace, isResolved⟩ := Classical.not_imp.mp ((isEntered_implementation isRead).mp entered)
  obtain ⟨resolved, isResolved⟩ := Option.ne_none_iff_exists'.mp isResolved
  obtain ⟨later, onward⟩ := reached.implementation next declares.announces brace isResolved
  rw [← behind, ← isRead.behindHead]
  exact onward.goesOn

theorem GoesOn.trait {other head kept ending body : List Token}
    (goesOn : GoesOn config text .file (token :: other))
    (declares : Declaration .file .trait token other head kept ending body rest) :
    GoesOn config text .trait body := by
  obtain ⟨cursor, found, length, reached, next, rfl⟩ :=
    goesOn.significant (significant_of_keyword declares.announces).1
  obtain ⟨-, inside⟩ := reached.clear.significant next
  obtain ⟨isRead, -⟩ := declares_of_declaration inside declares
  obtain ⟨later, onward⟩ := reached.trait next declares.announces
  rw [← isRead.atBody]
  exact onward.goesOn

theorem GoesOn.group {group : List Token}
    (goesOn : GoesOn config text scope (token :: (group ++ rest)))
    (inItems : scope ≠ .file) (opens : token.tag = .openBrace)
    (isGroup : Delimiter.brace.Group group rest) : GoesOn config text scope rest := by
  obtain ⟨cursor, found, length, reached, next, split⟩ :=
    goesOn.significant (by rw [opens]; rfl)
  obtain ⟨-, inside⟩ := reached.clear.significant next
  obtain ⟨passed, split', isPassed⟩ := Delimiter.brace.closeLength_group _ inside.plain
  obtain ⟨-, same⟩ := isGroup.unique isPassed (split.symm.trans split')
  obtain ⟨visit, later, visits, -, onward⟩ := reached.step next (.inr (by rw [opens]; nofun))
  cases visits with
  | file inDefinition => exact absurd rfl inItems
  | item inItems owner =>
      unfold amongItems at onward
      rw [opens, ← Cursor.skip_skip] at onward
      rw [same]
      exact onward.goesOn

theorem GoesOn.close (goesOn : GoesOn config text .implementation (token :: rest))
    (closes : token.tag = .closeBrace) : GoesOn config text .file rest := by
  obtain ⟨cursor, found, length, reached, next, rfl⟩ :=
    goesOn.significant (by rw [closes]; rfl)
  obtain ⟨-, inside⟩ := reached.clear.significant next
  obtain ⟨-, stands, onward, elsewhere⟩ := reached
  cases onward with
  | implementation owner inDefinition =>
      rw [items_of_close next closes] at elsewhere
      refine Reached.goesOn ⟨inside, stands.skip length, .file inDefinition _, ?_⟩
      intro extent member
      rcases elsewhere extent member with found | before | behind
      · exact .inl found
      · exact .inr (.inl (Nat.le_trans before (Cursor.offset_le_skip cursor _)))
      · exact .inr (.inr (Nat.le_trans (Cursor.offset_toEnd_skip_le cursor _) behind))

/-- A survey goes on with all that is read. -/
theorem goesOn_of_reads (clear : (Cursor.ofText text).Clear)
    (reads : Reads (Cursor.ofText text).tokens scope left) : GoesOn config text scope left := by
  induction reads with
  | start =>
      refine Reached.goesOn ⟨clear, Cursor.ofText_standsIn text, .file false _, ?_⟩
      exact fun _ => .inl
  | onward reads passed ih => exact ih.onward passed
  | block reads marks areTrivia opens isGroup ih => exact ih.block marks areTrivia opens isGroup
  | declaration reads declares passed ih => exact ih.declaration declares passed
  | implementation reads declares entered ih => exact ih.implementation declares entered
  | trait reads declares named ih => exact ih.trait declares
  | group reads inItems opens isGroup ih => exact ih.group inItems opens isGroup
  | close reads closes ih => exact ih.close closes

/-! ### What is stepped over is not found -/

/-- No block covers a token before all that are found later. -/
theorem Reached.uncovered (reached : Reached config text scope cursor found)
    (member : token ∈ cursor.written)
    (ahead : ∀ extent, ⟨.unsafeBlock, extent⟩ ∈ outlines found →
      token.start.offset < extent.start.offset) :
    ¬ InBlock (ofText config text) token.start := by
  obtain ⟨low, high⟩ := Cursor.offset_of_mem_written member
  rintro ⟨extent, isFound, starts, stops⟩
  rcases reached.elsewhere extent isFound with inside | before | behind
  · have later := ahead extent inside
    omega
  · omega
  · omega

theorem mem_written_of_significant (next : cursor.significant? = some (token, length))
    {inner : Token} (member : inner = token ∨ inner ∈ (cursor.skip length).written) :
    inner ∈ cursor.written := by
  obtain ⟨trivia, split, -⟩ := Cursor.written_significant next
  rw [split]
  exact List.mem_append_right _ (List.mem_cons.mpr member)

/-- The head of a declaration is passed. -/
theorem Visits.head_le (visits : Visits config scope token cursor visit) (isClear : token.IsClear)
    (clear : cursor.Clear)
    (declaration : Declaration scope keyword token cursor.written head kept ending body rest) :
    (Head.read (headGroups keyword) cursor.rest).length ≤ visit.length := by
  by_cases entered : IsEntered keyword head kept ending
  · obtain ⟨declares, -⟩ := declares_of_declaration clear declaration
    obtain rfl := entered.1
    obtain ⟨brace, isResolved⟩ :=
      Classical.not_imp.mp ((isEntered_implementation declares).mp entered)
    obtain ⟨resolved, isResolved⟩ := Option.ne_none_iff_exists'.mp isResolved
    rcases visits.cases isClear declaration.announces declaration.declared with
      ⟨isFunction, -⟩ | ⟨isTrait, -⟩ | ⟨-, rfl⟩
    · cases isFunction
    · cases isTrait
    · rw [afterImplementation_length_of_resolved token.start brace isResolved]
      exact Nat.le_add_right _ _
  · rw [visits.length_of_declaration isClear clear declaration entered]
    exact Nat.le_add_right _ _

theorem GoesOn.head_uncovered {other : List Token} {inner : Token}
    (goesOn : GoesOn config text scope (token :: other))
    (declares : Declaration scope keyword token other head kept ending body rest)
    (member : inner ∈ head ++ ending) : ¬ InBlock (ofText config text) inner.start := by
  obtain ⟨significant, notClose⟩ := significant_of_keyword declares.announces
  obtain ⟨cursor, found, length, reached, next, rfl⟩ := goesOn.significant significant
  obtain ⟨isClear, inside⟩ := reached.clear.significant next
  obtain ⟨visit, later, visits, split, onward⟩ := reached.step next (.inr notClose)
  obtain ⟨isRead, -⟩ := declares_of_declaration inside declares
  have passed := visits.head_le isClear inside declares
  have below : inner.start.offset < ((cursor.skip length).skip
      (Head.read (headGroups keyword) (cursor.skip length).rest).length).place.offset := by
    rw [← isRead.atHead] at member
    have bounds := Cursor.offset_of_mem_written member
    rw [Cursor.toEnd_window_place] at bounds
    exact bounds.2
  refine reached.uncovered (mem_written_of_significant next (.inr ?_)) ?_
  · rw [declares.parts.split, ← List.append_assoc]
    exact List.mem_append_left _ member
  · intro extent isFound
    rw [split, outlines_append] at isFound
    rcases List.mem_append.mp isFound with first | last
    · exact Nat.lt_of_lt_of_le below (visits.block isClear (reached.stands.skip _) inside declares
        first).2
    · refine Nat.lt_of_lt_of_le below (Nat.le_trans ?_ (onward.onward.place_le onward.stands last))
      rw [Cursor.skip_skip]
      exact Cursor.offset_skip_le cursor (Nat.add_le_add_left passed _)

theorem GoesOn.body_uncovered {other : List Token} {inner : Token}
    (goesOn : GoesOn config text scope (token :: other))
    (declares : Declaration scope keyword token other head kept ending body rest)
    (nothing : NamesNothing keyword head kept) (member : inner ∈ body) :
    ¬ InBlock (ofText config text) inner.start := by
  obtain ⟨significant, notClose⟩ := significant_of_keyword declares.announces
  obtain ⟨cursor, found, length, reached, next, rfl⟩ := goesOn.significant significant
  obtain ⟨isClear, inside⟩ := reached.clear.significant next
  obtain ⟨visit, later, visits, split, onward⟩ := reached.step next (.inr notClose)
  obtain ⟨isRead, -⟩ := declares_of_declaration inside declares
  have passed := visits.length_of_declaration isClear inside declares fun entered =>
    entered.2.2 nothing
  have below : inner.start.offset < (cursor.skip (length + visit.length)).place.offset := by
    rw [← isRead.atBody] at member
    have bounds := Cursor.offset_of_mem_written member
    rw [Cursor.bodyBehind_toEnd_place, Cursor.skip_skip, ← passed] at bounds
    exact bounds.2
  refine reached.uncovered (mem_written_of_significant next (.inr ?_)) ?_
  · rw [declares.parts.split]
    exact List.mem_append_right _ (List.mem_append_right _ (List.mem_append_left _ member))
  · intro extent isFound
    rw [split, outlines_append] at isFound
    rcases List.mem_append.mp isFound with first | last
    · exact absurd nothing (visits.block isClear (reached.stands.skip _) inside declares first).1
    · exact Nat.lt_of_lt_of_le below (onward.onward.place_le onward.stands last)

theorem GoesOn.group_uncovered {group : List Token} {inner : Token}
    (goesOn : GoesOn config text scope (token :: (group ++ rest)))
    (inItems : scope ≠ .file) (opens : token.tag = .openBrace)
    (isGroup : Delimiter.brace.Group group rest) (member : inner ∈ token :: group) :
    ¬ InBlock (ofText config text) inner.start := by
  obtain ⟨cursor, found, length, reached, next, split⟩ :=
    goesOn.significant (by rw [opens]; rfl)
  obtain ⟨-, inside⟩ := reached.clear.significant next
  obtain ⟨passed, split', isPassed⟩ := Delimiter.brace.closeLength_group _ inside.plain
  obtain ⟨rfl, -⟩ := isGroup.unique isPassed (split.symm.trans split')
  obtain ⟨visit, later, visits, found', onward⟩ := reached.step next (.inr (by rw [opens]; nofun))
  have leads : visit = .skipped (Delimiter.brace.closeLength (cursor.skip length).rest) := by
    cases visits with
    | file inDefinition => exact absurd rfl inItems
    | item inItems owner =>
        unfold amongItems
        rw [opens]
  subst leads
  have below : inner.start.offset < (cursor.skip (length +
      Delimiter.brace.closeLength (cursor.skip length).rest)).place.offset := by
    rcases List.mem_cons.mp member with rfl | inGroup
    · exact Nat.lt_of_lt_of_le (behind_significant reached.stands next).start_lt
        (Cursor.offset_skip_le cursor (Nat.le_add_right _ _))
    · have window := Cursor.written_window (inside.close .brace).whole
      obtain rfl := List.append_cancel_right (split'.symm.trans window)
      have bounds := Cursor.offset_of_mem_written inGroup
      rw [Cursor.toEnd_window_place, Cursor.skip_skip] at bounds
      exact bounds.2
  refine reached.uncovered (mem_written_of_significant next ?_) ?_
  · rw [split]
    exact (List.mem_cons.mp member).imp_right (List.mem_append_left _)
  · intro extent isFound
    rw [found'] at isFound
    exact Nat.lt_of_lt_of_le below (onward.onward.place_le onward.stands isFound)

theorem GoesOn.leftOver_uncovered {inner : Token}
    (goesOn : GoesOn config text .trait (token :: rest)) (closes : token.tag = .closeBrace)
    (member : inner ∈ rest) : ¬ InBlock (ofText config text) inner.start := by
  obtain ⟨cursor, found, length, reached, next, rfl⟩ :=
    goesOn.significant (by rw [closes]; rfl)
  refine reached.uncovered (mem_written_of_significant next (.inr member)) ?_
  intro extent isFound
  cases reached.onward with
  | trait owner =>
      rw [items_of_close next closes] at isFound
      cases isFound

/-- No block that is found covers what is overlooked. -/
theorem not_inBlock_of_overlooked (clear : (Cursor.ofText text).Clear) {place : Position}
    (overlooked : Overlooked (Cursor.ofText text).tokens place) :
    ¬ InBlock (ofText config text) place := by
  obtain ⟨scope, left, stretch, reads, unwatched, token, member, rfl⟩ := overlooked
  have goesOn : GoesOn config text scope left := goesOn_of_reads clear reads
  cases unwatched with
  | head declares => exact goesOn.head_uncovered declares member
  | body declares nothing => exact goesOn.body_uncovered declares nothing member
  | group inItems opens isGroup => exact goesOn.group_uncovered inItems opens isGroup member
  | leftOver closes => exact goesOn.leftOver_uncovered closes member

end Declarations

end Finding

end Survey
