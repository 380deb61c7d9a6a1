import Survey.Proofs.Survival
import Survey.Proofs.TokenRuns

set_option autoImplicit false

/-!
# Where findings come from

Whatever is found, is found behind a token that other readers have led to. `Course`
lists what readers do to a cursor; a property that all of this keeps holds wherever
something is found. `Origin` then says, for each kind of finding, what stood there and
how the finding was made of it. So a fact about all findings needs no walk through the
readers of its own: it is enough to see what the readers keep, and to look at each kind
of finding once.
-/

namespace Survey
namespace Finding

/-- Two properties of cursors that reading keeps. The first holds wherever a token is
looked for, the second right behind a token and behind a head. -/
structure Course (stands behind : Cursor → Prop) : Prop where
  token {cursor : Cursor} {token : Token} {length : Nat} : stands cursor →
    cursor.significant? = some (token, length) → behind (cursor.skip length)
  onward {cursor : Cursor} : behind cursor → stands cursor
  toEnd {cursor : Cursor} : stands cursor → stands cursor.toEnd
  group {cursor : Cursor} (kind : Delimiter) : behind cursor →
    stands (cursor.skip (kind.closeLength cursor.rest))
  body {cursor : Cursor} : behind cursor →
    stands (cursor.window (Delimiter.brace.closeLength cursor.rest))
  mark {cursor : Cursor} {mark : Attribute} : behind cursor →
    Attribute.read? cursor.rest = some mark → stands (cursor.skip mark.length)
  invocation {cursor : Cursor} : behind cursor →
    stands (cursor.skip (macroLength false cursor.rest))
  definition {cursor : Cursor} {rules bang : Token} {length further : Nat} : stands cursor →
    cursor.significant? = some (rules, length) → rules.keyword? = some .macroRules →
    (cursor.skip length).significant? = some (bang, further) → bang.tag = .bang →
      stands (((cursor.skip length).skip further).skip
        (macroLength true ((cursor.skip length).skip further).rest))
  block {cursor : Cursor} : behind cursor → stands (cursor.skip (afterUnsafe cursor).length)
  head {cursor : Cursor} (groups : List Delimiter) : behind cursor →
    behind (cursor.skip (Head.read groups cursor.rest).length)
  variants {cursor : Cursor} : behind cursor →
    stands (cursor.skip (VariantList.read cursor.rest).length)

/-- How a finding is made. The cursor that is named stands before the token that led to
the finding. -/
inductive Origin (stands behind : Cursor → Prop) : Finding → Prop
  | unsafeBlock {cursor : Cursor} {token : Token} {length : Nat} {inner : List Char}
      (standing : stands cursor) (next : cursor.significant? = some (token, length))
      (marks : token.keyword? = some .unsafeMark)
      (opens : (cursor.skip length).rest.drop (Trivia.length (cursor.skip length).rest) =
        '\x7b' :: inner) :
      Origin stands behind
        (.unsafeBlock ⟨((cursor.skip length).skip (Trivia.length (cursor.skip length).rest)).place,
          ((cursor.skip length).skip (Trivia.length (cursor.skip length).rest + 1 +
            Delimiter.brace.closeLength inner)).place⟩)
  | function {cursor : Cursor} {token : Token} {length : Nat} (owner : Owner) (blocks : Nat)
      {parts : Signature.FunctionParts}
      (standing : stands cursor) (next : cursor.significant? = some (token, length))
      (announces : token.keyword? = some .function)
      (taken : Signature.functionParts
        ((Head.read signatureGroups (cursor.skip length).rest).signature
          (cursor.skip length).rest) = parts)
      (named : parts.name ≠ []) :
      Origin stands behind
        (.function ⟨String.ofList parts.name, parts.parameters.map String.ofList,
          String.ofList parts.result,
          ⟨token.start, ((cursor.skip length).skip
            ((Head.read signatureGroups (cursor.skip length).rest).fullLength
              (cursor.skip length).rest)).place⟩, owner⟩ blocks)
  | struct {cursor : Cursor} {token : Token} {length : Nat} {name : List Char}
      (standing : stands cursor) (next : cursor.significant? = some (token, length))
      (announces : token.keyword? = some .struct) (named : name ≠ []) :
      Origin stands behind (.struct (String.ofList name)
        ⟨token.start, ((cursor.skip length).skip
          ((Head.read [.paren, .angle] (cursor.skip length).rest).fullLength
            (cursor.skip length).rest)).place⟩)
  | enum {cursor : Cursor} {token : Token} {length : Nat} {name : List Char} {body : VariantList}
      (standing : stands cursor) (next : cursor.significant? = some (token, length))
      (announces : token.keyword? = some .enum) (named : name ≠ [])
      (read : body =
        if (Head.read [.angle] (cursor.skip length).rest).ending = .brace then
          VariantList.read ((cursor.skip length).rest.drop
            (Head.read [.angle] (cursor.skip length).rest).length)
        else ⟨[], 0, true⟩) :
      Origin stands behind (.enum (String.ofList name) (body.variants.map String.ofList)
        ⟨token.start, ((cursor.skip length).skip
          ((Head.read [.angle] (cursor.skip length).rest).length + body.length)).place⟩)
  | trait {cursor : Cursor} {token : Token} {length : Nat} {name : List Char}
      (standing : stands cursor) (next : cursor.significant? = some (token, length))
      (announces : token.keyword? = some .trait) (named : name ≠ []) :
      Origin stands behind (.trait (String.ofList name)
        ⟨token.start, ((cursor.skip length).skip
          ((Head.read [.angle, .paren] (cursor.skip length).rest).fullLength
            (cursor.skip length).rest)).place⟩)
  | test {cursor : Cursor} {token : Token} {length read : Nat} {name : List Char}
      (standing : stands cursor) (next : cursor.significant? = some (token, length))
      (isHash : token.tag = .hash) (named : name ≠ [])
      (atName : behind ((cursor.skip length).skip read)) :
      Origin stands behind (.test (String.ofList name)
        ⟨token.start, (((cursor.skip length).skip read).skip
          ((Head.read signatureGroups ((cursor.skip length).skip read).rest).fullLength
            ((cursor.skip length).skip read).rest)).place⟩)
  | target {resolved : Signature.Target} {text : List Char}
      (isResolved : Signature.target? text = some resolved) :
      Origin stands behind (.target (String.ofList resolved.typeName)
        (resolved.traitName?.map String.ofList))
  | testModule (line : Nat) : Origin stands behind (.testModule line)
  | notice {finding : Finding} (isNotice : finding.isNotice = true) : Origin stands behind finding

/-- Everything that a visit found has an origin, and reading may go on behind it. -/
structure Traced (stands behind : Cursor → Prop) (cursor : Cursor) (visit : Visit) : Prop where
  origins : ∀ finding ∈ visit.found, Origin stands behind finding
  lands : stands (cursor.skip visit.length)

variable {stands behind : Cursor → Prop} {cursor : Cursor} {token : Token} {length : Nat}

theorem Traced.skipped {count : Nat} (lands : stands (cursor.skip count)) :
    Traced stands behind cursor (.skipped count) where
  origins _ member := absurd member List.not_mem_nil
  lands := lands

theorem Traced.stays (course : Course stands behind) (there : behind cursor) :
    Traced stands behind cursor (.skipped 0) := by
  apply Traced.skipped
  rw [Cursor.skip_zero]
  exact course.onward there

theorem origins_append {first second : List Finding}
    (before : ∀ finding ∈ first, Origin stands behind finding)
    (after : ∀ finding ∈ second, Origin stands behind finding) :
    ∀ finding ∈ first ++ second, Origin stands behind finding := by
  intro finding member
  rcases List.mem_append.mp member with inFirst | inSecond
  · exact before finding inFirst
  · exact after finding inSecond

theorem origins_singleton {finding : Finding} (origin : Origin stands behind finding) :
    ∀ other ∈ [finding], Origin stands behind other := by
  intro other member
  rw [List.mem_singleton] at member
  subst member
  exact origin

namespace Course

variable (course : Course stands behind)
include course

theorem skipLength (there : behind cursor) :
    stands (cursor.skip (Attribute.skipLength cursor.rest)) := by
  unfold Attribute.skipLength
  cases read : Attribute.read? cursor.rest with
  | some mark => exact course.mark there read
  | none =>
      rw [Cursor.skip_zero]
      exact course.onward there

theorem fullLength (groups : List Delimiter) (there : behind cursor) :
    stands (cursor.skip ((Head.read groups cursor.rest).fullLength cursor.rest)) := by
  have atBody := course.head groups there
  unfold Head.fullLength Head.bodyLength?
  split
  · rw [Option.getD_some, ← Cursor.skip_skip]
    exact course.group .brace atBody
  · exact course.onward atBody
  · exact course.onward atBody

/-! ### Bodies of functions -/

theorem afterUnsafe_traced (standing : stands cursor)
    (next : cursor.significant? = some (token, length))
    (marks : token.keyword? = some .unsafeMark) :
    Traced stands behind (cursor.skip length) (afterUnsafe (cursor.skip length)) := by
  refine ⟨?_, course.block (course.token standing next)⟩
  unfold afterUnsafe
  dsimp only
  split
  · exact origins_singleton (.notice rfl)
  · rename_i c inner opens
    split
    · rename_i isBrace
      subst isBrace
      exact origins_singleton (.unsafeBlock standing next marks opens)
    · intro finding member
      cases member

theorem inBody_traced (standing : stands cursor)
    (next : cursor.significant? = some (token, length)) :
    Traced stands behind (cursor.skip length) (inBody token (cursor.skip length)) := by
  have there := course.token standing next
  unfold inBody
  split
  · exact .skipped (course.skipLength there)
  · split
    · rename_i marks
      exact course.afterUnsafe_traced standing next marks
    · exact .stays course there

theorem unsafeIn_origins (standing : stands cursor) :
    ∀ finding ∈ unsafeIn cursor, Origin stands behind finding := by
  induction cursor using Cursor.significant_induction with
  | atEnd cursor atEnd =>
      rw [unsafeIn_of_none atEnd]
      intro finding member
      cases member
  | onward cursor token length next ih =>
      rw [unsafeIn_of_some next]
      have first := course.inBody_traced standing next
      apply origins_append first.origins
      apply ih
      rw [← Cursor.skip_skip]
      exact first.lands

theorem body_origins (groups : List Delimiter) (there : behind cursor) :
    ∀ finding ∈ unsafeIn (cursor.bodyBehind groups), Origin stands behind finding := by
  have atBody := course.head groups there
  unfold Cursor.bodyBehind Head.fullLength Head.bodyLength?
  dsimp only
  rw [Nat.add_sub_cancel_left]
  split
  · exact course.unsafeIn_origins (course.body atBody)
  -- Without a body the window is empty, and nothing is found in it.
  all_goals
    rw [unsafeIn_of_none (Cursor.significant?_of_blank (by
      intro c member
      cases member))]
    intro finding member
    cases member

theorem afterFunction_traced (owner : Owner) (standing : stands cursor)
    (next : cursor.significant? = some (token, length))
    (announces : token.keyword? = some .function) :
    Traced stands behind (cursor.skip length)
      (afterFunction owner token.start (cursor.skip length)) := by
  have there := course.token standing next
  by_cases pointer : isPointerType (cursor.skip length).rest = true
  · rw [afterFunction_of_pointer pointer]
    exact .stays course there
  · unfold afterFunction
    rw [if_neg pointer]
    dsimp only
    refine ⟨?_, course.fullLength signatureGroups there⟩
    apply origins_append
    · split
      · exact origins_singleton (.notice rfl)
      · intro finding member
        cases member
    · split
      · intro finding member
        cases member
      · rename_i named
        apply origins_append (course.body_origins signatureGroups there)
        apply origins_singleton
        exact .function owner _ standing next announces rfl (by simpa using named)

/-! ### Items -/

theorem amongItems_traced (owner : Owner) (standing : stands cursor)
    (next : cursor.significant? = some (token, length)) :
    Traced stands behind (cursor.skip length) (amongItems owner token (cursor.skip length)) := by
  have there := course.token standing next
  unfold amongItems
  split
  · exact .skipped (course.group .brace there)
  · exact .skipped (course.invocation there)
  · exact .skipped (course.skipLength there)
  · split
    · rename_i announces
      exact course.afterFunction_traced owner standing next announces
    · exact .stays course there

theorem items_traced (owner : Owner) (standing : stands cursor) :
    Traced stands behind cursor (items owner cursor) := by
  induction cursor using Cursor.significant_induction with
  | atEnd cursor atEnd =>
      rw [items_of_none atEnd]
      exact .skipped (course.toEnd standing)
  | onward cursor token length next ih =>
      by_cases closes : token.tag = .closeBrace
      · rw [items_of_close next closes]
        exact .skipped (course.onward (course.token standing next))
      · rw [items_of_some next closes]
        have first := course.amongItems_traced owner standing next
        have later := ih (amongItems owner token (cursor.skip length)).length (by
          rw [← Cursor.skip_skip]
          exact first.lands)
        constructor
        · exact origins_append first.origins later.origins
        · have lands := later.lands
          rw [Cursor.skip_skip] at lands
          exact lands

/-! ### Declarations -/

theorem afterStruct_traced (standing : stands cursor)
    (next : cursor.significant? = some (token, length))
    (announces : token.keyword? = some .struct) :
    Traced stands behind (cursor.skip length) (afterStruct token.start (cursor.skip length)) := by
  refine ⟨?_, course.fullLength [.paren, .angle] (course.token standing next)⟩
  unfold afterStruct
  dsimp only
  split
  · intro finding member
    cases member
  · rename_i named
    exact origins_singleton (.struct standing next announces (by simpa using named))

theorem afterEnum_traced (standing : stands cursor)
    (next : cursor.significant? = some (token, length))
    (announces : token.keyword? = some .enum) :
    Traced stands behind (cursor.skip length) (afterEnum token.start (cursor.skip length)) := by
  have atBody := course.head [.angle] (course.token standing next)
  unfold afterEnum
  dsimp only
  split
  · exact .skipped (course.onward atBody)
  · rename_i named
    constructor
    · apply origins_append
      · generalize VariantList.isClosed _ = closed
        cases closed with
        | true =>
            intro finding member
            cases member
        | false => exact origins_singleton (.notice rfl)
      · exact origins_singleton (.enum standing next announces (by simpa using named) rfl)
    · dsimp only
      rw [← Cursor.skip_skip]
      split
      · exact course.variants atBody
      · rw [Cursor.skip_zero]
        exact course.onward atBody

theorem afterTrait_traced (standing : stands cursor)
    (next : cursor.significant? = some (token, length))
    (announces : token.keyword? = some .trait) :
    Traced stands behind (cursor.skip length) (afterTrait token.start (cursor.skip length)) := by
  have there := course.token standing next
  have ends := course.fullLength [.angle, .paren] there
  have atBody := course.head [.angle, .paren] there
  unfold afterTrait
  dsimp only
  split
  · exact .skipped ends
  · rename_i named
    have declared : Origin stands behind (.trait (String.ofList (Signature.leadingName
        (Head.read [.angle, .paren] (cursor.skip length).rest).kept))
        ⟨token.start, ((cursor.skip length).skip
          ((Head.read [.angle, .paren] (cursor.skip length).rest).fullLength
            (cursor.skip length).rest)).place⟩) := by
      refine .trait standing next announces ?_
      intro empty
      rw [empty] at named
      exact named rfl
    split
    · exact ⟨origins_singleton declared, ends⟩
    · rename_i bodyLength hasBody
      refine ⟨?_, ends⟩
      have isBody : bodyLength = Delimiter.brace.closeLength
          ((cursor.skip length).skip
            (Head.read [.angle, .paren] (cursor.skip length).rest).length).rest := by
        unfold Head.bodyLength? at hasBody
        split at hasBody <;> cases hasBody
        rfl
      rw [isBody]
      have inside := course.items_traced ⟨none, some (String.ofList (Signature.leadingName
        (Head.read [.angle, .paren] (cursor.skip length).rest).kept))⟩ (course.body atBody)
      refine origins_append ?_ (origins_singleton (.notice rfl))
      exact List.forall_mem_cons.mpr ⟨declared, inside.origins⟩

theorem afterImplementation_traced (start : Position) (there : behind cursor) :
    Traced stands behind cursor (afterImplementation start cursor) := by
  have atBody := course.head signatureGroups there
  unfold afterImplementation
  dsimp only
  split
  · exact ⟨origins_singleton (.notice rfl), course.onward atBody⟩
  · exact .skipped (course.onward atBody)
  · split
    · exact ⟨origins_singleton (.notice rfl), course.fullLength signatureGroups there⟩
    · rename_i resolved isResolved
      have inside := course.items_traced
        ⟨some (String.ofList resolved.typeName), resolved.traitName?.map String.ofList⟩
        (course.onward atBody)
      constructor
      · refine origins_append ?_ (origins_singleton (.notice rfl))
        exact List.forall_mem_cons.mpr ⟨.target isResolved, inside.origins⟩
      · have lands := inside.lands
        rw [Cursor.skip_skip] at lands
        exact lands

/-! ### Tests -/

theorem qualifierLength?_stands {more : Nat} (there : behind cursor)
    (qualified : qualifierLength? token cursor = some more) : stands (cursor.skip more) := by
  unfold qualifierLength? at qualified
  split at qualified
  · cases qualified
    exact course.skipLength there
  · split at qualified
    · cases qualified
      exact course.group .paren there
    · split at qualified
      · cases qualified
        rw [Cursor.skip_zero]
        exact course.onward there
      · split at qualified
        · cases qualified
          rw [Cursor.skip_zero]
          exact course.onward there
        · cases qualified

/-- A word that was looked for as a name is not empty, and reading goes on behind it. -/
theorem nameAfterKeyword_behind (standing : stands cursor) {name : List Char} {read : Nat}
    (found : nameAfterKeyword cursor = ⟨some name, read⟩) :
    name ≠ [] ∧ behind (cursor.skip read) := by
  unfold nameAfterKeyword at found
  cases next : cursor.significant? with
  | none =>
      rw [next] at found
      cases found
  | some pair =>
      obtain ⟨token, length⟩ := pair
      rw [next] at found
      dsimp only at found
      split at found
      · cases found
        refine ⟨?_, course.token standing next⟩
        obtain ⟨trivia, size, -, readName, -, -, -, lexeme⟩ := Cursor.significant?_eq_some next
        have positive := (Token.read?_pos readName).1
        have bound := Token.read?_length_le readName
        intro empty
        have nothing := congrArg List.length (lexeme.symm.trans empty)
        rw [List.length_take, List.length_nil] at nothing
        omega
      · cases found

theorem markedName_traced (standing : stands cursor) :
    stands (cursor.skip (markedName cursor).length) ∧
      ∀ name, (markedName cursor).name? = some name →
        name ≠ [] ∧ behind (cursor.skip (markedName cursor).length) := by
  induction cursor using Cursor.significant_induction with
  | atEnd cursor atEnd =>
      rw [markedName_of_none atEnd]
      exact ⟨course.toEnd standing, fun name isName => by cases isName⟩
  | onward cursor token length next ih =>
      have there := course.token standing next
      cases qualified : qualifierLength? token (cursor.skip length) with
      | some more =>
          have later := ih more (by
            rw [← Cursor.skip_skip]
            exact course.qualifierLength?_stands there qualified)
          rw [markedName_of_qualifier next qualified]
          dsimp only
          rw [← Cursor.skip_skip]
          exact later
      | none =>
          by_cases announces : token.keyword? = some .function
          · rw [markedName_of_function next qualified announces]
            dsimp only
            rw [← Cursor.skip_skip]
            cases found : nameAfterKeyword (cursor.skip length) with
            | mk name? read =>
                dsimp only
                cases name? with
                | some name =>
                    obtain ⟨named, behindName⟩ :=
                      course.nameAfterKeyword_behind (course.onward there) found
                    refine ⟨course.onward behindName, ?_⟩
                    intro other isOther
                    cases isOther
                    exact ⟨named, behindName⟩
                | none =>
                    refine ⟨?_, fun name isName => by cases isName⟩
                    unfold nameAfterKeyword at found
                    cases following : (cursor.skip length).significant? with
                    | none =>
                        rw [following] at found
                        cases found
                        exact course.toEnd (course.onward there)
                    | some pair =>
                        obtain ⟨token, size⟩ := pair
                        rw [following] at found
                        have isSize : size = read := congrArg NameSearch.length found
                        rw [← isSize]
                        exact course.onward (course.token (course.onward there) following)
          · rw [markedName_of_other next qualified announces]
            exact ⟨course.onward there, fun name isName => by cases isName⟩

theorem afterTestMark_traced (standing : stands cursor)
    (next : cursor.significant? = some (token, length)) (isHash : token.tag = .hash)
    {mark : Nat} (marked : stands ((cursor.skip length).skip mark)) :
    Traced stands behind ((cursor.skip length).skip mark)
      (afterTestMark token.start ((cursor.skip length).skip mark)) := by
  obtain ⟨lands, isNamed⟩ := course.markedName_traced marked
  cases found : markedName ((cursor.skip length).skip mark) with
  | mk name? read =>
      rw [found] at lands isNamed
      cases name? with
      | none =>
          rw [afterTestMark_of_none found]
          exact .skipped lands
      | some name =>
          obtain ⟨named, behindName⟩ := isNamed name rfl
          dsimp only at behindName
          have ends := course.fullLength signatureGroups behindName
          unfold afterTestMark
          rw [found]
          dsimp only
          constructor
          · apply origins_append (course.body_origins signatureGroups behindName)
            apply origins_singleton
            rw [Cursor.skip_skip (cursor.skip length) mark read] at behindName ⊢
            exact .test standing next isHash named behindName
          · rw [Cursor.skip_skip _ read] at ends
            exact ends

theorem afterHash_traced (config : Config) (standing : stands cursor)
    (next : cursor.significant? = some (token, length)) (isHash : token.tag = .hash) :
    Traced stands behind (cursor.skip length)
      (afterHash config token.start (cursor.skip length)) := by
  have there := course.token standing next
  unfold afterHash
  split
  · exact .stays course there
  · rename_i mark read
    have marked := course.mark there read
    split
    · exact ⟨origins_singleton (.testModule _), marked⟩
    · split
      · have test := course.afterTestMark_traced standing next isHash marked
        refine ⟨test.origins, ?_⟩
        have lands := test.lands
        rw [Cursor.skip_skip _ mark.length] at lands
        exact lands
      · exact .skipped marked

/-! ### Files -/

theorem afterKeyword_traced {keyword : Keyword} (standing : stands cursor)
    (next : cursor.significant? = some (token, length))
    (announces : token.keyword? = some keyword) :
    Traced stands behind (cursor.skip length)
      (afterKeyword keyword token.start (cursor.skip length)) := by
  cases keyword with
  | function => exact course.afterFunction_traced .none standing next announces
  | struct => exact course.afterStruct_traced standing next announces
  | enum => exact course.afterEnum_traced standing next announces
  | trait => exact course.afterTrait_traced standing next announces
  | implementation => exact course.afterImplementation_traced _ (course.token standing next)
  | unsafeMark => exact course.afterUnsafe_traced standing next announces
  | macroRules => exact .stays course (course.token standing next)

end Course

/-- If the flag is set, the token before the cursor announces the definition of a macro. -/
def Announced (stands : Cursor → Prop) (inDefinition : Bool) (cursor : Cursor) : Prop :=
  inDefinition = true → ∃ before rules length, stands before ∧
    before.significant? = some (rules, length) ∧ rules.keyword? = some .macroRules ∧
    before.skip length = cursor

namespace Course

variable (course : Course stands behind)
include course

theorem inFile_traced (config : Config) {inDefinition : Bool} (standing : stands cursor)
    (announced : Announced stands inDefinition cursor)
    (next : cursor.significant? = some (token, length)) :
    Traced stands behind (cursor.skip length)
      (inFile config inDefinition token (cursor.skip length)) := by
  have there := course.token standing next
  unfold inFile
  split
  · rename_i isBang
    cases inDefinition with
    | false => exact .skipped (course.invocation there)
    | true =>
        obtain ⟨before, rules, size, beforeStands, rulesNext, isRules, rfl⟩ := announced rfl
        exact .skipped (course.definition beforeStands rulesNext isRules next isBang)
  · rename_i isHash
    exact course.afterHash_traced config standing next isHash
  · split
    · rename_i keyword announces
      exact course.afterKeyword_traced standing next announces
    · exact .stays course there

theorem stream_origins (config : Config) (inDefinition : Bool) (standing : stands cursor)
    (announced : Announced stands inDefinition cursor) :
    ∀ finding ∈ stream config inDefinition cursor, Origin stands behind finding := by
  induction cursor using Cursor.significant_induction generalizing inDefinition with
  | atEnd cursor atEnd =>
      rw [stream_of_none atEnd]
      intro finding member
      cases member
  | onward cursor token length next ih =>
      rw [stream_of_some next]
      have first := course.inFile_traced config standing announced next
      apply origins_append first.origins
      apply ih
      · rw [← Cursor.skip_skip]
        exact first.lands
      · -- Nothing is read behind the word that announces a definition.
        intro announces
        have isRules : token.keyword? = some .macroRules := eq_of_beq announces
        refine ⟨cursor, token, length, standing, next, isRules, ?_⟩
        have isWord : token.tag = .word := by
          by_contra notWord
          rw [Token.keyword?, if_neg notWord] at isRules
          cases isRules
        unfold inFile
        rw [isWord, isRules]
        rfl

theorem ofText_origins (config : Config) {text : List Char} (standing : stands (.ofText text)) :
    ∀ finding ∈ ofText config text, Origin stands behind finding :=
  course.stream_origins config false standing nofun

end Course
end Finding
end Survey
