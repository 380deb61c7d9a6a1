import Survey.Proofs.Composition
import Survey.Proofs.Survival

set_option autoImplicit false

/-!
# Searches for tests in vain

Behind the mark of a test its function is searched for, and what the search has read stays
read even if there is no function. A mark in vain is as good as none where the search read
nothing that the reading of a file would have acted on; otherwise a declaration is lost.
-/

namespace Survey

/-- The same configuration, under which nothing marks a test. -/
def Config.withoutTests (config : Config) : Config := { config with testMarkers := [] }

namespace Finding

/-- Reading a file from the first cursor comes to search for a test at the second. -/
inductive Searches (config : Config) (cursor : Cursor) (inDefinition : Bool) : Cursor → Prop
  | behind {before : Cursor} {announced : Bool} {token : Token} {length : Nat} {mark : Attribute}
      (reached : Reaches config before announced cursor inDefinition)
      (next : before.significant? = some (token, length)) (isHash : token.tag = .hash)
      (read : Attribute.read? (before.skip length).rest = some mark)
      (other : config.isTestModule mark.text = false) (marks : config.isTest mark.text = true) :
      Searches config cursor inDefinition ((before.skip length).skip mark.length)

/-- The first characters, as many as the number says, hold nothing that the reading of a file
acts on: no keyword except in the type of a function pointer, no mark of a macro, and no
attribute that marks a module of tests. -/
inductive Ignored (config : Config) : Cursor → Nat → Prop
  | nothing (cursor : Cursor) : Ignored config cursor 0
  | trivia {cursor : Cursor} (atEnd : cursor.significant? = none) :
      Ignored config cursor cursor.rest.length
  | token {cursor : Cursor} {token : Token} {length more : Nat}
      (next : cursor.significant? = some (token, length))
      (unmarked : token.tag ≠ .bang ∧ token.tag ≠ .hash)
      (plain : token.keyword? = none ∨
        (token.keyword? = some .function ∧ isPointerType (cursor.skip length).rest = true))
      (later : Ignored config (cursor.skip length) more) : Ignored config cursor (length + more)
  | mark {cursor : Cursor} {token : Token} {length more : Nat}
      (next : cursor.significant? = some (token, length)) (isHash : token.tag = .hash)
      (other : ∀ mark, Attribute.read? (cursor.skip length).rest = some mark →
        config.isTestModule mark.text = false)
      (later : Ignored config
        (cursor.skip (length + Attribute.skipLength (cursor.skip length).rest)) more) :
      Ignored config cursor (length + Attribute.skipLength (cursor.skip length).rest + more)

/-! ### One step -/

theorem inFile_of_unmarked (config : Config) (inDefinition : Bool) {token : Token}
    (unmarked : token.tag ≠ .bang ∧ token.tag ≠ .hash) (cursor : Cursor) :
    inFile config inDefinition token cursor =
      match token.keyword? with
      | some keyword => afterKeyword keyword token.start cursor
      | none => .skipped 0 := by
  obtain ⟨notBang, notHash⟩ := unmarked
  unfold inFile
  split
  · rename_i isBang
    exact absurd isBang notBang
  · rename_i isHash
    exact absurd isHash notHash
  · rfl

theorem inFile_of_bang (config : Config) (inDefinition : Bool) {token : Token}
    (isBang : token.tag = .bang) (cursor : Cursor) :
    inFile config inDefinition token cursor = .skipped (macroLength inDefinition cursor.rest) := by
  unfold inFile
  rw [isBang]

theorem inFile_of_hash (config : Config) (inDefinition : Bool) {token : Token}
    (isHash : token.tag = .hash) (cursor : Cursor) :
    inFile config inDefinition token cursor = afterHash config token.start cursor := by
  unfold inFile
  rw [isHash]

theorem keyword?_of_hash {token : Token} (isHash : token.tag = .hash) : token.keyword? = none := by
  unfold Token.keyword?
  rw [isHash]
  rfl

/-- Without test marks an attribute is stepped over, unless it marks a module of tests. -/
theorem afterHash_withoutTests (config : Config) (start : Position) (cursor : Cursor)
    (other : ∀ mark, Attribute.read? cursor.rest = some mark →
      config.isTestModule mark.text = false) :
    afterHash config.withoutTests start cursor =
      .skipped (Attribute.skipLength cursor.rest) := by
  unfold afterHash Attribute.skipLength
  cases read : Attribute.read? cursor.rest with
  | none => rfl
  | some mark =>
      have notModule : config.withoutTests.isTestModule mark.text = false := other mark read
      have notTest : config.withoutTests.isTest mark.text = false := rfl
      dsimp only
      rw [if_neg (by rw [notModule]; exact Bool.false_ne_true),
        if_neg (by rw [notTest]; exact Bool.false_ne_true)]

/-- Where the text is not searched for a test, a configuration and the one without test marks
lead to the same. -/
theorem afterHash_of_unsearched (config : Config) (start : Position) (cursor : Cursor)
    (unsearched : ∀ mark, Attribute.read? cursor.rest = some mark →
      config.isTestModule mark.text = false → config.isTest mark.text = false) :
    afterHash config.withoutTests start cursor = afterHash config start cursor := by
  unfold afterHash
  cases read : Attribute.read? cursor.rest with
  | none => rfl
  | some mark =>
      have same : config.withoutTests.isTestModule mark.text = config.isTestModule mark.text := rfl
      have notTest : config.withoutTests.isTest mark.text = false := rfl
      dsimp only
      rw [same, notTest]
      cases isModule : config.isTestModule mark.text with
      | true => rfl
      | false =>
          rw [unsearched mark read isModule]

/-! ### Runs -/

/-- Reading a file finds nothing among what it ignores. -/
theorem Ignored.stream_eq {config : Config} {cursor : Cursor} {count : Nat}
    (ignored : Ignored config cursor count) :
    stream config.withoutTests false cursor =
      stream config.withoutTests false (cursor.skip count) := by
  induction ignored with
  | nothing cursor => rw [Cursor.skip_zero]
  | @trivia cursor atEnd =>
      have passed : (cursor.skip cursor.rest.length).rest = [] := List.drop_length
      rw [stream_of_none atEnd, stream_of_nil passed]
  | @token cursor token length more next unmarked plain later ih =>
      have stays : inFile config.withoutTests false token (cursor.skip length) = .skipped 0 := by
        rw [inFile_of_unmarked _ _ unmarked]
        rcases plain with bare | ⟨announces, pointer⟩
        · rw [bare]
        · rw [announces]
          exact afterFunction_of_pointer pointer
      have silent : (token.keyword? == some .macroRules) = false := by
        rcases plain with bare | ⟨announces, -⟩
        · rw [bare]
          rfl
        · rw [announces]
          rfl
      rw [stream_of_some next, stays, silent, ← Cursor.skip_skip cursor length more]
      exact ih
  | @mark cursor token length more next isHash other later ih =>
      have steps : inFile config.withoutTests false token (cursor.skip length) =
          .skipped (Attribute.skipLength (cursor.skip length).rest) := by
        rw [inFile_of_hash _ _ isHash]
        exact afterHash_withoutTests config token.start _ other
      have silent : (token.keyword? == some .macroRules) = false := by
        rw [keyword?_of_hash isHash]
        rfl
      rw [stream_of_some next, steps, silent, ← Cursor.skip_skip cursor _ more]
      exact ih

theorem Searches.onward {config : Config} {cursor behind : Cursor} {inDefinition : Bool}
    {token : Token} {length : Nat} (next : cursor.significant? = some (token, length))
    (later : Searches config
      (cursor.skip (length + (inFile config inDefinition token (cursor.skip length)).length))
      (token.keyword? == some .macroRules) behind) :
    Searches config cursor inDefinition behind := by
  cases later with
  | behind reached next' isHash read other marks =>
      exact .behind (.onward next reached) next' isHash read other marks

/-- A search in vain finds nothing, but what it has read stays read. -/
theorem inFile_of_vain {config : Config} (inDefinition : Bool) {token : Token} {cursor : Cursor}
    {mark : Attribute} (isHash : token.tag = .hash)
    (read : Attribute.read? cursor.rest = some mark)
    (other : config.isTestModule mark.text = false) (marks : config.isTest mark.text = true)
    (missing : (markedName (cursor.skip mark.length)).name? = none) :
    inFile config inDefinition token cursor =
      .skipped (mark.length + (markedName (cursor.skip mark.length)).length) := by
  have inVain : markedName (cursor.skip mark.length) =
      ⟨none, (markedName (cursor.skip mark.length)).length⟩ := by
    rw [← missing]
  rw [inFile_of_hash _ _ isHash]
  unfold afterHash
  rw [read]
  dsimp only
  rw [if_neg (by rw [other]; exact Bool.false_ne_true), if_pos marks, afterTestMark_of_none inVain]
  rfl

theorem inFile_withoutTests_of_mark {config : Config} (inDefinition : Bool) {token : Token}
    {cursor : Cursor} {mark : Attribute} (isHash : token.tag = .hash)
    (read : Attribute.read? cursor.rest = some mark)
    (other : config.isTestModule mark.text = false) :
    inFile config.withoutTests inDefinition token cursor = .skipped mark.length := by
  have skips : Attribute.skipLength cursor.rest = mark.length := by
    unfold Attribute.skipLength
    rw [read]
  rw [inFile_of_hash _ _ isHash, afterHash_withoutTests, skips]
  intro mark' read'
  rw [read] at read'
  cases read'
  exact other

/-- A token behind which no test is searched for leads to the same without test marks. -/
theorem inFile_withoutTests_of_unsearched {config : Config} (inDefinition : Bool) {token : Token}
    {cursor : Cursor} (unsearched : token.tag = .hash → ∀ mark,
      Attribute.read? cursor.rest = some mark → config.isTestModule mark.text = false →
        config.isTest mark.text = false) :
    inFile config.withoutTests inDefinition token cursor =
      inFile config inDefinition token cursor := by
  by_cases isHash : token.tag = .hash
  · rw [inFile_of_hash _ _ isHash, inFile_of_hash _ _ isHash,
      afterHash_of_unsearched _ _ _ (unsearched isHash)]
  · by_cases isBang : token.tag = .bang
    · rw [inFile_of_bang _ _ isBang, inFile_of_bang _ _ isBang]
    · rw [inFile_of_unmarked _ _ ⟨isBang, isHash⟩, inFile_of_unmarked _ _ ⟨isBang, isHash⟩]

/-- Searches that are all in vain and read only what is ignored leave no trace. -/
theorem stream_withoutTests (config : Config) (cursor : Cursor) (inDefinition : Bool)
    (vain : ∀ behind, Searches config cursor inDefinition behind →
      (markedName behind).name? = none ∧ Ignored config behind (markedName behind).length) :
    stream config inDefinition cursor = stream config.withoutTests inDefinition cursor := by
  induction cursor using Cursor.significant_induction generalizing inDefinition with
  | atEnd cursor atEnd => rw [stream_of_none atEnd, stream_of_none atEnd]
  | onward cursor token length next ih =>
      have onward := ih (inFile config inDefinition token (cursor.skip length)).length
        (token.keyword? == some .macroRules)
        fun behind later => vain behind (.onward next later)
      rw [stream_of_some next, onward]
      by_cases searched : token.tag = .hash ∧ ∃ mark,
          Attribute.read? (cursor.skip length).rest = some mark ∧
            config.isTestModule mark.text = false ∧ config.isTest mark.text = true
      · obtain ⟨isHash, mark, read, other, marks⟩ := searched
        obtain ⟨missing, ignored⟩ := vain _ (.behind .here next isHash read other marks)
        have silent : (token.keyword? == some .macroRules) = false := by
          rw [keyword?_of_hash isHash]
          rfl
        rw [Cursor.skip_skip] at ignored
        have same := ignored.stream_eq
        rw [stream_of_some next, inFile_withoutTests_of_mark _ isHash read other,
          inFile_of_vain _ isHash read other marks missing, silent]
        dsimp only [Visit.skipped]
        rw [same, Cursor.skip_skip, Cursor.skip_skip, Nat.add_assoc]
      · have same : inFile config.withoutTests inDefinition token (cursor.skip length) =
            inFile config inDefinition token (cursor.skip length) := by
          apply inFile_withoutTests_of_unsearched
          intro isHash mark read other
          rw [Bool.eq_false_iff]
          intro marks
          exact searched ⟨isHash, mark, read, other, marks⟩
        rw [stream_of_some next, same]

end Finding

/-- If every search for a test is in vain and reads only what the reading of a file ignores,
the survey is the one under which nothing marks a test. -/
theorem survey_withoutTests (config : Config) (text : String)
    (vain : ∀ behind, Finding.Searches config (.ofText text.toList) false behind →
      (Finding.markedName behind).name? = none)
    (ignored : ∀ behind, Finding.Searches config (.ofText text.toList) false behind →
      Finding.Ignored config behind (Finding.markedName behind).length) :
    survey config text = survey config.withoutTests text := by
  have same := Finding.stream_withoutTests config (.ofText text.toList) false
    fun behind searched => ⟨vain behind searched, ignored behind searched⟩
  unfold survey findings Finding.ofText
  rw [same]

/-- A module is marked as a test. The search behind the mark ends at the semicolon. -/
theorem survey_withoutTests_marked_module :
    (∀ behind, Finding.Searches .standard (.ofText "#[test] mod m;".toList) false behind →
      (Finding.markedName behind).name? = none ∧
        Finding.Ignored .standard behind (Finding.markedName behind).length) ∧
      survey .standard "#[test] mod m;" = survey Config.standard.withoutTests "#[test] mod m;" := by
  have first : (Cursor.ofText "#[test] mod m;".toList).significant? =
      some (⟨.hash, .start, ['#']⟩, 1) := by
    decide +kernel
  have mark : Attribute.read? ((Cursor.ofText "#[test] mod m;".toList).skip 1).rest =
      some ⟨"#[test]".toList, 6⟩ := by
    decide +kernel
  have onward : (Cursor.ofText "#[test] mod m;".toList).skip
      (1 + (Finding.inFile .standard false ⟨.hash, .start, ['#']⟩
        ((Cursor.ofText "#[test] mod m;".toList).skip 1)).length) = ⟨[], ⟨1, 15, 14⟩⟩ := by
    decide +kernel
  have last : (Cursor.mk [] ⟨1, 15, 14⟩).significant? = none := by
    decide +kernel
  have only : ∀ behind,
      Finding.Searches .standard (.ofText "#[test] mod m;".toList) false behind →
        behind = ⟨" mod m;".toList, ⟨1, 8, 7⟩⟩ := by
    rintro _ ⟨reached, next, -, read, -, -⟩
    cases reached with
    | here =>
        rw [first] at next
        cases next
        rw [mark] at read
        cases read
        decide +kernel
    | onward next' later =>
        rw [first] at next'
        cases next'
        rw [onward] at later
        cases later with
        | here =>
            rw [last] at next
            cases next
        | onward next' later =>
            rw [last] at next'
            cases next'
  have name : Finding.markedName ⟨" mod m;".toList, ⟨1, 8, 7⟩⟩ = ⟨none, 7⟩ := by
    decide +kernel
  have word : (Cursor.mk " mod m;".toList ⟨1, 8, 7⟩).significant? =
      some (⟨.word, ⟨1, 9, 8⟩, "mod".toList⟩, 4) := by
    decide +kernel
  have title : ((Cursor.mk " mod m;".toList ⟨1, 8, 7⟩).skip 4).significant? =
      some (⟨.word, ⟨1, 13, 12⟩, "m".toList⟩, 2) := by
    decide +kernel
  have semicolon : (((Cursor.mk " mod m;".toList ⟨1, 8, 7⟩).skip 4).skip 2).significant? =
      some (⟨.semicolon, ⟨1, 14, 13⟩, ";".toList⟩, 1) := by
    decide +kernel
  have tokens : Finding.Ignored .standard ⟨" mod m;".toList, ⟨1, 8, 7⟩⟩ (4 + (2 + (1 + 0))) :=
    .token word (by decide) (by decide)
      (.token title (by decide) (by decide)
        (.token semicolon (by decide) (by decide) (.nothing _)))
  have vain : ∀ behind, Finding.Searches .standard (.ofText "#[test] mod m;".toList) false behind →
      (Finding.markedName behind).name? = none := by
    intro behind searched
    rw [only behind searched, name]
  have ignored : ∀ behind,
      Finding.Searches .standard (.ofText "#[test] mod m;".toList) false behind →
        Finding.Ignored .standard behind (Finding.markedName behind).length := by
    intro behind searched
    rw [only behind searched, name]
    exact tokens
  exact ⟨fun behind searched => ⟨vain behind searched, ignored behind searched⟩,
    survey_withoutTests .standard _ vain ignored⟩

/-- A mark in vain swallows the struct behind it, although no test is recorded. -/
theorem survey_struct_behind_mark :
    ((survey .standard "#[test] struct S;").map fun inventory =>
        (inventory.tests, inventory.types.records.map TypeRecord.name)) = .ok ([], []) ∧
      ((survey Config.standard.withoutTests "#[test] struct S;").map fun inventory =>
        (inventory.tests, inventory.types.records.map TypeRecord.name)) = .ok ([], ["S"]) := by
  decide +kernel

end Survey
