import Survey.Proofs.CutVisits
import Survey.Proofs.Merging
import Survey.Proofs.Rebasing

set_option autoImplicit false

/-!
# Surveys are composed at token boundaries

A file is read token by token, and nothing is carried over from one token to the next but
whether the definition of a macro was announced. Wherever reading stands before a token,
the text may be cut in two: the inventory of the whole is merged from the inventories of
the parts, with the second moved to where it starts.
-/

namespace Survey

theorem Head.read_nil (groups : List Delimiter) : Head.read groups [] = ⟨[], 0, .endOfText⟩ := by
  unfold read
  rw [readFrom_eq]
  rfl

namespace Finding

theorem records_afterKeyword_nil (keyword : Keyword) (start place : Position) :
    records (afterKeyword keyword start ⟨[], place⟩).found = [] := by
  cases keyword with
  | function =>
      unfold afterKeyword afterFunction
      dsimp only
      rw [Head.read_nil]
      rfl
  | struct =>
      unfold afterKeyword afterStruct
      dsimp only
      rw [Head.read_nil]
      rfl
  | enum =>
      unfold afterKeyword afterEnum
      dsimp only
      rw [Head.read_nil]
      rfl
  | trait =>
      unfold afterKeyword afterTrait
      dsimp only
      rw [Head.read_nil]
      rfl
  | implementation =>
      unfold afterKeyword afterImplementation
      dsimp only
      rw [Head.read_nil]
      rfl
  | unsafeMark =>
      have atEnd : ([] : List Char).drop (Trivia.length []) = [] := List.drop_nil
      unfold afterKeyword afterUnsafe
      dsimp only
      rw [atEnd]
      rfl
  | macroRules => rfl

theorem records_inFile_nil (config : Config) (inDefinition : Bool) (token : Token)
    (place : Position) :
    records (inFile config inDefinition token ⟨[], place⟩).found = [] := by
  unfold inFile
  split
  · rfl
  · rfl
  · split
    · exact records_afterKeyword_nil _ _ _
    · rfl

/-! ### Boundaries -/

/-- Reading a file from the one cursor gets to stand at the target, before it takes a
token there. The flags say whether the token before announces the definition of a macro. -/
inductive Reaches (config : Config) (target : Cursor) (announced : Bool) : Cursor → Bool → Prop
  | here : Reaches config target announced target announced
  | onward {cursor : Cursor} {inDefinition : Bool} {token : Token} {length : Nat}
      (next : cursor.significant? = some (token, length))
      (later : Reaches config target announced
        (cursor.skip (length + (inFile config inDefinition token (cursor.skip length)).length))
        (token.keyword? == some .macroRules)) :
      Reaches config target announced cursor inDefinition

variable {config : Config} {target : Cursor} {announced : Bool}

theorem Reaches.length_le {cursor : Cursor} {inDefinition : Bool}
    (reaches : Reaches config target announced cursor inDefinition) :
    target.rest.length ≤ cursor.rest.length := by
  induction reaches with
  | here => exact Nat.le_refl _
  | onward next _ ih =>
      rw [Cursor.skip_rest, List.length_drop] at ih
      omega

/-- The text before the target is what leads to its place. -/
theorem Reaches.split {text : List Char} {cursor : Cursor} {inDefinition : Bool}
    (reaches : Reaches config target announced cursor inDefinition) {before : List Char}
    (split : text = before ++ cursor.rest) (place : cursor.place = .ofText before) :
    ∃ passed, text = passed ++ target.rest ∧ target.place = .ofText passed := by
  induction reaches generalizing before with
  | here => exact ⟨before, split, place⟩
  | @onward cursor inDefinition token length next _ ih =>
      generalize length + (inFile config inDefinition token (cursor.skip length)).length = count at ih
      apply @ih (before ++ cursor.rest.take count)
      · rw [split, Cursor.skip_rest, List.append_assoc, List.take_append_drop]
      · unfold Cursor.skip Position.ofText
        rw [place, Position.pastAll_append]
        rfl

theorem Reaches.inside {cut : Cursor} {count : Nat} {inDefinition : Bool}
    (filled : target.rest ≠ [])
    (reaches : Reaches config target announced ((cut.extend target.rest).skip count) inDefinition) :
    count ≤ cut.rest.length := by
  have longer := List.length_pos_iff.mpr filled
  have shorter := reaches.length_le
  rw [Cursor.skip_rest, Cursor.extend_rest, List.length_drop, List.length_append] at shorter
  omega

/-- No boundary lies among blanks before the next token. -/
theorem Reaches.rest_eq_nil {cut : Cursor} {inDefinition : Bool} (filled : target.rest ≠ [])
    (reaches : Reaches config target announced (cut.extend target.rest) inDefinition)
    (blank : ∀ c ∈ cut.rest, Text.isBlank c = true) : cut.rest = [] := by
  generalize atCursor : cut.extend target.rest = cursor at reaches
  cases reaches with
  | here => exact List.append_left_eq_self.mp (congrArg Cursor.rest atCursor)
  | onward next later =>
      subst atCursor
      have beyond := Cursor.endsBeyond_of_blank blank _ _ next
      have inside := later.inside filled
      omega

theorem stream_of_nil {cursor : Cursor} (atEnd : cursor.rest = []) (config : Config)
    (inDefinition : Bool) : stream config inDefinition cursor = [] := by
  apply stream_of_none
  apply Cursor.significant?_of_blank
  rw [atEnd]
  intro c member
  cases member

theorem records_stream_of_last {cut : Cursor} {token : Token} {length : Nat}
    (next : cut.significant? = some (token, length)) (last : (cut.skip length).rest = [])
    (inDefinition : Bool) : records (stream config inDefinition cut) = [] := by
  have visit : records (inFile config inDefinition token (cut.skip length)).found = [] := by
    have atEnd : cut.skip length = ⟨[], (cut.skip length).place⟩ := by
      rw [← last]
    rw [atEnd]
    exact records_inFile_nil config inDefinition token _
  rw [stream_of_some next, records_append, visit, ← Cursor.skip_skip, stream_of_nil]
  · rfl
  · rw [Cursor.skip_rest, last, List.drop_nil]

/-- Up to a boundary, the text before it is read as it is read alone: the same is
recorded, and then reading goes on from the boundary. -/
theorem Reaches.stream_eq {cursor : Cursor} {inDefinition : Bool} (filled : target.rest ≠ [])
    (reaches : Reaches config target announced cursor inDefinition) {cut : Cursor}
    (atCut : cursor = cut.extend target.rest) :
    ∃ before, stream config inDefinition cursor = before ++ stream config announced target ∧
      records before = records (stream config inDefinition cut) := by
  induction reaches generalizing cut with
  | here =>
      have atEnd : cut.rest = [] := List.append_left_eq_self.mp (congrArg Cursor.rest atCut).symm
      refine ⟨[], rfl, ?_⟩
      rw [stream_of_nil atEnd]
  | @onward cursor inDefinition token length next later ih =>
      subst atCut
      have inside := later.inside filled
      have tokenLe : length ≤ cut.rest.length := Nat.le_trans (Nat.le_add_right _ _) inside
      have cutNext := Cursor.significant?_of_le next tokenLe
      have further := ih (Cursor.extend_skip inside)
      rw [stream_of_some next]
      rw [Cursor.extend_skip tokenLe] at inside later further ⊢
      have visitLe : (inFile config inDefinition token
          ((cut.skip length).extend target.rest)).length ≤ (cut.skip length).rest.length := by
        rw [Cursor.skip_rest, List.length_drop]
        omega
      obtain ⟨before, full, same⟩ := further
      rcases inFile_settled visitLe with agrees | ⟨skipped, blank⟩
      · refine ⟨_ ++ before, by rw [full, List.append_assoc], ?_⟩
        rw [records_append, agrees.records_eq, same, agrees.length_eq, stream_of_some cutNext,
          records_append]
      · -- A function pointer is cut right behind its keyword, which records nothing either.
        rw [skipped] at full same later ⊢
        have behind : Reaches config target announced ((cut.skip length).extend target.rest)
            (token.keyword? == some .macroRules) := by
          rw [← Cursor.extend_skip tokenLe]
          exact later
        have last := behind.rest_eq_nil filled blank
        refine ⟨before, full, ?_⟩
        rw [same, records_stream_of_last cutNext last]
        exact congrArg records (stream_of_nil last config _)

end Finding

namespace Inventory

theorem note_of_isNotice (inventory : Inventory) {finding : Finding}
    (notice : finding.isNotice = true) : inventory.note finding = inventory := by
  cases finding with
  | unsafeAtEnd | signatureAtEnd | enumAtEnd | traitBody | implementationAtEnd
  | targetUnresolved | implementationBody => simp [note, Finding.freeFunction?]
  | _ => cases notice

/-- Notices leave no trace in an inventory. -/
theorem ofFindings_records (found : List Finding) :
    ofFindings (Finding.records found) = ofFindings found := by
  induction found using List.reverseRecOn with
  | nil => rfl
  | append_singleton found finding ih =>
      rw [Finding.records_append, ofFindings_concat]
      cases notice : finding.isNotice with
      | true =>
          rw [Finding.records_cons_notice notice, Finding.records_nil, List.append_nil, ih,
            note_of_isNotice _ notice]
      | false =>
          rw [Finding.records_cons notice, Finding.records_nil, ofFindings_concat, ih]

end Inventory

/-- At a boundary the findings of a text make up the inventory merged from its parts. -/
theorem Finding.Reaches.ofFindings_eq {config : Config} {target : Cursor} {first : List Char}
    (reaches : Reaches config target false (.ofText (first ++ target.rest)) false) :
    Inventory.ofFindings (ofText config (first ++ target.rest)) =
      (Inventory.ofFindings (ofText config first)).merge
        ((Inventory.ofFindings (ofText config target.rest)).shift target.place) := by
  have moved : stream config false target =
      (ofText config target.rest).map (shift target.place) := by
    have counted : (Cursor.ofText target.rest).place.Counted := Position.start_counted
    exact stream_shift counted target.place config false
  rw [← Inventory.ofFindings_shift, ← moved]
  by_cases filled : target.rest = []
  · rw [filled, List.append_nil, stream_of_nil filled]
    exact (Inventory.merge_empty _).symm
  · have atCut : Cursor.ofText (first ++ target.rest) = (Cursor.ofText first).extend target.rest :=
      rfl
    obtain ⟨before, full, same⟩ := reaches.stream_eq filled atCut
    have first : Inventory.ofFindings (ofText config first) = Inventory.ofFindings before := by
      rw [← Inventory.ofFindings_records before, same]
      exact (Inventory.ofFindings_records _).symm
    rw [first, ← Inventory.ofFindings_append, ← full]
    rfl

/-- Wherever reading stands before a token, and no definition of a macro was announced,
the inventory of the text is merged from the inventories of its two parts, after the
second is rebased onto the place between them. -/
theorem survey_composes (config : Config) (text : String) (cursor : Cursor)
    (small : Text.byteLength text.toList ≤ 2 ^ 32 - 3)
    (boundary : Finding.Reaches config cursor false (.ofText text.toList) false) :
    ∃ first second : String, text = first ++ second ∧
      Text.byteLength first.toList = cursor.place.offset ∧
      ∃ before after, survey config first = .ok before ∧ survey config second = .ok after ∧
        after.Rebases cursor.place ∧
        survey config text = .ok (before.merge (after.shift cursor.place)) := by
  have atStart : (Cursor.ofText text.toList).place = .ofText [] := rfl
  obtain ⟨passed, split, place⟩ : ∃ passed, text.toList = passed ++ cursor.rest ∧
      cursor.place = .ofText passed := boundary.split (List.nil_append _).symm atStart
  have joined : text = String.ofList passed ++ String.ofList cursor.rest := by
    apply String.toList_inj.mp
    rw [String.toList_append, String.toList_ofList, String.toList_ofList]
    exact split
  have lengths : Text.byteLength text.toList =
      Text.byteLength passed + Text.byteLength cursor.rest := by
    rw [split, Text.byteLength_append]
  have before := survey_eq config (String.ofList passed)
    (by rw [String.toList_ofList]; omega)
  have after := survey_eq config (String.ofList cursor.rest)
    (by rw [String.toList_ofList]; omega)
  rw [String.toList_ofList] at before after
  refine ⟨_, _, joined, ?_, _, _, before, after, ?_, ?_⟩
  · rw [String.toList_ofList, place, Position.ofText_offset]
  · rw [split] at small
    obtain ⟨spans, testModule⟩ := Inventory.ofFindings_rebases config small
    rw [place]
    exact ⟨spans, testModule⟩
  · rw [split] at boundary
    rw [survey_eq config text small, lengths, split, boundary.ofFindings_eq]
    rfl

/-- The type is mentioned before the boundary and declared behind it. -/
theorem survey_composes_at_declaration :
    Text.byteLength "impl T \x7b\x7d struct T;".toList ≤ 2 ^ 32 - 3 ∧
      Finding.Reaches .standard ⟨" struct T;".toList, ⟨1, 10, 9⟩⟩ false
        (.ofText "impl T \x7b\x7d struct T;".toList) false ∧
      ∃ first second : String, "impl T \x7b\x7d struct T;" = first ++ second ∧
        Text.byteLength first.toList = 9 ∧
        ∃ before after, survey .standard first = .ok before ∧
          survey .standard second = .ok after ∧ after.Rebases ⟨1, 10, 9⟩ ∧
          survey .standard "impl T \x7b\x7d struct T;" =
            .ok (before.merge (after.shift ⟨1, 10, 9⟩)) := by
  have small : Text.byteLength "impl T \x7b\x7d struct T;".toList ≤ 2 ^ 32 - 3 := by
    decide
  have next : (Cursor.ofText "impl T \x7b\x7d struct T;".toList).significant? =
      some (⟨.word, .start, "impl".toList⟩, 4) := by
    decide +kernel
  have behind : (Cursor.ofText "impl T \x7b\x7d struct T;".toList).skip
      (4 + (Finding.inFile .standard false ⟨.word, .start, "impl".toList⟩
        ((Cursor.ofText "impl T \x7b\x7d struct T;".toList).skip 4)).length) =
      ⟨" struct T;".toList, ⟨1, 10, 9⟩⟩ := by
    decide +kernel
  have boundary : Finding.Reaches .standard ⟨" struct T;".toList, ⟨1, 10, 9⟩⟩ false
      (.ofText "impl T \x7b\x7d struct T;".toList) false := by
    apply Finding.Reaches.onward next
    rw [behind]
    exact .here
  exact ⟨small, boundary, survey_composes .standard _ _ small boundary⟩

end Survey
