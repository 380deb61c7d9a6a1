import Survey.Proofs.OverlookedBlocks

set_option autoImplicit false

/-!
# Which unsafe blocks are recorded

In a file without attributes, macros, structs and enumerations exactly those unsafe blocks are
recorded whose brace is not stepped over.
-/

namespace Survey

/-! ### Surveys -/

/-- An unsafe block is recorded where one is found. -/
theorem Inventory.exists_unsafeBlock_iff (found : List Finding) (place : Position) :
    (∃ block ∈ (Inventory.ofFindings found).unsafeBlocks,
        block.start.offset ≤ place.offset ∧ place.offset < block.stop.offset) ↔
      Finding.InBlock found place := by
  rw [Inventory.ofFindings_unsafeBlocks]
  constructor
  · rintro ⟨block, member, covers⟩
    obtain ⟨finding, isFound, isBlock⟩ := List.mem_filterMap.mp member
    exact ⟨⟨block.start, block.stop⟩,
      List.mem_filterMap.mpr ⟨finding, isFound, Finding.outline?_of_block? isBlock⟩, covers⟩
  · rintro ⟨extent, member, covers⟩
    obtain ⟨finding, isFound, outlined⟩ := List.mem_filterMap.mp member
    have ordered : extent.start.offset ≤ extent.stop.offset :=
      Nat.le_of_lt (Nat.lt_of_le_of_lt covers.1 covers.2)
    refine ⟨⟨extent.start, extent.stop, ordered⟩, ?_, covers⟩
    refine List.mem_filterMap.mpr ⟨finding, isFound, ?_⟩
    cases finding with
    | unsafeBlock other =>
        cases outlined
        rw [Finding.block?, Extent.span, Span.between_of_le ordered]
        rfl
    | _ => cases outlined

/-- In a text of at most 2^32 - 3 bytes without attributes, macros, structs and enumerations that
reads the same in pieces, an unsafe brace lies in a recorded block exactly if it is not
overlooked. -/
theorem survey_unsafe_recorded (config : Config) (text : String)
    (small : Text.byteLength text.toList ≤ 2 ^ 32 - 3)
    (clear : ∀ token ∈ (Cursor.ofText text.toList).tokens, token.IsClear)
    (endings : ∀ before token after,
      (Cursor.ofText text.toList).tokens = before ++ token :: after →
      token.tag = .word ∨ token.tag = .number → token.lexeme.getLast? = some 'r' →
        ∀ hashes rest, after.flatMap Token.lexeme ≠ List.replicate hashes '#' ++ '"' :: rest)
    (strings : ∀ token ∈ (Cursor.ofText text.toList).tokens, token.tag = .string →
      ¬ ['b', 'r', '"'] <+: token.lexeme ∧ ¬ ['c', 'r', '"'] <+: token.lexeme) :
    ∃ inventory, survey config text = .ok inventory ∧
      ∀ place, Token.UnsafeBraceAt (Cursor.ofText text.toList).tokens place →
        ((∃ block ∈ inventory.unsafeBlocks,
          block.start.offset ≤ place.offset ∧ place.offset < block.stop.offset) ↔
        ¬ Overlooked (Cursor.ofText text.toList).tokens place) := by
  have unambiguous : Token.Unambiguous (Cursor.ofText text.toList).tokens := by
    refine ⟨endings, strings, ?_⟩
    intro before rules trivia bang blanks next after split _ _ isBang
    have member : bang ∈ (Cursor.ofText text.toList).tokens := by
      rw [split]
      simp
    exact absurd isBang (clear bang member).1
  have isClear : (Cursor.ofText text.toList).Clear := ⟨unambiguous.allPlain, clear⟩
  refine ⟨_, survey_eq config text small, ?_⟩
  intro place stands
  refine (Inventory.exists_unsafeBlock_iff _ place).trans ?_
  constructor
  · exact fun inBlock overlooked => Finding.not_inBlock_of_overlooked isClear overlooked inBlock
  · exact (Finding.stream_settles isClear ⟨.start, stands⟩ config false).resolve_right

/-- The block in the body of a method is recorded, the one in the value of an associated constant
is overlooked. -/
theorem survey_unsafe_recorded_method :
    ∃ (text : String) (inventory : Inventory),
      text =
        "impl A \x7b const X: u8 = unsafe \x7b f() \x7d; fn f() \x7b unsafe \x7b\x7d \x7d \x7d" ∧
      Text.byteLength text.toList ≤ 2 ^ 32 - 3 ∧
      (∀ token ∈ (Cursor.ofText text.toList).tokens, token.IsClear) ∧
      Token.Unambiguous (Cursor.ofText text.toList).tokens ∧
      survey .standard text = .ok inventory ∧
      inventory.unsafeBlocks.map (fun block => (block.start.offset, block.stop.offset)) =
        [(55, 57)] ∧
      Token.UnsafeBraceAt (Cursor.ofText text.toList).tokens ⟨1, 31, 30⟩ ∧
      Overlooked (Cursor.ofText text.toList).tokens ⟨1, 31, 30⟩ ∧
      ∀ place, Token.UnsafeBraceAt (Cursor.ofText text.toList).tokens place →
        ((∃ block ∈ inventory.unsafeBlocks,
          block.start.offset ≤ place.offset ∧ place.offset < block.stop.offset) ↔
        ¬ Overlooked (Cursor.ofText text.toList).tokens place) := by
  obtain ⟨text, isText⟩ : ∃ text : String, text =
      "impl A \x7b const X: u8 = unsafe \x7b f() \x7d; fn f() \x7b unsafe \x7b\x7d \x7d \x7d" :=
    ⟨_, rfl⟩
  have small : Text.byteLength text.toList ≤ 2 ^ 32 - 3 := by
    rw [isText]
    decide
  have clear : ∀ token ∈ (Cursor.ofText text.toList).tokens, token.IsClear := by
    rw [isText]
    decide +kernel
  have unambiguous : Token.Unambiguous (Cursor.ofText text.toList).tokens := by
    rw [isText]
    apply Token.Unambiguous.of_forall
    decide +kernel
  have blocks : (survey .standard text).map (fun inventory => inventory.unsafeBlocks.map
      fun block => (block.start.offset, block.stop.offset)) = .ok [(55, 57)] := by
    rw [isText]
    decide +kernel
  have constant : Token.UnsafeBraceAt (Cursor.ofText text.toList).tokens ⟨1, 31, 30⟩ := by
    refine ⟨(Cursor.ofText text.toList).tokens.take 15, ⟨.word, ⟨1, 24, 23⟩, "unsafe".toList⟩,
      [⟨.blank, ⟨1, 30, 29⟩, [' ']⟩], ⟨.openBrace, ⟨1, 31, 30⟩, ['\x7b']⟩,
      (Cursor.ofText text.toList).tokens.drop 18, ?_, rfl, rfl, ?_, rfl, rfl⟩
    · rw [isText]
      decide +kernel
    · decide
  obtain ⟨inventory, recorded, accounted⟩ :=
    survey_unsafe_recorded .standard text small clear unambiguous.endings unambiguous.strings
  rw [recorded] at blocks
  have recordedBlocks : inventory.unsafeBlocks.map
      (fun block => (block.start.offset, block.stop.offset)) = [(55, 57)] := Except.ok.inj blocks
  refine ⟨text, inventory, isText, small, clear, unambiguous, recorded, recordedBlocks, constant,
    ?_, accounted⟩
  -- The only block that is recorded starts behind the brace of the constant.
  by_contra watched
  obtain ⟨block, member, covers, -⟩ := (accounted _ constant).mpr watched
  have extent : (block.start.offset, block.stop.offset) ∈ [(55, 57)] := by
    rw [← recordedBlocks]
    exact List.mem_map.mpr ⟨block, member, rfl⟩
  rw [(Prod.mk.inj (List.mem_singleton.mp extent)).1] at covers
  exact absurd covers (by decide)

/-- The block in the value of a constant of an implementation is not recorded. -/
theorem survey_overlooks_constant :
    ∃ text : String, text = "impl A \x7b const X: u8 = unsafe \x7b f() \x7d; \x7d" ∧
      (∀ token ∈ (Cursor.ofText text.toList).tokens, token.IsClear) ∧
      Token.Unambiguous (Cursor.ofText text.toList).tokens ∧
      Token.UnsafeBraceAt (Cursor.ofText text.toList).tokens ⟨1, 31, 30⟩ ∧
      (survey .standard text).map Inventory.unsafeBlocks = .ok [] := by
  refine ⟨_, rfl, ?_, ?_, ?_, ?_⟩
  · decide +kernel
  · apply Token.Unambiguous.of_forall
    decide +kernel
  · refine ⟨
      (Cursor.ofText "impl A \x7b const X: u8 = unsafe \x7b f() \x7d; \x7d".toList).tokens.take 15,
      ⟨.word, ⟨1, 24, 23⟩, "unsafe".toList⟩, [⟨.blank, ⟨1, 30, 29⟩, [' ']⟩],
      ⟨.openBrace, ⟨1, 31, 30⟩, ['\x7b']⟩,
      (Cursor.ofText "impl A \x7b const X: u8 = unsafe \x7b f() \x7d; \x7d".toList).tokens.drop 18,
      ?_, rfl, rfl, ?_, rfl, rfl⟩
    · decide +kernel
    · decide
  · decide +kernel

end Survey
