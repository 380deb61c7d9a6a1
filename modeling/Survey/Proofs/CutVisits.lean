import Survey.Finding.Stream
import Survey.Proofs.CutTokens

set_option autoImplicit false

/-!
# Visits that end before a cut

A visit that ends before the cut is the same visit when the text behind the cut is
gone. There are two exceptions, and neither changes what is recorded: an unsafe mark
may now find the end of the text where it found something other than a block, and the
keyword of a function pointer may now be followed by blanks alone.
-/

namespace Survey
namespace Finding

/-- Does only the log take note of the finding? -/
def isNotice : Finding → Bool
  | .unsafeAtEnd | .signatureAtEnd _ | .enumAtEnd _ | .traitBody _ _ _
  | .implementationAtEnd _ | .targetUnresolved _ | .implementationBody _ _ _ => true
  | .unsafeBlock _ | .function _ _ | .struct _ _ | .enum _ _ _ | .trait _ _ | .target _ _
  | .test _ _ | .testModule _ => false

/-- The findings that make up an inventory. -/
def records (found : List Finding) : List Finding := found.filter fun finding => !finding.isNotice

@[simp] theorem records_nil : records [] = [] := rfl

@[simp] theorem records_append (first second : List Finding) :
    records (first ++ second) = records first ++ records second :=
  List.filter_append first second

theorem records_cons_notice {finding : Finding} (notice : finding.isNotice = true)
    (rest : List Finding) : records (finding :: rest) = records rest := by
  unfold records
  rw [List.filter_cons_of_neg (by rw [notice]; decide)]

theorem records_cons {finding : Finding} (recorded : finding.isNotice = false)
    (rest : List Finding) : records (finding :: rest) = finding :: records rest := by
  unfold records
  rw [List.filter_cons_of_pos (by rw [recorded]; decide)]

end Finding

/-- Two visits read as far as each other and record the same. -/
structure Visit.Agrees (first second : Visit) : Prop where
  length_eq : first.length = second.length
  records_eq : Finding.records first.found = Finding.records second.found

theorem Visit.agrees_of_eq {first second : Visit} (same : first = second) :
    first.Agrees second := by
  subst same
  exact ⟨rfl, rfl⟩

/-- The next significant token, if there is one, does not end before the cut. -/
def Cursor.EndsBeyond (cursor : Cursor) (more : List Char) : Prop :=
  ∀ token length, (cursor.extend more).significant? = some (token, length) →
    cursor.rest.length < length

theorem Cursor.endsBeyond_of_blank {cursor : Cursor} {more : List Char}
    (blank : ∀ c ∈ cursor.rest, Text.isBlank c = true) : cursor.EndsBeyond more := by
  intro token length next
  by_contra short
  have cut := significant?_of_le next (Nat.not_lt.mp short)
  rw [significant?_of_blank blank] at cut
  cases cut

/-- Reading up to a cut comes to an end: either the next token ends behind the cut, or
it is the same with and without what is behind the cut, and reading goes on after it. -/
theorem Cursor.cut_induction (more : List Char) {motive : Cursor → Prop}
    (beyond : ∀ cursor : Cursor, cursor.EndsBeyond more → motive cursor)
    (onward : ∀ (cursor : Cursor) (token : Token) (length : Nat),
      length ≤ cursor.rest.length → (cursor.extend more).significant? = some (token, length) →
        cursor.significant? = some (token, length) →
          (∀ further, motive (cursor.skip (length + further))) → motive cursor)
    (cursor : Cursor) : motive cursor := by
  induction cursor using significant_induction with
  | atEnd cursor atEnd =>
      apply beyond
      intro token length next
      by_contra short
      rw [significant?_of_le next (Nat.not_lt.mp short)] at atEnd
      cases atEnd
  | onward cursor token length next ih =>
      by_cases ends : cursor.EndsBeyond more
      · exact beyond cursor ends
      · unfold EndsBeyond at ends
        simp only [not_forall, Nat.not_lt] at ends
        obtain ⟨fullToken, fullLength, fullNext, fullLe⟩ := ends
        have same := significant?_of_le fullNext fullLe
        rw [next] at same
        cases same
        exact onward cursor token length fullLe fullNext next ih

/-- A window on a body that ends before the cut. -/
theorem Cursor.extend_body {cursor : Cursor} {more : List Char} {first count : Nat}
    (inside : first + count ≤ cursor.rest.length) :
    ((cursor.extend more).skip first).window count = (cursor.skip first).window count := by
  rw [Cursor.extend_skip (by omega), Cursor.extend_window]
  rw [Cursor.skip_rest, List.length_drop]
  omega

namespace Head

variable {groups : List Delimiter} {text more : List Char}

theorem read_of_full
    (inside : (read groups (text ++ more)).fullLength (text ++ more) ≤ text.length) :
    read groups text = read groups (text ++ more) :=
  read_of_le (Nat.le_trans (Nat.le_add_right _ _) inside)

theorem signature_of_le {head : Head} (inside : head.length ≤ text.length) :
    head.signature text = head.signature (text ++ more) := by
  unfold signature
  split
  · rw [List.take_append_of_le_length inside]
  · rw [List.take_append_of_le_length (by omega)]
  · rw [List.take_append_of_le_length (by omega)]

theorem bodyLength?_of_full {head : Head} (inside : head.fullLength (text ++ more) ≤ text.length) :
    head.bodyLength? text = head.bodyLength? (text ++ more) := by
  have headLe : head.length ≤ text.length := Nat.le_trans (Nat.le_add_right _ _) inside
  unfold fullLength at inside
  unfold bodyLength? at *
  split at inside
  · rw [Option.getD_some, List.drop_append_of_le_length headLe] at inside
    rw [List.drop_append_of_le_length headLe, Delimiter.closeLength_of_le]
    rw [List.length_drop]
    omega
  · rfl
  · rfl

theorem fullLength_of_full {head : Head} (inside : head.fullLength (text ++ more) ≤ text.length) :
    head.fullLength text = head.fullLength (text ++ more) := by
  unfold fullLength
  rw [bodyLength?_of_full inside]

end Head

namespace Finding

variable {cursor : Cursor} {more : List Char} {token : Token} {start : Position}

/-! ### Unsafe blocks -/

theorem afterUnsafe_of_brace {inner : List Char}
    (brace : cursor.rest.drop (Trivia.length cursor.rest) = '\x7b' :: inner) :
    afterUnsafe cursor =
      ⟨[.unsafeBlock ⟨(cursor.skip (Trivia.length cursor.rest)).place,
          (cursor.skip
            (Trivia.length cursor.rest + 1 + Delimiter.brace.closeLength inner)).place⟩],
        Trivia.length cursor.rest + 1 + Delimiter.brace.closeLength inner⟩ := by
  unfold afterUnsafe
  dsimp only
  rw [brace]
  rfl

theorem afterUnsafe_of_other
    (other : (cursor.rest.drop (Trivia.length cursor.rest)).head? ≠ some '\x7b') :
    (afterUnsafe cursor).length = 0 ∧ records (afterUnsafe cursor).found = [] := by
  unfold afterUnsafe
  dsimp only
  split
  · exact ⟨rfl, rfl⟩
  · rename_i c inner split
    rw [split] at other
    have notBrace : ¬ c = '\x7b' := by simpa using other
    rw [if_neg notBrace]
    exact ⟨rfl, rfl⟩

theorem afterUnsafe_settled
    (inside : (afterUnsafe (cursor.extend more)).length ≤ cursor.rest.length) :
    (afterUnsafe (cursor.extend more)).Agrees (afterUnsafe cursor) := by
  by_cases block : ((cursor.rest ++ more).drop (Trivia.length (cursor.rest ++ more))).head? =
      some '\x7b'
  · obtain ⟨inner, brace⟩ := List.head?_eq_some_iff.mp block
    have full : afterUnsafe (cursor.extend more) = _ := afterUnsafe_of_brace brace
    rw [full] at inside
    dsimp only [Cursor.extend_rest] at inside
    have triviaLt : Trivia.length (cursor.rest ++ more) < cursor.rest.length := by omega
    have same := Trivia.length_of_lt triviaLt
    rw [List.drop_append_of_le_length (Nat.le_of_lt triviaLt)] at brace
    cases split : cursor.rest.drop (Trivia.length (cursor.rest ++ more)) with
    | nil =>
        rw [List.drop_eq_nil_iff] at split
        omega
    | cons c cutInner =>
        have lengths := congrArg List.length split
        rw [List.length_drop, List.length_cons] at lengths
        rw [split, List.cons_append] at brace
        cases brace
        have innerLe : Delimiter.brace.closeLength (cutInner ++ more) ≤ cutInner.length := by omega
        have closed := Delimiter.closeLength_of_le innerLe
        apply Visit.agrees_of_eq
        rw [full, afterUnsafe_of_brace (by rw [same]; exact split), same, closed]
        dsimp only [Cursor.extend_rest]
        rw [Cursor.extend_skip (by omega), Cursor.extend_skip (by omega)]
        rfl
  · have cutOther : (cursor.rest.drop (Trivia.length cursor.rest)).head? ≠ some '\x7b' := by
      intro cutBlock
      obtain ⟨inner, brace⟩ := List.head?_eq_some_iff.mp cutBlock
      apply block
      have lt : Trivia.length cursor.rest < cursor.rest.length := by
        by_contra long
        rw [List.drop_eq_nil_iff.mpr (Nat.not_lt.mp long)] at brace
        cases brace
      rw [Trivia.length_of_brace brace, List.drop_append_of_le_length (Nat.le_of_lt lt), brace]
      rfl
    have fullOther : ((cursor.extend more).rest.drop
        (Trivia.length (cursor.extend more).rest)).head? ≠ some '\x7b' := block
    obtain ⟨fullLength, fullRecords⟩ := afterUnsafe_of_other fullOther
    obtain ⟨cutLength, cutRecords⟩ := afterUnsafe_of_other cutOther
    exact ⟨fullLength.trans cutLength.symm, fullRecords.trans cutRecords.symm⟩

theorem inBody_settled
    (inside : (inBody token (cursor.extend more)).length ≤ cursor.rest.length) :
    (inBody token (cursor.extend more)).Agrees (inBody token cursor) := by
  unfold inBody at *
  by_cases hash : token.tag = .hash
  · rw [if_pos hash] at inside ⊢
    rw [if_pos hash]
    exact Visit.agrees_of_eq (congrArg Visit.skipped (Attribute.skipLength_of_le inside).symm)
  rw [if_neg hash] at inside ⊢
  rw [if_neg hash]
  by_cases mark : token.keyword? = some .unsafeMark
  · rw [if_pos mark] at inside ⊢
    rw [if_pos mark]
    exact afterUnsafe_settled inside
  · rw [if_neg mark, if_neg mark]
    exact ⟨rfl, rfl⟩

/-! ### Functions -/

theorem afterFunction_of_pointer {owner : Owner} (pointer : isPointerType cursor.rest = true) :
    afterFunction owner start cursor = .skipped 0 := by
  unfold afterFunction
  rw [if_pos pointer]

theorem afterFunction_settled {owner : Owner}
    (inside : (afterFunction owner start (cursor.extend more)).length ≤ cursor.rest.length) :
    afterFunction owner start (cursor.extend more) = afterFunction owner start cursor ∨
      (afterFunction owner start (cursor.extend more) = .skipped 0 ∧
        ∀ c ∈ cursor.rest, Text.isBlank c = true) := by
  by_cases pointer : isPointerType (cursor.rest ++ more) = true
  · have full : afterFunction owner start (cursor.extend more) = .skipped 0 :=
      afterFunction_of_pointer pointer
    rcases isPointerType_append pointer with cutPointer | blank
    · exact .inl (full.trans (afterFunction_of_pointer cutPointer).symm)
    · exact .inr ⟨full, blank⟩
  · left
    have cutPointer : ¬ isPointerType cursor.rest = true := fun cut =>
      pointer (isPointerType_of_cut cut)
    unfold afterFunction at *
    rw [Cursor.extend_rest] at *
    rw [if_neg pointer] at inside ⊢
    rw [if_neg cutPointer]
    dsimp only at inside ⊢
    have headLe := Nat.le_trans (Nat.le_add_right _ _) inside
    rw [Head.read_of_full inside, Head.signature_of_le headLe, Head.fullLength_of_full inside,
      Cursor.extend_body (by omega), Cursor.extend_skip inside]
    rfl

/-! ### Items -/

theorem amongItems_settled {owner : Owner}
    (inside : (amongItems owner token (cursor.extend more)).length ≤ cursor.rest.length) :
    amongItems owner token (cursor.extend more) = amongItems owner token cursor ∨
      (amongItems owner token (cursor.extend more) = .skipped 0 ∧
        ∀ c ∈ cursor.rest, Text.isBlank c = true) := by
  unfold amongItems at *
  split at inside
  · exact .inl (congrArg Visit.skipped (Delimiter.closeLength_of_le inside).symm)
  · exact .inl (congrArg Visit.skipped (macroLength_of_le inside).symm)
  · exact .inl (congrArg Visit.skipped (Attribute.skipLength_of_le inside).symm)
  · by_cases function : token.keyword? = some .function
    · rw [if_pos function] at inside ⊢
      rw [if_pos function]
      exact afterFunction_settled inside
    · rw [if_neg function, if_neg function]
      exact .inl rfl

theorem length_le_items {owner : Owner} {length : Nat}
    (next : cursor.significant? = some (token, length)) :
    length ≤ (items owner cursor).length := by
  by_cases closes : token.tag = .closeBrace
  · rw [items_of_close next closes]
    exact Nat.le_of_eq rfl
  · rw [items_of_some next closes]
    dsimp only
    omega

theorem lt_items_of_endsBeyond {owner : Owner} (filled : more ≠ [])
    (beyond : cursor.EndsBeyond more) :
    cursor.rest.length < (items owner (cursor.extend more)).length := by
  cases next : (cursor.extend more).significant? with
  | none =>
      have longer := List.length_pos_iff.mpr filled
      rw [items_of_none next]
      change cursor.rest.length < (cursor.rest ++ more).length
      rw [List.length_append]
      omega
  | some pair =>
      obtain ⟨token, length⟩ := pair
      exact Nat.lt_of_lt_of_le (beyond token length next) (length_le_items next)

theorem items_settled {owner : Owner}
    (inside : (items owner (cursor.extend more)).length ≤ cursor.rest.length) :
    items owner (cursor.extend more) = items owner cursor := by
  by_cases filled : more = []
  · rw [filled, Cursor.extend_nil]
  induction cursor using Cursor.cut_induction more with
  | beyond cursor beyond =>
      have crosses : cursor.rest.length < (items owner (cursor.extend more)).length :=
        lt_items_of_endsBeyond filled beyond
      omega
  | onward cursor token length lengthLe fullNext cutNext ih =>
      by_cases closes : token.tag = .closeBrace
      · rw [items_of_close fullNext closes, items_of_close cutNext closes]
      rw [items_of_some fullNext closes, Cursor.extend_skip lengthLe] at inside ⊢
      rw [items_of_some cutNext closes]
      dsimp only at inside ⊢
      have restLength : (cursor.skip length).rest.length = cursor.rest.length - length := by
        rw [Cursor.skip_rest, List.length_drop]
      have visitLe : (amongItems owner token ((cursor.skip length).extend more)).length ≤
          (cursor.skip length).rest.length := by
        omega
      rcases amongItems_settled visitLe with same | ⟨skipped, blank⟩
      · rw [same] at inside visitLe ⊢
        rw [Cursor.extend_skip (by omega)] at inside ⊢
        rw [ih _ (by rw [Cursor.skip_rest, List.length_drop]; omega)]
      · -- A function pointer ends with the cut text, so the body runs past the cut.
        have crosses : (cursor.skip length).rest.length <
            (items owner ((cursor.skip length).extend more)).length :=
          lt_items_of_endsBeyond filled (Cursor.endsBeyond_of_blank blank)
        rw [skipped] at inside
        change length + (items owner ((cursor.extend more).skip length)).length ≤ _ at inside
        rw [Cursor.extend_skip lengthLe] at inside
        omega

/-! ### Declarations -/

theorem afterStruct_settled
    (inside : (afterStruct start (cursor.extend more)).length ≤ cursor.rest.length) :
    afterStruct start (cursor.extend more) = afterStruct start cursor := by
  unfold afterStruct at *
  rw [Cursor.extend_rest] at *
  dsimp only at inside ⊢
  rw [Head.read_of_full inside, Head.fullLength_of_full inside, Cursor.extend_skip inside]
  rfl

theorem afterEnum_settled
    (inside : (afterEnum start (cursor.extend more)).length ≤ cursor.rest.length) :
    afterEnum start (cursor.extend more) = afterEnum start cursor := by
  unfold afterEnum at *
  rw [Cursor.extend_rest] at *
  dsimp only at inside ⊢
  have headLe : (Head.read [.angle] (cursor.rest ++ more)).length ≤ cursor.rest.length := by
    split at inside
    · exact inside
    · exact Nat.le_trans (Nat.le_add_right _ _) inside
  rw [Head.read_of_le headLe]
  generalize Head.read [.angle] (cursor.rest ++ more) = head at headLe inside ⊢
  by_cases unnamed : (Signature.leadingName head.kept).isEmpty
  · rw [if_pos unnamed, if_pos unnamed]
  rw [if_neg unnamed] at inside ⊢
  rw [if_neg unnamed]
  by_cases brace : head.ending = .brace
  · rw [if_pos brace, List.drop_append_of_le_length headLe] at inside ⊢
    dsimp only at inside
    have bodyLe : (VariantList.read (cursor.rest.drop head.length ++ more)).length ≤
        (cursor.rest.drop head.length).length := by
      rw [List.length_drop]
      omega
    rw [if_pos brace, VariantList.read_of_le bodyLe, Cursor.extend_skip inside]
    rfl
  · rw [if_neg brace] at inside ⊢
    rw [if_neg brace, Cursor.extend_skip inside]
    rfl

theorem afterTrait_length (start : Position) (cursor : Cursor) :
    (afterTrait start cursor).length =
      (Head.read [.angle, .paren] cursor.rest).fullLength cursor.rest := by
  unfold afterTrait
  dsimp only
  split
  · rfl
  · split <;> rfl

theorem afterTrait_settled
    (inside : (afterTrait start (cursor.extend more)).length ≤ cursor.rest.length) :
    afterTrait start (cursor.extend more) = afterTrait start cursor := by
  rw [afterTrait_length, Cursor.extend_rest] at inside
  unfold afterTrait
  rw [Cursor.extend_rest, Head.read_of_full inside]
  dsimp only
  rw [Head.fullLength_of_full inside, Head.bodyLength?_of_full inside, Cursor.extend_skip inside]
  unfold Head.fullLength at inside
  split
  · rfl
  · split
    · rfl
    · rename_i bodyLength hasBody
      rw [hasBody, Option.getD_some] at inside
      rw [Cursor.extend_body inside]
      rfl

theorem afterImplementation_settled
    (inside : (afterImplementation start (cursor.extend more)).length ≤ cursor.rest.length) :
    afterImplementation start (cursor.extend more) = afterImplementation start cursor := by
  unfold afterImplementation at *
  rw [Cursor.extend_rest] at *
  dsimp only at inside ⊢
  have headLe : (Head.read signatureGroups (cursor.rest ++ more)).length ≤ cursor.rest.length := by
    split at inside
    · exact inside
    · exact inside
    · split at inside
      · exact Nat.le_trans (Nat.le_add_right _ _) inside
      · exact Nat.le_trans (Nat.le_add_right _ _) inside
  have sameSignature : Head.signature _ cursor.rest = Head.signature _ (cursor.rest ++ more) :=
    Head.signature_of_le headLe
  rw [Head.read_of_le headLe, sameSignature]
  generalize Head.read signatureGroups (cursor.rest ++ more) = head at headLe inside ⊢
  split
  · rfl
  · rfl
  · rename_i brace
    rw [brace] at inside
    dsimp only at inside
    split
    · rename_i unresolved
      rw [unresolved] at inside
      rw [Head.fullLength_of_full inside]
    · rename_i resolved isResolved
      rw [isResolved, Cursor.extend_skip headLe] at inside
      dsimp only at inside
      rw [Cursor.extend_skip headLe, items_settled]
      rw [Cursor.skip_rest, List.length_drop]
      omega

/-! ### Tests and attributes -/

theorem afterTestMark_settled
    (inside : (afterTestMark start (cursor.extend more)).length ≤ cursor.rest.length) :
    afterTestMark start (cursor.extend more) = afterTestMark start cursor := by
  unfold afterTestMark at *
  have nameLe : (markedName (cursor.extend more)).length ≤ cursor.rest.length := by
    split at inside
    · rename_i read missing
      rw [missing]
      exact inside
    · rename_i name read found
      rw [found]
      exact Nat.le_trans (Nat.le_add_right _ _) inside
  rw [markedName_of_le nameLe]
  split at inside
  · rfl
  · rename_i name read found
    rw [found] at nameLe
    dsimp only at inside nameLe ⊢
    rw [Cursor.extend_skip nameLe, Cursor.extend_rest] at inside ⊢
    have behindLength : (cursor.skip read).rest.length = cursor.rest.length - read := by
      rw [Cursor.skip_rest, List.length_drop]
    have headLe : (Head.read signatureGroups ((cursor.skip read).rest ++ more)).fullLength
        ((cursor.skip read).rest ++ more) ≤ (cursor.skip read).rest.length := by
      omega
    have headLength := Nat.le_trans (Nat.le_add_right _ _) headLe
    rw [Head.read_of_full headLe, Head.fullLength_of_full headLe,
      Cursor.extend_body (by omega), Cursor.extend_skip headLe]
    rfl

theorem afterHash_settled (config : Config)
    (inside : (afterHash config start (cursor.extend more)).length ≤ cursor.rest.length) :
    afterHash config start (cursor.extend more) = afterHash config start cursor := by
  unfold afterHash at *
  rw [Cursor.extend_rest] at *
  split at inside
  · rename_i missing
    rw [Attribute.read?_of_none missing]
  · rename_i mark found
    have markLe : mark.length ≤ cursor.rest.length := by
      split at inside
      · exact inside
      · split at inside
        · exact Nat.le_trans (Nat.le_add_right _ _) inside
        · exact inside
    rw [Attribute.read?_of_le found markLe]
    dsimp only
    by_cases module : config.isTestModule mark.text
    · rw [if_pos module, if_pos module]
    rw [if_neg module] at inside ⊢
    rw [if_neg module]
    by_cases test : config.isTest mark.text
    · rw [if_pos test, Cursor.extend_skip markLe] at inside ⊢
      dsimp only at inside
      rw [if_pos test, afterTestMark_settled]
      rw [Cursor.skip_rest, List.length_drop]
      omega
    · rw [if_neg test, if_neg test]

theorem afterKeyword_settled {keyword : Keyword}
    (inside : (afterKeyword keyword start (cursor.extend more)).length ≤ cursor.rest.length) :
    (afterKeyword keyword start (cursor.extend more)).Agrees (afterKeyword keyword start cursor) ∨
      (afterKeyword keyword start (cursor.extend more) = .skipped 0 ∧
        ∀ c ∈ cursor.rest, Text.isBlank c = true) := by
  cases keyword with
  | function => exact (afterFunction_settled inside).imp_left Visit.agrees_of_eq
  | struct => exact .inl (Visit.agrees_of_eq (afterStruct_settled inside))
  | enum => exact .inl (Visit.agrees_of_eq (afterEnum_settled inside))
  | trait => exact .inl (Visit.agrees_of_eq (afterTrait_settled inside))
  | implementation => exact .inl (Visit.agrees_of_eq (afterImplementation_settled inside))
  | unsafeMark => exact .inl (afterUnsafe_settled inside)
  | macroRules => exact .inl ⟨rfl, rfl⟩

/-- What a token of a file leads to does not depend on what is behind a cut, if the
visit ends before it. Only a keyword before nothing but blanks may have led to a function
pointer. -/
theorem inFile_settled {config : Config} {inDefinition : Bool}
    (inside : (inFile config inDefinition token (cursor.extend more)).length ≤
      cursor.rest.length) :
    (inFile config inDefinition token (cursor.extend more)).Agrees
        (inFile config inDefinition token cursor) ∨
      (inFile config inDefinition token (cursor.extend more) = .skipped 0 ∧
        ∀ c ∈ cursor.rest, Text.isBlank c = true) := by
  unfold inFile at *
  split at inside
  · exact .inl (Visit.agrees_of_eq (congrArg Visit.skipped (macroLength_of_le inside).symm))
  · exact .inl (Visit.agrees_of_eq (afterHash_settled config inside))
  · cases keyword : token.keyword? with
    | none => exact .inl ⟨rfl, rfl⟩
    | some known =>
        rw [keyword] at inside
        exact afterKeyword_settled inside

end Finding
end Survey
