import Survey.Proofs.MendedParts
import Survey.Proofs.Moving

set_option autoImplicit false

/-!
# The findings of a mended text

A mended text has its characters at the places of the text, and every reader stops there at
the same places. So the findings are the same too, with mended names and parts. As in the
module on moved texts, this is shown for one reader after the other: first for what a single
token leads to, then for the whole run over the tokens of a body or of a file.
-/

namespace Survey

open Text (ZerosUnquoted)

/-- The text with U+0001 in the place of every zero character. -/
def Text.mended (text : String) : String := String.ofList (text.toList.map mend)

theorem Text.mended_ofList (text : List Char) :
    mended (String.ofList text) = String.ofList (text.map mend) := by
  unfold mended
  rw [String.toList_ofList]

theorem Text.mended_isEmpty (text : String) : (mended text).isEmpty = text.isEmpty := by
  rw [Bool.eq_iff_iff, String.isEmpty_iff, String.isEmpty_iff, ← String.toList_eq_nil_iff,
    ← String.toList_eq_nil_iff, mended, String.toList_ofList, List.map_eq_nil_iff]

theorem Text.mended_comp_ofList : mended ∘ String.ofList = String.ofList ∘ List.map mend :=
  funext mended_ofList

def Owner.mend (owner : Owner) : Owner :=
  ⟨owner.type?.map Text.mended, owner.trait?.map Text.mended⟩

def FunctionDraft.mend (draft : FunctionDraft) : FunctionDraft where
  name := Text.mended draft.name
  parameters := draft.parameters.map Text.mended
  result := Text.mended draft.result
  extent := draft.extent
  owner := draft.owner.mend

/-- The same finding, in the mended text. -/
def Finding.mend : Finding → Finding
  | .unsafeBlock extent => .unsafeBlock extent
  | .unsafeAtEnd => .unsafeAtEnd
  | .function draft blocks => .function draft.mend blocks
  | .signatureAtEnd line => .signatureAtEnd line
  | .struct name extent => .struct (Text.mended name) extent
  | .enumAtEnd name => .enumAtEnd (Text.mended name)
  | .enum name variants extent =>
      .enum (Text.mended name) (variants.map Text.mended) extent
  | .trait name extent => .trait (Text.mended name) extent
  | .traitBody name line functions => .traitBody (Text.mended name) line functions
  | .implementationAtEnd line => .implementationAtEnd line
  | .targetUnresolved line => .targetUnresolved line
  | .target typeName traitName? =>
      .target (Text.mended typeName) (traitName?.map Text.mended)
  | .implementationBody typeName line methods =>
      .implementationBody (Text.mended typeName) line methods
  | .test name extent => .test (Text.mended name) extent
  | .testModule line => .testModule line

def Visit.mend (visit : Visit) : Visit := ⟨visit.found.map Finding.mend, visit.length⟩

def Token.mend (token : Token) : Token := { token with lexeme := token.lexeme.map Text.mend }

def Cursor.mend (cursor : Cursor) : Cursor := ⟨cursor.rest.map Text.mend, cursor.place⟩

@[simp] theorem Visit.mend_length (visit : Visit) : visit.mend.length = visit.length := rfl

@[simp] theorem Visit.mend_found (visit : Visit) :
    visit.mend.found = visit.found.map Finding.mend := rfl

@[simp] theorem Token.mend_tag (token : Token) : token.mend.tag = token.tag := rfl

@[simp] theorem Token.mend_start (token : Token) : token.mend.start = token.start := rfl

@[simp] theorem Cursor.mend_rest (cursor : Cursor) :
    cursor.mend.rest = cursor.rest.map Text.mend := rfl

theorem Keyword.ofWord?_map_mend (word : List Char) :
    ofWord? (word.map Text.mend) = ofWord? word := by
  unfold ofWord?
  congr 1
  funext keyword
  have sound : Text.AllSound keyword.spelling := by cases keyword <;> decide
  rw [Bool.eq_iff_iff, beq_iff_eq, beq_iff_eq, eq_comm, Text.map_mend_eq_iff sound, eq_comm]

@[simp] theorem Token.mend_keyword? (token : Token) : token.mend.keyword? = token.keyword? := by
  unfold keyword?
  rw [mend_tag, mend, Keyword.ofWord?_map_mend]

theorem Position.pastAll_map_mend (place : Position) (text : List Char) :
    place.pastAll (text.map Text.mend) = place.pastAll text := by
  induction text generalizing place with
  | nil => rfl
  | cons c rest ih =>
      rw [List.map_cons, pastAll_cons, pastAll_cons, ih, Text.apply_mend place.past rfl]

namespace Cursor

variable {cursor : Cursor}

theorem mend_skip (cursor : Cursor) (count : Nat) :
    cursor.mend.skip count = (cursor.skip count).mend := by
  unfold skip mend
  rw [← List.map_drop, ← List.map_take, Position.pastAll_map_mend]

theorem mend_skip_place (cursor : Cursor) (count : Nat) :
    (cursor.mend.skip count).place = (cursor.skip count).place := by
  rw [mend_skip]
  rfl

theorem mend_window (cursor : Cursor) (count : Nat) :
    cursor.mend.window count = (cursor.window count).mend := by
  unfold window mend
  rw [← List.map_take]

theorem significant?_mend (unquoted : ZerosUnquoted cursor.rest) :
    cursor.mend.significant? =
      cursor.significant?.map fun (token, length) => (token.mend, length) := by
  fun_induction significant? cursor with
  | case1 cursor read =>
      rw [significant?_eq, mend_rest, Token.read?_map_mend unquoted, read]
      rfl
  | case2 cursor tag length read isTrivia ih =>
      rw [significant?_eq, mend_rest, Token.read?_map_mend unquoted, read]
      simp only [isTrivia, if_true]
      rw [mend_skip, ih (unquoted.drop length)]
      cases significant? (cursor.skip length) <;> rfl
  | case3 cursor tag length read significant =>
      rw [significant?_eq, mend_rest, Token.read?_map_mend unquoted, read]
      simp only [significant]
      rw [← List.map_take]
      rfl

end Cursor

namespace Finding

variable {cursor : Cursor} {start : Position}

theorem countP_isUnsafeBlock_mend (found : List Finding) :
    (found.map mend).countP isUnsafeBlock = found.countP isUnsafeBlock :=
  countP_map_of_same (fun finding => by cases finding <;> rfl) found

theorem countP_isFunction_mend (found : List Finding) :
    (found.map mend).countP isFunction = found.countP isFunction :=
  countP_map_of_same (fun finding => by cases finding <;> rfl) found

/-! ### Unsafe blocks -/

theorem afterUnsafe_mend (unquoted : ZerosUnquoted cursor.rest) :
    afterUnsafe cursor.mend = (afterUnsafe cursor).mend := by
  unfold afterUnsafe
  dsimp only
  rw [Cursor.mend_rest, Trivia.length_map_mend, ← List.map_drop]
  have unquotedBehind := unquoted.drop (Trivia.length cursor.rest)
  cases behind : cursor.rest.drop (Trivia.length cursor.rest) with
  | nil => rfl
  | cons c inner =>
      rw [behind] at unquotedBehind
      rw [List.map_cons]
      dsimp only
      rw [Delimiter.closeLength_map_mend _ unquotedBehind.of_cons, Cursor.mend_skip_place,
        Cursor.mend_skip_place]
      simp (disch := decide) only [Text.mend_eq_iff]
      split <;> rfl

theorem inBody_mend (unquoted : ZerosUnquoted cursor.rest) (token : Token) :
    inBody token.mend cursor.mend = (inBody token cursor).mend := by
  unfold inBody
  rw [Token.mend_tag, Token.mend_keyword?, Cursor.mend_rest, Attribute.skipLength_map_mend unquoted]
  split
  · rfl
  · split
    · exact afterUnsafe_mend unquoted
    · rfl

theorem unsafeIn_mend (unquoted : ZerosUnquoted cursor.rest) :
    unsafeIn cursor.mend = (unsafeIn cursor).map mend := by
  induction cursor using Cursor.significant_induction with
  | atEnd cursor atEnd =>
      have mended := Cursor.significant?_mend unquoted
      rw [atEnd] at mended
      rw [unsafeIn_of_none mended, unsafeIn_of_none atEnd]
      rfl
  | onward cursor token length next ih =>
      have mended := Cursor.significant?_mend unquoted
      rw [next] at mended
      rw [unsafeIn_of_some mended, unsafeIn_of_some next, Cursor.mend_skip,
        inBody_mend (unquoted.drop length), Cursor.mend_skip, Visit.mend_length,
        ih _ (unquoted.drop _), Visit.mend_found, List.map_append]

theorem unsafeIn_window_mend (unquoted : ZerosUnquoted cursor.rest) (skipped count : Nat) :
    unsafeIn ((cursor.mend.skip skipped).window count) =
      (unsafeIn ((cursor.skip skipped).window count)).map mend := by
  rw [Cursor.mend_skip, Cursor.mend_window]
  exact unsafeIn_mend ((unquoted.drop skipped).take count)

/-! ### Functions and declarations -/

theorem ofFunction_mend (owner : Owner) (extent : Extent) (parts : Signature.FunctionParts)
    (inside : List Finding) :
    ofFunction owner.mend extent parts.mend (inside.map mend) =
      (ofFunction owner extent parts inside).map mend := by
  unfold ofFunction
  rw [countP_isUnsafeBlock_mend, List.map_append, List.map_singleton, mend, FunctionDraft.mend]
  dsimp only
  rw [Text.mended_ofList, Text.mended_ofList, List.map_map, Text.mended_comp_ofList, ← List.map_map]
  rfl

theorem isPointerType_map_mend (text : List Char) :
    isPointerType (text.map Text.mend) = isPointerType text := by
  unfold isPointerType
  rw [Trivia.blankLength_map_mend, ← List.map_drop, Bool.eq_iff_iff, beq_iff_eq, beq_iff_eq,
    Text.head?_map_mend_eq_iff (by decide)]

theorem afterFunction_mend (unquoted : ZerosUnquoted cursor.rest) (owner : Owner) :
    afterFunction owner.mend start cursor.mend = (afterFunction owner start cursor).mend := by
  unfold afterFunction
  rw [Cursor.mend_rest, isPointerType_map_mend]
  by_cases pointer : isPointerType cursor.rest
  · rw [if_pos pointer, if_pos pointer]
    rfl
  · rw [if_neg pointer, if_neg pointer]
    dsimp only
    rw [Head.read_map_mend signatureGroups unquoted, Head.signature_mend,
      Signature.functionParts_map_mend, Head.fullLength_mend _ unquoted, Head.mend_length,
      Head.mend_ending, Cursor.mend_skip_place, unsafeIn_window_mend unquoted, ofFunction_mend]
    have named : ∀ parts : Signature.FunctionParts, parts.mend.name.isEmpty = parts.name.isEmpty :=
      fun _ => List.isEmpty_map
    rw [named]
    unfold Visit.mend
    rw [List.map_append]
    split <;> split <;> rfl

theorem amongItems_mend (unquoted : ZerosUnquoted cursor.rest) (owner : Owner) (token : Token) :
    amongItems owner.mend token.mend cursor.mend = (amongItems owner token cursor).mend := by
  unfold amongItems
  rw [Token.mend_tag, Token.mend_keyword?, Cursor.mend_rest, Token.mend_start,
    Delimiter.closeLength_map_mend _ unquoted, macroLength_map_mend _ unquoted,
    Attribute.skipLength_map_mend unquoted]
  split
  · rfl
  · rfl
  · rfl
  · split
    · exact afterFunction_mend unquoted owner
    · rfl

theorem items_mend (unquoted : ZerosUnquoted cursor.rest) (owner : Owner) :
    items owner.mend cursor.mend = (items owner cursor).mend := by
  induction cursor using Cursor.significant_induction with
  | atEnd cursor atEnd =>
      have mended := Cursor.significant?_mend unquoted
      rw [atEnd] at mended
      rw [items_of_none mended, items_of_none atEnd, Cursor.mend_rest, List.length_map]
      rfl
  | onward cursor token length next ih =>
      have mended := Cursor.significant?_mend unquoted
      rw [next] at mended
      by_cases closes : token.tag = .closeBrace
      · rw [items_of_close mended closes, items_of_close next closes]
        rfl
      · rw [items_of_some mended closes, items_of_some next closes]
        dsimp only
        rw [Cursor.mend_skip, amongItems_mend (unquoted.drop length), Visit.mend_length,
          Cursor.mend_skip, ih _ (unquoted.drop _)]
        unfold Visit.mend
        rw [List.map_append]

theorem items_window_mend (unquoted : ZerosUnquoted cursor.rest) (owner : Owner)
    (skipped count : Nat) :
    items owner.mend ((cursor.mend.skip skipped).window count) =
      (items owner ((cursor.skip skipped).window count)).mend := by
  rw [Cursor.mend_skip, Cursor.mend_window]
  exact items_mend ((unquoted.drop skipped).take count) owner

theorem leadingName_mend (head : Head) :
    Signature.leadingName head.mend.kept = (Signature.leadingName head.kept).map Text.mend :=
  Signature.leadingName_map_mend head.kept

theorem afterStruct_mend (unquoted : ZerosUnquoted cursor.rest) :
    afterStruct start cursor.mend = (afterStruct start cursor).mend := by
  unfold afterStruct Visit.mend
  dsimp only
  rw [Cursor.mend_rest, Head.read_map_mend _ unquoted, leadingName_mend,
    Head.fullLength_mend _ unquoted, Cursor.mend_skip_place, List.isEmpty_map]
  split
  · rfl
  · rw [List.map_singleton, mend, Text.mended_ofList]

theorem afterEnum_mend (unquoted : ZerosUnquoted cursor.rest) :
    afterEnum start cursor.mend = (afterEnum start cursor).mend := by
  unfold afterEnum
  dsimp only
  rw [Cursor.mend_rest, Head.read_map_mend _ unquoted, leadingName_mend, Head.mend_length,
    Head.mend_ending, List.isEmpty_map]
  generalize Head.read [.angle] cursor.rest = head
  split
  · rfl
  · have body : (if head.ending = .brace then
          VariantList.read ((cursor.rest.map Text.mend).drop head.length)
          else ⟨[], 0, true⟩ : VariantList) =
        (if head.ending = .brace then VariantList.read (cursor.rest.drop head.length)
          else ⟨[], 0, true⟩ : VariantList).mend := by
      rw [← List.map_drop, VariantList.read_map_mend (unquoted.drop head.length)]
      split <;> rfl
    rw [body]
    generalize (if head.ending = .brace then VariantList.read (cursor.rest.drop head.length)
      else ⟨[], 0, true⟩ : VariantList) = body
    have variants : body.mend.variants.map String.ofList =
        (body.variants.map String.ofList).map Text.mended := by
      rw [List.map_map, Text.mended_comp_ofList, ← List.map_map]
      rfl
    rw [variants, Cursor.mend_skip_place, ← Text.mended_ofList]
    unfold Visit.mend
    rw [List.map_append]
    cases body with
    | mk variants length isClosed => cases isClosed <;> rfl

theorem afterTrait_mend (unquoted : ZerosUnquoted cursor.rest) :
    afterTrait start cursor.mend = (afterTrait start cursor).mend := by
  unfold afterTrait
  dsimp only
  rw [Cursor.mend_rest, Head.read_map_mend _ unquoted, leadingName_mend, Head.mend_length,
    Head.fullLength_mend _ unquoted, Head.bodyLength?_mend _ unquoted, Cursor.mend_skip_place,
    ← Text.mended_ofList, Text.mended_isEmpty]
  generalize String.ofList (Signature.leadingName _) = name
  split
  · rfl
  · split
    · rfl
    · rename_i bodyLength _
      have inside := items_window_mend unquoted ⟨none, some name⟩
        (Head.read [.angle, .paren] cursor.rest).length bodyLength
      rw [show (⟨none, some (Text.mended name)⟩ : Owner) = Owner.mend ⟨none, some name⟩ from rfl,
        inside, Visit.mend_found, countP_isFunction_mend]
      unfold Visit.mend
      rw [List.map_append]
      rfl

theorem afterImplementation_mend (unquoted : ZerosUnquoted cursor.rest) :
    afterImplementation start cursor.mend = (afterImplementation start cursor).mend := by
  unfold afterImplementation
  dsimp only
  rw [Cursor.mend_rest, Head.read_map_mend _ unquoted, Head.mend_length, Head.mend_ending,
    Head.signature_mend, Signature.target?_map_mend, Head.fullLength_mend _ unquoted]
  split
  · rfl
  · rfl
  · cases Signature.target? ((Head.read signatureGroups cursor.rest).signature cursor.rest) with
    | none => rfl
    | some resolved =>
        have typeName : String.ofList resolved.mend.typeName =
            Text.mended (String.ofList resolved.typeName) :=
          (Text.mended_ofList resolved.typeName).symm
        have traitName? : resolved.mend.traitName?.map String.ofList =
            (resolved.traitName?.map String.ofList).map Text.mended := by
          rw [Option.map_map, Text.mended_comp_ofList, ← Option.map_map]
          rfl
        dsimp only [Option.map_some]
        rw [typeName, traitName?, Cursor.mend_skip]
        generalize String.ofList resolved.typeName = name
        generalize resolved.traitName?.map String.ofList = trait?
        have behind : ZerosUnquoted
            (cursor.skip (Head.read signatureGroups cursor.rest).length).rest := unquoted.drop _
        have inside := items_mend behind ⟨some name, trait?⟩
        simp only [Owner.mend, Option.map_some] at inside
        rw [inside, Visit.mend_found, Visit.mend_length, countP_isFunction_mend]
        unfold Visit.mend
        rw [List.map_append]
        rfl

/-! ### Tests -/

theorem qualifierLength?_mend (unquoted : ZerosUnquoted cursor.rest) (token : Token) :
    qualifierLength? token.mend cursor.mend = qualifierLength? token cursor := by
  unfold qualifierLength?
  rw [Token.mend_tag, Token.mend_keyword?, Cursor.mend_rest,
    Attribute.skipLength_map_mend unquoted, Delimiter.closeLength_map_mend _ unquoted]

def NameSearch.mend (search : NameSearch) : NameSearch :=
  { search with name? := search.name?.map (List.map Text.mend) }

theorem nameAfterKeyword_mend (unquoted : ZerosUnquoted cursor.rest) :
    nameAfterKeyword cursor.mend = (nameAfterKeyword cursor).mend := by
  unfold nameAfterKeyword
  rw [Cursor.significant?_mend unquoted]
  cases cursor.significant? with
  | none =>
      rw [Cursor.mend_rest]
      simp only [Option.map_none, List.length_map]
      rfl
  | some next =>
      by_cases isWord : next.1.tag = .word
      · simp only [Option.map_some, Token.mend_tag, isWord, if_true]
        rfl
      · simp only [Option.map_some, Token.mend_tag, isWord, if_false]
        rfl

theorem markedName_mend (unquoted : ZerosUnquoted cursor.rest) :
    markedName cursor.mend = (markedName cursor).mend := by
  induction cursor using Cursor.significant_induction with
  | atEnd cursor atEnd =>
      have mended := Cursor.significant?_mend unquoted
      rw [atEnd] at mended
      rw [markedName_eq, mended, markedName_eq, atEnd, Cursor.mend_rest]
      simp only [Option.map_none, List.length_map]
      rfl
  | onward cursor token length next ih =>
      have mended := Cursor.significant?_mend unquoted
      rw [next] at mended
      rw [markedName_eq, mended, markedName_eq cursor, next]
      dsimp only [Option.map_some]
      rw [Cursor.mend_skip, qualifierLength?_mend (unquoted.drop length)]
      split
      · rw [Cursor.mend_skip, ih _ (unquoted.drop _)]
        rfl
      · rw [nameAfterKeyword_mend (unquoted.drop length), Token.mend_keyword?]
        split <;> rfl

theorem afterTestMark_mend (unquoted : ZerosUnquoted cursor.rest) :
    afterTestMark start cursor.mend = (afterTestMark start cursor).mend := by
  unfold afterTestMark
  rw [markedName_mend unquoted]
  cases markedName cursor with
  | mk name? read =>
      cases name? with
      | none => rfl
      | some name =>
          have further : ZerosUnquoted (cursor.skip read).rest := unquoted.drop read
          dsimp only [NameSearch.mend, Option.map_some]
          rw [Cursor.mend_skip, Cursor.mend_rest, Head.read_map_mend _ further, Head.mend_length,
            Head.fullLength_mend _ further, unsafeIn_window_mend further, Cursor.mend_skip_place,
            ← Text.mended_ofList]
          unfold Visit.mend
          rw [List.map_append]
          rfl

/-! ### Files -/

theorem isAmong_map_mend {markers : List String}
    (sound : ∀ marker ∈ markers, Text.AllSound marker.toList) (mark : List Char) :
    Config.isAmong markers (mark.map Text.mend) = Config.isAmong markers mark := by
  unfold Config.isAmong
  rw [Bool.eq_iff_iff, List.any_eq_true, List.any_eq_true]
  refine exists_congr fun marker => and_congr_right fun member => ?_
  have kept : Text.AllSound (Text.withoutWhiteSpace marker.toList) :=
    (sound marker member).mono fun _ inside => List.mem_of_mem_filter inside
  rw [beq_iff_eq, beq_iff_eq, eq_comm, Text.map_mend_eq_iff kept, eq_comm]

theorem afterHash_mend (unquoted : ZerosUnquoted cursor.rest) :
    afterHash .standard start cursor.mend = (afterHash .standard start cursor).mend := by
  unfold afterHash
  rw [Cursor.mend_rest, Attribute.read?_map_mend unquoted]
  cases Attribute.read? cursor.rest with
  | none => rfl
  | some mark =>
      dsimp only [Option.map_some]
      have isTest : Config.standard.isTest mark.mend.text = Config.standard.isTest mark.text :=
        isAmong_map_mend (by decide) mark.text
      have isModule : Config.standard.isTestModule mark.mend.text =
          Config.standard.isTestModule mark.text :=
        isAmong_map_mend (by decide) mark.text
      rw [isTest, isModule, show mark.mend.length = mark.length from rfl, Cursor.mend_skip,
        afterTestMark_mend (unquoted.drop mark.length)]
      split
      · rfl
      · split <;> rfl

theorem afterKeyword_mend (unquoted : ZerosUnquoted cursor.rest) (keyword : Keyword) :
    afterKeyword keyword start cursor.mend = (afterKeyword keyword start cursor).mend := by
  cases keyword with
  | function => exact afterFunction_mend unquoted .none
  | struct => exact afterStruct_mend unquoted
  | enum => exact afterEnum_mend unquoted
  | trait => exact afterTrait_mend unquoted
  | implementation => exact afterImplementation_mend unquoted
  | unsafeMark => exact afterUnsafe_mend unquoted
  | macroRules => rfl

theorem inFile_mend (unquoted : ZerosUnquoted cursor.rest) (inDefinition : Bool)
    (token : Token) :
    inFile .standard inDefinition token.mend cursor.mend =
      (inFile .standard inDefinition token cursor).mend := by
  unfold inFile
  rw [Token.mend_tag, Token.mend_keyword?, Cursor.mend_rest, Token.mend_start,
    macroLength_map_mend _ unquoted]
  split
  · rfl
  · exact afterHash_mend unquoted
  · split
    · exact afterKeyword_mend unquoted _
    · rfl

/-- A file may be mended before it is read or afterwards. -/
theorem stream_mend (unquoted : ZerosUnquoted cursor.rest) (inDefinition : Bool) :
    stream .standard inDefinition cursor.mend =
      (stream .standard inDefinition cursor).map mend := by
  induction cursor using Cursor.significant_induction generalizing inDefinition with
  | atEnd cursor atEnd =>
      have mended := Cursor.significant?_mend unquoted
      rw [atEnd] at mended
      rw [stream_of_none mended, stream_of_none atEnd]
      rfl
  | onward cursor token length next ih =>
      have mended := Cursor.significant?_mend unquoted
      rw [next] at mended
      rw [stream_of_some mended, stream_of_some next, Cursor.mend_skip,
        inFile_mend (unquoted.drop length), Cursor.mend_skip, Visit.mend_length,
        Token.mend_keyword?, ih _ (unquoted.drop _), Visit.mend_found, List.map_append]

end Finding
end Survey
