import Survey.Finding.Stream
import Survey.Proofs.Places

set_option autoImplicit false

/-!
# Reading a stretch of text on its own

How far a reader goes depends on the remaining text alone, never on the place where
that text starts. So a stretch may be read on its own, as if a file began there, and
everything found be moved to where the stretch really starts: the findings are those
of reading it in place. This is shown for each reader in turn.
-/

namespace Survey

def Extent.shift (extent : Extent) (origin : Position) : Extent :=
  ⟨extent.start.shift origin, extent.stop.shift origin⟩

def FunctionDraft.shift (draft : FunctionDraft) (origin : Position) : FunctionDraft :=
  { draft with extent := draft.extent.shift origin }

/-- The same finding, in a text that starts at `origin`. -/
def Finding.shift (origin : Position) : Finding → Finding
  | .unsafeBlock extent => .unsafeBlock (extent.shift origin)
  | .unsafeAtEnd => .unsafeAtEnd
  | .function draft blocks => .function (draft.shift origin) blocks
  | .signatureAtEnd line => .signatureAtEnd (origin.line + line - 1)
  | .struct name extent => .struct name (extent.shift origin)
  | .enumAtEnd name => .enumAtEnd name
  | .enum name variants extent => .enum name variants (extent.shift origin)
  | .trait name extent => .trait name (extent.shift origin)
  | .traitBody name line functions => .traitBody name (origin.line + line - 1) functions
  | .implementationAtEnd line => .implementationAtEnd (origin.line + line - 1)
  | .targetUnresolved line => .targetUnresolved (origin.line + line - 1)
  | .target typeName traitName? => .target typeName traitName?
  | .implementationBody typeName line methods =>
      .implementationBody typeName (origin.line + line - 1) methods
  | .test name extent => .test name (extent.shift origin)
  | .testModule line => .testModule (origin.line + line - 1)

def Visit.shift (visit : Visit) (origin : Position) : Visit :=
  ⟨visit.found.map (Finding.shift origin), visit.length⟩

def Token.shift (token : Token) (origin : Position) : Token :=
  { token with start := token.start.shift origin }

def Cursor.shift (cursor : Cursor) (origin : Position) : Cursor :=
  ⟨cursor.rest, cursor.place.shift origin⟩

@[simp] theorem Token.shift_tag (token : Token) (origin : Position) :
    (token.shift origin).tag = token.tag := rfl

@[simp] theorem Token.shift_keyword? (token : Token) (origin : Position) :
    (token.shift origin).keyword? = token.keyword? := rfl

@[simp] theorem Token.shift_lexeme (token : Token) (origin : Position) :
    (token.shift origin).lexeme = token.lexeme := rfl

@[simp] theorem Token.shift_start (token : Token) (origin : Position) :
    (token.shift origin).start = token.start.shift origin := rfl

@[simp] theorem Visit.shift_length (visit : Visit) (origin : Position) :
    (visit.shift origin).length = visit.length := rfl

@[simp] theorem Visit.shift_found (visit : Visit) (origin : Position) :
    (visit.shift origin).found = visit.found.map (Finding.shift origin) := rfl

@[simp] theorem Visit.shift_skipped (length : Nat) (origin : Position) :
    (Visit.skipped length).shift origin = .skipped length := rfl

namespace Cursor

@[simp] theorem shift_rest (cursor : Cursor) (origin : Position) :
    (cursor.shift origin).rest = cursor.rest := rfl

theorem ofText_shift (text : List Char) (origin : Position) :
    (ofText text).shift origin = ⟨text, origin⟩ := rfl

theorem skip_counted {cursor : Cursor} (counted : cursor.place.Counted) (count : Nat) :
    (cursor.skip count).place.Counted :=
  counted.pastAll _

theorem shift_skip {cursor : Cursor} (counted : cursor.place.Counted) (origin : Position)
    (count : Nat) : (cursor.shift origin).skip count = (cursor.skip count).shift origin := by
  unfold skip shift
  rw [counted.shift_pastAll]

theorem shift_skip_place {cursor : Cursor} (counted : cursor.place.Counted) (origin : Position)
    (count : Nat) :
    ((cursor.shift origin).skip count).place = (cursor.skip count).place.shift origin := by
  rw [shift_skip counted]
  rfl

theorem shift_window (cursor : Cursor) (origin : Position) (count : Nat) :
    (cursor.shift origin).window count = (cursor.window count).shift origin := rfl

theorem significant?_shift {cursor : Cursor} (counted : cursor.place.Counted)
    (origin : Position) :
    (cursor.shift origin).significant? =
      cursor.significant?.map fun pair => (pair.1.shift origin, pair.2) := by
  fun_induction significant? cursor with
  | case1 cursor read =>
      rw [significant?_eq, shift_rest, read]
      rfl
  | case2 cursor tag length read isTrivia ih =>
      rw [significant?_eq, shift_rest, read]
      simp only [isTrivia, if_true]
      rw [shift_skip counted, ih (skip_counted counted length)]
      cases significant? (cursor.skip length) <;> rfl
  | case3 cursor tag length read significant =>
      rw [significant?_eq, shift_rest, read]
      simp only [significant]
      rfl

end Cursor

namespace Finding

variable {cursor : Cursor} {start : Position}

@[simp] theorem isUnsafeBlock_shift (origin : Position) (finding : Finding) :
    (finding.shift origin).isUnsafeBlock = finding.isUnsafeBlock := by
  cases finding <;> rfl

@[simp] theorem isFunction_shift (origin : Position) (finding : Finding) :
    (finding.shift origin).isFunction = finding.isFunction := by
  cases finding <;> rfl

theorem countP_map_of_same {test : Finding → Bool} {change : Finding → Finding}
    (same : ∀ finding, test (change finding) = test finding) (found : List Finding) :
    (found.map change).countP test = found.countP test := by
  rw [List.countP_map]
  congr 1
  funext finding
  exact same finding

theorem countP_isUnsafeBlock_shift (origin : Position) (found : List Finding) :
    (found.map (Finding.shift origin)).countP isUnsafeBlock = found.countP isUnsafeBlock :=
  countP_map_of_same (isUnsafeBlock_shift origin) found

theorem countP_isFunction_shift (origin : Position) (found : List Finding) :
    (found.map (Finding.shift origin)).countP isFunction = found.countP isFunction :=
  countP_map_of_same (isFunction_shift origin) found

theorem afterUnsafe_shift (counted : cursor.place.Counted) (origin : Position) :
    afterUnsafe (cursor.shift origin) = (afterUnsafe cursor).shift origin := by
  unfold afterUnsafe
  dsimp only
  rw [Cursor.shift_rest]
  split
  · rfl
  · split
    · rw [Cursor.shift_skip_place counted, Cursor.shift_skip_place counted]
      rfl
    · rfl

theorem inBody_shift (counted : cursor.place.Counted) (origin : Position) (token : Token) :
    inBody (token.shift origin) (cursor.shift origin) = (inBody token cursor).shift origin := by
  unfold inBody
  rw [Token.shift_tag, Token.shift_keyword?, Cursor.shift_rest]
  split
  · rfl
  · split
    · exact afterUnsafe_shift counted origin
    · rfl

theorem unsafeIn_shift (counted : cursor.place.Counted) (origin : Position) :
    unsafeIn (cursor.shift origin) = (unsafeIn cursor).map (Finding.shift origin) := by
  induction cursor using Cursor.significant_induction with
  | atEnd cursor atEnd =>
      have shifted := Cursor.significant?_shift counted origin
      rw [atEnd] at shifted
      rw [unsafeIn_of_none shifted, unsafeIn_of_none atEnd]
      rfl
  | onward cursor token length next ih =>
      have shifted := Cursor.significant?_shift counted origin
      rw [next] at shifted
      rw [unsafeIn_of_some shifted, unsafeIn_of_some next, Cursor.shift_skip counted,
        inBody_shift (Cursor.skip_counted counted length), Cursor.shift_skip counted,
        Visit.shift_length, ih _ (Cursor.skip_counted counted _), Visit.shift_found,
        List.map_append]

theorem ofFunction_shift (owner : Owner) (extent : Extent) (parts : Signature.FunctionParts)
    (inside : List Finding) (origin : Position) :
    ofFunction owner (extent.shift origin) parts (inside.map (Finding.shift origin)) =
      (ofFunction owner extent parts inside).map (Finding.shift origin) := by
  unfold ofFunction
  rw [countP_isUnsafeBlock_shift, List.map_append]
  rfl

theorem unsafeIn_window_shift (counted : cursor.place.Counted) (origin : Position)
    (skipped count : Nat) :
    unsafeIn (((cursor.shift origin).skip skipped).window count) =
      (unsafeIn ((cursor.skip skipped).window count)).map (Finding.shift origin) := by
  have counted' : ((cursor.skip skipped).window count).place.Counted :=
    Cursor.skip_counted counted skipped
  rw [Cursor.shift_skip counted, Cursor.shift_window, unsafeIn_shift counted']

theorem afterFunction_shift (counted : cursor.place.Counted) (origin : Position) (owner : Owner) :
    afterFunction owner (start.shift origin) (cursor.shift origin) =
      (afterFunction owner start cursor).shift origin := by
  unfold afterFunction
  rw [Cursor.shift_rest]
  by_cases pointer : isPointerType cursor.rest
  · rw [if_pos pointer, if_pos pointer]
    rfl
  · rw [if_neg pointer, if_neg pointer]
    dsimp only
    rw [Cursor.shift_skip_place counted, unsafeIn_window_shift counted]
    generalize Head.read signatureGroups cursor.rest = head
    have moved := ofFunction_shift owner
      ⟨start, (cursor.skip (head.fullLength cursor.rest)).place⟩
      (Signature.functionParts (head.signature cursor.rest))
      (unsafeIn ((cursor.skip head.length).window (head.fullLength cursor.rest - head.length)))
      origin
    simp only [Extent.shift] at moved
    rw [moved]
    unfold Visit.shift
    rw [List.map_append]
    split <;> split <;> rfl

theorem amongItems_shift (counted : cursor.place.Counted) (origin : Position) (owner : Owner)
    (token : Token) :
    amongItems owner (token.shift origin) (cursor.shift origin) =
      (amongItems owner token cursor).shift origin := by
  unfold amongItems
  rw [Token.shift_tag, Token.shift_keyword?, Cursor.shift_rest, Token.shift_start]
  split
  · rfl
  · rfl
  · rfl
  · split
    · exact afterFunction_shift counted origin owner
    · rfl

theorem items_shift (counted : cursor.place.Counted) (origin : Position) (owner : Owner) :
    items owner (cursor.shift origin) = (items owner cursor).shift origin := by
  induction cursor using Cursor.significant_induction with
  | atEnd cursor atEnd =>
      have shifted := Cursor.significant?_shift counted origin
      rw [atEnd] at shifted
      rw [items_of_none shifted, items_of_none atEnd]
      rfl
  | onward cursor token length next ih =>
      have shifted := Cursor.significant?_shift counted origin
      rw [next] at shifted
      by_cases closes : token.tag = .closeBrace
      · rw [items_of_close shifted closes, items_of_close next closes]
        rfl
      · rw [items_of_some shifted closes, items_of_some next closes]
        dsimp only
        rw [Cursor.shift_skip counted, amongItems_shift (Cursor.skip_counted counted length),
          Visit.shift_length, Cursor.shift_skip counted, ih _ (Cursor.skip_counted counted _)]
        unfold Visit.shift
        rw [List.map_append]

theorem items_window_shift (counted : cursor.place.Counted) (origin : Position) (owner : Owner)
    (skipped count : Nat) :
    items owner (((cursor.shift origin).skip skipped).window count) =
      (items owner ((cursor.skip skipped).window count)).shift origin := by
  have counted' : ((cursor.skip skipped).window count).place.Counted :=
    Cursor.skip_counted counted skipped
  rw [Cursor.shift_skip counted, Cursor.shift_window, items_shift counted']

theorem afterStruct_shift (counted : cursor.place.Counted) (origin : Position) :
    afterStruct (start.shift origin) (cursor.shift origin) =
      (afterStruct start cursor).shift origin := by
  unfold afterStruct Visit.shift
  dsimp only
  rw [Cursor.shift_rest, Cursor.shift_skip_place counted]
  split <;> rfl

theorem afterEnum_shift (counted : cursor.place.Counted) (origin : Position) :
    afterEnum (start.shift origin) (cursor.shift origin) =
      (afterEnum start cursor).shift origin := by
  unfold afterEnum
  dsimp only
  rw [Cursor.shift_rest, Cursor.shift_skip_place counted]
  split
  · rfl
  · generalize (if (Head.read [.angle] cursor.rest).ending = .brace then
      VariantList.read (cursor.rest.drop (Head.read [.angle] cursor.rest).length)
      else ⟨[], 0, true⟩ : VariantList) = body
    unfold Visit.shift
    rw [List.map_append]
    split <;> rfl

theorem afterTrait_shift (counted : cursor.place.Counted) (origin : Position) :
    afterTrait (start.shift origin) (cursor.shift origin) =
      (afterTrait start cursor).shift origin := by
  unfold afterTrait
  dsimp only
  rw [Cursor.shift_rest, Cursor.shift_skip_place counted]
  split
  · rfl
  · split
    · rfl
    · rw [items_window_shift counted, Visit.shift_found, countP_isFunction_shift]
      unfold Visit.shift
      rw [List.map_append]
      rfl

theorem afterImplementation_shift (counted : cursor.place.Counted) (origin : Position) :
    afterImplementation (start.shift origin) (cursor.shift origin) =
      (afterImplementation start cursor).shift origin := by
  unfold afterImplementation
  dsimp only
  rw [Cursor.shift_rest]
  split
  · rfl
  · rfl
  · split
    · rfl
    · rw [Cursor.shift_skip counted, items_shift (Cursor.skip_counted counted _),
        Visit.shift_found, Visit.shift_length, countP_isFunction_shift]
      unfold Visit.shift
      rw [List.map_append]
      rfl

theorem qualifierLength?_shift (origin : Position) (token : Token) :
    qualifierLength? (token.shift origin) (cursor.shift origin) = qualifierLength? token cursor :=
  rfl

theorem nameAfterKeyword_shift (counted : cursor.place.Counted) (origin : Position) :
    nameAfterKeyword (cursor.shift origin) = nameAfterKeyword cursor := by
  unfold nameAfterKeyword
  rw [Cursor.significant?_shift counted origin]
  cases cursor.significant? <;> rfl

theorem markedName_shift (counted : cursor.place.Counted) (origin : Position) :
    markedName (cursor.shift origin) = markedName cursor := by
  induction cursor using Cursor.significant_induction with
  | atEnd cursor atEnd =>
      have shifted := Cursor.significant?_shift counted origin
      rw [atEnd] at shifted
      rw [markedName_eq, shifted, markedName_eq, atEnd]
      rfl
  | onward cursor token length next ih =>
      have shifted := Cursor.significant?_shift counted origin
      rw [next] at shifted
      rw [markedName_eq, shifted, markedName_eq cursor, next]
      dsimp only [Option.map_some]
      rw [Cursor.shift_skip counted, qualifierLength?_shift]
      split
      · rw [Cursor.shift_skip counted, ih _ (Cursor.skip_counted counted _)]
      · rw [nameAfterKeyword_shift (Cursor.skip_counted counted length)]
        rfl

theorem afterTestMark_shift (counted : cursor.place.Counted) (origin : Position) :
    afterTestMark (start.shift origin) (cursor.shift origin) =
      (afterTestMark start cursor).shift origin := by
  unfold afterTestMark
  rw [markedName_shift counted]
  split
  · rfl
  · rename_i name read _
    have further := Cursor.skip_counted counted read
    dsimp only
    rw [Cursor.shift_skip counted, Cursor.shift_rest, unsafeIn_window_shift further,
      Cursor.shift_skip_place further]
    unfold Visit.shift
    rw [List.map_append]
    rfl

theorem afterHash_shift (counted : cursor.place.Counted) (origin : Position) (config : Config) :
    afterHash config (start.shift origin) (cursor.shift origin) =
      (afterHash config start cursor).shift origin := by
  unfold afterHash
  rw [Cursor.shift_rest]
  split
  · rfl
  · dsimp only
    rw [Cursor.shift_skip counted, afterTestMark_shift (Cursor.skip_counted counted _)]
    split
    · rfl
    · split <;> rfl

theorem afterKeyword_shift (counted : cursor.place.Counted) (origin : Position)
    (keyword : Keyword) :
    afterKeyword keyword (start.shift origin) (cursor.shift origin) =
      (afterKeyword keyword start cursor).shift origin := by
  cases keyword with
  | function => exact afterFunction_shift counted origin .none
  | struct => exact afterStruct_shift counted origin
  | enum => exact afterEnum_shift counted origin
  | trait => exact afterTrait_shift counted origin
  | implementation => exact afterImplementation_shift counted origin
  | unsafeMark => exact afterUnsafe_shift counted origin
  | macroRules => rfl

theorem inFile_shift (counted : cursor.place.Counted) (origin : Position) (config : Config)
    (inDefinition : Bool) (token : Token) :
    inFile config inDefinition (token.shift origin) (cursor.shift origin) =
      (inFile config inDefinition token cursor).shift origin := by
  unfold inFile
  rw [Token.shift_tag, Token.shift_keyword?, Cursor.shift_rest, Token.shift_start]
  split
  · rfl
  · exact afterHash_shift counted origin config
  · split
    · exact afterKeyword_shift counted origin _
    · rfl

/-- A file may be read as if it started elsewhere. -/
theorem stream_shift (counted : cursor.place.Counted) (origin : Position) (config : Config)
    (inDefinition : Bool) :
    stream config inDefinition (cursor.shift origin) =
      (stream config inDefinition cursor).map (Finding.shift origin) := by
  induction cursor using Cursor.significant_induction generalizing inDefinition with
  | atEnd cursor atEnd =>
      have shifted := Cursor.significant?_shift counted origin
      rw [atEnd] at shifted
      rw [stream_of_none shifted, stream_of_none atEnd]
      rfl
  | onward cursor token length next ih =>
      have shifted := Cursor.significant?_shift counted origin
      rw [next] at shifted
      rw [stream_of_some shifted, stream_of_some next, Cursor.shift_skip counted,
        inFile_shift (Cursor.skip_counted counted length), Cursor.shift_skip counted,
        Visit.shift_length, Token.shift_keyword?, ih _ (Cursor.skip_counted counted _),
        Visit.shift_found, List.map_append]

end Finding
end Survey
