import Survey.Proofs.Moving
import Survey.Proofs.Spans

set_option autoImplicit false

/-!
# Rebased inventories

The inventory of a text that really starts at some place of a longer one is moved there
record by record. Moving the findings first and writing them down afterwards comes to
the same. The places of a surveyed text are true, so each of them can be rebased.
-/

namespace Survey

def Span.shift (span : Span) (origin : Position) : Span where
  start := span.start.shift origin
  stop := span.stop.shift origin
  ordered := Nat.add_le_add_left span.ordered origin.offset

def FunctionRecord.shift (function : FunctionRecord) (origin : Position) : FunctionRecord :=
  { function with span := function.span.shift origin }

def TypeRecord.shift (type : TypeRecord) (origin : Position) : TypeRecord :=
  { type with
    span? := type.span?.map (·.shift origin)
    methods := type.methods.map (·.shift origin) }

def EnumRecord.shift (enum : EnumRecord) (origin : Position) : EnumRecord :=
  { enum with span := enum.span.shift origin }

def TraitRecord.shift (record : TraitRecord) (origin : Position) : TraitRecord :=
  { record with span? := record.span?.map (·.shift origin) }

def TestRecord.shift (test : TestRecord) (origin : Position) : TestRecord :=
  { test with span := test.span.shift origin }

/-- The same roster with every record changed. -/
def Roster.map {α : Type} (change : α → α) (roster : Roster α) : Roster α :=
  ⟨roster.records.map change, roster.places⟩

/-- The same inventory, of a text that starts at `origin`. -/
def Inventory.shift (inventory : Inventory) (origin : Position) : Inventory where
  functions := inventory.functions.map (·.shift origin)
  types := inventory.types.map (·.shift origin)
  enums := inventory.enums.map (·.shift origin)
  traits := inventory.traits.map (·.shift origin)
  tests := inventory.tests.map (·.shift origin)
  unsafeBlocks := inventory.unsafeBlocks.map (·.shift origin)
  testModuleLine? := inventory.testModuleLine?.map (origin.line + · - 1)
  length := inventory.length

namespace Roster

variable {α : Type} {move : α → α} {fresh : String → α}

theorem map_modify {change changeMoved : α → α} {records : List α}
    (changes : ∀ record ∈ records, changeMoved (move record) = move (change record)) (place : Nat) :
    (records.map move).modify place changeMoved = (records.modify place change).map move := by
  induction records generalizing place with
  | nil => rw [List.modify_nil, List.map_nil, List.modify_nil]
  | cons record rest ih =>
      rw [List.forall_mem_cons] at changes
      cases place with
      | zero => exact congrArg (· :: rest.map move) changes.1
      | succ place => exact congrArg (move record :: ·) (ih changes.2 place)

theorem map_touch {change changeMoved : α → α} {name : String}
    (freshMoved : move (fresh name) = fresh name)
    (changes : ∀ record, changeMoved (move record) = move (change record)) (roster : Roster α) :
    (roster.map move).touch name (fresh name) changeMoved =
      (roster.touch name (fresh name) change).map move := by
  have modified : ∀ (records : List α) (place : Nat),
      (records.map move).modify place changeMoved = (records.modify place change).map move :=
    fun _ => map_modify fun record _ => changes record
  have samePlace : (roster.map move).place? name = roster.place? name := rfl
  unfold touch enter
  rw [samePlace]
  cases roster.place? name with
  | some place =>
      unfold update map
      rw [modified]
  | none =>
      unfold update map
      dsimp only
      rw [← modified, List.map_append, List.map_singleton, freshMoved, List.length_map]

/-- An edit that was moved, in a roster that was moved. -/
theorem map_edit (move : α → α) (fresh : String → α)
    {edit? editMoved? : Option (String × (α → α))}
    (freshMoved : ∀ name, move (fresh name) = fresh name)
    (changes : (edit? = none ∧ editMoved? = none) ∨
      ∃ name change changeMoved, edit? = some (name, change) ∧
        editMoved? = some (name, changeMoved) ∧
        ∀ record, changeMoved (move record) = move (change record))
    (roster : Roster α) :
    (roster.map move).edit fresh editMoved? = (roster.edit fresh edit?).map move := by
  rcases changes with ⟨rfl, rfl⟩ | ⟨name, change, changeMoved, rfl, rfl, changes⟩
  · rfl
  · exact map_touch (freshMoved name) changes roster

end Roster

theorem Extent.span_shift (extent : Extent) (origin : Position) :
    (extent.shift origin).span.toOption = extent.span.toOption.map (·.shift origin) := by
  unfold span Span.between shift
  by_cases ordered : extent.start.offset ≤ extent.stop.offset
  · have moved : (extent.start.shift origin).offset ≤ (extent.stop.shift origin).offset :=
      Nat.add_le_add_left ordered _
    rw [dif_pos ordered, dif_pos moved]
    rfl
  · have moved : ¬ (extent.start.shift origin).offset ≤ (extent.stop.shift origin).offset :=
      fun below => ordered (Nat.le_of_add_le_add_left below)
    rw [dif_neg ordered, dif_neg moved]
    rfl

theorem FunctionDraft.record_toOption (draft : FunctionDraft) :
    draft.record.toOption = draft.extent.span.toOption.map fun span =>
      ⟨draft.name, draft.parameters, draft.result, span, draft.owner⟩ := by
  unfold record
  cases draft.extent.span <;> rfl

theorem FunctionDraft.record_shift (draft : FunctionDraft) (origin : Position) :
    (draft.shift origin).record.toOption = draft.record.toOption.map (·.shift origin) := by
  rw [record_toOption, record_toOption]
  unfold shift
  dsimp only
  rw [Extent.span_shift, Option.map_map, Option.map_map]
  rfl

namespace Finding

variable (finding : Finding) (origin : Position)

theorem function?_shift :
    (finding.shift origin).function? = finding.function?.map (·.shift origin) := by
  cases finding with
  | function draft blocks => exact draft.record_shift origin
  | _ => rfl

theorem freeFunction?_shift :
    (finding.shift origin).freeFunction? = finding.freeFunction?.map (·.shift origin) := by
  unfold freeFunction?
  rw [function?_shift, Option.filter_map]
  rfl

theorem enum?_shift : (finding.shift origin).enum? = finding.enum?.map (·.shift origin) := by
  cases finding with
  | enum name variants extent =>
      unfold shift enum?
      dsimp only
      rw [Extent.span_shift, Option.map_map, Option.map_map]
      rfl
  | _ => rfl

theorem test?_shift : (finding.shift origin).test? = finding.test?.map (·.shift origin) := by
  cases finding with
  | test name extent =>
      unfold shift test?
      dsimp only
      rw [Extent.span_shift, Option.map_map, Option.map_map]
      rfl
  | _ => rfl

theorem block?_shift : (finding.shift origin).block? = finding.block?.map (·.shift origin) := by
  cases finding with
  | unsafeBlock extent => exact extent.span_shift origin
  | _ => rfl

theorem testModule?_shift :
    (finding.shift origin).testModule? = finding.testModule?.map (origin.line + · - 1) := by
  cases finding <;> rfl

theorem typeEdit?_shift :
    (finding.typeEdit? = none ∧ (finding.shift origin).typeEdit? = none) ∨
      ∃ name change changeMoved, finding.typeEdit? = some (name, change) ∧
        (finding.shift origin).typeEdit? = some (name, changeMoved) ∧
        ∀ record : TypeRecord,
          changeMoved (record.shift origin) = (change record).shift origin := by
  cases finding with
  | function draft blocks =>
      unfold shift typeEdit?
      dsimp only
      rw [draft.record_shift]
      cases draft.record.toOption with
      | none => exact .inl ⟨rfl, rfl⟩
      | some function =>
          cases owned : function.owner.type? with
          | none => exact .inl ⟨by simp [owned], by simp [FunctionRecord.shift, owned]⟩
          | some name =>
              refine .inr ⟨name, _, _, by simp [owned]; rfl,
                by simp [FunctionRecord.shift, owned]; rfl, ?_⟩
              intro record
              simp [TypeRecord.addMethod, TypeRecord.shift, FunctionRecord.shift]
  | struct name extent =>
      unfold shift typeEdit?
      dsimp only
      rw [extent.span_shift]
      cases extent.span.toOption with
      | none => exact .inl ⟨rfl, rfl⟩
      | some span =>
          refine .inr ⟨name, _, _, rfl, rfl, ?_⟩
          intro record
          cases record with
          | mk known span? methods traits => cases span? <;> rfl
  | target name traitName? =>
      cases traitName? with
      | none => exact .inr ⟨name, _, _, rfl, rfl, fun _ => rfl⟩
      | some traitName =>
          refine .inr ⟨name, _, _, rfl, rfl, ?_⟩
          intro record
          unfold TypeRecord.addTrait
          by_cases known : traitName ∈ record.traits
          · rw [if_pos known, if_pos (show traitName ∈ (record.shift origin).traits from known)]
          · rw [if_neg known, if_neg (show ¬ traitName ∈ (record.shift origin).traits from known)]
            rfl
  | _ => exact .inl ⟨rfl, rfl⟩

theorem traitEdit?_shift :
    (finding.traitEdit? = none ∧ (finding.shift origin).traitEdit? = none) ∨
      ∃ name change changeMoved, finding.traitEdit? = some (name, change) ∧
        (finding.shift origin).traitEdit? = some (name, changeMoved) ∧
        ∀ record : TraitRecord,
          changeMoved (record.shift origin) = (change record).shift origin := by
  cases finding with
  | trait name extent =>
      unfold shift traitEdit?
      dsimp only
      rw [extent.span_shift]
      cases extent.span.toOption with
      | none => exact .inl ⟨rfl, rfl⟩
      | some span =>
          refine .inr ⟨name, _, _, rfl, rfl, ?_⟩
          intro record
          cases record with
          | mk known span? => cases span? <;> rfl
  | target name traitName? =>
      cases traitName? with
      | none => exact .inl ⟨rfl, rfl⟩
      | some traitName => exact .inr ⟨traitName, _, _, rfl, rfl, fun _ => rfl⟩
  | _ => exact .inl ⟨rfl, rfl⟩

end Finding

namespace Inventory

theorem note_shift (inventory : Inventory) (finding : Finding) (origin : Position) :
    (inventory.shift origin).note (finding.shift origin) =
      (inventory.note finding).shift origin := by
  have types : (inventory.types.map (·.shift origin)).edit TypeRecord.named
      (finding.shift origin).typeEdit? =
        (inventory.types.edit TypeRecord.named finding.typeEdit?).map (·.shift origin) :=
    Roster.map_edit (·.shift origin) TypeRecord.named (fun _ => rfl)
      (finding.typeEdit?_shift origin) inventory.types
  have traits : (inventory.traits.map (·.shift origin)).edit TraitRecord.named
      (finding.shift origin).traitEdit? =
        (inventory.traits.edit TraitRecord.named finding.traitEdit?).map (·.shift origin) :=
    Roster.map_edit (·.shift origin) TraitRecord.named (fun _ => rfl)
      (finding.traitEdit?_shift origin) inventory.traits
  unfold note shift
  dsimp only
  rw [types, traits, Finding.freeFunction?_shift, Finding.enum?_shift, Finding.test?_shift,
    Finding.block?_shift, Finding.testModule?_shift]
  simp only [List.map_append, Option.toList_map, Option.orElse_eq_or, Option.map_or,
    Option.orElse_eq_orElse]

/-- Findings may be moved before they are written down or afterwards. -/
theorem ofFindings_shift (found : List Finding) (origin : Position) :
    ofFindings (found.map (Finding.shift origin)) = (ofFindings found).shift origin := by
  induction found using List.reverseRecOn with
  | nil => rfl
  | append_singleton found finding ih =>
      rw [List.map_append, List.map_singleton, ofFindings_concat, ofFindings_concat, ih, note_shift]

end Inventory

/-! ### Marks of test modules -/

namespace Finding

variable {cursor : Cursor} {start : Position}

/-- The lines of the marks of test modules. -/
def moduleLines (found : List Finding) : List Nat := found.filterMap testModule?

theorem moduleLines_append (first second : List Finding) :
    moduleLines (first ++ second) = moduleLines first ++ moduleLines second :=
  List.filterMap_append

theorem moduleLines_cons {finding : Finding} (noMark : finding.testModule? = none)
    (rest : List Finding) : moduleLines (finding :: rest) = moduleLines rest :=
  List.filterMap_cons_none noMark

theorem moduleLines_afterUnsafe : moduleLines (afterUnsafe cursor).found = [] := by
  unfold afterUnsafe
  dsimp only
  split
  · rfl
  · split <;> rfl

theorem moduleLines_unsafeIn (cursor : Cursor) : moduleLines (unsafeIn cursor) = [] := by
  induction cursor using Cursor.significant_induction with
  | atEnd cursor atEnd =>
      rw [unsafeIn_of_none atEnd]
      rfl
  | onward cursor token length next ih =>
      have first : moduleLines (inBody token (cursor.skip length)).found = [] := by
        unfold inBody
        split
        · rfl
        · split
          · exact moduleLines_afterUnsafe
          · rfl
      rw [unsafeIn_of_some next, moduleLines_append, first, ih]
      rfl

theorem moduleLines_afterFunction (owner : Owner) :
    moduleLines (afterFunction owner start cursor).found = [] := by
  unfold afterFunction
  split
  · rfl
  · dsimp only
    rw [moduleLines_append]
    have notice : ∀ ending : HeadEnd, moduleLines
        (if ending = .endOfText then [signatureAtEnd start.line] else []) = [] := by
      intro ending
      split <;> rfl
    rw [notice, List.nil_append]
    split
    · rfl
    · unfold ofFunction
      rw [moduleLines_append, moduleLines_unsafeIn]
      rfl

theorem moduleLines_items (owner : Owner) (cursor : Cursor) :
    moduleLines (items owner cursor).found = [] := by
  induction cursor using Cursor.significant_induction with
  | atEnd cursor atEnd =>
      rw [items_of_none atEnd]
      rfl
  | onward cursor token length next ih =>
      have first : moduleLines (amongItems owner token (cursor.skip length)).found = [] := by
        unfold amongItems
        split
        · rfl
        · rfl
        · rfl
        · split
          · exact moduleLines_afterFunction owner
          · rfl
      by_cases closes : token.tag = .closeBrace
      · rw [items_of_close next closes]
        rfl
      · rw [items_of_some next closes, moduleLines_append, first, ih]
        rfl

theorem moduleLines_afterKeyword (keyword : Keyword) :
    moduleLines (afterKeyword keyword start cursor).found = [] := by
  cases keyword with
  | function => exact moduleLines_afterFunction .none
  | struct =>
      unfold afterKeyword afterStruct
      dsimp only
      split <;> rfl
  | enum =>
      unfold afterKeyword afterEnum
      dsimp only
      split
      · rfl
      · generalize (if (Head.read [.angle] cursor.rest).ending = .brace then
          VariantList.read (cursor.rest.drop (Head.read [.angle] cursor.rest).length)
          else ⟨[], 0, true⟩ : VariantList) = body
        rw [moduleLines_append]
        split <;> rfl
  | trait =>
      unfold afterKeyword afterTrait
      dsimp only
      split
      · rfl
      · split
        · rfl
        · rw [moduleLines_append, moduleLines_cons rfl, moduleLines_items]
          rfl
  | implementation =>
      unfold afterKeyword afterImplementation
      dsimp only
      split
      · rfl
      · rfl
      · split
        · rfl
        · rw [moduleLines_append, moduleLines_cons rfl, moduleLines_items]
          rfl
  | unsafeMark => exact moduleLines_afterUnsafe
  | macroRules => rfl

theorem moduleLines_afterTestMark : moduleLines (afterTestMark start cursor).found = [] := by
  unfold afterTestMark
  split
  · rfl
  · dsimp only
    rw [moduleLines_append, moduleLines_unsafeIn]
    rfl

/-- Only the token itself may mark a test module. -/
theorem moduleLines_inFile (config : Config) (inDefinition : Bool) (token : Token)
    (cursor : Cursor) :
    ∀ line ∈ moduleLines (inFile config inDefinition token cursor).found,
      line = token.start.line := by
  have unmarked : ∀ found, moduleLines found = [] →
      ∀ line ∈ moduleLines found, line = token.start.line := by
    intro found none line member
    rw [none] at member
    cases member
  unfold inFile
  split
  · exact unmarked _ rfl
  · unfold afterHash
    split
    · exact unmarked _ rfl
    · split
      · exact fun line member => List.mem_singleton.mp member
      · split
        · exact unmarked _ moduleLines_afterTestMark
        · exact unmarked _ rfl
  · split
    · exact unmarked _ (moduleLines_afterKeyword _)
    · exact unmarked _ rfl

/-- The line of a mark is the line of a true place. -/
theorem moduleLines_stream {text : List Char} (config : Config) (inDefinition : Bool)
    (stands : cursor.StandsIn text) :
    ∀ line ∈ moduleLines (stream config inDefinition cursor),
      ∃ place : Position, place.IsTrueIn text ∧ place.line = line := by
  induction cursor using Cursor.significant_induction generalizing inDefinition with
  | atEnd cursor atEnd =>
      intro line member
      rw [stream_of_none atEnd] at member
      cases member
  | onward cursor token length next ih =>
      intro line member
      rw [stream_of_some next, moduleLines_append, List.mem_append] at member
      rcases member with isFirst | isLater
      · have marked := moduleLines_inFile config inDefinition token (cursor.skip length) line isFirst
        exact ⟨token.start, (behind_significant stands next).start_isTrue, marked.symm⟩
      · exact ih _ _ (stands.skip _) line isLater

end Finding

/-- Every place in the inventory can be rebased, and is then where the moved inventory has
it. For the line of a test module this is the place of its mark. -/
structure Inventory.Rebases (inventory : Inventory) (origin : Position) : Prop where
  spans : ∀ span ∈ inventory.spans,
    span.start.rebase origin = .ok (span.shift origin).start ∧
      span.stop.rebase origin = .ok (span.shift origin).stop
  testModule : ∀ line, inventory.testModuleLine? = some line →
    ∃ mark : Position, mark.line = line ∧ mark.rebase origin = .ok (mark.shift origin) ∧
      (inventory.shift origin).testModuleLine? = some (mark.shift origin).line

theorem Inventory.ofFindings_rebases (config : Config) {before piece : List Char}
    (small : Text.byteLength (before ++ piece) ≤ 2 ^ 32 - 3) :
    (ofFindings (Finding.ofText config piece)).Rebases (.ofText before) where
  spans := by
    have arranged := Finding.ofText_arranged config piece
    apply spans_of_outlines fun extent =>
      extent.start.rebase (.ofText before) = .ok (extent.start.shift (.ofText before)) ∧
        extent.stop.rebase (.ofText before) = .ok (extent.stop.shift (.ofText before))
    intro outline member
    have lies := arranged.liesIn outline member
    exact ⟨lies.start_isTrue.rebase small, lies.stop_isTrue.rebase small⟩
  testModule line marked := by
    have found := marked
    rw [ofFindings_testModuleLine?, ← List.head?_filterMap] at found
    obtain ⟨mark, isTrue, rfl⟩ := Finding.moduleLines_stream config false
      (Cursor.ofText_standsIn piece) line (List.mem_of_head? found)
    refine ⟨mark, rfl, isTrue.rebase small, ?_⟩
    unfold shift
    rw [marked]
    rfl

end Survey
