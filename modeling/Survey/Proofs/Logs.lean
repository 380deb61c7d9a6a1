import Survey.Input.Surveying
import Survey.Proofs.Consistency
import Survey.Proofs.Decoding

set_option autoImplicit false

/-!
# The log tells what the inventory holds

Every finding that is written down has its entry in the log, and nothing else has an entry
like it. So the entries of a kind and the records of a list come from the same findings, in
the same order where the list keeps it. The totals in the entries for traits and
implementations add up because each of them counts the functions that were found in one
body, and no body lies in another.
-/

namespace Survey

namespace Finding

/-! ### Findings as records -/

/-- The extent of the finding, if it has one, does not end before it starts. -/
def IsOrdered (finding : Finding) : Prop :=
  ∀ outline, finding.outline? = some outline →
    outline.extent.start.offset ≤ outline.extent.stop.offset

theorem ofText_isOrdered (config : Config) (text : List Char) :
    ∀ finding ∈ ofText config text, finding.IsOrdered := by
  intro finding member outline outlined
  have outlineMember : outline ∈ outlines (ofText config text) :=
    List.mem_filterMap.mpr ⟨finding, member, outlined⟩
  exact Nat.le_of_lt ((ofText_arranged config text).liesIn outline outlineMember).start_lt

/-! ### Totals -/

/-- Whom a function belongs to. -/
def owner? : Finding → Option Owner
  | .function draft _ => some draft.owner
  | _ => none

/-- How many functions the body of an implementation was found to hold. -/
def methodTotal? : Finding → Option Nat
  | .implementationBody _ _ methods => some methods
  | _ => none

/-- How many functions the body of a trait was found to hold. -/
def traitTotal? : Finding → Option Nat
  | .traitBody _ _ functions => some functions
  | _ => none

/-- The totals of bodies add up to the functions that belong to something. -/
structure Tallied (found : List Finding) : Prop where
  methods : (found.filterMap methodTotal?).sum =
    (found.filterMap owner?).countP fun owner => owner.type?.isSome
  traitFunctions : (found.filterMap traitTotal?).sum =
    (found.filterMap owner?).countP fun owner => owner.trait?.isSome && owner.type?.isNone

theorem Tallied.append {first second : List Finding} (before : Tallied first)
    (after : Tallied second) : Tallied (first ++ second) where
  methods := by
    simp only [List.filterMap_append, List.sum_append, List.countP_append, before.methods,
      after.methods]
  traitFunctions := by
    simp only [List.filterMap_append, List.sum_append, List.countP_append, before.traitFunctions,
      after.traitFunctions]

/-- Among items there are no totals, and all functions have the same owner. -/
theorem filterMap_of_plain {owner : Owner} {found : List Finding}
    (all : ∀ finding ∈ found, finding.IsPlain owner) :
    found.filterMap methodTotal? = [] ∧ found.filterMap traitTotal? = [] ∧
      found.filterMap owner? = List.replicate (found.countP isFunction) owner := by
  induction found with
  | nil => exact ⟨rfl, rfl, rfl⟩
  | cons finding found ih =>
      rw [List.forall_mem_cons] at all
      obtain ⟨methods, functions, owners⟩ := ih all.2
      cases finding with
      | function draft blocks =>
          obtain rfl : draft.owner = owner := all.1
          refine ⟨methods, functions, ?_⟩
          have first : (function draft blocks).owner? = some draft.owner := rfl
          rw [List.filterMap_cons_some first, owners, List.countP_cons_of_pos rfl,
            List.replicate_succ]
      | traitBody | implementationBody => exact absurd all.1 id
      | _ => exact ⟨methods, functions, owners⟩

theorem Batch.tallied {found : List Finding} (batch : Batch found) : Tallied found := by
  cases batch with
  | plain all =>
      obtain ⟨methods, functions, owners⟩ := filterMap_of_plain all
      constructor
      · rw [methods, owners, List.countP_replicate]
        rfl
      · rw [functions, owners, List.countP_replicate]
        rfl
  | trait extent line all =>
      obtain ⟨methods, functions, owners⟩ := filterMap_of_plain all
      constructor
      · simp [List.filterMap_cons, methods, owners, List.countP_replicate, methodTotal?, owner?]
      · simp [List.filterMap_cons, functions, owners, List.countP_replicate, traitTotal?, owner?]
  | implementation line all =>
      obtain ⟨methods, functions, owners⟩ := filterMap_of_plain all
      constructor
      · simp [List.filterMap_cons, methods, owners, List.countP_replicate, methodTotal?, owner?]
      · simp [List.filterMap_cons, functions, owners, List.countP_replicate, traitTotal?, owner?]

theorem stream_tallied (config : Config) (inDefinition : Bool) (cursor : Cursor) :
    Tallied (stream config inDefinition cursor) := by
  induction cursor using Cursor.significant_induction generalizing inDefinition with
  | atEnd cursor atEnd =>
      rw [stream_of_none atEnd]
      exact ⟨rfl, rfl⟩
  | onward cursor token length next ih =>
      rw [stream_of_some next]
      exact (inFile_batch config inDefinition token _).tallied.append (ih _ _)

theorem map_owner_function? {finding : Finding} (ordered : finding.IsOrdered) :
    finding.function?.map FunctionRecord.owner = finding.owner? := by
  cases finding with
  | function draft blocks =>
      have spanned : draft.extent.span = .ok ⟨_, _, ordered _ rfl⟩ := Span.between_of_le _
      rw [function?, FunctionDraft.record, spanned]
      rfl
  | _ => rfl

end Finding

/-! ### Functions of an inventory -/

/-- An edit that adds the same to any record adds that to all of them together. -/
theorem Roster.Indexed.flatMap_edit_perm {α β : Type} {key : α → String} {roster : Roster α}
    (indexed : roster.Indexed key) {fresh : String → α} {part : α → List β}
    (empty : ∀ name, part (fresh name) = []) {edit? : Option (String × (α → α))}
    {extra : List β} (nothing : edit? = none → extra = [])
    (grows : ∀ name change, edit? = some (name, change) →
      ∀ record, part (change record) = part record ++ extra) :
    ((roster.edit fresh edit?).records.flatMap part).Perm
      (roster.records.flatMap part ++ extra) := by
  cases edit? with
  | none =>
      rw [nothing rfl, List.append_nil]
      exact List.Perm.refl _
  | some pair =>
      obtain ⟨name, change⟩ := pair
      have growth := grows name change rfl
      rw [edit_some]
      rcases indexed.touch_cases name (fresh name) change with
        ⟨before, record, after, split, -, records⟩ | ⟨-, records⟩
      · rw [records, split, List.flatMap_append, List.flatMap_append, List.flatMap_cons,
          List.flatMap_cons, growth, List.append_assoc, List.append_assoc, List.append_assoc]
        exact (List.perm_append_comm.append_left _).append_left _
      · rw [records, List.flatMap_append, List.flatMap_singleton, growth, empty, List.nil_append]

/-- The type that a method is added to is the one that is mentioned. -/
theorem Finding.method?_eq (finding : Finding) :
    finding.method? = finding.typeEdit?.bind fun edit => finding.methodOf? edit.1 := by
  cases finding with
  | function draft blocks =>
      unfold method? methodOf? typeEdit?
      cases drafted : draft.record.toOption with
      | none => simp [drafted]
      | some function =>
          cases owner : function.owner.type? with
          | none => simp [drafted, owner, Option.filter]
          | some typeName => simp [drafted, owner, Option.filter]
  | struct name extent =>
      change none = (extent.span.toOption.map _).bind fun _ => none
      rw [Option.bind_fun_none]
  | target name traitName? => cases traitName? <;> rfl
  | _ => rfl

theorem Finding.filterMap_freeFunction? (found : List Finding) :
    found.filterMap freeFunction? =
      (found.filterMap function?).filter fun function => function.owner.type?.isNone :=
  List.filter_filterMap.symm

theorem Finding.filterMap_method? (found : List Finding) :
    found.filterMap method? =
      (found.filterMap function?).filter fun function => function.owner.type?.isSome :=
  List.filter_filterMap.symm

namespace Inventory

theorem ofFindings_methods_perm (found : List Finding) :
    (ofFindings found).methods.Perm (found.filterMap Finding.method?) := by
  induction found using List.reverseRecOn with
  | nil => exact List.Perm.refl _
  | append_singleton found finding ih =>
      have step : ((ofFindings found).note finding).methods.Perm
          ((ofFindings found).methods ++ finding.method?.toList) := by
        rw [Finding.method?_eq]
        apply (ofFindings_types_indexed found).flatMap_edit_perm
        · intro name
          rfl
        · intro unedited
          rw [unedited]
          rfl
        · intro name change edited record
          rw [typeEdit?_methods edited, edited]
          rfl
      have last : [finding].filterMap Finding.method? = finding.method?.toList := by
        rw [List.filterMap_cons]
        cases finding.method? <;> rfl
      rw [ofFindings_concat, List.filterMap_append, last]
      exact step.trans (ih.append_right _)

/-- Every function that was found is recorded once. -/
theorem ofFindings_allFunctions_perm (found : List Finding) :
    (ofFindings found).allFunctions.Perm (found.filterMap Finding.function?) := by
  unfold allFunctions
  rw [ofFindings_functions]
  refine ((ofFindings_methods_perm found).append_left _).trans ?_
  have parts := List.filter_append_perm (fun function : FunctionRecord =>
    function.owner.type?.isNone) (found.filterMap Finding.function?)
  simp only [Option.not_isNone] at parts
  rwa [Finding.filterMap_freeFunction?, Finding.filterMap_method?]

variable {found : List Finding}

theorem owners_of_ordered (ordered : ∀ finding ∈ found, finding.IsOrdered) :
    found.filterMap Finding.owner? =
      (found.filterMap Finding.function?).map FunctionRecord.owner := by
  rw [List.map_filterMap]
  apply List.filterMap_congr
  intro finding member
  exact (Finding.map_owner_function? (ordered finding member)).symm

theorem ofFindings_length_methods (ordered : ∀ finding ∈ found, finding.IsOrdered) :
    (ofFindings found).methods.length =
      (found.filterMap Finding.owner?).countP fun owner => owner.type?.isSome := by
  rw [(ofFindings_methods_perm found).length_eq, Finding.filterMap_method?,
    ← List.countP_eq_length_filter, owners_of_ordered ordered, List.countP_map]
  rfl

theorem ofFindings_countP_traitFunctions (ordered : ∀ finding ∈ found, finding.IsOrdered) :
    ((ofFindings found).functions.countP fun function => function.owner.trait?.isSome) =
      (found.filterMap Finding.owner?).countP fun owner =>
        owner.trait?.isSome && owner.type?.isNone := by
  rw [ofFindings_functions, Finding.filterMap_freeFunction?, List.countP_filter,
    owners_of_ordered ordered, List.countP_map]
  rfl

end Inventory

/-! ### Entries -/

namespace LogEntry

/-- What a field of the entry holds. -/
def field? (entry : LogEntry) (name : String) : Option LogValue := entry.fields.lookup name

/-- The number in a field of the entry, or zero. -/
def number (name : String) (entry : LogEntry) : Nat :=
  match entry.field? name with
  | some (.number value) => value
  | _ => 0

/-- Is this the message of the entry? -/
def isAbout (message : String) (entry : LogEntry) : Bool :=
  entry.field? "message" == some (.text message)

/-- The events tell of what the inventory holds: of blocks, enumerations and tests one by one
in their order, of functions in some order, and of the functions in bodies by their number. -/
structure Agree (events : List LogEntry) (inventory : Inventory) : Prop where
  unsafeBlocks : (events.filter (isAbout "unsafe block")).map (·.field? "line") =
    inventory.unsafeBlocks.map fun block => some (.number block.start.line)
  enums : ((events.filter (isAbout "enum")).map fun entry =>
      (entry.field? "item", entry.field? "line", entry.field? "variants")) =
    inventory.enums.map fun enum => (some (.text enum.name),
      some (.number enum.span.start.line), some (.number enum.variants.length))
  tests : ((events.filter (isAbout "test")).map fun entry =>
      (entry.field? "item", entry.field? "line")) =
    inventory.tests.map fun test => (some (.text test.name), some (.number test.span.start.line))
  functions : ((events.filter (isAbout "function")).map fun entry =>
      (entry.field? "item", entry.field? "line")).Perm
    (inventory.allFunctions.map fun function =>
      (some (.text function.name), some (.number function.span.start.line)))
  methods : ((events.filter (isAbout "impl")).map (number "methods")).sum = inventory.methods.length
  traitFunctions : ((events.filter (isAbout "trait")).map (number "functions")).sum =
    inventory.functions.countP fun function => function.owner.trait?.isSome

theorem Agree.withLength {events : List LogEntry} {inventory : Inventory}
    (agree : Agree events inventory) (length : Nat) : Agree events (inventory.withLength length) :=
  ⟨agree.unsafeBlocks, agree.enums, agree.tests, agree.functions, agree.methods,
    agree.traitFunctions⟩

/-- The entries of one message, seen one by one, are what the findings are seen as. -/
theorem map_filter_isAbout {β : Type} {found : List Finding} {message : String}
    {view : LogEntry → β} {part : Finding → Option β}
    (each : ∀ finding ∈ found,
      ((ofFinding? finding).filter (isAbout message)).map view = part finding) :
    ((found.filterMap ofFinding?).filter (isAbout message)).map view = found.filterMap part := by
  rw [List.filter_filterMap, List.map_filterMap]
  exact List.filterMap_congr each

/-! Each kind of record has its own message, and no other finding has an entry with it. -/

variable {finding : Finding}

theorem ofFinding?_block (ordered : finding.IsOrdered) :
    ((ofFinding? finding).filter (isAbout "unsafe block")).map (·.field? "line") =
      finding.block?.map fun block => some (.number block.start.line) := by
  cases finding with
  | unsafeBlock extent =>
      have spanned : extent.span = .ok ⟨_, _, ordered _ rfl⟩ := Span.between_of_le _
      rw [Finding.block?, spanned]
      rfl
  | _ => rfl

theorem ofFinding?_enum (ordered : finding.IsOrdered) :
    (((ofFinding? finding).filter (isAbout "enum")).map fun entry =>
        (entry.field? "item", entry.field? "line", entry.field? "variants")) =
      finding.enum?.map fun enum => (some (.text enum.name),
        some (.number enum.span.start.line), some (.number enum.variants.length)) := by
  cases finding with
  | enum name variants extent =>
      have spanned : extent.span = .ok ⟨_, _, ordered _ rfl⟩ := Span.between_of_le _
      rw [Finding.enum?, spanned]
      rfl
  | _ => rfl

theorem ofFinding?_test (ordered : finding.IsOrdered) :
    (((ofFinding? finding).filter (isAbout "test")).map fun entry =>
        (entry.field? "item", entry.field? "line")) =
      finding.test?.map fun test =>
        (some (.text test.name), some (.number test.span.start.line)) := by
  cases finding with
  | test name extent =>
      have spanned : extent.span = .ok ⟨_, _, ordered _ rfl⟩ := Span.between_of_le _
      rw [Finding.test?, spanned]
      rfl
  | _ => rfl

theorem ofFinding?_function (ordered : finding.IsOrdered) :
    (((ofFinding? finding).filter (isAbout "function")).map fun entry =>
        (entry.field? "item", entry.field? "line")) =
      finding.function?.map fun function =>
        (some (.text function.name), some (.number function.span.start.line)) := by
  cases finding with
  | function draft blocks =>
      have spanned : draft.extent.span = .ok ⟨_, _, ordered _ rfl⟩ := Span.between_of_le _
      rw [Finding.function?, FunctionDraft.record, spanned]
      rfl
  | _ => rfl

theorem ofFinding?_methodTotal (finding : Finding) :
    ((ofFinding? finding).filter (isAbout "impl")).map (number "methods") =
      finding.methodTotal? := by
  cases finding <;> rfl

theorem ofFinding?_traitTotal (finding : Finding) :
    ((ofFinding? finding).filter (isAbout "trait")).map (number "functions") =
      finding.traitTotal? := by
  cases finding <;> rfl

/-- No finding is logged like the start or the end of a survey, or like an issue. -/
theorem ofFinding?_inside {entry : LogEntry} (logged : ofFinding? finding = some entry) :
    entry.level ≠ .warning ∧ entry.isOpening = false ∧ entry.isAbout "scan complete" = false := by
  cases finding with
  | trait | target | testModule => cases logged
  | _ =>
      cases logged
      exact ⟨nofun, rfl, rfl⟩

theorem agree_of_ordered {found : List Finding} (ordered : ∀ finding ∈ found, finding.IsOrdered)
    (tallied : Finding.Tallied found) :
    Agree (found.filterMap ofFinding?) (.ofFindings found) where
  unsafeBlocks := by
    rw [Inventory.ofFindings_unsafeBlocks, List.map_filterMap]
    exact map_filter_isAbout fun finding member => ofFinding?_block (ordered finding member)
  enums := by
    rw [Inventory.ofFindings_enums, List.map_filterMap]
    exact map_filter_isAbout fun finding member => ofFinding?_enum (ordered finding member)
  tests := by
    rw [Inventory.ofFindings_tests, List.map_filterMap]
    exact map_filter_isAbout fun finding member => ofFinding?_test (ordered finding member)
  functions := by
    have recorded := ((Inventory.ofFindings_allFunctions_perm found).map fun function =>
      (some (LogValue.text function.name), some (LogValue.number function.span.start.line))).symm
    rw [List.map_filterMap] at recorded
    rwa [map_filter_isAbout fun finding member => ofFinding?_function (ordered finding member)]
  methods := by
    rw [map_filter_isAbout fun finding _ => ofFinding?_methodTotal finding, tallied.methods,
      Inventory.ofFindings_length_methods ordered]
  traitFunctions := by
    rw [map_filter_isAbout fun finding _ => ofFinding?_traitTotal finding,
      tallied.traitFunctions, Inventory.ofFindings_countP_traitFunctions ordered]

/-- What stands around the events of a survey: a warning for each issue of the input and the
entry that opens the survey before them, and behind them the entry that counts what the
inventory holds. -/
structure Framed (decoded : Encoding.Decoded) (inventory : Inventory)
    (warnings : List LogEntry) (opening : LogEntry) (events : List LogEntry)
    (closing : LogEntry) : Prop where
  warned : (warnings.map fun entry => (entry.level, entry.isOpening, entry.field? "kind",
      entry.field? "offset", entry.field? "len")) =
    decoded.issues.map fun issue => (.warning, false, some (.text issue.kind.name),
      some (.number issue.offset), some (.number issue.length))
  opened : opening.level = .debug ∧ opening.isOpening = true ∧
    opening.field? "len" = some (.number (Text.byteLength decoded.text.toList))
  inside : ∀ entry ∈ events, entry.level ≠ .warning ∧ entry.isOpening = false ∧
    entry.isAbout "scan complete" = false
  closed : closing.level = .debug ∧ closing.isOpening = false ∧
    closing.isAbout "scan complete" = true
  counted : closing.field? "functions" = some (.number inventory.functions.length) ∧
    closing.field? "types" = some (.number inventory.types.records.length) ∧
    closing.field? "enums" = some (.number inventory.enums.length) ∧
    closing.field? "traits" = some (.number inventory.traits.records.length) ∧
    closing.field? "tests" = some (.number inventory.tests.length) ∧
    closing.field? "unsafe_blocks" = some (.number inventory.unsafeBlocks.length)

end LogEntry

theorem surveyBytes_of_survey {config : Config} {bytes : List UInt8} {inventory : Inventory}
    (surveyed : survey config (Encoding.decode bytes).text = .ok inventory) :
    surveyBytes config bytes = .ok inventory := by
  unfold surveyBytes
  rw [surveyed]
  rfl

theorem surveyLog_eq (config : Config) (decoded : Encoding.Decoded)
    (small : Text.byteLength decoded.text.toList ≤ 2 ^ 32 - 3) {inventory : Inventory}
    (surveyed : survey config decoded.text = .ok inventory) :
    surveyLog config decoded = .ok (decoded.issues.map LogEntry.ofIssue ++
      [LogEntry.opening decoded.text] ++
      (Finding.ofText config decoded.text.toList).filterMap LogEntry.ofFinding? ++
      [LogEntry.closing inventory]) := by
  have checked : (Position.ofText decoded.text.toList).checked =
      .ok (Position.ofText decoded.text.toList) :=
    if_pos (Position.ofText_fits (by omega))
  unfold surveyLog findings
  rw [checked, surveyed]
  rfl

/-- The log of surveying any bytes that decode to at most 2^32 - 3 bytes of text tells what
the inventory holds. -/
theorem surveyLog_agrees (config : Config) (bytes : List UInt8)
    (small : Text.byteLength (Encoding.decode bytes).text.toList ≤ 2 ^ 32 - 3) :
    ∃ inventory warnings opening events closing,
      surveyBytes config bytes = .ok inventory ∧
      surveyLog config (Encoding.decode bytes) =
        .ok (warnings ++ [opening] ++ events ++ [closing]) ∧
      LogEntry.Framed (Encoding.decode bytes) inventory warnings opening events closing ∧
      LogEntry.Agree events inventory := by
  have surveyed := survey_eq config (Encoding.decode bytes).text small
  have logged := surveyLog_eq config (Encoding.decode bytes) small surveyed
  have agree := LogEntry.agree_of_ordered
    (Finding.ofText_isOrdered config (Encoding.decode bytes).text.toList)
    (Finding.stream_tallied config false _)
  refine ⟨_, _, _, _, _, surveyBytes_of_survey surveyed, logged, ?_, agree.withLength _⟩
  refine ⟨?_, ⟨rfl, rfl, rfl⟩, ?_, ⟨rfl, rfl, rfl⟩, rfl, rfl, rfl, rfl, rfl, rfl⟩
  · rw [List.map_map]
    rfl
  · intro entry member
    obtain ⟨finding, -, told⟩ := List.mem_filterMap.mp member
    exact LogEntry.ofFinding?_inside told

/-- A method with an unsafe block, and a zero character behind it. -/
theorem surveyLog_agrees_zero_byte :
    let bytes := Encoding.bytesOf "impl A\x7bfn f()\x7bunsafe\x7b\x7d\x7d\x7d\x00"
    Text.byteLength (Encoding.decode bytes).text.toList ≤ 2 ^ 32 - 3 ∧
      ∃ inventory warnings opening events closing,
        surveyBytes .standard bytes = .ok inventory ∧
        surveyLog .standard (Encoding.decode bytes) =
          .ok (warnings ++ [opening] ++ events ++ [closing]) ∧
        LogEntry.Framed (Encoding.decode bytes) inventory warnings opening events closing ∧
        LogEntry.Agree events inventory := by
  intro bytes
  have small : Text.byteLength (Encoding.decode bytes).text.toList ≤ 2 ^ 32 - 3 := by
    rw [Encoding.decode_bytesOf_text]
    decide
  exact ⟨small, surveyLog_agrees .standard bytes small⟩

end Survey
