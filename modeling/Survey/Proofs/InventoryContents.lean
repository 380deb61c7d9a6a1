import Survey.Inventory.Recording
import Survey.Proofs.Arrangement
import Survey.Proofs.Rosters

set_option autoImplicit false

/-!
# What an inventory holds

Writing a finding down appends at most one record to each plain list and touches at
most one name of each roster. `Inventory.record_eq` says this once for all findings;
what a whole survey writes down follows by folding over the findings.
-/

namespace Survey

namespace Finding

/-! ### What a finding adds -/

@[simp] def function? : Finding → Option FunctionRecord
  | .function draft _ => draft.record.toOption
  | _ => none

/-- The function, if it belongs to no type. -/
def freeFunction? (finding : Finding) : Option FunctionRecord :=
  finding.function?.filter fun function => function.owner.type?.isNone

@[simp] def enum? : Finding → Option EnumRecord
  | .enum name variants extent => extent.span.toOption.map fun span => ⟨name, span, variants⟩
  | _ => none

@[simp] def test? : Finding → Option TestRecord
  | .test name extent => extent.span.toOption.map fun span => ⟨name, span⟩
  | _ => none

@[simp] def block? : Finding → Option Span
  | .unsafeBlock extent => extent.span.toOption
  | _ => none

@[simp] def testModule? : Finding → Option Nat
  | .testModule line => some line
  | _ => none

/-- The function, if it is a method of the type of this name. -/
def methodOf? (typeName : String) (finding : Finding) : Option FunctionRecord :=
  finding.function?.filter fun function => function.owner.type? == some typeName

/-- Where the type of this name is declared. -/
def structSpan? (name : String) : Finding → Option Span
  | .struct declared extent => if declared = name then extent.span.toOption else none
  | _ => none

/-- Where the trait of this name is declared. -/
def traitSpan? (name : String) : Finding → Option Span
  | .trait declared extent => if declared = name then extent.span.toOption else none
  | _ => none

/-- The type that is mentioned, and what becomes of its record. -/
@[simp] def typeEdit? : Finding → Option (String × (TypeRecord → TypeRecord))
  | .function draft _ =>
      draft.record.toOption.bind fun function =>
        function.owner.type?.map fun name => (name, (·.addMethod function))
  | .struct name extent => extent.span.toOption.map fun span => (name, (·.declare span))
  | .target name none => some (name, id)
  | .target name (some traitName) => some (name, (·.addTrait traitName))
  | _ => none

/-- The trait that is mentioned, and what becomes of its record. -/
@[simp] def traitEdit? : Finding → Option (String × (TraitRecord → TraitRecord))
  | .trait name extent => extent.span.toOption.map fun span => (name, (·.declare span))
  | .target _ (some traitName) => some (traitName, id)
  | _ => none

end Finding

namespace Roster

variable {α : Type}

theorem touch_id (roster : Roster α) (name : String) (fresh : α) :
    roster.touch name fresh id = (roster.enter name fresh).2 := by
  unfold touch update
  rw [List.modify_id]

end Roster

namespace Inventory

/-- The inventory with what one more finding adds. -/
def note (inventory : Inventory) (finding : Finding) : Inventory where
  functions := inventory.functions ++ finding.freeFunction?.toList
  types := inventory.types.edit TypeRecord.named finding.typeEdit?
  enums := inventory.enums ++ finding.enum?.toList
  traits := inventory.traits.edit TraitRecord.named finding.traitEdit?
  tests := inventory.tests ++ finding.test?.toList
  unsafeBlocks := inventory.unsafeBlocks ++ finding.block?.toList
  testModuleLine? := inventory.testModuleLine? <|> finding.testModule?
  length := inventory.length

private theorem span_of_ordered {extent : Extent}
    (ordered : extent.start.offset ≤ extent.stop.offset) :
    ∃ span : Span, extent.span = .ok span :=
  ⟨_, Span.between_of_le ordered⟩

/-- Writing a finding down fails only if it has an extent that ends before it starts;
otherwise it adds what the finding adds. -/
theorem record_eq (inventory : Inventory) (finding : Finding)
    (ordered : ∀ outline, finding.outline? = some outline →
      outline.extent.start.offset ≤ outline.extent.stop.offset) :
    inventory.record finding = .ok (inventory.note finding) := by
  cases finding with
  | unsafeBlock extent =>
      obtain ⟨span, spanned⟩ := span_of_ordered (ordered _ rfl)
      simp [record, note, spanned, Finding.freeFunction?, addUnsafeBlocks, bind,
        Except.bind, pure, Except.pure, Except.toOption]
  | function draft blocks =>
      obtain ⟨span, spanned⟩ := span_of_ordered (ordered _ rfl)
      have drafted : draft.record =
          .ok ⟨draft.name, draft.parameters, draft.result, span, draft.owner⟩ := by
        simp only [FunctionDraft.record, spanned]
        rfl
      cases owner : draft.owner.type? with
      | none =>
          simp [record, note, drafted, owner, Finding.freeFunction?, addFunction, Option.filter, bind,
            Except.bind, pure, Except.pure, Except.toOption]
      | some typeName =>
          simp [record, note, drafted, owner, Finding.freeFunction?, enterType, updateType,
            Roster.touch, bind, Except.bind, pure, Except.pure, Except.toOption]
  | struct name extent =>
      obtain ⟨span, spanned⟩ := span_of_ordered (ordered _ rfl)
      simp [record, note, spanned, Finding.freeFunction?, declareType, enterType,
        updateType, Roster.touch, bind, Except.bind, pure, Except.pure, Except.toOption]
  | enum name variants extent =>
      obtain ⟨span, spanned⟩ := span_of_ordered (ordered _ rfl)
      simp [record, note, spanned, Finding.freeFunction?, addEnum, bind, Except.bind,
        pure, Except.pure, Except.toOption]
  | trait name extent =>
      obtain ⟨span, spanned⟩ := span_of_ordered (ordered _ rfl)
      simp [record, note, spanned, Finding.freeFunction?, declareTrait, enterTrait,
        Roster.touch, bind, Except.bind, pure, Except.pure, Except.toOption]
  | test name extent =>
      obtain ⟨span, spanned⟩ := span_of_ordered (ordered _ rfl)
      simp [record, note, spanned, Finding.freeFunction?, addTest, bind, Except.bind,
        pure, Except.pure, Except.toOption]
  | target name traitName? =>
      cases traitName? with
      | none => simp [record, note, Finding.freeFunction?, enterType, Roster.touch_id]
      | some traitName =>
          have touched : inventory.types.touch name (.named name) (·.addTrait traitName) =
              (inventory.types.enter name (.named name)).2.update
                (inventory.types.enter name (.named name)).1 (·.addTrait traitName) := rfl
          simp [record, note, Finding.freeFunction?, enterType, enterTrait, updateType,
            Roster.touch_id, touched]
  | testModule line => simp [record, note, Finding.freeFunction?, markTestModule]
  | unsafeAtEnd | signatureAtEnd | enumAtEnd | traitBody | implementationAtEnd
  | targetUnresolved | implementationBody =>
      simp [record, note, Finding.freeFunction?]

theorem recordAll_eq (inventory : Inventory) (found : List Finding)
    (ordered : ∀ outline ∈ Finding.outlines found,
      outline.extent.start.offset ≤ outline.extent.stop.offset) :
    inventory.recordAll found = .ok (found.foldl note inventory) := by
  induction found generalizing inventory with
  | nil => rfl
  | cons finding rest ih =>
      have first : ∀ outline, finding.outline? = some outline →
          outline.extent.start.offset ≤ outline.extent.stop.offset := by
        intro outline outlined
        apply ordered
        simp [outlined]
      have later : ∀ outline ∈ Finding.outlines rest,
          outline.extent.start.offset ≤ outline.extent.stop.offset := by
        intro outline member
        apply ordered
        rw [Finding.outlines_cons, List.mem_append]
        exact Or.inr member
      have step := ih (inventory.note finding) later
      unfold recordAll at step ⊢
      rw [List.foldlM_cons, record_eq inventory finding first]
      exact step

/-- The inventory of some findings, apart from the length of the text. -/
def ofFindings (found : List Finding) : Inventory := found.foldl note empty

@[simp] theorem ofFindings_concat (found : List Finding) (finding : Finding) :
    ofFindings (found ++ [finding]) = (ofFindings found).note finding := by
  unfold ofFindings
  rw [List.foldl_append]
  rfl

end Inventory

/-- A survey fails only if the place at the end of the text is out of range. -/
theorem survey_eq_map (config : Config) (text : String) :
    survey config text = (Position.ofText text.toList).checked.map fun _ =>
      (Inventory.ofFindings (Finding.ofText config text.toList)).withLength
        (Counter.clamp (Text.byteLength text.toList)) := by
  have recorded := Inventory.recordAll_eq .empty (Finding.ofText config text.toList) (by
    intro outline member
    exact Nat.le_of_lt ((Finding.ofText_arranged config text.toList).liesIn outline member).start_lt)
  unfold survey findings
  cases (Position.ofText text.toList).checked with
  | error fault => rfl
  | ok place =>
      change (Inventory.empty.recordAll (Finding.ofText config text.toList) >>= _) = _
      rw [recorded]
      rfl

/-- A survey of a text that is small enough succeeds, with what its findings add. -/
theorem survey_eq (config : Config) (text : String)
    (small : Text.byteLength text.toList ≤ 2 ^ 32 - 3) :
    survey config text =
      .ok ((Inventory.ofFindings (Finding.ofText config text.toList)).withLength
        (Text.byteLength text.toList)) := by
  have checked : (Position.ofText text.toList).checked = .ok (Position.ofText text.toList) :=
    if_pos (Position.ofText_fits (by omega))
  have counter : Text.byteLength text.toList < Counter.limit := by
    have limit : Counter.limit = 2 ^ 32 := rfl
    omega
  rw [survey_eq_map, checked, Counter.clamp_of_lt counter]
  rfl

namespace Inventory

/-! ### Plain lists -/

private theorem ofFindings_list {β : Type} (field : Inventory → List β)
    (part : Finding → Option β) (atStart : field empty = [])
    (step : ∀ inventory finding, field (note inventory finding) =
      field inventory ++ (part finding).toList) (found : List Finding) :
    field (ofFindings found) = found.filterMap part := by
  induction found using List.reverseRecOn with
  | nil => exact atStart
  | append_singleton found finding ih =>
      rw [ofFindings_concat, step, ih, List.filterMap_append, List.filterMap_cons]
      cases part finding <;> rfl

theorem ofFindings_functions (found : List Finding) :
    (ofFindings found).functions = found.filterMap Finding.freeFunction? :=
  ofFindings_list functions Finding.freeFunction? rfl (fun _ _ => rfl) found

theorem ofFindings_enums (found : List Finding) :
    (ofFindings found).enums = found.filterMap Finding.enum? :=
  ofFindings_list enums Finding.enum? rfl (fun _ _ => rfl) found

theorem ofFindings_tests (found : List Finding) :
    (ofFindings found).tests = found.filterMap Finding.test? :=
  ofFindings_list tests Finding.test? rfl (fun _ _ => rfl) found

theorem ofFindings_unsafeBlocks (found : List Finding) :
    (ofFindings found).unsafeBlocks = found.filterMap Finding.block? :=
  ofFindings_list unsafeBlocks Finding.block? rfl (fun _ _ => rfl) found

theorem ofFindings_testModuleLine? (found : List Finding) :
    (ofFindings found).testModuleLine? = found.findSome? Finding.testModule? := by
  induction found using List.reverseRecOn with
  | nil => rfl
  | append_singleton found finding ih =>
      rw [ofFindings_concat, List.findSome?_append, ← ih, List.findSome?_singleton]
      exact Option.orElse_eq_or

/-! ### Rosters -/

theorem typeEdit?_keepsKey (finding : Finding) :
    Roster.KeepsKey TypeRecord.name finding.typeEdit? := by
  intro name change edited record
  cases finding with
  | function draft blocks =>
      simp only [Finding.typeEdit?, Option.bind_eq_some_iff, Option.map_eq_some_iff,
        Prod.mk.injEq] at edited
      obtain ⟨function, -, owner, -, -, rfl⟩ := edited
      rfl
  | struct name extent =>
      simp only [Finding.typeEdit?, Option.map_eq_some_iff, Prod.mk.injEq] at edited
      obtain ⟨span, -, -, rfl⟩ := edited
      rfl
  | target name traitName? =>
      cases traitName? with
      | none =>
          cases edited
          rfl
      | some traitName =>
          cases edited
          change (record.addTrait traitName).name = record.name
          unfold TypeRecord.addTrait
          split <;> rfl
  | _ => cases edited

theorem traitEdit?_keepsKey (finding : Finding) :
    Roster.KeepsKey TraitRecord.name finding.traitEdit? := by
  intro name change edited record
  cases finding with
  | trait name extent =>
      simp only [Finding.traitEdit?, Option.map_eq_some_iff, Prod.mk.injEq] at edited
      obtain ⟨span, -, -, rfl⟩ := edited
      rfl
  | target name traitName? =>
      cases traitName? with
      | none => cases edited
      | some traitName =>
          cases edited
          rfl
  | _ => cases edited

theorem ofFindings_types_indexed (found : List Finding) :
    (ofFindings found).types.Indexed TypeRecord.name := by
  induction found using List.reverseRecOn with
  | nil => exact Roster.empty_indexed _
  | append_singleton found finding ih =>
      rw [ofFindings_concat]
      exact ih.edit (fun _ => rfl) (typeEdit?_keepsKey finding)

theorem ofFindings_traits_indexed (found : List Finding) :
    (ofFindings found).traits.Indexed TraitRecord.name := by
  induction found using List.reverseRecOn with
  | nil => exact Roster.empty_indexed _
  | append_singleton found finding ih =>
      rw [ofFindings_concat]
      exact ih.edit (fun _ => rfl) (traitEdit?_keepsKey finding)

/-- What a finding makes of the record of a name. -/
def changed {α : Type} (edit? : Option (String × (α → α))) (name : String) (record : α) : α :=
  match edit? with
  | some (mentioned, change) => if mentioned = name then change record else record
  | none => record

theorem find?_edit_getD {α : Type} {key : α → String} {roster : Roster α}
    {edit? : Option (String × (α → α))} (indexed : roster.Indexed key) (fresh : String → α)
    (named : ∀ name, key (fresh name) = name) (keeps : Roster.KeepsKey key edit?)
    (name : String) :
    ((roster.edit fresh edit?).find? name).getD (fresh name) =
      changed edit? name ((roster.find? name).getD (fresh name)) := by
  cases edit? with
  | none => rfl
  | some pair =>
      obtain ⟨mentioned, change⟩ := pair
      rw [indexed.find?_edit named keeps]
      by_cases same : name = mentioned
      · subst same
        simp only [if_true, Option.getD_some, changed]
      · have different : ¬ mentioned = name := fun equal => same equal.symm
        simp only [if_neg same, if_neg different, changed]

/-- A finding adds a method, declares a type, or at most mentions one. -/
private theorem typeEdit?_cases (finding : Finding) (name : String) :
    (∃ owner function, finding.typeEdit? = some (owner, (·.addMethod function)) ∧
      finding.methodOf? name = (if owner = name then some function else none) ∧
      finding.structSpan? name = none) ∨
    (∃ declared span, finding.typeEdit? = some (declared, (·.declare span)) ∧
      finding.methodOf? name = none ∧
      finding.structSpan? name = if declared = name then some span else none) ∨
    ((∀ mentioned change, finding.typeEdit? = some (mentioned, change) →
        ∀ record, (change record).methods = record.methods ∧
          (change record).span? = record.span?) ∧
      finding.methodOf? name = none ∧ finding.structSpan? name = none) := by
  cases finding with
  | function draft blocks =>
      cases drafted : draft.record with
      | error fault =>
          right
          right
          simp [Finding.methodOf?, Finding.structSpan?, drafted, Except.toOption]
      | ok function =>
          cases owner : function.owner.type? with
          | none =>
              right
              right
              simp [Finding.methodOf?, Finding.structSpan?, drafted, owner, Except.toOption,
                Option.filter]
          | some typeName =>
              left
              refine ⟨typeName, function, ?_, ?_, rfl⟩
              · simp [drafted, owner, Except.toOption]
              · simp [Finding.methodOf?, drafted, owner, Except.toOption, Option.filter]
  | struct declared extent =>
      cases spanned : extent.span with
      | error fault =>
          right
          right
          simp [Finding.methodOf?, Finding.structSpan?, spanned, Except.toOption]
      | ok span =>
          right
          left
          refine ⟨declared, span, ?_, rfl, ?_⟩
          · simp [spanned, Except.toOption]
          · simp [Finding.structSpan?, spanned, Except.toOption]
  | target typeName traitName? =>
      right
      right
      refine ⟨?_, rfl, rfl⟩
      intro mentioned change edited record
      cases traitName? with
      | none =>
          cases edited
          exact ⟨rfl, rfl⟩
      | some traitName =>
          cases edited
          change (record.addTrait traitName).methods = _ ∧ (record.addTrait traitName).span? = _
          unfold TypeRecord.addTrait
          split <;> exact ⟨rfl, rfl⟩
  | _ =>
      right
      right
      refine ⟨?_, rfl, rfl⟩
      intro mentioned change edited
      cases edited

private theorem changed_methods (finding : Finding) (name : String) (record : TypeRecord) :
    (changed finding.typeEdit? name record).methods =
      record.methods ++ (finding.methodOf? name).toList := by
  rcases typeEdit?_cases finding name with
    ⟨owner, function, edited, method, -⟩ | ⟨declared, span, edited, method, -⟩ |
      ⟨keeps, method, -⟩
  · rw [edited, method]
    unfold changed
    by_cases same : owner = name <;> simp [same, TypeRecord.addMethod]
  · rw [edited, method]
    unfold changed
    by_cases same : declared = name <;> simp [same, TypeRecord.declare]
  · rw [method, Option.toList_none, List.append_nil]
    unfold changed
    split
    · rename_i mentioned change edited
      split
      · exact (keeps mentioned change edited record).1
      · rfl
    · rfl

private theorem changed_span? (finding : Finding) (name : String) (record : TypeRecord) :
    (changed finding.typeEdit? name record).span? =
      record.span?.or (finding.structSpan? name) := by
  rcases typeEdit?_cases finding name with
    ⟨owner, function, edited, -, declaration⟩ | ⟨declared, span, edited, -, declaration⟩ |
      ⟨keeps, -, declaration⟩
  · rw [edited, declaration, Option.or_none]
    unfold changed
    by_cases same : owner = name <;> simp [same, TypeRecord.addMethod]
  · rw [edited, declaration]
    unfold changed
    by_cases same : declared = name <;> simp [same, TypeRecord.declare]
  · rw [declaration, Option.or_none]
    unfold changed
    split
    · rename_i mentioned change edited
      split
      · exact (keeps mentioned change edited record).2
      · rfl
    · rfl

theorem typeEdit?_methods {finding : Finding} {name : String} {change : TypeRecord → TypeRecord}
    (edited : finding.typeEdit? = some (name, change)) (record : TypeRecord) :
    (change record).methods = record.methods ++ (finding.methodOf? name).toList := by
  have changes := changed_methods finding name record
  rw [edited] at changes
  simpa only [changed, if_true] using changes

theorem typeEdit?_span? {finding : Finding} {name : String} {change : TypeRecord → TypeRecord}
    (edited : finding.typeEdit? = some (name, change)) (record : TypeRecord) :
    (change record).span? = record.span?.or (finding.structSpan? name) := by
  have changes := changed_span? finding name record
  rw [edited] at changes
  simpa only [changed, if_true] using changes

private theorem changed_trait_span? (finding : Finding) (name : String) (record : TraitRecord) :
    (changed finding.traitEdit? name record).span? =
      record.span?.or (finding.traitSpan? name) := by
  cases finding with
  | trait declared extent =>
      cases spanned : extent.span with
      | error fault => simp [changed, Finding.traitSpan?, spanned, Except.toOption]
      | ok span =>
          by_cases same : declared = name
          · simp [changed, Finding.traitSpan?, spanned, Except.toOption, same, TraitRecord.declare]
          · simp [changed, Finding.traitSpan?, spanned, Except.toOption, same]
  | target typeName traitName? =>
      cases traitName? with
      | none => simp [changed, Finding.traitSpan?]
      | some traitName =>
          by_cases same : traitName = name <;> simp [changed, Finding.traitSpan?, same]
  | _ => simp [changed, Finding.traitSpan?]

theorem traitEdit?_span? {finding : Finding} {name : String} {change : TraitRecord → TraitRecord}
    (edited : finding.traitEdit? = some (name, change)) (record : TraitRecord) :
    (change record).span? = record.span?.or (finding.traitSpan? name) := by
  have changes := changed_trait_span? finding name record
  rw [edited] at changes
  simpa only [changed, if_true] using changes

/-- The methods of a type are those found for its name, in the order of the text. -/
theorem ofFindings_type_methods (found : List Finding) (name : String) :
    (((ofFindings found).type? name).getD (.named name)).methods =
      found.filterMap (Finding.methodOf? name) := by
  induction found using List.reverseRecOn with
  | nil => rfl
  | append_singleton found finding ih =>
      have edited := find?_edit_getD (ofFindings_types_indexed found) TypeRecord.named
        (fun _ => rfl) (typeEdit?_keepsKey finding) name
      rw [ofFindings_concat, List.filterMap_append, ← ih]
      unfold type? note at *
      rw [edited, changed_methods, List.filterMap_cons]
      cases finding.methodOf? name <;> rfl

/-- The first declaration of a type fixes its span. -/
theorem ofFindings_type_span? (found : List Finding) (name : String) :
    (((ofFindings found).type? name).getD (.named name)).span? =
      found.findSome? (Finding.structSpan? name) := by
  induction found using List.reverseRecOn with
  | nil => rfl
  | append_singleton found finding ih =>
      have edited := find?_edit_getD (ofFindings_types_indexed found) TypeRecord.named
        (fun _ => rfl) (typeEdit?_keepsKey finding) name
      rw [ofFindings_concat, List.findSome?_append, ← ih, List.findSome?_singleton]
      unfold type? note at *
      rw [edited, changed_span?]

/-- The first declaration of a trait fixes its span. -/
theorem ofFindings_trait_span? (found : List Finding) (name : String) :
    (((ofFindings found).trait? name).getD (.named name)).span? =
      found.findSome? (Finding.traitSpan? name) := by
  induction found using List.reverseRecOn with
  | nil => rfl
  | append_singleton found finding ih =>
      have edited := find?_edit_getD (ofFindings_traits_indexed found) TraitRecord.named
        (fun _ => rfl) (traitEdit?_keepsKey finding) name
      rw [ofFindings_concat, List.findSome?_append, ← ih, List.findSome?_singleton]
      unfold trait? note at *
      rw [edited, changed_trait_span?]

private theorem changed_traits (finding : Finding) (name : String) (record : TypeRecord) :
    (∃ traitName, finding = .target name (some traitName) ∧
      (changed finding.typeEdit? name record).traits = (record.addTrait traitName).traits) ∨
    ((∀ traitName, finding ≠ .target name (some traitName)) ∧
      (changed finding.typeEdit? name record).traits = record.traits) := by
  cases finding with
  | target mentioned traitName? =>
      cases traitName? with
      | none =>
          right
          refine ⟨nofun, ?_⟩
          by_cases same : mentioned = name <;> simp [changed, same]
      | some traitName =>
          by_cases same : mentioned = name
          · left
            subst same
            refine ⟨traitName, rfl, ?_⟩
            simp [changed]
          · right
            constructor
            · intro other isOther
              cases isOther
              exact same rfl
            · simp [changed, same]
  | function draft blocks =>
      right
      refine ⟨nofun, ?_⟩
      unfold changed
      split
      · rename_i mentioned change edited
        simp only [Finding.typeEdit?, Option.bind_eq_some_iff, Option.map_eq_some_iff,
          Prod.mk.injEq] at edited
        obtain ⟨function, -, owner, -, -, rfl⟩ := edited
        split <;> rfl
      · rfl
  | struct declared extent =>
      right
      refine ⟨nofun, ?_⟩
      unfold changed
      split
      · rename_i mentioned change edited
        simp only [Finding.typeEdit?, Option.map_eq_some_iff, Prod.mk.injEq] at edited
        obtain ⟨span, -, -, rfl⟩ := edited
        split <;> rfl
      · rfl
  | _ => exact .inr ⟨nofun, rfl⟩

/-- The traits of a type are those that implementations for its name mention, each once. -/
theorem ofFindings_type_traits (found : List Finding) (name : String) :
    (((ofFindings found).type? name).getD (.named name)).traits.Nodup ∧
      ∀ traitName, traitName ∈ (((ofFindings found).type? name).getD (.named name)).traits ↔
        .target name (some traitName) ∈ found := by
  induction found using List.reverseRecOn with
  | nil => exact ⟨List.nodup_nil, fun _ => ⟨nofun, nofun⟩⟩
  | append_singleton found finding ih =>
      obtain ⟨distinct, mentioned⟩ := ih
      have edited := find?_edit_getD (ofFindings_types_indexed found) TypeRecord.named
        (fun _ => rfl) (typeEdit?_keepsKey finding) name
      rw [ofFindings_concat]
      unfold type? note at *
      rw [edited]
      rcases changed_traits finding name
          (((ofFindings found).types.find? name).getD (.named name)) with
        ⟨added, rfl, traits⟩ | ⟨other, traits⟩
      · rw [traits]
        unfold TypeRecord.addTrait
        split
        · rename_i known
          refine ⟨distinct, ?_⟩
          intro traitName
          rw [mentioned, List.mem_append, List.mem_singleton]
          constructor
          · exact .inl
          · rintro (before | same)
            · exact before
            · cases same
              exact (mentioned added).mp known
        · rename_i unknown
          constructor
          · rw [← List.concat_eq_append, List.nodup_concat]
            exact ⟨unknown, distinct⟩
          · intro traitName
            rw [List.mem_append, mentioned, List.mem_append, List.mem_singleton,
              List.mem_singleton]
            constructor
            · rintro (before | rfl)
              · exact .inl before
              · exact .inr rfl
            · rintro (before | same)
              · exact .inl before
              · cases same
                exact .inr rfl
      · rw [traits]
        refine ⟨distinct, ?_⟩
        intro traitName
        rw [mentioned, List.mem_append, List.mem_singleton]
        constructor
        · exact .inl
        · rintro (before | same)
          · exact before
          · exact absurd same.symm (other traitName)

end Inventory
end Survey
