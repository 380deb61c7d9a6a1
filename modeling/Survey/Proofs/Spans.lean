import Survey.Proofs.InventoryContents
import Survey.Proofs.Places
import Survey.Proofs.Moving
import Mathlib.Data.List.Perm.Subperm

set_option autoImplicit false

/-!
# The spans of an inventory

Every span of an inventory is the extent of a finding, and no finding gives more than
one. So what is known of the outlines of the findings holds of the recorded spans,
taken two by two as well: the recorded outlines are, up to their order, some of the
outlines that were found.
-/

namespace Survey

def Span.extent (span : Span) : Extent := ⟨span.start, span.stop⟩

def Span.outline (kind : Kind) (span : Span) : Outline := ⟨kind, span.extent⟩

theorem Extent.eq_of_span {extent : Extent} {span : Span}
    (spanned : extent.span.toOption = some span) : extent = span.extent := by
  unfold Extent.span Span.between at spanned
  split at spanned
  · cases spanned
    rfl
  · cases spanned

namespace Roster

variable {α β : Type}

/-- An edit that adds little to one record adds as little to all of them together. -/
theorem Indexed.flatMap_edit_subperm {key : α → String} {roster : Roster α}
    (indexed : roster.Indexed key) {fresh : String → α} {part : α → List β}
    (empty : ∀ name, part (fresh name) = []) {edit? : Option (String × (α → α))}
    {extra : List β}
    (grows : ∀ name change, edit? = some (name, change) →
      ∀ record, (part (change record)).Subperm (part record ++ extra)) :
    ((roster.edit fresh edit?).records.flatMap part).Subperm
      (roster.records.flatMap part ++ extra) := by
  cases edit? with
  | none => exact (List.sublist_append_left _ _).subperm
  | some pair =>
      obtain ⟨name, change⟩ := pair
      have growth := grows name change rfl
      rw [edit_some]
      rcases indexed.touch_cases name (fresh name) change with
        ⟨before, record, after, split, -, records⟩ | ⟨-, records⟩
      · have swapped : (part record ++ extra ++ after.flatMap part).Perm
            (part record ++ after.flatMap part ++ extra) := by
          rw [List.append_assoc, List.append_assoc]
          exact List.perm_append_comm.append_left _
        rw [records, split, List.flatMap_append, List.flatMap_append, List.flatMap_cons,
          List.flatMap_cons, List.append_assoc, List.subperm_append_left]
        exact ((List.subperm_append_right _).mpr (growth record)).trans swapped.subperm
      · have first := growth (fresh name)
        rw [empty, List.nil_append] at first
        rw [records, List.flatMap_append, List.flatMap_singleton, List.subperm_append_left]
        exact first

end Roster

theorem Span.map_outline_extent (kind : Kind) (span? : Option Span) :
    (span?.map (Span.outline kind)).map Outline.extent = span?.map Span.extent := by
  cases span? <;> rfl

namespace Inventory

/-- The outlines of everything recorded, in the order of the spans. -/
def outlines (inventory : Inventory) : List Outline :=
  inventory.allFunctions.map (·.span.outline .function) ++
    inventory.types.records.filterMap (·.span?.map (Span.outline .struct)) ++
    inventory.enums.map (·.span.outline .enum) ++
    inventory.traits.records.filterMap (·.span?.map (Span.outline .trait)) ++
    inventory.tests.map (·.span.outline .test) ++
    inventory.unsafeBlocks.map (Span.outline .unsafeBlock)

theorem outlines_extents (inventory : Inventory) :
    inventory.outlines.map Outline.extent = inventory.spans.map Span.extent := by
  unfold outlines spans
  simp only [List.map_append, List.map_map, List.map_filterMap, Span.map_outline_extent]
  rfl

end Inventory

/-! ### What one finding adds -/

namespace Finding

variable {finding : Finding} {name : String}

/-- The function, if it belongs to a type. -/
def method? (finding : Finding) : Option FunctionRecord :=
  finding.function?.filter fun function => function.owner.type?.isSome

/-- Where a type is declared, whatever its name. -/
def struct? : Finding → Option Span
  | .struct _ extent => extent.span.toOption
  | _ => none

/-- Where a trait is declared, whatever its name. -/
def trait? : Finding → Option Span
  | .trait _ extent => extent.span.toOption
  | _ => none

theorem outline?_of_function? {function : FunctionRecord}
    (found : finding.function? = some function) :
    finding.outline? = some (function.span.outline .function) := by
  cases finding with
  | function draft blocks =>
      cases spanned : draft.extent.span with
      | error fault =>
          rw [function?, FunctionDraft.record, spanned] at found
          cases found
      | ok span =>
          have extent := Extent.eq_of_span (congrArg Except.toOption spanned)
          rw [function?, FunctionDraft.record, spanned] at found
          cases found
          rw [outline?, extent]
          rfl
  | _ => cases found

theorem outline?_of_enum? {enum : EnumRecord} (found : finding.enum? = some enum) :
    finding.outline? = some (enum.span.outline .enum) := by
  cases finding with
  | enum name variants extent =>
      obtain ⟨span, spanned, rfl⟩ := Option.map_eq_some_iff.mp found
      rw [outline?, Extent.eq_of_span spanned]
      rfl
  | _ => cases found

theorem outline?_of_test? {test : TestRecord} (found : finding.test? = some test) :
    finding.outline? = some (test.span.outline .test) := by
  cases finding with
  | test name extent =>
      obtain ⟨span, spanned, rfl⟩ := Option.map_eq_some_iff.mp found
      rw [outline?, Extent.eq_of_span spanned]
      rfl
  | _ => cases found

theorem outline?_of_block? {block : Span} (found : finding.block? = some block) :
    finding.outline? = some (block.outline .unsafeBlock) := by
  cases finding with
  | unsafeBlock extent =>
      rw [outline?, Extent.eq_of_span found]
      rfl
  | _ => cases found

theorem methodOf?_subset : (finding.methodOf? name).toList.Sublist finding.method?.toList := by
  unfold methodOf? method?
  cases finding.function? with
  | none => exact List.Sublist.refl _
  | some function =>
      by_cases owned : function.owner.type? = some name
      · simp [Option.filter, owned]
      · simp [Option.filter, owned]

theorem structSpan?_subset : (finding.structSpan? name).toList.Sublist finding.struct?.toList := by
  cases finding with
  | struct declared extent =>
      by_cases same : declared = name
      · simp [structSpan?, struct?, same]
      · simp [structSpan?, same]
  | _ => exact List.nil_sublist _

theorem traitSpan?_subset : (finding.traitSpan? name).toList.Sublist finding.trait?.toList := by
  cases finding with
  | trait declared extent =>
      by_cases same : declared = name
      · simp [traitSpan?, trait?, same]
      · simp [traitSpan?, same]
  | _ => exact List.nil_sublist _

/-- A function belongs to a type or it does not. -/
theorem count_function? (outline : Outline) :
    (finding.freeFunction?.toList.map (·.span.outline .function)).count outline +
        (finding.method?.toList.map (·.span.outline .function)).count outline =
      (finding.function?.toList.map (·.span.outline .function)).count outline := by
  unfold freeFunction? method?
  cases finding.function? with
  | none => rfl
  | some function =>
      cases owner : function.owner.type? with
      | none => simp [Option.filter, owner]
      | some typeName => simp [Option.filter, owner]

private theorem count_span? (kind : Kind) (extent : Extent) (outline : Outline) :
    (extent.span.toOption.toList.map (Span.outline kind)).count outline ≤
      [(⟨kind, extent⟩ : Outline)].count outline := by
  cases spanned : extent.span with
  | error fault => exact Nat.zero_le _
  | ok span =>
      have same := Extent.eq_of_span (congrArg Except.toOption spanned)
      subst same
      exact Nat.le_refl _

/-- What a finding adds, list by list, is at most its outline. -/
theorem count_recorded_le (finding : Finding) (outline : Outline) :
    (finding.function?.toList.map (·.span.outline .function)).count outline +
        (finding.struct?.toList.map (Span.outline .struct)).count outline +
        (finding.enum?.toList.map (·.span.outline .enum)).count outline +
        (finding.trait?.toList.map (Span.outline .trait)).count outline +
        (finding.test?.toList.map (·.span.outline .test)).count outline +
        (finding.block?.toList.map (Span.outline .unsafeBlock)).count outline ≤
      finding.outline?.toList.count outline := by
  cases finding with
  | unsafeBlock extent =>
      simpa [struct?, trait?, outline?] using count_span? .unsafeBlock extent outline
  | function draft blocks =>
      have added := count_span? .function draft.extent outline
      cases spanned : draft.extent.span with
      | error fault =>
          simp [struct?, trait?, FunctionDraft.record, spanned, bind, Except.bind,
            Except.toOption]
      | ok span =>
          rw [spanned] at added
          simpa [struct?, trait?, outline?, FunctionDraft.record, spanned, bind, Except.bind,
            pure, Except.pure, Except.toOption] using added
  | struct name extent =>
      simpa [struct?, trait?, outline?] using count_span? .struct extent outline
  | enum name variants extent =>
      have added := count_span? .enum extent outline
      cases spanned : extent.span with
      | error fault => simp [struct?, trait?, spanned, Except.toOption]
      | ok span =>
          rw [spanned] at added
          simpa [struct?, trait?, outline?, spanned, Except.toOption] using added
  | trait name extent =>
      simpa [struct?, trait?, outline?] using count_span? .trait extent outline
  | test name extent =>
      have added := count_span? .test extent outline
      cases spanned : extent.span with
      | error fault => simp [struct?, trait?, spanned, Except.toOption]
      | ok span =>
          rw [spanned] at added
          simpa [struct?, trait?, outline?, spanned, Except.toOption] using added
  | _ => exact Nat.zero_le _

end Finding

namespace Inventory

private theorem span?_subperm {span? other? more? : Option Span} (kind : Kind)
    (joined : other? = span?.or more?) {list : List Span} (added : more?.toList.Sublist list) :
    (other?.map (Span.outline kind)).toList.Subperm
      ((span?.map (Span.outline kind)).toList ++ list.map (Span.outline kind)) := by
  subst joined
  cases span? with
  | some span => exact (List.sublist_append_left _ _).subperm
  | none =>
      rw [Option.none_or, Option.map_none, Option.toList_none, List.nil_append, Option.toList_map]
      exact (added.map _).subperm

theorem methods_note_subperm (inventory : Inventory) (finding : Finding)
    (indexed : inventory.types.Indexed TypeRecord.name) :
    ((inventory.note finding).methods.map (·.span.outline .function)).Subperm
      (inventory.methods.map (·.span.outline .function) ++
        finding.method?.toList.map (·.span.outline .function)) := by
  unfold methods
  rw [List.map_flatMap, List.map_flatMap]
  apply indexed.flatMap_edit_subperm
  · intro name
    rfl
  · intro name change edited record
    rw [typeEdit?_methods edited, List.map_append, List.subperm_append_left]
    exact (Finding.methodOf?_subset.map _).subperm

theorem types_note_subperm (inventory : Inventory) (finding : Finding)
    (indexed : inventory.types.Indexed TypeRecord.name) :
    ((inventory.note finding).types.records.filterMap
        (·.span?.map (Span.outline .struct))).Subperm
      (inventory.types.records.filterMap (·.span?.map (Span.outline .struct)) ++
        finding.struct?.toList.map (Span.outline .struct)) := by
  rw [List.filterMap_eq_flatMap_toList, List.filterMap_eq_flatMap_toList]
  apply indexed.flatMap_edit_subperm
  · intro name
    rfl
  · intro name change edited record
    exact span?_subperm .struct (typeEdit?_span? edited record) Finding.structSpan?_subset

theorem traits_note_subperm (inventory : Inventory) (finding : Finding)
    (indexed : inventory.traits.Indexed TraitRecord.name) :
    ((inventory.note finding).traits.records.filterMap
        (·.span?.map (Span.outline .trait))).Subperm
      (inventory.traits.records.filterMap (·.span?.map (Span.outline .trait)) ++
        finding.trait?.toList.map (Span.outline .trait)) := by
  rw [List.filterMap_eq_flatMap_toList, List.filterMap_eq_flatMap_toList]
  apply indexed.flatMap_edit_subperm
  · intro name
    rfl
  · intro name change edited record
    exact span?_subperm .trait (traitEdit?_span? edited record) Finding.traitSpan?_subset

/-- Writing a finding down adds no outline but its own. -/
theorem outlines_note_subperm (inventory : Inventory) (finding : Finding)
    (typesIndexed : inventory.types.Indexed TypeRecord.name)
    (traitsIndexed : inventory.traits.Indexed TraitRecord.name) :
    (inventory.note finding).outlines.Subperm
      (inventory.outlines ++ finding.outline?.toList) := by
  rw [List.subperm_ext_iff]
  intro outline _
  have methods := (inventory.methods_note_subperm finding typesIndexed).count_le outline
  have types := (inventory.types_note_subperm finding typesIndexed).count_le outline
  have traits := (inventory.traits_note_subperm finding traitsIndexed).count_le outline
  have functions := finding.count_function? outline
  have added := finding.count_recorded_le outline
  have enums : (inventory.note finding).enums = inventory.enums ++ finding.enum?.toList := rfl
  have tests : (inventory.note finding).tests = inventory.tests ++ finding.test?.toList := rfl
  have blocks : (inventory.note finding).unsafeBlocks =
    inventory.unsafeBlocks ++ finding.block?.toList := rfl
  have free : (inventory.note finding).functions =
    inventory.functions ++ finding.freeFunction?.toList := rfl
  unfold outlines allFunctions
  rw [enums, tests, blocks, free]
  simp only [List.count_append, List.map_append] at methods types traits ⊢
  omega

/-- The recorded outlines are some of the outlines found, up to their order. -/
theorem ofFindings_outlines_subperm (found : List Finding) :
    (ofFindings found).outlines.Subperm (Finding.outlines found) := by
  induction found using List.reverseRecOn with
  | nil => exact List.nil_subperm
  | append_singleton found finding ih =>
      rw [ofFindings_concat, Finding.outlines_append, Finding.outlines_cons, Finding.outlines_nil,
        List.append_nil]
      exact ((ofFindings found).outlines_note_subperm finding (ofFindings_types_indexed found)
        (ofFindings_traits_indexed found)).trans ((List.subperm_append_right _).mpr ih)

end Inventory

/-! ### Surveys -/

/-- Everything that the outlines found satisfy one by one, the recorded spans do. -/
theorem Inventory.spans_of_outlines {found : List Finding} (property : Extent → Prop)
    (each : ∀ outline ∈ Finding.outlines found, property outline.extent) :
    ∀ span ∈ (ofFindings found).spans, property span.extent := by
  intro span member
  have extentMember : span.extent ∈ (ofFindings found).outlines.map Outline.extent := by
    rw [outlines_extents]
    exact List.mem_map_of_mem member
  obtain ⟨outline, outlineMember, same⟩ := List.mem_map.mp extentMember
  rw [← same]
  exact each outline ((ofFindings_outlines_subperm found).subset outlineMember)

/-- A piece of a text, behind the part that is given first, is read in place as if a
text began there: the places of that text are rebased without a fault, and are then
true in the whole; what is found in a body comes out the same; and the step to the end
of a line is the one over its characters. -/
structure ReadsInPlace (before piece : List Char) : Prop where
  rebases : ∀ place : Position, place.IsTrueIn piece →
    place.rebase (.ofText before) = .ok (place.shift (.ofText before)) ∧
      (place.shift (.ofText before)).IsTrueIn (before ++ piece)
  unsafeIn_eq : Finding.unsafeIn ⟨piece, .ofText before⟩ =
    (Finding.unsafeIn (.ofText piece)).map (Finding.shift (.ofText before))
  items_eq : ∀ owner : Owner, Finding.items owner ⟨piece, .ofText before⟩ =
    (Finding.items owner (.ofText piece)).shift (.ofText before)
  skipLine_eq : (⟨piece, .ofText before⟩ : Cursor).skipLine =
    (⟨piece, .ofText before⟩ : Cursor).skip (piece.takeWhile (· != '\n')).length

theorem readsInPlace {before piece : List Char}
    (small : Text.byteLength (before ++ piece) ≤ 2 ^ 32 - 3) : ReadsInPlace before piece where
  rebases place isTrue := by
    refine ⟨isTrue.rebase small, ?_⟩
    obtain ⟨passed, rest, rfl, rfl⟩ := (Position.isTrueIn_iff piece place).mp isTrue
    rw [Position.shift_ofText, ← List.append_assoc, Position.ofText, ← Position.pastAll_append]
    exact Position.ofText_isTrueIn _ _
  unsafeIn_eq := by
    have counted : (Cursor.ofText piece).place.Counted := Position.start_counted
    rw [← Finding.unsafeIn_shift counted, Cursor.ofText_shift]
  items_eq owner := by
    have counted : (Cursor.ofText piece).place.Counted := Position.start_counted
    rw [← Finding.items_shift counted, Cursor.ofText_shift]
  skipLine_eq := by
    rw [Cursor.skipLine_eq, Text.lineLength_eq]

/-- A text of at most 2^32 - 3 bytes is surveyed without a fault, and both ends of
every recorded span are true places of it, wherever the span was found. -/
theorem survey_spans_true (config : Config) (text : String)
    (small : Text.byteLength text.toList ≤ 2 ^ 32 - 3) :
    ∃ inventory, survey config text = .ok inventory ∧
      inventory.length = Text.byteLength text.toList ∧
      (∀ span ∈ inventory.spans,
        span.start.IsTrueIn text.toList ∧ span.stop.IsTrueIn text.toList ∧
          span.start.offset ≤ span.stop.offset ∧ span.stop.offset ≤ inventory.length) ∧
      ∀ before piece after, text.toList = before ++ piece ++ after →
        ReadsInPlace before piece := by
  refine ⟨_, survey_eq config text small, rfl, ?_, ?_⟩
  · intro span member
    have arranged := Finding.ofText_arranged config text.toList
    obtain ⟨startTrue, stopTrue⟩ := Inventory.spans_of_outlines
      (fun extent => extent.start.IsTrueIn text.toList ∧ extent.stop.IsTrueIn text.toList)
      (fun outline outlineMember =>
        ⟨(arranged.liesIn outline outlineMember).start_isTrue,
          (arranged.liesIn outline outlineMember).stop_isTrue⟩) span member
    exact ⟨startTrue, stopTrue, span.ordered, stopTrue.offset_le⟩
  · intro before piece after split
    apply readsInPlace
    rw [split, Text.byteLength_append] at small
    omega

theorem survey_spans_true_short :
    Text.byteLength "trait T \x7b fn f() \x7b unsafe \x7b \x7d \x7d \x7d".toList ≤ 2 ^ 32 - 3 ∧
      ∃ inventory, survey .standard "trait T \x7b fn f() \x7b unsafe \x7b \x7d \x7d \x7d" = .ok inventory ∧
        inventory.length = 33 ∧
        ∀ span ∈ inventory.spans,
          span.start.IsTrueIn "trait T \x7b fn f() \x7b unsafe \x7b \x7d \x7d \x7d".toList ∧
            span.stop.IsTrueIn "trait T \x7b fn f() \x7b unsafe \x7b \x7d \x7d \x7d".toList := by
  have small : Text.byteLength "trait T \x7b fn f() \x7b unsafe \x7b \x7d \x7d \x7d".toList ≤ 2 ^ 32 - 3 := by
    decide
  obtain ⟨inventory, surveyed, length, spans, -⟩ := survey_spans_true .standard _ small
  exact ⟨small, inventory, surveyed, length, fun span member =>
    ⟨(spans span member).1, (spans span member).2.1⟩⟩

end Survey
