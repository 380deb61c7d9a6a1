import Survey.Proofs.Spans
import Survey.Proofs.Survival

set_option autoImplicit false

/-!
# Truncated texts

When a text is cut, every record that was complete before the cut stays in the
inventory, under the same name and with the same span. What is recorded in addition
is what the cut has left open.
-/

namespace Survey

namespace Finding

variable {limit : Nat} {full cut : List Finding}

/-- The completed findings make the same records, and no other of the kind comes first. -/
theorem Survives.parts {β : Type} (survives : Survives limit full cut) (kind : Kind)
    (part : Finding → Option β) (span : β → Span)
    (outlined : ∀ finding record, part finding = some record →
      finding.outline? = some ((span record).outline kind)) :
    (full.filterMap part).filter (fun record => decide ((span record).stop.offset ≤ limit)) <+:
      cut.filterMap part := by
  have isOf_of_part : ∀ finding record, part finding = some record → finding.isOf kind = true := by
    intro finding record found
    unfold isOf
    rw [outlined finding record found]
    exact decide_eq_true rfl
  have fullParts : (completed kind limit full).filterMap part =
      (full.filterMap part).filter (fun record => decide ((span record).stop.offset ≤ limit)) := by
    unfold completed
    rw [List.filterMap_filter, List.filter_filterMap]
    apply List.filterMap_congr
    intro finding _
    cases found : part finding with
    | none => simp
    | some record =>
        have ends : finding.endsBy limit = decide ((span record).stop.offset ≤ limit) := by
          unfold endsBy
          rw [outlined finding record found]
          rfl
        rw [isOf_of_part finding record found, ends, Bool.true_and]
        rfl
  have cutParts : (cut.filter (isOf kind)).filterMap part = cut.filterMap part := by
    rw [List.filterMap_filter]
    apply List.filterMap_congr
    intro finding _
    cases found : part finding with
    | none => simp
    | some record => rw [isOf_of_part finding record found]; rfl
  rw [← fullParts, ← cutParts]
  exact (survives kind).filterMap part

/-- A record that was complete is still made. -/
theorem Survives.mem_parts {β : Type} (survives : Survives limit full cut) (kind : Kind)
    (part : Finding → Option β) (span : β → Span)
    (outlined : ∀ finding record, part finding = some record →
      finding.outline? = some ((span record).outline kind)) :
    ∀ record ∈ full.filterMap part, (span record).stop.offset ≤ limit →
      record ∈ cut.filterMap part := by
  intro record member ends
  apply (survives.parts kind part span outlined).subset
  exact List.mem_filter.mpr ⟨member, decide_eq_true ends⟩

/-- The first declaration, if it was complete, is still the first. -/
theorem Survives.findSome? (survives : Survives limit full cut) (kind : Kind)
    (part : Finding → Option Span)
    (outlined : ∀ finding span, part finding = some span →
      finding.outline? = some (span.outline kind)) {span : Span}
    (first : full.findSome? part = some span) (ends : span.stop.offset ≤ limit) :
    cut.findSome? part = some span := by
  rw [← List.head?_filterMap] at first ⊢
  obtain ⟨others, parts⟩ := List.head?_eq_some_iff.mp first
  obtain ⟨further, extended⟩ := survives.parts kind part id outlined
  have endsFirst : decide ((id span).stop.offset ≤ limit) = true := decide_eq_true ends
  rw [← extended, parts, List.filter_cons, if_pos endsFirst]
  rfl

theorem outline?_of_structSpan? {finding : Finding} {name : String} {span : Span}
    (declared : finding.structSpan? name = some span) :
    finding.outline? = some (span.outline .struct) := by
  cases finding with
  | struct other extent =>
      by_cases same : other = name
      · rw [structSpan?, if_pos same] at declared
        rw [outline?, Extent.eq_of_span declared]
        rfl
      · rw [structSpan?, if_neg same] at declared
        cases declared
  | _ => cases declared

theorem outline?_of_traitSpan? {finding : Finding} {name : String} {span : Span}
    (declared : finding.traitSpan? name = some span) :
    finding.outline? = some (span.outline .trait) := by
  cases finding with
  | trait other extent =>
      by_cases same : other = name
      · rw [traitSpan?, if_pos same] at declared
        rw [outline?, Extent.eq_of_span declared]
        rfl
      · rw [traitSpan?, if_neg same] at declared
        cases declared
  | _ => cases declared

end Finding

namespace Inventory

/-- Every record of the first inventory that ends by the offset is in the second: in
the same list, or under the same name. -/
structure KeepsCompleted (limit : Nat) (full cut : Inventory) : Prop where
  functions : ∀ function ∈ full.functions, function.span.stop.offset ≤ limit →
    function ∈ cut.functions
  enums : ∀ enum ∈ full.enums, enum.span.stop.offset ≤ limit → enum ∈ cut.enums
  tests : ∀ test ∈ full.tests, test.span.stop.offset ≤ limit → test ∈ cut.tests
  unsafeBlocks : ∀ block ∈ full.unsafeBlocks, block.stop.offset ≤ limit →
    block ∈ cut.unsafeBlocks
  methods : ∀ type ∈ full.types.records, ∀ method ∈ type.methods,
    method.span.stop.offset ≤ limit →
      ∃ kept, cut.type? type.name = some kept ∧ method ∈ kept.methods
  typeSpans : ∀ type ∈ full.types.records, ∀ span, type.span? = some span →
    span.stop.offset ≤ limit →
      ∃ kept, cut.type? type.name = some kept ∧ kept.span? = some span
  traitSpans : ∀ trait ∈ full.traits.records, ∀ span, trait.span? = some span →
    span.stop.offset ≤ limit →
      ∃ kept, cut.trait? trait.name = some kept ∧ kept.span? = some span

variable {limit : Nat} {full cut : List Finding}

theorem type?_of_mem {type : TypeRecord} (member : type ∈ (ofFindings full).types.records) :
    (ofFindings full).type? type.name = some type :=
  (ofFindings_types_indexed full).find?_of_mem member

theorem trait?_of_mem {trait : TraitRecord} (member : trait ∈ (ofFindings full).traits.records) :
    (ofFindings full).trait? trait.name = some trait :=
  (ofFindings_traits_indexed full).find?_of_mem member

private theorem exists_of_getD {α : Type} {found? : Option α} {fresh : α} (property : α → Prop)
    (holds : property (found?.getD fresh)) (notFresh : ¬ property fresh) :
    ∃ record, found? = some record ∧ property record := by
  cases found? with
  | none => exact absurd holds notFresh
  | some record => exact ⟨record, rfl, holds⟩

theorem ofFindings_keepsCompleted (survives : Finding.Survives limit full cut) :
    (ofFindings full).KeepsCompleted limit (ofFindings cut) where
  functions := by
    rw [ofFindings_functions, ofFindings_functions]
    apply survives.mem_parts .function
    intro finding function isFree
    exact Finding.outline?_of_function? (Option.filter_eq_some_iff.mp isFree).1
  enums := by
    rw [ofFindings_enums, ofFindings_enums]
    exact survives.mem_parts .enum _ _ fun _ _ => Finding.outline?_of_enum?
  tests := by
    rw [ofFindings_tests, ofFindings_tests]
    exact survives.mem_parts .test _ _ fun _ _ => Finding.outline?_of_test?
  unsafeBlocks := by
    rw [ofFindings_unsafeBlocks, ofFindings_unsafeBlocks]
    exact survives.mem_parts .unsafeBlock _ id fun _ _ => Finding.outline?_of_block?
  methods := by
    intro type member method isMethod ends
    have fullMethods := ofFindings_type_methods full type.name
    rw [type?_of_mem member, Option.getD_some] at fullMethods
    rw [fullMethods] at isMethod
    have kept := survives.mem_parts .function (Finding.methodOf? type.name) FunctionRecord.span
      (fun _ _ isMethod => Finding.outline?_of_function? (Option.filter_eq_some_iff.mp isMethod).1)
      method isMethod ends
    rw [← ofFindings_type_methods cut] at kept
    exact exists_of_getD (fun record : TypeRecord => method ∈ record.methods) kept List.not_mem_nil
  typeSpans := by
    intro type member span declared ends
    have fullSpan := ofFindings_type_span? full type.name
    rw [type?_of_mem member, Option.getD_some, declared] at fullSpan
    have kept := survives.findSome? .struct _ (fun _ _ => Finding.outline?_of_structSpan?)
      fullSpan.symm ends
    rw [← ofFindings_type_span? cut] at kept
    exact exists_of_getD (fun record : TypeRecord => record.span? = some span) kept nofun
  traitSpans := by
    intro trait member span declared ends
    have fullSpan := ofFindings_trait_span? full trait.name
    rw [trait?_of_mem member, Option.getD_some, declared] at fullSpan
    have kept := survives.findSome? .trait _ (fun _ _ => Finding.outline?_of_traitSpan?)
      fullSpan.symm ends
    rw [← ofFindings_trait_span? cut] at kept
    exact exists_of_getD (fun record : TraitRecord => record.span? = some span) kept nofun

end Inventory

/-- Truncation never loses a completed record: what ends before the cut is recorded in
the inventory of the first part alone. -/
theorem survey_truncated (config : Config) (first second : String)
    (small : Text.byteLength (first ++ second).toList ≤ 2 ^ 32 - 3) :
    ∃ full cut, survey config (first ++ second) = .ok full ∧ survey config first = .ok cut ∧
      full.KeepsCompleted (Text.byteLength first.toList) cut := by
  have firstSmall : Text.byteLength first.toList ≤ 2 ^ 32 - 3 := by
    rw [String.toList_append, Text.byteLength_append] at small
    omega
  refine ⟨_, _, survey_eq config (first ++ second) small, survey_eq config first firstSmall, ?_⟩
  have survives := Finding.ofText_survives config first.toList second.toList
  rw [← String.toList_append] at survives
  have keeps := Inventory.ofFindings_keepsCompleted survives
  exact ⟨keeps.1, keeps.2, keeps.3, keeps.4, keeps.5, keeps.6, keeps.7⟩

/-- The cut falls inside a literal that holds a brace; the function before is kept. -/
theorem survey_truncated_in_literal :
    Text.byteLength ("fn a() \x7b\x7d fn b() \x7b '" ++ "\x7d' \x7d").toList ≤ 2 ^ 32 - 3 ∧
      ∃ full cut,
        survey .standard ("fn a() \x7b\x7d fn b() \x7b '" ++ "\x7d' \x7d") = .ok full ∧
        survey .standard "fn a() \x7b\x7d fn b() \x7b '" = .ok cut ∧
        full.KeepsCompleted 20 cut ∧
        ∃ function ∈ full.functions, function.span.stop.offset ≤ 20 ∧
          function ∈ cut.functions := by
  have small :
      Text.byteLength ("fn a() \x7b\x7d fn b() \x7b '" ++ "\x7d' \x7d").toList ≤ 2 ^ 32 - 3 := by
    decide
  have completes :
      (survey .standard ("fn a() \x7b\x7d fn b() \x7b '" ++ "\x7d' \x7d")).toOption.any
        (fun full => full.functions.any fun function => decide (function.span.stop.offset ≤ 20)) =
          true := by
    decide +kernel
  obtain ⟨full, cut, surveyed, surveyedCut, keeps⟩ :=
    survey_truncated .standard "fn a() \x7b\x7d fn b() \x7b '" "\x7d' \x7d" small
  rw [surveyed] at completes
  obtain ⟨function, member, ends⟩ := List.any_eq_true.mp completes
  have endsBefore := of_decide_eq_true ends
  exact ⟨small, full, cut, surveyed, surveyedCut, keeps, function, member, endsBefore,
    keeps.functions function member endsBefore⟩

end Survey
