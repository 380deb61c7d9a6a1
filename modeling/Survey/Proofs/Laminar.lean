import Survey.Proofs.AuditTotals
import Survey.Proofs.Spans

set_option autoImplicit false

/-!
# Recorded spans are laminar

Two recorded spans lie apart, or one lies in the other, and the latter only where the
text was read twice on purpose. This is the arrangement of the findings, carried over
to the inventory: the order within each list, because a list is written in the order
of the findings; everything else, because lying apart and lying inside do not depend
on an order.
-/

namespace Survey

namespace Span

/-- No byte lies in both spans. -/
def Apart (first second : Span) : Prop := first.Precedes second ∨ second.Precedes first

/-- The spans lie apart, or one of them contains the other. -/
def Nested (first second : Span) : Prop :=
  first.Apart second ∨ first.contains second = true ∨ second.contains first = true

theorem contains_iff (outer inner : Span) :
    outer.contains inner = true ↔
      outer.start.offset ≤ inner.start.offset ∧ inner.stop.offset ≤ outer.stop.offset := by
  unfold contains
  rw [Bool.and_eq_true, decide_eq_true_iff, decide_eq_true_iff]

/-- What lies apart from a span lies apart from all that the span contains. -/
theorem Apart.of_contains {outer inner other : Span} (apart : other.Apart outer)
    (contains : outer.contains inner = true) : other.Apart inner := by
  rw [contains_iff] at contains
  obtain ⟨starts, stops⟩ := contains
  rcases apart with before | behind
  · exact Or.inl (Nat.le_trans before starts)
  · exact Or.inr (Nat.le_trans stops behind)

theorem Apart.not_contains {outer inner : Span} (apart : outer.Apart inner)
    (nonempty : inner.start.offset < inner.stop.offset) : outer.contains inner = false := by
  rw [Bool.eq_false_iff]
  intro contains
  rw [contains_iff] at contains
  have innerOrdered := inner.ordered
  unfold Apart Precedes at apart
  omega

end Span

/-! ### Outlines without an order -/

namespace Outline

def Apart (first second : Outline) : Prop := first.Precedes second ∨ second.Precedes first

/-- How two extents may lie to each other, whichever was reported first. -/
def Related (first second : Outline) : Prop :=
  first.Apart second ∨ first.Encloses second ∨ second.Encloses first

theorem Compatible.related {first second : Outline} (compatible : first.Compatible second) :
    first.Related second := by
  rcases compatible with precedes | encloses
  · exact Or.inl (Or.inl precedes)
  · exact Or.inr encloses

theorem Related.symm {first second : Outline} (related : first.Related second) :
    second.Related first := by
  rcases related with apart | encloses
  · exact Or.inl apart.symm
  · exact Or.inr encloses.symm

theorem Related.apart {first second : Outline} (related : first.Related second)
    (notOuter : first.kind.holds second.kind = false)
    (notInner : second.kind.holds first.kind = false) : first.Apart second := by
  rcases related with apart | outer | inner
  · exact apart
  · rw [outer.1] at notOuter
    cases notOuter
  · rw [inner.1] at notInner
    cases notInner

end Outline

theorem Kind.not_holds_self (kind : Kind) : kind.holds kind = false := by
  cases kind <;> rfl

/-- The kinds of which none holds another. -/
def Kind.isDeclaration : Kind → Bool
  | .function | .struct | .enum | .test => true
  | .unsafeBlock | .trait => false

theorem Kind.not_holds_declaration {outer inner : Kind} (outerDeclares : outer.isDeclaration = true)
    (innerDeclares : inner.isDeclaration = true) : outer.holds inner = false := by
  revert outerDeclares innerDeclares
  cases outer <;> cases inner <;> decide

namespace Inventory

/-! ### Lists in the order of the text -/

/-- Findings of one kind lie one behind the other, in the order in which they were
reported. -/
theorem pairwise_precedes_of_part {β : Type} {found : List Finding}
    (compatible : (Finding.outlines found).Pairwise Outline.Compatible)
    (part : Finding → Option β) (span : β → Span) (kind : Kind)
    (outlined : ∀ finding record, part finding = some record →
      finding.outline? = some ((span record).outline kind)) :
    (found.filterMap part).Pairwise fun first second => (span first).Precedes (span second) := by
  unfold Finding.outlines at compatible
  rw [List.pairwise_filterMap] at compatible ⊢
  apply compatible.imp
  intro first second lie firstRecord firstPart secondRecord secondPart
  have notHeld := Kind.not_holds_self kind
  rcases lie _ (outlined first firstRecord firstPart) _ (outlined second secondRecord secondPart)
    with precedes | encloses | encloses
  · exact precedes
  · exact absurd encloses.1 (by rw [Bool.not_eq_true]; exact notHeld)
  · exact absurd encloses.1 (by rw [Bool.not_eq_true]; exact notHeld)

/-- What may hold an unsafe block: functions, methods and tests. -/
def bodies (inventory : Inventory) : List Span :=
  inventory.allFunctions.map FunctionRecord.span ++ inventory.tests.map TestRecord.span

/-- The spans of functions, methods, declared types, enumerations and tests. -/
def declarations (inventory : Inventory) : List Span :=
  inventory.allFunctions.map FunctionRecord.span ++
    inventory.types.records.filterMap TypeRecord.span? ++
    inventory.enums.map EnumRecord.span ++
    inventory.tests.map TestRecord.span

/-- The recorded spans form an ordered laminar family. -/
structure Laminar (inventory : Inventory) : Prop where
  functions_ordered : inventory.functions.Pairwise fun first second =>
    first.span.Precedes second.span
  enums_ordered : inventory.enums.Pairwise fun first second => first.span.Precedes second.span
  tests_ordered : inventory.tests.Pairwise fun first second => first.span.Precedes second.span
  blocks_ordered : inventory.unsafeBlocks.Pairwise Span.Precedes
  methods_ordered : ∀ type ∈ inventory.types.records,
    type.methods.Pairwise fun first second => first.span.Precedes second.span
  declarations_apart : inventory.declarations.Pairwise Span.Apart
  spans_nested : inventory.spans.Pairwise Span.Nested
  /-- A block lies in exactly one body, or lies apart from all of them. -/
  blocks_held : ∀ block ∈ inventory.unsafeBlocks,
    (∀ body ∈ inventory.bodies, body.Apart block) ∨
    ∃ before body after, inventory.bodies = before ++ body :: after ∧
      body.contains block = true ∧
      ∀ other ∈ before ++ after, other.Apart block ∧ other.contains block = false

/-! ### Everything else -/

theorem outlines_related {found : List Finding}
    (compatible : (Finding.outlines found).Pairwise Outline.Compatible) :
    (ofFindings found).outlines.Pairwise Outline.Related := by
  obtain ⟨listed, same, chosen⟩ := ofFindings_outlines_subperm found
  have related := (compatible.imp Outline.Compatible.related).sublist chosen
  exact same.pairwise related Outline.Related.symm

/-- Outlines of one inventory, opened into spans. -/
private theorem pairwise_of_outlines {outlines : List Outline} {spans : List Span}
    {lie : Outline → Outline → Prop} {spansLie : Span → Span → Prop}
    (opened : outlines.map Outline.extent = spans.map Span.extent)
    (pairwise : outlines.Pairwise lie)
    (carried : ∀ first second firstSpan secondSpan, first.extent = Span.extent firstSpan →
      second.extent = Span.extent secondSpan → lie first second →
        spansLie firstSpan secondSpan) :
    spans.Pairwise spansLie := by
  have lies : (outlines.map Outline.extent).Pairwise fun first second =>
      ∃ firstKind secondKind, lie ⟨firstKind, first⟩ ⟨secondKind, second⟩ := by
    rw [List.pairwise_map]
    apply pairwise.imp
    intro first second related
    exact ⟨first.kind, second.kind, related⟩
  rw [opened, List.pairwise_map] at lies
  apply lies.imp
  rintro first second ⟨firstKind, secondKind, related⟩
  exact carried _ _ first second rfl rfl related

theorem spans_nested {inventory : Inventory}
    (related : inventory.outlines.Pairwise Outline.Related) :
    inventory.spans.Pairwise Span.Nested := by
  refine pairwise_of_outlines inventory.outlines_extents related ?_
  rintro ⟨firstKind, _⟩ ⟨secondKind, _⟩ first second rfl rfl lie
  unfold Span.Nested
  rw [Span.contains_iff, Span.contains_iff]
  rcases lie with apart | encloses | encloses
  · exact Or.inl apart
  · exact Or.inr (Or.inl encloses.2)
  · exact Or.inr (Or.inr encloses.2)

/-- The outlines of `declarations`. -/
def declarationOutlines (inventory : Inventory) : List Outline :=
  inventory.allFunctions.map (·.span.outline .function) ++
    inventory.types.records.filterMap (·.span?.map (Span.outline .struct)) ++
    inventory.enums.map (·.span.outline .enum) ++
    inventory.tests.map (·.span.outline .test)

theorem declarationOutlines_sublist (inventory : Inventory) :
    inventory.declarationOutlines.Sublist inventory.outlines := by
  unfold declarationOutlines outlines
  exact ((List.sublist_append_left _ _).append (List.Sublist.refl _)).trans
    (List.sublist_append_left _ _)

theorem declarationOutlines_extents (inventory : Inventory) :
    inventory.declarationOutlines.map Outline.extent =
      inventory.declarations.map Span.extent := by
  unfold declarationOutlines declarations
  simp only [List.map_append, List.map_map, List.map_filterMap, Span.map_outline_extent]
  rfl

theorem isDeclaration_of_mem {inventory : Inventory} {outline : Outline}
    (member : outline ∈ inventory.declarationOutlines) : outline.kind.isDeclaration = true := by
  unfold declarationOutlines at member
  simp only [List.mem_append, List.mem_map, List.mem_filterMap, Option.map_eq_some_iff] at member
  rcases member with ((⟨_, _, rfl⟩ | ⟨_, _, _, _, rfl⟩) | ⟨_, _, rfl⟩) | ⟨_, _, rfl⟩ <;> rfl

theorem declarations_apart {inventory : Inventory}
    (related : inventory.outlines.Pairwise Outline.Related) :
    inventory.declarations.Pairwise Span.Apart := by
  have apart : inventory.declarationOutlines.Pairwise Outline.Apart := by
    apply (related.sublist inventory.declarationOutlines_sublist).imp_of_mem
    intro first second firstMember secondMember lie
    have firstKind := isDeclaration_of_mem firstMember
    have secondKind := isDeclaration_of_mem secondMember
    exact lie.apart (Kind.not_holds_declaration firstKind secondKind)
      (Kind.not_holds_declaration secondKind firstKind)
  refine pairwise_of_outlines inventory.declarationOutlines_extents apart ?_
  rintro ⟨firstKind, _⟩ ⟨secondKind, _⟩ first second rfl rfl lie
  exact lie

theorem bodies_sublist (inventory : Inventory) :
    inventory.bodies.Sublist inventory.declarations := by
  unfold bodies declarations
  rw [List.append_assoc (inventory.allFunctions.map FunctionRecord.span)]
  exact (List.sublist_append_left _ _).append (List.Sublist.refl _)

/-- A body contains a block or lies apart from it. -/
theorem body_block {inventory : Inventory}
    (related : inventory.outlines.Pairwise Outline.Related) {body block : Span}
    (bodyMember : body ∈ inventory.bodies) (blockMember : block ∈ inventory.unsafeBlocks) :
    body.Apart block ∨ body.contains block = true := by
  have bodyOutlined : ∃ kind, kind.isDeclaration = true ∧
      Outline.Related (body.outline kind) (block.outline .unsafeBlock) := by
    unfold outlines at related
    have behind := (List.pairwise_append.mp related).2.2
    unfold bodies at bodyMember
    rcases List.mem_append.mp bodyMember with isFunction | isTest
    · obtain ⟨function, functionMember, rfl⟩ := List.mem_map.mp isFunction
      refine ⟨.function, rfl, behind _ ?_ _ (List.mem_map_of_mem blockMember)⟩
      simp only [List.mem_append]
      exact Or.inl (Or.inl (Or.inl (Or.inl (List.mem_map_of_mem functionMember))))
    · obtain ⟨test, testMember, rfl⟩ := List.mem_map.mp isTest
      refine ⟨.test, rfl, behind _ ?_ _ (List.mem_map_of_mem blockMember)⟩
      exact List.mem_append_right _ (List.mem_map_of_mem testMember)
  obtain ⟨kind, declares, lie⟩ := bodyOutlined
  rcases lie with apart | encloses | encloses
  · exact Or.inl apart
  · exact Or.inr ((Span.contains_iff body block).mpr encloses.2)
  · have held := encloses.1
    cases kind <;> cases held

/-- A block lies in exactly one body, or apart from all of them. -/
theorem blocks_held {inventory : Inventory}
    (related : inventory.outlines.Pairwise Outline.Related) {block : Span}
    (blockMember : block ∈ inventory.unsafeBlocks)
    (nonempty : block.start.offset < block.stop.offset) :
    (∀ body ∈ inventory.bodies, body.Apart block) ∨
    ∃ before body after, inventory.bodies = before ++ body :: after ∧
      body.contains block = true ∧
      ∀ other ∈ before ++ after, other.Apart block ∧ other.contains block = false := by
  by_cases held : ∃ body ∈ inventory.bodies, body.contains block = true
  · right
    obtain ⟨body, bodyMember, contains⟩ := held
    obtain ⟨before, after, split⟩ := List.append_of_mem bodyMember
    refine ⟨before, body, after, split, contains, ?_⟩
    have apart := (declarations_apart related).sublist inventory.bodies_sublist
    rw [split, List.pairwise_append, List.pairwise_cons] at apart
    obtain ⟨-, ⟨afterApart, -⟩, beforeApart⟩ := apart
    intro other otherMember
    have otherApart : other.Apart body := by
      rcases List.mem_append.mp otherMember with isBefore | isAfter
      · exact beforeApart other isBefore body List.mem_cons_self
      · exact (afterApart other isAfter).symm
    have otherApartBlock := otherApart.of_contains contains
    exact ⟨otherApartBlock, otherApartBlock.not_contains nonempty⟩
  · left
    intro body bodyMember
    rcases body_block related bodyMember blockMember with apart | contains
    · exact apart
    · exact absurd ⟨body, bodyMember, contains⟩ held

theorem ofFindings_laminar {found : List Finding}
    (compatible : (Finding.outlines found).Pairwise Outline.Compatible)
    (nonempty : ∀ outline ∈ Finding.outlines found,
      outline.extent.start.offset < outline.extent.stop.offset) :
    (ofFindings found).Laminar where
  functions_ordered := by
    rw [ofFindings_functions]
    apply pairwise_precedes_of_part compatible Finding.freeFunction? FunctionRecord.span .function
    intro finding function isFree
    exact Finding.outline?_of_function? (Option.filter_eq_some_iff.mp isFree).1
  enums_ordered := by
    rw [ofFindings_enums]
    exact pairwise_precedes_of_part compatible Finding.enum? EnumRecord.span .enum
      fun _ _ => Finding.outline?_of_enum?
  tests_ordered := by
    rw [ofFindings_tests]
    exact pairwise_precedes_of_part compatible Finding.test? TestRecord.span .test
      fun _ _ => Finding.outline?_of_test?
  blocks_ordered := by
    rw [ofFindings_unsafeBlocks]
    exact pairwise_precedes_of_part compatible Finding.block? id .unsafeBlock
      fun _ _ => Finding.outline?_of_block?
  methods_ordered := by
    intro type member
    have methods := ofFindings_type_methods found type.name
    unfold type? at methods
    rw [(ofFindings_types_indexed found).find?_of_mem member, Option.getD_some] at methods
    rw [methods]
    apply pairwise_precedes_of_part compatible (Finding.methodOf? type.name)
      FunctionRecord.span .function
    intro finding function isMethod
    exact Finding.outline?_of_function? (Option.filter_eq_some_iff.mp isMethod).1
  declarations_apart := declarations_apart (outlines_related compatible)
  spans_nested := spans_nested (outlines_related compatible)
  blocks_held := by
    intro block member
    apply blocks_held (outlines_related compatible) member
    apply spans_of_outlines (fun extent => extent.start.offset < extent.stop.offset) nonempty
    exact List.mem_append_right _ member

/-- Only the length of an inventory depends on more than its findings. -/
theorem Laminar.withLength {inventory : Inventory} (laminar : inventory.Laminar) (length : Nat) :
    (inventory.withLength length).Laminar :=
  ⟨laminar.1, laminar.2, laminar.3, laminar.4, laminar.5, laminar.6, laminar.7, laminar.8⟩

end Inventory

/-- The inventory of a text of at most 2^32 - 3 bytes is laminar. So its audit does
not fail and counts every byte of every unsafe block once. -/
theorem survey_laminar (config : Config) (text : String)
    (small : Text.byteLength text.toList ≤ 2 ^ 32 - 3) :
    ∃ inventory, survey config text = .ok inventory ∧ inventory.Laminar ∧
      ∃ audit, inventory.audit = .ok audit ∧
        audit.unsafeBytes = (inventory.unsafeBlocks.map Span.length).sum ∧
        audit.unsafeBytes ≤ audit.totalBytes := by
  have arranged := Finding.ofText_arranged config text.toList
  have laminar := (Inventory.ofFindings_laminar arranged.compatible
    (fun outline member => (arranged.liesIn outline member).start_lt)).withLength
    (Text.byteLength text.toList)
  refine ⟨_, survey_eq config text small, laminar, ?_⟩
  have stopTrue := Inventory.spans_of_outlines (fun extent => extent.stop.IsTrueIn text.toList)
    (fun outline member => (arranged.liesIn outline member).stop_isTrue)
  have blockTrue : ∀ block ∈
      (Inventory.ofFindings (Finding.ofText config text.toList)).unsafeBlocks,
      block.stop.IsTrueIn text.toList := by
    intro block member
    exact stopTrue block (List.mem_append_right _ member)
  have limit : Counter.limit = 2 ^ 32 := rfl
  obtain ⟨audit, audited, bytes, within, -, -⟩ := Inventory.audit_of_ordered laminar.blocks_ordered
    (fun block member => (blockTrue block member).offset_le)
    (fun block member => by
      have line := (blockTrue block member).line_le
      change block.stop.line ≤ Text.byteLength text.toList + 1
      omega)
    (by
      change Text.byteLength text.toList + 2 < Counter.limit
      omega)
  exact ⟨audit, audited, bytes, within⟩

theorem survey_laminar_short :
    Text.byteLength "fn f() \x7b unsafe \x7b \x7d \x7d".toList ≤ 2 ^ 32 - 3 ∧
      ∃ inventory, survey .standard "fn f() \x7b unsafe \x7b \x7d \x7d" = .ok inventory ∧
        inventory.Laminar := by
  have small : Text.byteLength "fn f() \x7b unsafe \x7b \x7d \x7d".toList ≤ 2 ^ 32 - 3 := by
    decide
  obtain ⟨inventory, surveyed, laminar, -⟩ := survey_laminar .standard _ small
  exact ⟨small, inventory, surveyed, laminar⟩

end Survey
