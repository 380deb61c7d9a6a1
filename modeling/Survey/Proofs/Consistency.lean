import Survey.Proofs.Origins
import Survey.Proofs.Truncation

set_option autoImplicit false

/-!
# Referential consistency

An inventory is made of findings, so its references are sound as soon as the findings
are: a function that names an owner is found together with the implementation or the
trait that it lies in. Which names a roster holds, and which traits a type lists, depends
only on which findings there are and not on their order. Nothing nameless is found.
-/

namespace Survey

/-! ### Trimmed texts -/

namespace Text

/-- The text is not empty, and no white space stands at its ends. -/
structure IsTrimmed (text : List Char) : Prop where
  filled : text ≠ []
  start : ∀ c, text.head? = some c → isWhiteSpace c = false
  stop : ∀ c, text.getLast? = some c → isWhiteSpace c = false

theorem head?_dropWhile_isWhiteSpace {text : List Char} {c : Char}
    (first : (text.dropWhile isWhiteSpace).head? = some c) : isWhiteSpace c = false := by
  have stops := List.head?_dropWhile_not isWhiteSpace text
  rw [first] at stops
  simpa using stops

theorem trim_isTrimmed {text : List Char} (filled : trim text ≠ []) : IsTrimmed (trim text) where
  filled := filled
  start c first := by
    obtain ⟨after, split⟩ := trimEnd_isPrefix (trimStart text)
    have same : (trimStart text).head? = (trim text).head? := by
      rw [← split]
      exact List.head?_append_of_ne_nil _ filled
    rw [← same] at first
    exact head?_dropWhile_isWhiteSpace first
  stop c last := by
    unfold trim trimEnd at last
    rw [List.getLast?_reverse] at last
    exact head?_dropWhile_isWhiteSpace last

end Text

theorem Signature.isTrimmed_of_parameters {text parameter : List Char}
    (member : parameter ∈ parameters text) : Text.IsTrimmed parameter := by
  obtain ⟨isPart, filled⟩ := List.mem_filter.mp member
  obtain ⟨part, -, rfl⟩ := List.mem_map.mp isPart
  apply Text.trim_isTrimmed
  simpa using filled

theorem Signature.isTrimmed_of_functionParts {text parameter : List Char}
    (member : parameter ∈ (functionParts text).parameters) : Text.IsTrimmed parameter := by
  unfold functionParts at member
  dsimp only at member
  split at member
  · split at member
    · exact isTrimmed_of_parameters member
    · exact isTrimmed_of_parameters member
  · cases member

theorem VariantList.isTrimmed_note {variant : List Char} {noted : List (List Char)}
    (trimmed : ∀ written ∈ noted, Text.IsTrimmed written) :
    ∀ written ∈ note variant noted, Text.IsTrimmed written := by
  unfold note
  dsimp only
  split
  · exact trimmed
  · rename_i filled
    refine List.forall_mem_cons.mpr ⟨?_, trimmed⟩
    apply Text.trim_isTrimmed
    simpa using filled

theorem VariantList.isTrimmed_readFrom (variant : List Char) (noted : List (List Char))
    (taken : Nat) (text : List Char) (trimmed : ∀ written ∈ noted, Text.IsTrimmed written) :
    ∀ written ∈ (readFrom variant noted taken text).variants, Text.IsTrimmed written := by
  fun_induction readFrom variant noted taken text with
  | case1 variant noted taken text atEnd =>
      intro written member
      exact isTrimmed_note trimmed written (List.mem_reverse.mp member)
  | case4 variant noted taken text length found =>
      intro written member
      exact isTrimmed_note trimmed written (List.mem_reverse.mp member)
  | case5 variant noted taken text length found notBrace ih => exact ih (isTrimmed_note trimmed)
  | case2 | case3 | case7 | case8 =>
      rename_i ih
      exact ih trimmed
  | case6 =>
      rename_i ih
      exact ih trimmed

namespace Finding

/-! ### Names -/

/-- Whatever has a name has one that is not empty; parameters and variants are trimmed. -/
def IsNamed : Finding → Prop
  | .function draft _ =>
      draft.name ≠ "" ∧ ∀ parameter ∈ draft.parameters, Text.IsTrimmed parameter.toList
  | .struct name _ | .trait name _ | .test name _ => name ≠ ""
  | .enum name variants _ => name ≠ "" ∧ ∀ variant ∈ variants, Text.IsTrimmed variant.toList
  | .target typeName traitName? =>
      typeName ≠ "" ∧ ∀ traitName, traitName? = some traitName → traitName ≠ ""
  | _ => True

theorem ofList_ne_empty {name : List Char} (named : name ≠ []) : String.ofList name ≠ "" := by
  intro empty
  apply named
  have same := congrArg String.toList empty
  simpa using same

theorem isTrimmed_map_ofList {parts : List (List Char)}
    (trimmed : ∀ part ∈ parts, Text.IsTrimmed part) :
    ∀ part ∈ parts.map String.ofList, Text.IsTrimmed part.toList := by
  intro part member
  obtain ⟨written, isPart, rfl⟩ := List.mem_map.mp member
  rw [String.toList_ofList]
  exact trimmed written isPart

theorem traitName?_ne_nil {text name : List Char} (found : Signature.traitName? text = some name) :
    name ≠ [] := by
  unfold Signature.traitName? at found
  dsimp only at found
  split at found
  · cases found
  · rename_i filled
    cases found
    simpa using filled

theorem isNamed_target {resolved : Signature.Target} {text : List Char}
    (isResolved : Signature.target? text = some resolved) :
    IsNamed (.target (String.ofList resolved.typeName)
      (resolved.traitName?.map String.ofList)) := by
  unfold Signature.target? at isResolved
  dsimp only at isResolved
  split at isResolved
  · split at isResolved
    · cases isResolved
    · rename_i typeNamed
      cases isResolved
      refine ⟨ofList_ne_empty (by simpa using typeNamed), ?_⟩
      intro traitName isTrait
      obtain ⟨written, isWritten, rfl⟩ := Option.map_eq_some_iff.mp isTrait
      exact ofList_ne_empty (traitName?_ne_nil isWritten)
  · split at isResolved
    · cases isResolved
    · rename_i typeNamed
      cases isResolved
      refine ⟨ofList_ne_empty (by simpa using typeNamed), ?_⟩
      intro traitName isTrait
      cases isTrait

theorem Origin.isNamed {stands behind : Cursor → Prop} {finding : Finding}
    (origin : Origin stands behind finding) : finding.IsNamed := by
  cases origin with
  | unsafeBlock standing next marks opens => trivial
  | function owner blocks standing next announces taken named =>
      refine ⟨ofList_ne_empty named, isTrimmed_map_ofList ?_⟩
      intro parameter member
      rw [← taken] at member
      exact Signature.isTrimmed_of_functionParts member
  | struct standing next announces named => exact ofList_ne_empty named
  | enum standing next announces named read =>
      refine ⟨ofList_ne_empty named, isTrimmed_map_ofList ?_⟩
      rw [read]
      split
      · exact VariantList.isTrimmed_readFrom [] [] 0 _ nofun
      · exact nofun
  | trait standing next announces named => exact ofList_ne_empty named
  | test standing next isHash named atName => exact ofList_ne_empty named
  | target isResolved => exact isNamed_target isResolved
  | testModule line => trivial
  | notice isNotice => cases finding <;> trivial

theorem ofText_isNamed (config : Config) (text : List Char) :
    ∀ finding ∈ ofText config text, finding.IsNamed := by
  have anywhere : Course (fun _ => True) (fun _ => True) := by
    constructor <;> intros <;> trivial
  intro finding member
  exact (anywhere.ofText_origins config trivial finding member).isNamed

/-! ### Owners -/

/-- If the finding is a function, it has this owner. -/
def IsOwnedBy (owner : Owner) : Finding → Prop
  | .function draft _ => draft.owner = owner
  | _ => True

/-- What the owner names is among the findings. -/
def Grounds (found : List Finding) (owner : Owner) : Prop :=
  (∀ typeName, owner.type? = some typeName → .target typeName owner.trait? ∈ found) ∧
    (owner.type? = none → ∀ traitName, owner.trait? = some traitName →
      ∃ extent, .trait traitName extent ∈ found)

/-- Every function is found together with what its owner names. -/
def Grounded (found : List Finding) : Prop :=
  ∀ draft blocks, .function draft blocks ∈ found → Grounds found draft.owner

variable {found first second : List Finding} {owner : Owner} {cursor : Cursor}

theorem Grounds.mono (grounds : Grounds first owner) (more : first ⊆ second) :
    Grounds second owner := by
  refine ⟨fun typeName isType => more (grounds.1 typeName isType), ?_⟩
  intro noType traitName isTrait
  obtain ⟨extent, member⟩ := grounds.2 noType traitName isTrait
  exact ⟨extent, more member⟩

theorem Grounded.append (before : Grounded first) (after : Grounded second) :
    Grounded (first ++ second) := by
  intro draft blocks member
  rcases List.mem_append.mp member with inFirst | inSecond
  · exact (before draft blocks inFirst).mono (List.subset_append_left _ _)
  · exact (after draft blocks inSecond).mono (List.subset_append_right _ _)

theorem grounded_of_owned (owner : Owner) (owned : ∀ finding ∈ found, finding.IsOwnedBy owner)
    (grounds : Grounds found owner) : Grounded found := by
  intro draft blocks member
  have isOwner : draft.owner = owner := owned _ member
  rw [isOwner]
  exact grounds

theorem grounds_none (found : List Finding) : Grounds found .none :=
  ⟨nofun, nofun⟩

theorem grounded_of_none (owned : ∀ finding ∈ found, finding.IsOwnedBy .none) : Grounded found :=
  grounded_of_owned .none owned (grounds_none found)

/-- The finding sums up no body, and if it is a function, it has this owner. -/
def IsPlain (owner : Owner) : Finding → Prop
  | .function draft _ => draft.owner = owner
  | .traitBody _ _ _ | .implementationBody _ _ _ => False
  | _ => True

theorem IsPlain.isOwnedBy {finding : Finding} (plain : finding.IsPlain owner) :
    finding.IsOwnedBy owner := by
  cases finding with
  | function draft blocks => exact plain
  | _ => trivial

theorem plain_singleton {finding : Finding} (plain : finding.IsPlain owner) :
    ∀ other ∈ [finding], other.IsPlain owner := by
  intro other member
  rw [List.mem_singleton.mp member]
  exact plain

/-- What is found behind one token of a file: findings that stand alone, or a trait or an
implementation with what its body holds and the number of functions there. -/
inductive Batch : List Finding → Prop
  | plain {found : List Finding} (all : ∀ finding ∈ found, finding.IsPlain .none) : Batch found
  | trait {name : String} (extent : Extent) {inside : List Finding} (line : Nat)
      (all : ∀ finding ∈ inside, finding.IsPlain ⟨none, some name⟩) :
      Batch (.trait name extent ::
        (inside ++ [.traitBody name line (inside.countP isFunction)]))
  | implementation {typeName : String} {traitName? : Option String} {inside : List Finding}
      (line : Nat) (all : ∀ finding ∈ inside, finding.IsPlain ⟨some typeName, traitName?⟩) :
      Batch (.target typeName traitName? ::
        (inside ++ [.implementationBody typeName line (inside.countP isFunction)]))

theorem Batch.grounded (batch : Batch found) : Grounded found := by
  cases batch with
  | plain all => exact grounded_of_none fun finding member => (all finding member).isOwnedBy
  | @trait name extent inside line all =>
      apply grounded_of_owned ⟨none, some name⟩
      · simp only [List.forall_mem_cons, List.forall_mem_append]
        exact ⟨trivial, fun finding member => (all finding member).isOwnedBy, trivial, nofun⟩
      · refine ⟨nofun, ?_⟩
        intro _ traitName isTrait
        cases isTrait
        exact ⟨extent, List.mem_cons_self⟩
  | @implementation typeName traitName? inside line all =>
      apply grounded_of_owned ⟨some typeName, traitName?⟩
      · simp only [List.forall_mem_cons, List.forall_mem_append]
        exact ⟨trivial, fun finding member => (all finding member).isOwnedBy, trivial, nofun⟩
      · refine ⟨?_, nofun⟩
        intro name isType
        cases isType
        exact List.mem_cons_self

theorem afterUnsafe_plain (owner : Owner) :
    ∀ finding ∈ (afterUnsafe cursor).found, finding.IsPlain owner := by
  unfold afterUnsafe
  dsimp only
  split
  · simp [IsPlain]
  · split
    · simp [IsPlain]
    · exact nofun

theorem unsafeIn_plain (owner : Owner) (cursor : Cursor) :
    ∀ finding ∈ unsafeIn cursor, finding.IsPlain owner := by
  induction cursor using Cursor.significant_induction with
  | atEnd cursor atEnd =>
      rw [unsafeIn_of_none atEnd]
      exact nofun
  | onward cursor token length next ih =>
      rw [unsafeIn_of_some next, List.forall_mem_append]
      refine ⟨?_, ih _⟩
      unfold inBody
      split
      · exact nofun
      · split
        · exact afterUnsafe_plain owner
        · exact nofun

theorem afterFunction_plain (owner : Owner) (start : Position) (cursor : Cursor) :
    ∀ finding ∈ (afterFunction owner start cursor).found, finding.IsPlain owner := by
  unfold afterFunction
  split
  · exact nofun
  · dsimp only
    rw [List.forall_mem_append]
    constructor
    · split <;> simp [IsPlain]
    · split
      · exact nofun
      · unfold ofFunction
        rw [List.forall_mem_append]
        refine ⟨unsafeIn_plain owner _, ?_⟩
        simp [IsPlain]

theorem items_plain (owner : Owner) (cursor : Cursor) :
    ∀ finding ∈ (items owner cursor).found, finding.IsPlain owner := by
  induction cursor using Cursor.significant_induction with
  | atEnd cursor atEnd =>
      rw [items_of_none atEnd]
      exact nofun
  | onward cursor token length next ih =>
      by_cases closes : token.tag = .closeBrace
      · rw [items_of_close next closes]
        exact nofun
      · rw [items_of_some next closes]
        dsimp only
        rw [List.forall_mem_append]
        refine ⟨?_, ih _⟩
        unfold amongItems
        split
        · exact nofun
        · exact nofun
        · exact nofun
        · split
          · exact afterFunction_plain owner token.start _
          · exact nofun

theorem afterStruct_plain (owner : Owner) (start : Position) (cursor : Cursor) :
    ∀ finding ∈ (afterStruct start cursor).found, finding.IsPlain owner := by
  unfold afterStruct
  dsimp only
  split
  · exact nofun
  · exact plain_singleton trivial

theorem afterEnum_plain (owner : Owner) (start : Position) (cursor : Cursor) :
    ∀ finding ∈ (afterEnum start cursor).found, finding.IsPlain owner := by
  unfold afterEnum
  dsimp only
  split
  · exact nofun
  · dsimp only
    rw [List.forall_mem_append]
    refine ⟨?_, plain_singleton trivial⟩
    generalize VariantList.isClosed _ = closed
    cases closed with
    | true => exact nofun
    | false => exact plain_singleton trivial

theorem afterTestMark_plain (owner : Owner) (start : Position) (cursor : Cursor) :
    ∀ finding ∈ (afterTestMark start cursor).found, finding.IsPlain owner := by
  unfold afterTestMark
  split
  · exact nofun
  · dsimp only
    rw [List.forall_mem_append]
    exact ⟨unsafeIn_plain owner _, plain_singleton trivial⟩

theorem afterHash_plain (config : Config) (owner : Owner) (start : Position) (cursor : Cursor) :
    ∀ finding ∈ (afterHash config start cursor).found, finding.IsPlain owner := by
  unfold afterHash
  split
  · exact nofun
  · split
    · exact plain_singleton trivial
    · split
      · exact afterTestMark_plain owner start _
      · exact nofun

theorem afterTrait_batch (start : Position) (cursor : Cursor) :
    Batch (afterTrait start cursor).found := by
  unfold afterTrait
  dsimp only
  split
  · exact .plain nofun
  · split
    · exact .plain (plain_singleton trivial)
    · exact .trait _ _ (items_plain _ _)

theorem afterImplementation_batch (start : Position) (cursor : Cursor) :
    Batch (afterImplementation start cursor).found := by
  unfold afterImplementation
  dsimp only
  split
  · exact .plain (plain_singleton trivial)
  · exact .plain nofun
  · split
    · exact .plain (plain_singleton trivial)
    · exact .implementation _ (items_plain _ _)

theorem afterKeyword_batch (keyword : Keyword) (start : Position) (cursor : Cursor) :
    Batch (afterKeyword keyword start cursor).found := by
  cases keyword with
  | function => exact .plain (afterFunction_plain .none start cursor)
  | struct => exact .plain (afterStruct_plain .none start cursor)
  | enum => exact .plain (afterEnum_plain .none start cursor)
  | trait => exact afterTrait_batch start cursor
  | implementation => exact afterImplementation_batch start cursor
  | unsafeMark => exact .plain (afterUnsafe_plain .none)
  | macroRules => exact .plain nofun

theorem inFile_batch (config : Config) (inDefinition : Bool) (token : Token) (cursor : Cursor) :
    Batch (inFile config inDefinition token cursor).found := by
  unfold inFile
  split
  · exact .plain nofun
  · exact .plain (afterHash_plain config .none token.start cursor)
  · split
    · exact afterKeyword_batch _ _ _
    · exact .plain nofun

theorem stream_grounded (config : Config) (inDefinition : Bool) (cursor : Cursor) :
    Grounded (stream config inDefinition cursor) := by
  induction cursor using Cursor.significant_induction generalizing inDefinition with
  | atEnd cursor atEnd =>
      rw [stream_of_none atEnd]
      exact nofun
  | onward cursor token length next ih =>
      rw [stream_of_some next]
      exact (inFile_batch config inDefinition token _).grounded.append (ih _ _)

/-! ### What records are made of -/

theorem eq_of_function? {finding : Finding} {function : FunctionRecord}
    (recorded : finding.function? = some function) :
    ∃ draft blocks, finding = .function draft blocks ∧ function.name = draft.name ∧
      function.parameters = draft.parameters ∧ function.owner = draft.owner := by
  cases finding with
  | function draft blocks =>
      rw [function?, FunctionDraft.record] at recorded
      cases spanned : draft.extent.span with
      | error fault =>
          rw [spanned] at recorded
          cases recorded
      | ok span =>
          rw [spanned] at recorded
          cases recorded
          exact ⟨draft, blocks, rfl, rfl, rfl, rfl⟩
  | _ => cases recorded

end Finding

namespace Roster.Indexed

variable {α : Type} {key : α → String} {roster : Roster α} {fresh : String → α}
variable {edit? : Option (String × (α → α))}

theorem mem_names_edit (indexed : roster.Indexed key) (named : ∀ name, key (fresh name) = name)
    (keeps : KeepsKey key edit?) (name : String) :
    name ∈ (roster.edit fresh edit?).names key ↔
      name ∈ roster.names key ∨ ∃ change, edit? = some (name, change) := by
  cases edit? with
  | none => simp
  | some pair =>
      obtain ⟨mentioned, change⟩ := pair
      rw [edit_some, indexed.names_touch (keeps mentioned change rfl) (named mentioned)]
      split
      · rename_i known
        constructor
        · exact .inl
        · rintro (member | ⟨other, same⟩)
          · exact member
          · cases same
            exact known
      · simp [List.mem_append, eq_comm]

end Roster.Indexed

namespace Inventory

/-- The references of the inventory are sound, and nothing in it is nameless. -/
structure Consistent (inventory : Inventory) : Prop where
  typeNames_nodup : (inventory.types.records.map TypeRecord.name).Nodup
  type?_eq_some_iff : ∀ name type, inventory.type? name = some type ↔
    type ∈ inventory.types.records ∧ type.name = name
  traitNames_nodup : (inventory.traits.records.map TraitRecord.name).Nodup
  trait?_eq_some_iff : ∀ name trait, inventory.trait? name = some trait ↔
    trait ∈ inventory.traits.records ∧ trait.name = name
  traits_nodup : ∀ type ∈ inventory.types.records, type.traits.Nodup
  traits_recorded : ∀ type ∈ inventory.types.records, ∀ name ∈ type.traits,
    ∃ trait ∈ inventory.traits.records, trait.name = name
  methods_owned : ∀ type ∈ inventory.types.records, ∀ method ∈ type.methods,
    method.owner.type? = some type.name ∧
      ∀ name, method.owner.trait? = some name → name ∈ type.traits
  functions_owned : ∀ function ∈ inventory.functions, function.owner.type? = none ∧
    ∀ name, function.owner.trait? = some name →
      ∃ trait ∈ inventory.traits.records, trait.name = name ∧ trait.span?.isSome = true
  traits_listed : ∀ trait ∈ inventory.traits.records, trait.span? = none →
    ∃ type ∈ inventory.types.records, trait.name ∈ type.traits
  types_named : ∀ type ∈ inventory.types.records, type.name ≠ ""
  traits_named : ∀ trait ∈ inventory.traits.records, trait.name ≠ ""
  functions_named : ∀ function ∈ inventory.allFunctions, function.name ≠ "" ∧
    ∀ parameter ∈ function.parameters, Text.IsTrimmed parameter.toList
  enums_named : ∀ enum ∈ inventory.enums, enum.name ≠ "" ∧
    ∀ variant ∈ enum.variants, Text.IsTrimmed variant.toList
  tests_named : ∀ test ∈ inventory.tests, test.name ≠ ""

/-- A roster holds the names that findings mention. -/
private theorem mem_names_ofFindings {α : Type} {key : α → String} {fresh : String → α}
    {edit? : Finding → Option (String × (α → α))} (field : Inventory → Roster α)
    (atStart : field empty = .empty) (named : ∀ name, key (fresh name) = name)
    (step : ∀ inventory finding, field (note inventory finding) =
      (field inventory).edit fresh (edit? finding))
    (keeps : ∀ finding, Roster.KeepsKey key (edit? finding))
    (indexed : ∀ found, (field (ofFindings found)).Indexed key)
    (found : List Finding) (name : String) :
    name ∈ (field (ofFindings found)).names key ↔
      ∃ finding ∈ found, ∃ change, edit? finding = some (name, change) := by
  induction found using List.reverseRecOn with
  | nil =>
      have none : (field (ofFindings [])).names key = [] := by
        change (field empty).names key = []
        rw [atStart]
        rfl
      simp [none]
  | append_singleton found finding ih =>
      rw [ofFindings_concat, step, (indexed found).mem_names_edit named (keeps finding), ih]
      simp only [List.mem_append, List.mem_singleton, or_and_right, exists_or, exists_eq_left]

theorem mem_typeNames (found : List Finding) (name : String) :
    name ∈ (ofFindings found).types.records.map TypeRecord.name ↔
      ∃ finding ∈ found, ∃ change, finding.typeEdit? = some (name, change) :=
  mem_names_ofFindings types rfl (fun _ => rfl) (fun _ _ => rfl) typeEdit?_keepsKey
    ofFindings_types_indexed found name

theorem mem_traitNames (found : List Finding) (name : String) :
    name ∈ (ofFindings found).traits.records.map TraitRecord.name ↔
      ∃ finding ∈ found, ∃ change, finding.traitEdit? = some (name, change) :=
  mem_names_ofFindings traits rfl (fun _ => rfl) (fun _ _ => rfl) traitEdit?_keepsKey
    ofFindings_traits_indexed found name

section Found

variable {found : List Finding} {type : TypeRecord} {trait : TraitRecord}

theorem type_traits (member : type ∈ (ofFindings found).types.records) :
    type.traits.Nodup ∧ ∀ name, name ∈ type.traits ↔ .target type.name (some name) ∈ found := by
  have traits := ofFindings_type_traits found type.name
  rw [type?_of_mem member, Option.getD_some] at traits
  exact traits

/-- A type lists the trait that an implementation for it names. -/
theorem exists_type_of_target {typeName traitName : String}
    (member : .target typeName (some traitName) ∈ found) :
    ∃ type ∈ (ofFindings found).types.records, traitName ∈ type.traits := by
  have mentioned : typeName ∈ (ofFindings found).types.records.map TypeRecord.name :=
    (mem_typeNames found typeName).mpr ⟨_, member, _, rfl⟩
  obtain ⟨type, typeMember, rfl⟩ := List.mem_map.mp mentioned
  exact ⟨type, typeMember, ((type_traits typeMember).2 traitName).mpr member⟩

/-- A trait whose declaration is found has its span. -/
theorem exists_trait_of_declaration {name : String} {extent : Extent}
    (member : .trait name extent ∈ found) (ordered : extent.start.offset ≤ extent.stop.offset) :
    ∃ trait ∈ (ofFindings found).traits.records,
      trait.name = name ∧ trait.span?.isSome = true := by
  have spans := ofFindings_trait_span? found name
  have declared : (found.findSome? (Finding.traitSpan? name)).isSome = true := by
    rw [List.findSome?_isSome_iff]
    refine ⟨_, member, ?_⟩
    rw [Finding.traitSpan?, if_pos rfl, Extent.span, Span.between_of_le ordered]
    rfl
  rw [← spans] at declared
  cases known : (ofFindings found).trait? name with
  | none =>
      rw [known] at declared
      cases declared
  | some trait =>
      rw [known, Option.getD_some] at declared
      obtain ⟨isRecord, named⟩ := (ofFindings_traits_indexed found).find?_eq_some_iff.mp known
      exact ⟨trait, isRecord, named, declared⟩

theorem methods_found (member : type ∈ (ofFindings found).types.records) {method : FunctionRecord}
    (isMethod : method ∈ type.methods) :
    ∃ finding ∈ found, finding.function? = some method ∧ method.owner.type? = some type.name := by
  have methods := ofFindings_type_methods found type.name
  rw [type?_of_mem member, Option.getD_some] at methods
  rw [methods] at isMethod
  obtain ⟨finding, isFound, recorded⟩ := List.mem_filterMap.mp isMethod
  obtain ⟨isFunction, owned⟩ := Option.filter_eq_some_iff.mp recorded
  exact ⟨finding, isFound, isFunction, eq_of_beq owned⟩

theorem functions_found {function : FunctionRecord}
    (member : function ∈ (ofFindings found).functions) :
    ∃ finding ∈ found, finding.function? = some function ∧ function.owner.type? = none := by
  rw [ofFindings_functions] at member
  obtain ⟨finding, isFound, recorded⟩ := List.mem_filterMap.mp member
  obtain ⟨isFunction, free⟩ := Option.filter_eq_some_iff.mp recorded
  exact ⟨finding, isFound, isFunction, Option.isNone_iff_eq_none.mp free⟩

theorem allFunctions_found {function : FunctionRecord}
    (member : function ∈ (ofFindings found).allFunctions) :
    ∃ finding ∈ found, finding.function? = some function := by
  rcases List.mem_append.mp member with free | inType
  · obtain ⟨finding, isFound, isFunction, -⟩ := functions_found free
    exact ⟨finding, isFound, isFunction⟩
  · obtain ⟨type, typeMember, isMethod⟩ := List.mem_flatMap.mp inType
    obtain ⟨finding, isFound, isFunction, -⟩ := methods_found typeMember isMethod
    exact ⟨finding, isFound, isFunction⟩

/-- A recorded trait is declared, or an implementation names it. -/
theorem traits_found (member : trait ∈ (ofFindings found).traits.records) :
    (∃ extent, .trait trait.name extent ∈ found) ∨
      ∃ typeName, .target typeName (some trait.name) ∈ found := by
  obtain ⟨finding, isFound, change, edited⟩ :=
    (mem_traitNames found trait.name).mp (List.mem_map_of_mem member)
  cases finding with
  | trait name extent =>
      obtain ⟨span, -, same⟩ := Option.map_eq_some_iff.mp edited
      cases same
      exact .inl ⟨extent, isFound⟩
  | target typeName traitName? =>
      cases traitName? with
      | none => cases edited
      | some traitName =>
          cases edited
          exact .inr ⟨typeName, isFound⟩
  | _ => cases edited

/-- A recorded type is declared, or there is an implementation for it. -/
theorem types_found (grounded : Finding.Grounded found)
    (member : type ∈ (ofFindings found).types.records) :
    (∃ extent, .struct type.name extent ∈ found) ∨
      ∃ traitName?, .target type.name traitName? ∈ found := by
  obtain ⟨finding, isFound, change, edited⟩ :=
    (mem_typeNames found type.name).mp (List.mem_map_of_mem member)
  cases finding with
  | function draft blocks =>
      obtain ⟨function, recorded, isOwned⟩ := Option.bind_eq_some_iff.mp edited
      obtain ⟨typeName, owned, same⟩ := Option.map_eq_some_iff.mp isOwned
      cases same
      have isFunction : (Finding.function draft blocks).function? = some function := recorded
      obtain ⟨_, _, same, -, -, owner⟩ := Finding.eq_of_function? isFunction
      cases same
      rw [owner] at owned
      exact .inr ⟨_, (grounded draft blocks isFound).1 _ owned⟩
  | struct name extent =>
      obtain ⟨span, -, same⟩ := Option.map_eq_some_iff.mp edited
      cases same
      exact .inl ⟨extent, isFound⟩
  | target typeName traitName? =>
      refine .inr ⟨traitName?, ?_⟩
      cases traitName? <;> cases edited <;> exact isFound
  | _ => cases edited

theorem ofFindings_consistent (named : ∀ finding ∈ found, finding.IsNamed)
    (grounded : Finding.Grounded found)
    (ordered : ∀ outline ∈ Finding.outlines found,
      outline.extent.start.offset ≤ outline.extent.stop.offset) :
    (ofFindings found).Consistent where
  typeNames_nodup := (ofFindings_types_indexed found).nodup
  type?_eq_some_iff _ _ := (ofFindings_types_indexed found).find?_eq_some_iff
  traitNames_nodup := (ofFindings_traits_indexed found).nodup
  trait?_eq_some_iff _ _ := (ofFindings_traits_indexed found).find?_eq_some_iff
  traits_nodup type member := (type_traits member).1
  traits_recorded type member name listed := by
    have target := ((type_traits member).2 name).mp listed
    have mentioned : name ∈ (ofFindings found).traits.records.map TraitRecord.name :=
      (mem_traitNames found name).mpr ⟨_, target, _, rfl⟩
    exact List.mem_map.mp mentioned
  methods_owned type member method isMethod := by
    obtain ⟨finding, isFound, isFunction, owned⟩ := methods_found member isMethod
    refine ⟨owned, ?_⟩
    intro name isTrait
    obtain ⟨draft, blocks, rfl, -, -, owner⟩ := Finding.eq_of_function? isFunction
    have grounds := grounded draft blocks isFound
    rw [← owner] at grounds
    have target := grounds.1 type.name owned
    rw [isTrait] at target
    exact ((type_traits member).2 name).mpr target
  functions_owned function member := by
    obtain ⟨finding, isFound, isFunction, free⟩ := functions_found member
    refine ⟨free, ?_⟩
    intro name isTrait
    obtain ⟨draft, blocks, rfl, -, -, owner⟩ := Finding.eq_of_function? isFunction
    have grounds := grounded draft blocks isFound
    rw [← owner] at grounds
    obtain ⟨extent, declared⟩ := grounds.2 free name isTrait
    exact exists_trait_of_declaration declared
      (ordered ⟨.trait, extent⟩ (List.mem_filterMap.mpr ⟨_, declared, rfl⟩))
  traits_listed trait member undeclared := by
    rcases traits_found member with ⟨extent, isFound⟩ | ⟨typeName, isFound⟩
    · obtain ⟨declared, isRecord, sameName, hasSpan⟩ := exists_trait_of_declaration isFound
        (ordered ⟨.trait, extent⟩ (List.mem_filterMap.mpr ⟨_, isFound, rfl⟩))
      have same := trait?_of_mem isRecord
      rw [sameName, trait?_of_mem member] at same
      cases same
      rw [undeclared] at hasSpan
      cases hasSpan
    · exact exists_type_of_target isFound
  types_named type member := by
    rcases types_found grounded member with ⟨extent, isFound⟩ | ⟨traitName?, isFound⟩
    · exact named _ isFound
    · exact (named _ isFound).1
  traits_named trait member := by
    rcases traits_found member with ⟨extent, isFound⟩ | ⟨typeName, isFound⟩
    · exact named _ isFound
    · exact (named _ isFound).2 _ rfl
  functions_named function member := by
    obtain ⟨finding, isFound, isFunction⟩ := allFunctions_found member
    obtain ⟨draft, blocks, rfl, sameName, sameParameters, -⟩ := Finding.eq_of_function? isFunction
    rw [sameName, sameParameters]
    exact named _ isFound
  enums_named enum member := by
    rw [ofFindings_enums] at member
    obtain ⟨finding, isFound, recorded⟩ := List.mem_filterMap.mp member
    cases finding with
    | enum name variants extent =>
        obtain ⟨span, -, rfl⟩ := Option.map_eq_some_iff.mp recorded
        exact named _ isFound
    | _ => cases recorded
  tests_named test member := by
    rw [ofFindings_tests] at member
    obtain ⟨finding, isFound, recorded⟩ := List.mem_filterMap.mp member
    cases finding with
    | test name extent =>
        obtain ⟨span, -, rfl⟩ := Option.map_eq_some_iff.mp recorded
        exact named _ isFound
    | _ => cases recorded

end Found
end Inventory

/-- The inventory of a text of at most 2^32 - 3 bytes is referentially consistent. -/
theorem survey_consistent (config : Config) (text : String)
    (small : Text.byteLength text.toList ≤ 2 ^ 32 - 3) :
    ∃ inventory, survey config text = .ok inventory ∧ inventory.Consistent := by
  refine ⟨_, survey_eq config text small, ?_⟩
  have arranged := Finding.ofText_arranged config text.toList
  have consistent := Inventory.ofFindings_consistent (Finding.ofText_isNamed config text.toList)
    (Finding.stream_grounded config false _)
    (fun outline member => Nat.le_of_lt (arranged.liesIn outline member).start_lt)
  exact { consistent with }

/-- A type and a trait that an implementation mentions before their declarations. -/
theorem survey_consistent_implemented :
    Text.byteLength
        "impl Show for P \x7b fn f(&self) \x7b\x7d \x7d struct P; trait Show \x7b fn f(&self); \x7d".toList
          ≤ 2 ^ 32 - 3 ∧
      ∃ inventory,
        survey .standard
          "impl Show for P \x7b fn f(&self) \x7b\x7d \x7d struct P; trait Show \x7b fn f(&self); \x7d" =
            .ok inventory ∧ inventory.Consistent := by
  have small : Text.byteLength
      "impl Show for P \x7b fn f(&self) \x7b\x7d \x7d struct P; trait Show \x7b fn f(&self); \x7d".toList
        ≤ 2 ^ 32 - 3 := by
    decide
  exact ⟨small, survey_consistent .standard _ small⟩

end Survey
