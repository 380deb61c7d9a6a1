import Survey.Proofs.Consistency
import Survey.Proofs.MendedFindings
import Survey.Proofs.Rebasing

set_option autoImplicit false

/-!
# Surveys of mended texts

An inventory is mended record by record: names, parameters, results and variants are mended,
and places stay. If no zero character is quoted, the findings of a mended text are the mended
findings of the text. Written down, they give the mended inventory, exactly if no two types and
no two traits come to have one name: names that are mended to the same name share a record.
-/

namespace Survey

open Text (ZerosUnquoted mended)

/-! ### Mended inventories -/

def FunctionRecord.mend (function : FunctionRecord) : FunctionRecord where
  name := mended function.name
  parameters := function.parameters.map mended
  result := mended function.result
  span := function.span
  owner := function.owner.mend

def TypeRecord.mend (type : TypeRecord) : TypeRecord where
  name := mended type.name
  span? := type.span?
  methods := type.methods.map FunctionRecord.mend
  traits := type.traits.map mended

def EnumRecord.mend (enum : EnumRecord) : EnumRecord where
  name := mended enum.name
  span := enum.span
  variants := enum.variants.map mended

def TraitRecord.mend (record : TraitRecord) : TraitRecord :=
  { record with name := mended record.name }

def TestRecord.mend (test : TestRecord) : TestRecord :=
  { test with name := mended test.name }

/-- The same places under other names, with every record changed. -/
def Roster.rename {α : Type} (rename : String → String) (change : α → α) (roster : Roster α) :
    Roster α :=
  ⟨roster.records.map change, roster.places.map fun (name, place) => (rename name, place)⟩

/-- The inventory with every name and every part of a declaration mended. -/
def Inventory.mend (inventory : Inventory) : Inventory where
  functions := inventory.functions.map FunctionRecord.mend
  types := inventory.types.rename mended TypeRecord.mend
  enums := inventory.enums.map EnumRecord.mend
  traits := inventory.traits.rename mended TraitRecord.mend
  tests := inventory.tests.map TestRecord.mend
  unsafeBlocks := inventory.unsafeBlocks
  testModuleLine? := inventory.testModuleLine?
  length := inventory.length

/-- Names that differ still differ when they are mended. -/
def Text.StayApart (names : List String) : Prop :=
  ∀ name ∈ names, ∀ other ∈ names, mended name = mended other → name = other

instance (names : List String) : Decidable (Text.StayApart names) := by
  unfold Text.StayApart
  infer_instance

theorem Text.StayApart.mono {names fewer : List String} (apart : StayApart names)
    (subset : fewer ⊆ names) : StayApart fewer :=
  fun name member other otherMember =>
    apart name (subset member) other (subset otherMember)

theorem Text.stayApart_of_nodup {names : List String} (nodup : (names.map mended).Nodup) :
    StayApart names :=
  fun _ member _ otherMember same => List.inj_on_of_nodup_map nodup member otherMember same

/-! ### Rosters -/

namespace Roster

variable {α : Type} {rename : String → String} {move : α → α} {roster : Roster α} {name : String}

theorem place?_rename
    (apart : ∀ entry ∈ roster.places, rename entry.1 = rename name → entry.1 = name) :
    (roster.rename rename move).place? (rename name) = roster.place? name := by
  unfold place? Roster.rename
  dsimp only
  generalize roster.places = places at apart
  induction places with
  | nil => rfl
  | cons entry rest ih =>
      rw [List.forall_mem_cons] at apart
      have same : (rename name == rename entry.1) = (name == entry.1) := by
        rw [Bool.eq_iff_iff, beq_iff_eq, beq_iff_eq]
        constructor
        · exact fun renamed => (apart.1 renamed.symm).symm
        · exact congrArg rename
      rw [List.map_cons, List.lookup_cons, List.lookup_cons, same, ih apart.2]

/-- Touching a name under its new name, if no other name goes over into that. -/
theorem rename_touch {fresh freshMoved : α} {change changeMoved : α → α}
    (apart : ∀ entry ∈ roster.places, rename entry.1 = rename name → entry.1 = name)
    (isFresh : move fresh = freshMoved)
    (changes : ∀ record ∈ fresh :: roster.records,
      changeMoved (move record) = move (change record)) :
    (roster.rename rename move).touch (rename name) freshMoved changeMoved =
      (roster.touch name fresh change).rename rename move := by
  rw [List.forall_mem_cons] at changes
  unfold touch enter
  rw [place?_rename apart]
  cases roster.place? name with
  | some place =>
      unfold update Roster.rename
      rw [map_modify changes.2]
  | none =>
      have entered : ∀ record ∈ roster.records ++ [fresh],
          changeMoved (move record) = move (change record) := by
        rw [List.forall_mem_append, List.forall_mem_singleton]
        exact ⟨changes.2, changes.1⟩
      unfold update Roster.rename
      dsimp only
      rw [← map_modify entered, List.map_append, List.map_singleton, isFresh,
        List.length_map, List.map_append]
      rfl

theorem rename_edit {fresh : String → α} {edit? editMoved? : Option (String × (α → α))}
    (named : ∀ name, move (fresh name) = fresh (rename name))
    (edits : (edit? = none ∧ editMoved? = none) ∨
      ∃ name change changeMoved, edit? = some (name, change) ∧
        editMoved? = some (rename name, changeMoved) ∧
        (∀ entry ∈ roster.places, rename entry.1 = rename name → entry.1 = name) ∧
        ∀ record ∈ fresh name :: roster.records,
          changeMoved (move record) = move (change record)) :
    (roster.rename rename move).edit fresh editMoved? =
      (roster.edit fresh edit?).rename rename move := by
  rcases edits with ⟨rfl, rfl⟩ | ⟨name, change, changeMoved, rfl, rfl, apart, changes⟩
  · rfl
  · exact rename_touch apart (named name) changes

theorem Indexed.fst_mem_of_mem_places {key : α → String} (indexed : roster.Indexed key)
    {entry : String × Nat} (member : entry ∈ roster.places) : entry.1 ∈ roster.names key := by
  rw [indexed.places_eq] at member
  exact List.fst_mem_of_mem_zipIdx member

end Roster

/-! ### Writing mended findings down -/

theorem TypeRecord.addTrait_mend {type : TypeRecord} {traitName : String}
    (apart : ∀ known ∈ type.traits, mended known = mended traitName → known = traitName) :
    type.mend.addTrait (mended traitName) = (type.addTrait traitName).mend := by
  have listed : mended traitName ∈ type.mend.traits ↔ traitName ∈ type.traits := by
    constructor
    · intro member
      obtain ⟨known, isKnown, same⟩ := List.mem_map.mp member
      exact apart known isKnown same ▸ isKnown
    · exact List.mem_map_of_mem
  unfold addTrait
  by_cases known : traitName ∈ type.traits
  · rw [if_pos known, if_pos (listed.mpr known)]
  · rw [if_neg known, if_neg (listed.not.mpr known)]
    simp [mend]

namespace Finding

variable (finding : Finding)

theorem function?_mend : finding.mend.function? = finding.function?.map FunctionRecord.mend := by
  cases finding with
  | function draft blocks =>
      unfold mend function?
      dsimp only
      rw [FunctionDraft.record_toOption, FunctionDraft.record_toOption, Option.map_map]
      rfl
  | _ => rfl

theorem freeFunction?_mend :
    finding.mend.freeFunction? = finding.freeFunction?.map FunctionRecord.mend := by
  have free : (fun function : FunctionRecord => function.owner.type?.isNone) ∘
      FunctionRecord.mend = fun function => function.owner.type?.isNone := by
    funext function
    exact Option.isNone_map
  unfold freeFunction?
  rw [function?_mend, Option.filter_map, free]

theorem enum?_mend : finding.mend.enum? = finding.enum?.map EnumRecord.mend := by
  cases finding with
  | enum name variants extent =>
      unfold mend enum?
      dsimp only
      rw [Option.map_map]
      rfl
  | _ => rfl

theorem test?_mend : finding.mend.test? = finding.test?.map TestRecord.mend := by
  cases finding with
  | test name extent =>
      unfold mend test?
      dsimp only
      rw [Option.map_map]
      rfl
  | _ => rfl

theorem block?_mend : finding.mend.block? = finding.block? := by
  cases finding <;> rfl

theorem testModule?_mend : finding.mend.testModule? = finding.testModule? := by
  cases finding <;> rfl

theorem typeEdit?_mend :
    (finding.typeEdit? = none ∧ finding.mend.typeEdit? = none) ∨
      ∃ name change changeMended, finding.typeEdit? = some (name, change) ∧
        finding.mend.typeEdit? = some (mended name, changeMended) ∧
        ∀ record : TypeRecord,
          (∀ traitName edit, finding.traitEdit? = some (traitName, edit) →
            ∀ known ∈ record.traits, mended known = mended traitName → known = traitName) →
          changeMended record.mend = (change record).mend := by
  cases finding with
  | function draft blocks =>
      have recorded := (Finding.function draft blocks).function?_mend
      unfold mend function? at recorded
      unfold mend typeEdit?
      dsimp only at recorded ⊢
      rw [recorded]
      cases draft.record.toOption with
      | none => exact .inl ⟨rfl, rfl⟩
      | some function =>
          cases owned : function.owner.type? with
          | none => exact .inl ⟨by simp [owned], by simp [FunctionRecord.mend, Owner.mend, owned]⟩
          | some name =>
              refine .inr ⟨name, (·.addMethod function), (·.addMethod function.mend),
                by simp [owned], by simp [FunctionRecord.mend, Owner.mend, owned], ?_⟩
              intro record _
              simp [TypeRecord.addMethod, TypeRecord.mend]
  | struct name extent =>
      unfold mend typeEdit?
      dsimp only
      cases extent.span.toOption with
      | none => exact .inl ⟨rfl, rfl⟩
      | some span => exact .inr ⟨name, _, _, rfl, rfl, fun _ _ => rfl⟩
  | target name traitName? =>
      cases traitName? with
      | none => exact .inr ⟨name, _, _, rfl, rfl, fun _ _ => rfl⟩
      | some traitName =>
          refine .inr ⟨name, _, _, rfl, rfl, ?_⟩
          intro record apart
          exact TypeRecord.addTrait_mend (apart traitName id rfl)
  | _ => exact .inl ⟨rfl, rfl⟩

theorem traitEdit?_mend :
    (finding.traitEdit? = none ∧ finding.mend.traitEdit? = none) ∨
      ∃ name change changeMended, finding.traitEdit? = some (name, change) ∧
        finding.mend.traitEdit? = some (mended name, changeMended) ∧
        ∀ record : TraitRecord, changeMended record.mend = (change record).mend := by
  cases finding with
  | trait name extent =>
      unfold mend traitEdit?
      dsimp only
      cases extent.span.toOption with
      | none => exact .inl ⟨rfl, rfl⟩
      | some span => exact .inr ⟨name, _, _, rfl, rfl, fun _ => rfl⟩
  | target name traitName? =>
      cases traitName? with
      | none => exact .inl ⟨rfl, rfl⟩
      | some traitName => exact .inr ⟨traitName, _, _, rfl, rfl, fun _ => rfl⟩
  | _ => exact .inl ⟨rfl, rfl⟩

end Finding

namespace Inventory

def typeNames (inventory : Inventory) : List String := inventory.types.records.map TypeRecord.name

def traitNames (inventory : Inventory) : List String :=
  inventory.traits.records.map TraitRecord.name

/-- No name that the inventory knows is mended to a name that the finding mentions, unless
that is the name. -/
structure Admits (inventory : Inventory) (finding : Finding) : Prop where
  type : ∀ name change, finding.typeEdit? = some (name, change) →
    ∀ entry ∈ inventory.types.places, mended entry.1 = mended name → entry.1 = name
  trait : ∀ name change, finding.traitEdit? = some (name, change) →
    ∀ entry ∈ inventory.traits.places, mended entry.1 = mended name → entry.1 = name
  listed : ∀ name change, finding.traitEdit? = some (name, change) →
    ∀ type ∈ inventory.types.records, ∀ known ∈ type.traits,
      mended known = mended name → known = name

theorem note_mend {inventory : Inventory} {finding : Finding} (admits : inventory.Admits finding) :
    inventory.mend.note finding.mend = (inventory.note finding).mend := by
  have types : (inventory.types.rename mended TypeRecord.mend).edit TypeRecord.named
      finding.mend.typeEdit? =
        (inventory.types.edit TypeRecord.named finding.typeEdit?).rename mended TypeRecord.mend := by
    refine Roster.rename_edit (fun _ => ?_) ?_
    · rfl
    rcases finding.typeEdit?_mend with none | ⟨name, change, changeMended, edit, editMended, changes⟩
    · exact .inl none
    · refine .inr ⟨name, change, changeMended, edit, editMended, admits.type name change edit, ?_⟩
      rw [List.forall_mem_cons]
      constructor
      · exact changes _ fun _ _ _ known isKnown => nomatch isKnown
      · intro record member
        exact changes record fun traitName traitChange traitEdit =>
          admits.listed traitName traitChange traitEdit record member
  have traits : (inventory.traits.rename mended TraitRecord.mend).edit TraitRecord.named
      finding.mend.traitEdit? =
        (inventory.traits.edit TraitRecord.named finding.traitEdit?).rename mended
          TraitRecord.mend := by
    refine Roster.rename_edit (fun _ => ?_) ?_
    · rfl
    rcases finding.traitEdit?_mend with none | ⟨name, change, changeMended, edit, editMended, changes⟩
    · exact .inl none
    · exact .inr ⟨name, change, changeMended, edit, editMended, admits.trait name change edit,
        fun record _ => changes record⟩
  unfold note mend
  dsimp only
  rw [types, traits, Finding.freeFunction?_mend, Finding.enum?_mend, Finding.test?_mend,
    Finding.block?_mend, Finding.testModule?_mend]
  simp only [List.map_append, Option.toList_map]

section Found

variable {found : List Finding} {finding : Finding}

theorem typeNames_subset :
    (ofFindings found).typeNames ⊆ (ofFindings (found ++ [finding])).typeNames := by
  intro name member
  obtain ⟨earlier, isFound, edited⟩ := (mem_typeNames found name).mp member
  exact (mem_typeNames _ name).mpr ⟨earlier, List.mem_append_left _ isFound, edited⟩

theorem traitNames_subset :
    (ofFindings found).traitNames ⊆ (ofFindings (found ++ [finding])).traitNames := by
  intro name member
  obtain ⟨earlier, isFound, edited⟩ := (mem_traitNames found name).mp member
  exact (mem_traitNames _ name).mpr ⟨earlier, List.mem_append_left _ isFound, edited⟩

/-- The next finding is admitted if all names stay apart once it has been written down. -/
theorem admits_of_stayApart
    (types : Text.StayApart (ofFindings (found ++ [finding])).typeNames)
    (traits : Text.StayApart (ofFindings (found ++ [finding])).traitNames) :
    (ofFindings found).Admits finding where
  type name change edited entry member := by
    have known := (ofFindings_types_indexed found).fst_mem_of_mem_places member
    have mentioned := (mem_typeNames (found ++ [finding]) name).mpr
      ⟨finding, List.mem_append_right _ List.mem_cons_self, change, edited⟩
    exact types entry.1 (typeNames_subset known) name mentioned
  trait name change edited entry member := by
    have known := (ofFindings_traits_indexed found).fst_mem_of_mem_places member
    have mentioned := (mem_traitNames (found ++ [finding]) name).mpr
      ⟨finding, List.mem_append_right _ List.mem_cons_self, change, edited⟩
    exact traits entry.1 (traitNames_subset known) name mentioned
  listed name change edited type member trait listed := by
    have target := ((type_traits member).2 trait).mp listed
    have known := (mem_traitNames found trait).mpr ⟨_, target, _, rfl⟩
    have mentioned := (mem_traitNames (found ++ [finding]) name).mpr
      ⟨finding, List.mem_append_right _ List.mem_cons_self, change, edited⟩
    exact traits trait (traitNames_subset known) name mentioned

theorem ofFindings_mend (types : Text.StayApart (ofFindings found).typeNames)
    (traits : Text.StayApart (ofFindings found).traitNames) :
    ofFindings (found.map Finding.mend) = (ofFindings found).mend := by
  induction found using List.reverseRecOn with
  | nil => rfl
  | append_singleton found finding ih =>
      rw [List.map_append, List.map_singleton, ofFindings_concat,
        ih (types.mono typeNames_subset) (traits.mono traitNames_subset),
        note_mend (admits_of_stayApart types traits), ofFindings_concat]

end Found

theorem typeNames_mend (inventory : Inventory) :
    inventory.mend.typeNames = inventory.typeNames.map mended := by
  unfold typeNames mend Roster.rename
  rw [List.map_map, List.map_map]
  rfl

theorem traitNames_mend (inventory : Inventory) :
    inventory.mend.traitNames = inventory.traitNames.map mended := by
  unfold traitNames mend Roster.rename
  rw [List.map_map, List.map_map]
  rfl

end Inventory

/-! ### Surveys -/

theorem Text.byteLength_map_mend (text : List Char) :
    byteLength (text.map mend) = byteLength text := by
  induction text with
  | nil => rfl
  | cons c rest ih =>
      rw [List.map_cons, byteLength_cons, byteLength_cons, ih, apply_mend Char.utf8Size rfl]

theorem Finding.ofText_mend {text : List Char} (unquoted : ZerosUnquoted text) :
    ofText .standard (text.map Text.mend) = (ofText .standard text).map mend := by
  have atStart : ZerosUnquoted (Cursor.ofText text).rest := unquoted
  exact stream_mend atStart false

theorem Position.ofText_map_mend (text : List Char) :
    ofText (text.map Text.mend) = ofText text :=
  pastAll_map_mend start text

theorem findings_mended {text : String} (unquoted : ZerosUnquoted text.toList) :
    findings .standard (mended text) =
      (findings .standard text).map (List.map Finding.mend) := by
  unfold findings
  rw [mended, String.toList_ofList, Position.ofText_map_mend, Finding.ofText_mend unquoted]
  cases (Position.ofText text.toList).checked <;> rfl

theorem survey_eq_map_mended {text : String} (unquoted : ZerosUnquoted text.toList) :
    survey .standard (mended text) = (Position.ofText text.toList).checked.map fun _ =>
      (Inventory.ofFindings ((Finding.ofText .standard text.toList).map Finding.mend)).withLength
        (Counter.clamp (Text.byteLength text.toList)) := by
  rw [survey_eq_map, mended, String.toList_ofList, Position.ofText_map_mend,
    Finding.ofText_mend unquoted, Text.byteLength_map_mend]

/-- If no zero character is quoted, the findings of the mended text are those of the text,
mended. So is the inventory, exactly if no two names of types or of traits become one. -/
theorem survey_mended {text : String} (unquoted : ZerosUnquoted text.toList) :
    findings .standard (mended text) = (findings .standard text).map (List.map Finding.mend) ∧
      (survey .standard (mended text) = (survey .standard text).map Inventory.mend ↔
        ∀ inventory, survey .standard text = .ok inventory →
          Text.StayApart inventory.typeNames ∧ Text.StayApart inventory.traitNames) := by
  refine ⟨findings_mended unquoted, ?_⟩
  rw [survey_eq_map_mended unquoted, survey_eq_map]
  cases (Position.ofText text.toList).checked with
  | error fault => exact iff_of_true rfl nofun
  | ok place =>
      generalize Finding.ofText .standard text.toList = found
      simp only [Except.map, Except.ok.injEq, forall_eq']
      constructor
      · -- The rosters of a survey hold no name twice, also that of the mended text.
        intro same
        have types := congrArg Inventory.typeNames same
        have traits := congrArg Inventory.traitNames same
        rw [Inventory.typeNames_mend] at types
        rw [Inventory.traitNames_mend] at traits
        constructor
        · apply Text.stayApart_of_nodup
          rw [← types]
          exact (Inventory.ofFindings_types_indexed _).nodup
        · apply Text.stayApart_of_nodup
          rw [← traits]
          exact (Inventory.ofFindings_traits_indexed _).nodup
      · rintro ⟨types, traits⟩
        rw [Inventory.ofFindings_mend types traits]
        rfl

/-- Zero characters in the names of a type and a trait, in a parameter and behind a quote. -/
theorem survey_mended_trait :
    ∃ text : String,
      text = "struct B; impl T\x00 for A\x00 \x7b fn f(x: \x00) -> \x01 \x7b\x7d \x7d // '\x00" ∧
      ZerosUnquoted text.toList ∧
      survey .standard (mended text) = (survey .standard text).map Inventory.mend := by
  have unquoted : ZerosUnquoted
      "struct B; impl T\x00 for A\x00 \x7b fn f(x: \x00) -> \x01 \x7b\x7d \x7d // '\x00".toList := by
    decide +kernel
  have names : (survey .standard
      "struct B; impl T\x00 for A\x00 \x7b fn f(x: \x00) -> \x01 \x7b\x7d \x7d // '\x00").map
        (fun inventory => (inventory.typeNames, inventory.traitNames)) =
      .ok (["B", "A\x00"], ["T\x00"]) := by
    decide +kernel
  refine ⟨_, rfl, unquoted, (survey_mended unquoted).2.mpr ?_⟩
  intro inventory surveyed
  rw [surveyed] at names
  obtain ⟨types, traits⟩ : inventory.typeNames = ["B", "A\x00"] ∧
      inventory.traitNames = ["T\x00"] := Prod.mk.inj (Except.ok.inj names)
  rw [types, traits]
  decide +kernel

/-- A quoted zero character is taken for a lifetime, so that the quotes around the brace behind
it are read the other way round: the brace opens a group, and no second function is found. -/
theorem survey_quoted_zero :
    ∃ text : String, text = "fn f() \x7b ['\x00','\x7b'] \x7d fn g() \x7b\x7d" ∧
      survey .standard (mended text) ≠ (survey .standard text).map Inventory.mend ∧
      (survey .standard text).map (·.functions.map FunctionRecord.name) = .ok ["f"] ∧
      (survey .standard (mended text)).map (·.functions.map FunctionRecord.name) =
        .ok ["f", "g"] := by
  refine ⟨_, rfl, ?_⟩
  decide +kernel

end Survey
