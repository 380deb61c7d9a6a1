import Survey.Proofs.FindingsWithoutComments
import Survey.Proofs.Rebasing

set_option autoImplicit false

/-!
# Surveys without the comments

Two inventories are alike if their records agree in everything but columns and the texts of
variants. Findings that are alike are written down to inventories that are alike, so that a
calm text has the same inventory with its comments and without.
-/

namespace Survey

variable {columns : Bool}

/-! ### Records -/

structure Span.Level (columns : Bool) (span other : Span) : Prop where
  start : span.start.Level columns other.start
  stop : span.stop.Level columns other.stop

structure FunctionRecord.Alike (columns : Bool) (function other : FunctionRecord) : Prop where
  name : other.name = function.name
  parameters : other.parameters = function.parameters
  result : other.result = function.result
  span : function.span.Level columns other.span
  owner : other.owner = function.owner

structure TypeRecord.Alike (columns : Bool) (type other : TypeRecord) : Prop where
  name : other.name = type.name
  span? : Option.Rel (Span.Level columns) type.span? other.span?
  methods : List.Forall₂ (FunctionRecord.Alike columns) type.methods other.methods
  traits : other.traits = type.traits

structure EnumRecord.Alike (columns : Bool) (enum other : EnumRecord) : Prop where
  name : other.name = enum.name
  span : enum.span.Level columns other.span
  variants : other.variants.length = enum.variants.length

structure TraitRecord.Alike (columns : Bool) (record other : TraitRecord) : Prop where
  name : other.name = record.name
  span? : Option.Rel (Span.Level columns) record.span? other.span?

structure TestRecord.Alike (columns : Bool) (test other : TestRecord) : Prop where
  name : other.name = test.name
  span : test.span.Level columns other.span

/-- The same names at the same places, with records that are alike. -/
structure Roster.Alike {α : Type} (like : α → α → Prop) (roster other : Roster α) : Prop where
  places : other.places = roster.places
  records : List.Forall₂ like roster.records other.records

/-- The inventories agree in everything but columns, unless these count, and the texts of
variants. -/
structure Inventory.Alike (columns : Bool) (inventory other : Inventory) : Prop where
  functions : List.Forall₂ (FunctionRecord.Alike columns) inventory.functions other.functions
  types : Roster.Alike (TypeRecord.Alike columns) inventory.types other.types
  enums : List.Forall₂ (EnumRecord.Alike columns) inventory.enums other.enums
  traits : Roster.Alike (TraitRecord.Alike columns) inventory.traits other.traits
  tests : List.Forall₂ (TestRecord.Alike columns) inventory.tests other.tests
  unsafeBlocks : List.Forall₂ (Span.Level columns) inventory.unsafeBlocks other.unsafeBlocks
  testModuleLine? : other.testModuleLine? = inventory.testModuleLine?
  length : other.length = inventory.length

/-! ### What a finding adds -/

section Options

variable {α β : Type} {like : α → α → Prop} {likeToo : β → β → Prop} {first second : Option α}

theorem rel_map {change changeOther : α → β} (related : Option.Rel like first second)
    (keeps : ∀ value other, like value other → likeToo (change value) (changeOther other)) :
    Option.Rel likeToo (first.map change) (second.map changeOther) := by
  cases related with
  | none => exact .none
  | some same => exact .some (keeps _ _ same)

theorem rel_filter {keep : α → Bool} (related : Option.Rel like first second)
    (respects : ∀ value other, like value other → keep other = keep value) :
    Option.Rel like (first.filter keep) (second.filter keep) := by
  cases related with
  | none => exact .none
  | @some value other same =>
      rw [Option.filter_some, Option.filter_some, respects _ _ same]
      split
      · exact .some same
      · exact .none

theorem forall₂_toList (related : Option.Rel like first second) :
    List.Forall₂ like first.toList second.toList := by
  cases related with
  | none => exact .nil
  | some same => exact .cons same .nil

end Options

theorem Extent.Level.span {extent other : Extent} (level : extent.Level columns other) :
    Option.Rel (Span.Level columns) extent.span.toOption other.span.toOption := by
  have offsets : other.start.offset ≤ other.stop.offset ↔
      extent.start.offset ≤ extent.stop.offset := by
    rw [level.start.offset, level.stop.offset]
  unfold Extent.span Span.between
  by_cases ordered : extent.start.offset ≤ extent.stop.offset
  · rw [dif_pos ordered, dif_pos (offsets.mpr ordered)]
    exact .some ⟨level.start, level.stop⟩
  · rw [dif_neg ordered, dif_neg (ordered ∘ offsets.mp)]
    exact .none

theorem FunctionDraft.record_alike (name : String) (parameters : List String) (result : String)
    (owner : Owner) {extent other : Extent} (level : extent.Level columns other) :
    Option.Rel (FunctionRecord.Alike columns)
      (record ⟨name, parameters, result, extent, owner⟩).toOption
      (record ⟨name, parameters, result, other, owner⟩).toOption := by
  rw [record_toOption, record_toOption]
  exact rel_map level.span fun _ _ same => ⟨rfl, rfl, rfl, same, rfl⟩

namespace Finding.Alike

variable {finding other : Finding}

theorem function? (alike : Alike columns finding other) :
    Option.Rel (FunctionRecord.Alike columns) finding.function? other.function? := by
  cases alike with
  | function name parameters result owner blocks level =>
      exact FunctionDraft.record_alike name parameters result owner level
  | same bare =>
      cases finding with
      | function draft blocks => cases bare
      | _ => exact .none
  | _ => exact .none

theorem freeFunction? (alike : Alike columns finding other) :
    Option.Rel (FunctionRecord.Alike columns) finding.freeFunction? other.freeFunction? := by
  refine rel_filter alike.function? ?_
  intro function like same
  rw [same.owner]

theorem enum? (alike : Alike columns finding other) :
    Option.Rel (EnumRecord.Alike columns) finding.enum? other.enum? := by
  cases alike with
  | enum name counts level => exact rel_map level.span fun _ _ same => ⟨rfl, same, counts⟩
  | same bare =>
      cases finding with
      | enum name variants extent => cases bare
      | _ => exact .none
  | _ => exact .none

theorem test? (alike : Alike columns finding other) :
    Option.Rel (TestRecord.Alike columns) finding.test? other.test? := by
  cases alike with
  | test name level => exact rel_map level.span fun _ _ same => ⟨rfl, same⟩
  | same bare =>
      cases finding with
      | test name extent => cases bare
      | _ => exact .none
  | _ => exact .none

theorem block? (alike : Alike columns finding other) :
    Option.Rel (Span.Level columns) finding.block? other.block? := by
  cases alike with
  | unsafeBlock level => exact level.span
  | same bare =>
      cases finding with
      | unsafeBlock extent => cases bare
      | _ => exact .none
  | _ => exact .none

theorem testModule? (alike : Alike columns finding other) :
    other.testModule? = finding.testModule? := by
  cases alike <;> rfl

end Finding.Alike

/-! ### Rosters -/

namespace Roster

variable {α : Type} {like : α → α → Prop}

/-- Both edits touch the same name, in ways that keep records alike, or both none. -/
def EditsAlike (like : α → α → Prop) (edit? other? : Option (String × (α → α))) : Prop :=
  (edit? = none ∧ other? = none) ∨
    ∃ name change changeOther, edit? = some (name, change) ∧ other? = some (name, changeOther) ∧
      ∀ record other, like record other → like (change record) (changeOther other)

theorem EditsAlike.of_rel {β : Type} {first second : Option β} {likeToo : β → β → Prop}
    (related : Option.Rel likeToo first second) (name : String) {change : β → α → α}
    (keeps : ∀ value valueOther, likeToo value valueOther → ∀ record other, like record other →
      like (change value record) (change valueOther other)) :
    EditsAlike like (first.map fun value => (name, change value))
      (second.map fun value => (name, change value)) := by
  cases related with
  | none => exact .inl ⟨rfl, rfl⟩
  | some same => exact .inr ⟨name, _, _, rfl, rfl, keeps _ _ same⟩

theorem forall₂_modify {records others : List α} (alike : List.Forall₂ like records others)
    {change changeOther : α → α}
    (keeps : ∀ record other, like record other → like (change record) (changeOther other))
    (place : Nat) :
    List.Forall₂ like (records.modify place change) (others.modify place changeOther) := by
  induction alike generalizing place with
  | nil =>
      rw [List.modify_nil, List.modify_nil]
      exact .nil
  | cons same rest ih =>
      cases place with
      | zero => exact .cons (keeps _ _ same) rest
      | succ place => exact .cons same (ih place)

theorem Alike.touch {roster other : Roster α} (alike : Alike like roster other) {fresh : α}
    (freshAlike : like fresh fresh) {change changeOther : α → α}
    (keeps : ∀ record other, like record other → like (change record) (changeOther other))
    (name : String) :
    Alike like (roster.touch name fresh change) (other.touch name fresh changeOther) := by
  obtain ⟨places, records⟩ := alike
  have length := records.length_eq
  unfold Roster.touch enter place?
  rw [places]
  cases roster.places.lookup name with
  | some place => exact ⟨places, forall₂_modify records keeps place⟩
  | none =>
      have grown := List.rel_append records (.cons freshAlike .nil)
      rw [← length]
      exact ⟨rfl, forall₂_modify grown keeps _⟩

theorem Alike.edit {roster other : Roster α} (alike : Alike like roster other)
    {fresh : String → α} (freshAlike : ∀ name, like (fresh name) (fresh name))
    {edit? other? : Option (String × (α → α))} (edits : EditsAlike like edit? other?) :
    Alike like (roster.edit fresh edit?) (other.edit fresh other?) := by
  rcases edits with ⟨rfl, rfl⟩ | ⟨name, change, changeOther, rfl, rfl, keeps⟩
  · exact alike
  · exact alike.touch (freshAlike name) keeps name

end Roster

theorem Span.Level.first {span? other? : Option Span} {span other : Span}
    (level : span.Level columns other) (known : Option.Rel (Span.Level columns) span? other?) :
    Option.Rel (Span.Level columns) (span? <|> some span) (other? <|> some other) := by
  cases known with
  | none => exact .some level
  | some same => exact .some same

theorem TypeRecord.Alike.addTrait {type other : TypeRecord} (alike : type.Alike columns other)
    (traitName : String) :
    TypeRecord.Alike columns (type.addTrait traitName) (other.addTrait traitName) := by
  unfold TypeRecord.addTrait
  rw [alike.traits]
  split
  · exact alike
  · exact ⟨alike.name, alike.span?, alike.methods, rfl⟩

theorem TypeRecord.editsAlike_addMethod {first second : Option FunctionRecord}
    (related : Option.Rel (FunctionRecord.Alike columns) first second) :
    Roster.EditsAlike (TypeRecord.Alike columns)
      (first.bind fun function =>
        function.owner.type?.map fun name => (name, (·.addMethod function)))
      (second.bind fun function =>
        function.owner.type?.map fun name => (name, (·.addMethod function))) := by
  cases related with
  | none => exact .inl ⟨rfl, rfl⟩
  | @some function other same =>
      rw [Option.bind_some, Option.bind_some, same.owner]
      cases function.owner.type? with
      | none => exact .inl ⟨rfl, rfl⟩
      | some name =>
          refine .inr ⟨name, _, _, rfl, rfl, ?_⟩
          intro type like alike
          exact ⟨alike.name, alike.span?, List.rel_append alike.methods (.cons same .nil),
            alike.traits⟩

namespace Finding.Alike

variable {finding other : Finding}

theorem typeEdit? (alike : Alike columns finding other) :
    Roster.EditsAlike (TypeRecord.Alike columns) finding.typeEdit? other.typeEdit? := by
  cases alike with
  | function name parameters result owner blocks level =>
      exact TypeRecord.editsAlike_addMethod
        (FunctionDraft.record_alike name parameters result owner level)
  | struct name level =>
      refine .of_rel level.span name ?_
      intro span spanOther same record like alike
      exact ⟨alike.name, same.first alike.span?, alike.methods, alike.traits⟩
  | same bare =>
      cases finding with
      | target name traitName? =>
          cases traitName? with
          | none => exact .inr ⟨name, id, id, rfl, rfl, fun _ _ same => same⟩
          | some traitName =>
              exact .inr ⟨name, _, _, rfl, rfl, fun _ _ same => same.addTrait traitName⟩
      | function draft blocks => cases bare
      | struct name extent => cases bare
      | _ => exact .inl ⟨rfl, rfl⟩
  | _ => exact .inl ⟨rfl, rfl⟩

theorem traitEdit? (alike : Alike columns finding other) :
    Roster.EditsAlike (TraitRecord.Alike columns) finding.traitEdit? other.traitEdit? := by
  cases alike with
  | trait name level =>
      refine .of_rel level.span name ?_
      intro span spanOther same record like alike
      exact ⟨alike.name, same.first alike.span?⟩
  | same bare =>
      cases finding with
      | target name traitName? =>
          cases traitName? with
          | none => exact .inl ⟨rfl, rfl⟩
          | some traitName => exact .inr ⟨traitName, id, id, rfl, rfl, fun _ _ same => same⟩
      | trait name extent => cases bare
      | _ => exact .inl ⟨rfl, rfl⟩
  | _ => exact .inl ⟨rfl, rfl⟩

end Finding.Alike

/-! ### Inventories -/

namespace Inventory

/-- Findings that are alike are written down alike. -/
theorem Alike.note {inventory other : Inventory} (alike : inventory.Alike columns other)
    {finding like : Finding} (same : finding.Alike columns like) :
    (inventory.note finding).Alike columns (other.note like) where
  functions := List.rel_append alike.functions (forall₂_toList same.freeFunction?)
  types := alike.types.edit (fun _ => ⟨rfl, .none, .nil, rfl⟩) same.typeEdit?
  enums := List.rel_append alike.enums (forall₂_toList same.enum?)
  traits := alike.traits.edit (fun _ => ⟨rfl, .none⟩) same.traitEdit?
  tests := List.rel_append alike.tests (forall₂_toList same.test?)
  unsafeBlocks := List.rel_append alike.unsafeBlocks (forall₂_toList same.block?)
  testModuleLine? := by
    change (other.testModuleLine? <|> like.testModule?) =
      (inventory.testModuleLine? <|> finding.testModule?)
    rw [alike.testModuleLine?, same.testModule?]
  length := alike.length

theorem alike_empty (columns : Bool) : empty.Alike columns empty where
  functions := .nil
  types := ⟨rfl, .nil⟩
  enums := .nil
  traits := ⟨rfl, .nil⟩
  tests := .nil
  unsafeBlocks := .nil
  testModuleLine? := rfl
  length := rfl

theorem ofFindings_alike {found others : List Finding}
    (alike : Finding.AllAlike columns found others) :
    (ofFindings found).Alike columns (ofFindings others) := by
  have run : ∀ inventory other : Inventory, inventory.Alike columns other →
      (found.foldl note inventory).Alike columns (others.foldl note other) := by
    induction alike with
    | nil => exact fun _ _ same => same
    | cons first _ ih => exact fun _ _ same => ih _ _ (same.note first)
  exact run empty empty (alike_empty columns)

end Inventory

/-! ### Surveys -/

/-- Writing comments over keeps the number of bytes. -/
theorem Text.byteLength_withoutComments (text : List Char) :
    byteLength (withoutComments text) = byteLength text := by
  have level : (Position.ofText text).Level false (Position.ofText (withoutComments text)) :=
    (Position.Level.refl false .start).withoutComments nofun
  have offsets := level.offset
  rwa [Position.ofText_offset, Position.ofText_offset] at offsets

/-- Where all characters of comments are one byte, writing them over keeps the length. -/
theorem Text.length_withoutComments {text : List Char}
    (narrow : ∀ token ∈ (Cursor.ofText text).tokens, token.tag.isComment = true →
      ∀ c ∈ token.lexeme, c.utf8Size = 1) : (withoutComments text).length = text.length := by
  have shaded : ∀ lexeme : List Char, (∀ c ∈ lexeme, c.utf8Size = 1) →
      (shade lexeme).length = lexeme.length := by
    intro lexeme single
    induction lexeme with
    | nil => rfl
    | cons c lexeme ih =>
        obtain ⟨first, later⟩ := List.forall_mem_cons.mp single
        rw [shade_cons, List.length_append, ih later, List.length_cons, Nat.add_comm]
        congr 1
        split
        · rfl
        · rw [List.length_replicate, first]
  have lexemes := congrArg List.length (Cursor.flatMap_lexeme_tokens (.ofText text))
  have same : (Cursor.ofText text).tokens.map (fun token => token.blanked.length) =
      (Cursor.ofText text).tokens.map fun token => token.lexeme.length := by
    apply List.map_congr_left
    intro token member
    unfold Token.blanked
    split
    · rename_i comment
      exact shaded token.lexeme (narrow token member comment)
    · rfl
  rw [List.length_flatMap] at lexemes
  unfold withoutComments
  rw [List.length_flatMap, same, lexemes]
  rfl

/-- A text of at most 2^32 - 3 bytes whose tokens are unambiguous and that has no comments
where they would be read along has the same inventory without its comments: the same
functions and methods with their parameters and owners, the same types, traits and tests,
enumerations with as many variants, and the same unsafe blocks, all on the same lines and at
the same offsets. Columns are the same as well if every character of a comment is one byte. -/
theorem survey_withoutComments (config : Config) (text : String)
    (small : Text.byteLength text.toList ≤ 2 ^ 32 - 3)
    (unambiguous : Token.Unambiguous (Cursor.ofText text.toList).tokens)
    (calm : Token.AllCalm text.toList) (columns : Bool)
    (narrow : columns = true → ∀ token ∈ (Cursor.ofText text.toList).tokens,
      token.tag.isComment = true → ∀ c ∈ token.lexeme, c.utf8Size = 1) :
    ∃ inventory other, survey config text = .ok inventory ∧
      survey config (String.ofList (Text.withoutComments text.toList)) = .ok other ∧
      inventory.Alike columns other := by
  have matched : (Cursor.ofText text.toList).Matched columns
      (.ofText (Text.withoutComments text.toList)) :=
    ⟨.start columns fun counts => Text.length_withoutComments (narrow counts),
      unambiguous.allPlain, calm⟩
  have alike := Inventory.ofFindings_alike
    (Finding.stream_alike matched config false nofun)
  have bytes := Text.byteLength_withoutComments text.toList
  have blanked := survey_eq config (String.ofList (Text.withoutComments text.toList))
  rw [String.toList_ofList, bytes] at blanked
  refine ⟨_, _, survey_eq config text small, blanked small, ?_⟩
  exact ⟨alike.functions, alike.types, alike.enums, alike.traits, alike.tests, alike.unsafeBlocks,
    alike.testModuleLine?, rfl⟩

/-! ### Checking that a text is calm -/

namespace Token

/-- Check that the first characters are whole tokens, none of which is a comment. -/
def isQuiet (text : List Char) (count : Nat) : Bool :=
  match _found : read? text with
  | none => count == 0
  | some (tag, length) =>
      count == 0 ||
        (!tag.isComment && (length ≤ count && isQuiet (text.drop length) (count - length)))
termination_by text.length
decreasing_by exact length_drop_lt _found

theorem quiet_of_isQuiet {text : List Char} {count : Nat} (checked : isQuiet text count = true) :
    Quiet text count := by
  fun_induction isQuiet text count with
  | case1 text count found =>
      rw [eq_of_beq checked]
      exact .nothing text
  | case2 text count tag length found ih =>
      rw [Bool.or_eq_true, Bool.and_eq_true, Bool.and_eq_true] at checked
      rcases checked with none | ⟨other, inside, later⟩
      · rw [eq_of_beq none]
        exact .nothing text
      · have bound := of_decide_eq_true inside
        rw [← Nat.add_sub_cancel' bound]
        exact .onward found (Bool.not_eq_true' _ ▸ other) (ih later)

/-- Check that no comment comes next, blanks apart. -/
def isUncommented (text : List Char) : Bool :=
  (Comment.length? (text.drop (Trivia.blankLength text))).isNone

/-- Check what the token at the start of the text announces. No definition of a macro passes. -/
def isCalm (text : List Char) : Bool :=
  match read? text with
  | some (.hash, length) =>
      isUncommented (text.drop length) &&
        (Attribute.read? (text.drop length)).all fun mark => isQuiet (text.drop length) mark.length
  | some (.bang, length) => isUncommented (text.drop length)
  | some (.word, length) =>
      (Keyword.ofWord? (text.take length)).all fun keyword =>
        keyword != .macroRules && keyword.headGroups?.all fun groups =>
          (keyword == .function && Finding.isPointerType (text.drop length)) ||
            isQuiet (text.drop length) (Head.read groups (text.drop length)).length
  | _ => true

theorem calm_of_isCalm {text : List Char} (checked : isCalm text = true) : Calm text := by
  unfold isCalm at checked
  constructor
  · rintro (isHash | isBang)
    · obtain ⟨rest, rfl⟩ := List.head?_eq_some_iff.mp isHash
      have read : read? ('#' :: rest) = some (.hash, 1) := rfl
      rw [read] at checked
      exact Option.isNone_iff_eq_none.mp (Bool.and_eq_true_iff.mp checked).1
    · obtain ⟨rest, rfl⟩ := List.head?_eq_some_iff.mp isBang
      have read : read? ('!' :: rest) = some (.bang, 1) := rfl
      rw [read] at checked
      exact Option.isNone_iff_eq_none.mp checked
  · intro isHash mark found
    obtain ⟨rest, rfl⟩ := List.head?_eq_some_iff.mp isHash
    have read : read? ('#' :: rest) = some (.hash, 1) := rfl
    rw [List.tail_cons] at found
    rw [read] at checked
    have all := (Bool.and_eq_true_iff.mp checked).2
    rw [List.drop_succ_cons, List.drop_zero, found] at all
    exact quiet_of_isQuiet all
  · intro keyword groups length read spelled declares notPointer
    rw [read] at checked
    dsimp only at checked
    rw [spelled, Keyword.ofWord?_spelling, Option.all_some, declares, Option.all_some,
      Bool.and_eq_true, Bool.or_eq_true, Bool.and_eq_true] at checked
    rcases checked.2 with ⟨isFunction, pointer⟩ | quiet
    · rw [notPointer (eq_of_beq isFunction)] at pointer
      cases pointer
    · exact quiet_of_isQuiet quiet
  · intro length trivia rest read spelled
    rw [read] at checked
    dsimp only at checked
    rw [spelled, Keyword.ofWord?_spelling] at checked
    cases checked

/-- Check every token of the text. -/
def isAllCalm (text : List Char) : Bool :=
  match _found : read? text with
  | none => true
  | some (_, length) => isCalm text && isAllCalm (text.drop length)
termination_by text.length
decreasing_by exact length_drop_lt _found

theorem allCalm_of_isAllCalm {text : List Char} (checked : isAllCalm text = true) :
    AllCalm text := by
  intro count whole
  induction whole with
  | nothing text =>
      rw [List.drop_zero]
      apply calm_of_isCalm
      rw [isAllCalm] at checked
      split at checked
      · rename_i found
        unfold isCalm
        rw [found]
      · exact (Bool.and_eq_true_iff.mp checked).1
  | @onward text tag length more read _ later ih =>
      rw [← List.drop_drop]
      apply ih
      rw [isAllCalm] at checked
      split at checked
      · rename_i found
        rw [read] at found
        cases found
      · rename_i found
        rw [read] at found
        cases found
        exact (Bool.and_eq_true_iff.mp checked).2

end Token

/-- Comments that hold a comma and a brace, among variants and in the body of a function. -/
theorem survey_withoutComments_spoken :
    Text.byteLength
        "enum E \x7b A, /* B, */ C \x7d fn f() \x7b /* \x7d */ unsafe \x7b\x7d \x7d".toList ≤
          2 ^ 32 - 3 ∧
      ∃ inventory other,
        survey .standard
            "enum E \x7b A, /* B, */ C \x7d fn f() \x7b /* \x7d */ unsafe \x7b\x7d \x7d" =
          .ok inventory ∧
        survey .standard "enum E \x7b A,          C \x7d fn f() \x7b         unsafe \x7b\x7d \x7d" =
          .ok other ∧
        inventory.Alike true other := by
  have small : Text.byteLength
      "enum E \x7b A, /* B, */ C \x7d fn f() \x7b /* \x7d */ unsafe \x7b\x7d \x7d".toList ≤
        2 ^ 32 - 3 := by
    decide
  have unambiguous : Token.Unambiguous (Cursor.ofText
    "enum E \x7b A, /* B, */ C \x7d fn f() \x7b /* \x7d */ unsafe \x7b\x7d \x7d".toList).tokens := by
    apply Token.Unambiguous.of_forall
    decide +kernel
  have calm : Token.AllCalm
      "enum E \x7b A, /* B, */ C \x7d fn f() \x7b /* \x7d */ unsafe \x7b\x7d \x7d".toList := by
    apply Token.allCalm_of_isAllCalm
    decide +kernel
  have narrow : ∀ token ∈ (Cursor.ofText
      "enum E \x7b A, /* B, */ C \x7d fn f() \x7b /* \x7d */ unsafe \x7b\x7d \x7d".toList).tokens,
      token.lexeme.all (fun c => c.utf8Size == 1) = true := by
    decide +kernel
  have blanked : String.ofList (Text.withoutComments
      "enum E \x7b A, /* B, */ C \x7d fn f() \x7b /* \x7d */ unsafe \x7b\x7d \x7d".toList) =
        "enum E \x7b A,          C \x7d fn f() \x7b         unsafe \x7b\x7d \x7d" := by
    decide +kernel
  obtain ⟨inventory, other, surveyed, surveyedOther, alike⟩ :=
    survey_withoutComments .standard _ small unambiguous calm true
      fun _ token member _ c among =>
        eq_of_beq (List.all_eq_true.mp (narrow token member) c among)
  rw [blanked] at surveyedOther
  exact ⟨small, inventory, other, surveyed, surveyedOther, alike⟩

/-- A comment in the head of a function is read along: it is taken for the name, and a
parenthesis in it closes the parameters. -/
theorem survey_comment_in_head :
    ((survey .standard "fn /* c */ f() \x7b\x7d").map fun inventory =>
        inventory.functions.map FunctionRecord.name) = .ok ["/*"] ∧
      ((survey .standard "fn         f() \x7b\x7d").map fun inventory =>
        inventory.functions.map FunctionRecord.name) = .ok ["f"] ∧
      String.ofList (Text.withoutComments "fn /* c */ f() \x7b\x7d".toList) =
        "fn         f() \x7b\x7d" ∧
      ((survey .standard "fn f(a: u8 /* ) */, b: u8) \x7b\x7d").map fun inventory =>
        inventory.functions.map (·.parameters.length)) = .ok [1] ∧
      ((survey .standard "fn f(a: u8        , b: u8) \x7b\x7d").map fun inventory =>
        inventory.functions.map (·.parameters.length)) = .ok [2] ∧
      String.ofList (Text.withoutComments "fn f(a: u8 /* ) */, b: u8) \x7b\x7d".toList) =
        "fn f(a: u8        , b: u8) \x7b\x7d" := by
  decide +kernel

end Survey
