import Survey.Proofs.WrittenItems

set_option autoImplicit false

/-!
# Implementations as they are written

The body of a written implementation is a list of functions with blanks between them, some
marked as public. Read item by item, it yields every function in order and ends at its own
brace. So the survey of an implementation records one type, with exactly these methods and with
the trait that is implemented, if there is one.
-/

namespace Survey

namespace Cursor

variable {cursor : Cursor} {blanks text rest : List Char}

theorem skip_split (split : cursor.rest = text ++ rest) :
    (cursor.skip text.length).rest = rest ∧
      (cursor.skip text.length).place = cursor.place.pastAll text := by
  unfold skip
  rw [split, List.drop_left, List.take_left]
  exact ⟨rfl, rfl⟩

theorem significant?_toEnd (cursor : Cursor) : cursor.toEnd.significant? = none := by
  have nothing : cursor.toEnd.rest = [] := List.drop_length
  rw [significant?_eq, nothing]
  rfl

/-- Blanks before a token are passed. -/
theorem significant?_behind {tag : Tag} {lexeme : List Char}
    (split : cursor.rest = blanks ++ (lexeme ++ rest))
    (blank : ∀ c ∈ blanks, Text.isBlank c = true)
    (read : Token.read? (lexeme ++ rest) = some (tag, lexeme.length))
    (significant : tag.isTrivia = false) :
    cursor.significant? = some (⟨tag, cursor.place.pastAll blanks, lexeme⟩,
      blanks.length + lexeme.length) := by
  have length : Trivia.blankLength cursor.rest = blanks.length := by
    rw [split, Trivia.blankLength_append blank, Trivia.blankLength_of_significant read significant,
      Nat.add_zero]
  have run : Token.TriviaRun cursor.rest blanks.length := by
    rw [← length]
    apply (Trivia.blankLength_run cursor.rest).mono
    rintro tag (rfl | rfl) <;> rfl
  have behind : cursor.rest.drop blanks.length = lexeme ++ rest := (skip_split split).1
  have next := significant?_of_run run (by rw [behind]; exact read) significant
  rw [behind, (skip_split split).2, List.take_left] at next
  exact next

end Cursor

namespace Written

open Signature

/-! ### Methods -/

/-- A function among others, with the blanks before it. -/
structure Method where
  blanks : List Char
  blank : ∀ c ∈ blanks, Text.isBlank c = true
  isPublic : Bool
  item : Item

namespace Method

/-- What stands before the keyword. -/
def lead (method : Method) : List Char :=
  method.blanks ++ if method.isPublic then ['p', 'u', 'b', ' '] else []

def text (method : Method) : List Char := method.lead ++ method.item.text

/-- The records of functions that stand one behind the other, from the given place on. -/
def records (owner : Owner) (place : Position) : List Method → List FunctionRecord
  | [] => []
  | method :: later =>
      method.item.record owner (place.pastAll method.lead) ::
        records owner (place.pastAll method.text) later

/-- Every body is closed by its own brace, where the later functions and the rest stand
behind it. -/
def Closed (rest : List Char) : List Method → Prop
  | [] => True
  | method :: later =>
      method.item.ending.Closes (later.flatMap text ++ rest) ∧ Closed rest later

end Method

/-- The finding is a function of this owner, or about unsafe blocks. -/
def IsMethodOf (owner : Owner) (finding : Finding) : Prop :=
  (∃ draft blocks, finding = .function draft blocks ∧ draft.owner = owner) ∨
    (∃ extent, finding = .unsafeBlock extent) ∨ finding = .unsafeAtEnd

/-- What is found of a function among the items. -/
def findings (owner : Owner) (item : Item) (start : Position) (body : Cursor) (blocks : Nat) :
    List Finding :=
  Finding.unsafeIn body ++ [.function (item.draft owner start) blocks]

theorem isMethodOf_findings (owner : Owner) (item : Item) (start : Position) (body : Cursor)
    (blocks : Nat) :
    ∀ finding ∈ findings owner item start body blocks, IsMethodOf owner finding := by
  intro finding member
  rcases List.mem_append.mp member with inBody | itself
  · exact .inr (Finding.eq_of_mem_unsafeIn inBody)
  · exact .inl ⟨_, _, List.mem_singleton.mp itself, rfl⟩

theorem function?_findings (owner : Owner) (item : Item) (start : Position) (body : Cursor)
    (blocks : Nat) : (findings owner item start body blocks).filterMap Finding.function? =
      [item.record owner start] := by
  unfold findings
  rw [List.filterMap_append, Finding.filterMap_unsafeIn _ (fun _ => rfl) rfl, List.nil_append,
    List.filterMap_cons_some (item.function?_draft _ _ _)]
  rfl

/-- A function among the items is read up to its end, and reading goes on behind it. -/
theorem items_item (owner : Owner) (item : Item) {blanks rest : List Char}
    (blank : ∀ c ∈ blanks, Text.isBlank c = true) {cursor : Cursor}
    (split : cursor.rest = (blanks ++ item.text) ++ rest) (closes : item.ending.Closes rest) :
    ∃ body blocks, Finding.items owner cursor =
      ⟨findings owner item (cursor.place.pastAll blanks) body blocks ++
          (Finding.items owner (cursor.skip (blanks ++ item.text).length)).found,
        (blanks ++ item.text).length +
          (Finding.items owner (cursor.skip (blanks ++ item.text).length)).length⟩ := by
  have keyword : cursor.rest =
      blanks ++ (['f', 'n'] ++ (item.signature ++ (item.ending.text ++ rest))) := by
    rw [split]
    unfold Item.text
    simp only [List.append_assoc]
  have next := Cursor.significant?_behind keyword blank
    (@Token.read?_word ['f', 'n'] (by decide +kernel) _ (endsWord_of_mem (by decide) _)) rfl
  rw [← List.append_assoc] at keyword
  have behind := Cursor.skip_split keyword
  rw [List.length_append, Position.pastAll_append] at behind
  obtain ⟨body, blocks, visit⟩ := item.afterFunction_eq owner (cursor.place.pastAll blanks) _
    behind.1 behind.2 closes
  have among : Finding.amongItems owner ⟨.word, cursor.place.pastAll blanks, ['f', 'n']⟩
      (cursor.skip (blanks.length + ['f', 'n'].length)) =
        ⟨findings owner item (cursor.place.pastAll blanks) body blocks,
          (item.signature ++ item.ending.text).length⟩ := visit
  have reach : blanks.length + ['f', 'n'].length + (item.signature ++ item.ending.text).length =
      (blanks ++ item.text).length := by
    unfold Item.text
    simp only [List.length_append]
    omega
  refine ⟨body, blocks, ?_⟩
  rw [Finding.items_of_some next Tag.noConfusion, among]
  dsimp only
  rw [reach]

/-- The mark of a public function is passed. -/
theorem items_public (owner : Owner) {blanks rest : List Char}
    (blank : ∀ c ∈ blanks, Text.isBlank c = true) {cursor : Cursor}
    (split : cursor.rest = blanks ++ (['p', 'u', 'b'] ++ ' ' :: rest)) :
    let behind := cursor.skip (blanks ++ ['p', 'u', 'b']).length
    Finding.items owner cursor = ⟨(Finding.items owner behind).found,
      (blanks ++ ['p', 'u', 'b']).length + (Finding.items owner behind).length⟩ := by
  have next := Cursor.significant?_behind split blank
    (@Token.read?_word ['p', 'u', 'b'] (by decide +kernel) _ (endsWord_of_mem (by decide) _)) rfl
  rw [← List.length_append] at next
  intro behind
  rw [Finding.items_of_some next Tag.noConfusion]
  rfl

/-- A method is read up to its end, and reading goes on behind it. -/
theorem items_method (owner : Owner) (method : Method) {rest : List Char} {cursor : Cursor}
    (split : cursor.rest = method.text ++ rest) (closes : method.item.ending.Closes rest) :
    ∃ body blocks, Finding.items owner cursor =
      ⟨findings owner method.item (cursor.place.pastAll method.lead) body blocks ++
          (Finding.items owner (cursor.skip method.text.length)).found,
        method.text.length + (Finding.items owner (cursor.skip method.text.length)).length⟩ := by
  cases isPublic : method.isPublic with
  | false =>
      have lead : method.lead = method.blanks := by
        unfold Method.lead
        rw [isPublic]
        exact List.append_nil _
      unfold Method.text at split ⊢
      rw [lead] at split ⊢
      exact items_item owner method.item method.blank split closes
  | true =>
      have lead : method.lead = method.blanks ++ ['p', 'u', 'b'] ++ [' '] := by
        unfold Method.lead
        rw [isPublic, List.append_assoc]
        rfl
      unfold Method.text at split ⊢
      rw [lead] at split ⊢
      have announced : cursor.rest =
          (method.blanks ++ ['p', 'u', 'b']) ++ (([' '] ++ method.item.text) ++ rest) := by
        rw [split]
        simp only [List.append_assoc]
      have behind := Cursor.skip_split announced
      rw [List.append_assoc] at announced
      obtain ⟨body, blocks, items⟩ := items_item owner method.item
        (List.forall_mem_singleton.mpr (by decide)) behind.1 closes
      have reach : (method.blanks ++ ['p', 'u', 'b']).length + ([' '] ++ method.item.text).length =
          (method.blanks ++ ['p', 'u', 'b'] ++ [' '] ++ method.item.text).length := by
        simp only [List.length_append]
        omega
      refine ⟨body, blocks, ?_⟩
      rw [items_public owner method.blank announced, items]
      dsimp only
      rw [Cursor.skip_skip, ← Nat.add_assoc, reach, behind.2, ← Position.pastAll_append]

/-- The items of a body are read up to its closing brace. -/
theorem items_methods (owner : Owner) (methods : List Method) {blanks rest : List Char}
    (blank : ∀ c ∈ blanks, Text.isBlank c = true) {cursor : Cursor}
    (split : cursor.rest = methods.flatMap Method.text ++ (blanks ++ '\x7d' :: rest))
    (closed : Method.Closed (blanks ++ '\x7d' :: rest) methods) :
    (∀ finding ∈ (Finding.items owner cursor).found, IsMethodOf owner finding) ∧
      (Finding.items owner cursor).found.filterMap Finding.function? =
        Method.records owner cursor.place methods ∧
      (Finding.items owner cursor).length =
        (methods.flatMap Method.text ++ blanks).length + 1 := by
  -- Every method leaves the cursor behind itself, so the induction is over any cursor.
  induction methods generalizing cursor with
  | nil =>
      change cursor.rest = blanks ++ (['\x7d'] ++ rest) at split
      have next := Cursor.significant?_behind split blank rfl rfl
      rw [Finding.items_of_close next rfl]
      refine ⟨nofun, rfl, ?_⟩
      exact rfl
  | cons method later ih =>
      rw [List.flatMap_cons, List.append_assoc] at split
      obtain ⟨body, blocks, items⟩ := items_method owner method split closed.1
      obtain ⟨behind, place⟩ := Cursor.skip_split split
      obtain ⟨eachLater, laterFunctions, length⟩ := ih behind closed.2
      rw [items]
      dsimp only
      refine ⟨List.forall_mem_append.mpr ⟨isMethodOf_findings _ _ _ _ _, eachLater⟩, ?_, ?_⟩
      · rw [List.filterMap_append, function?_findings, laterFunctions, place]
        rfl
      · rw [length, List.flatMap_cons]
        simp only [List.length_append]
        omega

/-! ### The record of one implementation -/

section Record

variable {name : String} {traitName? : Option String} {inside : List Finding}

/-- All that is found of an implementation. -/
def implementationFindings (name : String) (traitName? : Option String) (inside : List Finding)
    (line : Nat) : List Finding :=
  .target name traitName? :: inside ++
    [.implementationBody name line (inside.countP Finding.isFunction)]

theorem mem_implementationFindings {line : Nat} {finding : Finding} :
    finding ∈ implementationFindings name traitName? inside line ↔
      finding = .target name traitName? ∨ finding ∈ inside ∨
        finding = .implementationBody name line (inside.countP Finding.isFunction) := by
  unfold implementationFindings
  simp

theorem eq_singleton_of_mem_iff {names : List String} (distinct : names.Nodup)
    (mentioned : ∀ other, other ∈ names ↔ other = name) : names = [name] := by
  apply List.perm_singleton.mp
  rw [List.perm_ext_iff_of_nodup distinct (List.nodup_singleton name)]
  intro other
  rw [mentioned, List.mem_singleton]

theorem IsMethodOf.owner_eq {owner : Owner} {finding : Finding} (method : IsMethodOf owner finding)
    {function : FunctionRecord} (recorded : finding.function? = some function) :
    function.owner = owner := by
  obtain ⟨draft, blocks, rfl, -, -, same⟩ := Finding.eq_of_function? recorded
  rcases method with ⟨_, _, isFunction, owned⟩ | ⟨extent, isBlock⟩ | atEnd
  · cases isFunction
    exact same.trans owned
  · cases isBlock
  · cases atEnd

/-- Methods mention the type that they belong to, and nothing else. -/
theorem IsMethodOf.edits {finding : Finding} {trait? : Option String}
    (method : IsMethodOf ⟨some name, trait?⟩ finding) :
    finding.traitEdit? = none ∧ finding.structSpan? name = none ∧
      ∀ other change, finding.typeEdit? = some (other, change) → other = name := by
  rcases method with ⟨draft, blocks, rfl, owned⟩ | ⟨extent, rfl⟩ | rfl
  · refine ⟨rfl, rfl, ?_⟩
    intro other change edited
    simp only [Finding.typeEdit?, Option.bind_eq_some_iff, Option.map_eq_some_iff,
      Prod.mk.injEq] at edited
    obtain ⟨function, recorded, mentioned, owner, same, -⟩ := edited
    have owned' := IsMethodOf.owner_eq (.inl ⟨draft, blocks, rfl, owned⟩) recorded
    rw [owned'] at owner
    cases owner
    exact same.symm
  · exact ⟨rfl, rfl, nofun⟩
  · exact ⟨rfl, rfl, nofun⟩

theorem foldl_note_traits {found : List Finding}
    (quiet : ∀ finding ∈ found, finding.traitEdit? = none) (inventory : Inventory) :
    (found.foldl Inventory.note inventory).traits = inventory.traits := by
  induction found generalizing inventory with
  | nil => rfl
  | cons finding found ih =>
      rw [List.foldl_cons, ih fun other member => quiet other (List.mem_cons_of_mem _ member)]
      change inventory.traits.edit TraitRecord.named finding.traitEdit? = _
      rw [quiet finding List.mem_cons_self]
      rfl

variable (each : ∀ finding ∈ inside, IsMethodOf ⟨some name, traitName?⟩ finding) (line : Nat)

include each

theorem typeNames_implementationFindings :
    (Inventory.ofFindings (implementationFindings name traitName? inside line)).types.records.map
      TypeRecord.name = [name] := by
  refine eq_singleton_of_mem_iff (Inventory.ofFindings_types_indexed _).nodup fun other =>
    (Inventory.mem_typeNames _ other).trans ⟨?_, ?_⟩
  · rintro ⟨finding, member, change, edited⟩
    rcases mem_implementationFindings.mp member with rfl | isInside | rfl
    · cases traitName? <;> cases edited <;> rfl
    · exact (each finding isInside).edits.2.2 other change edited
    · cases edited
  · rintro rfl
    refine ⟨_, mem_implementationFindings.mpr (.inl rfl), ?_⟩
    cases traitName? <;> exact ⟨_, rfl⟩

theorem methods_implementationFindings :
    (implementationFindings name traitName? inside line).filterMap (Finding.methodOf? name) =
      inside.filterMap Finding.function? := by
  have same : ∀ finding ∈ inside, finding.methodOf? name = finding.function? := by
    intro finding member
    unfold Finding.methodOf?
    cases recorded : finding.function? with
    | none => rfl
    | some function =>
        have owner := (each finding member).owner_eq recorded
        rw [Option.filter_some, owner]
        exact if_pos (beq_self_eq_true _)
  unfold implementationFindings
  rw [List.filterMap_append, List.filterMap_cons_none rfl, List.filterMap_congr same]
  exact List.append_nil _

theorem target_mem_implementationFindings (traitName : String) :
    .target name (some traitName) ∈ implementationFindings name traitName? inside line ↔
      traitName? = some traitName := by
  rw [mem_implementationFindings]
  constructor
  · rintro (isTarget | isInside | isBody)
    · cases isTarget
      rfl
    · rcases each _ isInside with ⟨_, _, isFunction, -⟩ | ⟨_, isBlock⟩ | atEnd
      · cases isFunction
      · cases isBlock
      · cases atEnd
    · cases isBody
  · rintro rfl
    exact .inl rfl

/-- One implementation makes one record, with its methods and its trait. -/
theorem types_implementationFindings :
    (Inventory.ofFindings (implementationFindings name traitName? inside line)).types.records =
      [⟨name, none, inside.filterMap Finding.function?, traitName?.toList⟩] := by
  obtain ⟨type, records, named⟩ :=
    List.map_eq_singleton_iff.mp (typeNames_implementationFindings each line)
  have member : type ∈ (Inventory.ofFindings
      (implementationFindings name traitName? inside line)).types.records := by
    rw [records]
    exact List.mem_singleton_self type
  have known := Inventory.type?_of_mem member
  have methods := Inventory.ofFindings_type_methods
    (implementationFindings name traitName? inside line) name
  have span := Inventory.ofFindings_type_span?
    (implementationFindings name traitName? inside line) name
  obtain ⟨distinct, mentioned⟩ := Inventory.type_traits member
  rw [named] at known
  rw [known, Option.getD_some] at methods span
  rw [methods_implementationFindings each] at methods
  have undeclared : type.span? = none := by
    rw [span, List.findSome?_eq_none_iff]
    intro finding isFound
    rcases mem_implementationFindings.mp isFound with rfl | isInside | rfl
    · rfl
    · exact (each finding isInside).edits.2.1
    · rfl
  have traits : type.traits = traitName?.toList := by
    simp only [named, target_mem_implementationFindings each] at mentioned
    cases traitName? with
    | none =>
        apply List.eq_nil_iff_forall_not_mem.mpr
        intro other isTrait
        exact nomatch (mentioned other).mp isTrait
    | some traitName =>
        apply eq_singleton_of_mem_iff distinct
        intro other
        rw [mentioned, Option.some.injEq, eq_comm]
  obtain ⟨typeName, span?, typeMethods, typeTraits⟩ := type
  dsimp only at named methods undeclared traits
  rw [records, named, methods, undeclared, traits]

/-- The trait is known by its name alone. -/
theorem traits_implementationFindings :
    (Inventory.ofFindings (implementationFindings name traitName? inside line)).traits.records =
      traitName?.toList.map TraitRecord.named := by
  have quiet : ∀ finding ∈ inside ++
      [.implementationBody name line (inside.countP Finding.isFunction)],
        finding.traitEdit? = none := by
    intro finding member
    rcases List.mem_append.mp member with isInside | isBody
    · exact (each finding isInside).edits.1
    · rw [List.mem_singleton.mp isBody]
      rfl
  unfold Inventory.ofFindings implementationFindings
  rw [List.cons_append, List.foldl_cons, foldl_note_traits quiet]
  cases traitName? <;> rfl

theorem functions_implementationFindings :
    (Inventory.ofFindings (implementationFindings name traitName? inside line)).functions = [] := by
  rw [Inventory.ofFindings_functions, List.filterMap_eq_nil_iff]
  intro finding member
  rcases mem_implementationFindings.mp member with rfl | isInside | rfl
  · rfl
  · unfold Finding.freeFunction?
    cases recorded : finding.function? with
    | none => rfl
    | some function =>
        have owner := (each finding isInside).owner_eq recorded
        rw [Option.filter_some, owner]
        rfl
  · rfl

end Record

/-! ### Implementations in a file -/

/-- The head of an implementation goes on over everything before its body. -/
theorem Implementation.passes (implementation : Implementation) {rest : List Char}
    (ends : Text.EndsWord rest) : Head.Passes implementation.text rest := by
  have behind := endsWord_constraints implementation.constraints ends
  have generics : Bracketed [] (angled (implementation.generics.map Generic.text)) :=
    bracketed_angled (List.forall_mem_map.mpr fun generic _ => generic.bracketed)
  have target : Head.Passes implementation.target.text
      (constraintsText implementation.constraints ++ rest) :=
    Head.passes_of_bracketed implementation.target.bracketed (by decide) behind
  have subject : Head.Passes implementation.subjectText
      (constraintsText implementation.constraints ++ rest) := by
    unfold subjectText
    cases implementation.trait? with
    | none => exact target
    | some trait =>
        exact (Head.passes_of_bracketed (Ty.bracketed _) (by decide)
          (endsWord_of_mem (by decide) _)).append (Head.passes_introducer (by decide) target)
  exact (Head.passes_of_bracketed generics (by decide) (endsWord_of_mem (by decide) _)).append
    ((Head.passes_space _).append (subject.append (passes_constraints _ ends)))

/-- An implementation with its body. -/
structure Block where
  implementation : Implementation
  spaces : Nat
  methods : List Method
  blanks : List Char
  blank : ∀ c ∈ blanks, Text.isBlank c = true

namespace Block

def signature (block : Block) : List Char :=
  block.implementation.text ++ List.replicate block.spaces ' '

/-- The items of the body up to its closing brace. -/
def inner (block : Block) : List Char :=
  block.methods.flatMap Method.text ++ (block.blanks ++ ['\x7d'])

/-- Everything up to the opening brace. -/
def head (block : Block) : List Char := ['i', 'm', 'p', 'l'] ++ (block.signature ++ ['\x7b'])

/-- An implementation as it is written. -/
def text (block : Block) : List Char := block.head ++ block.inner

def trait? (block : Block) : Option String :=
  block.implementation.trait?.map fun trait => String.ofList trait.names.text

theorem read_head (block : Block) (rest : List Char) :
    ∃ kept, Head.read Finding.signatureGroups (block.signature ++ '\x7b' :: rest) =
      ⟨kept, block.signature.length + 1, .brace⟩ := by
  have ends : Text.EndsWord ('\x7b' :: rest) :=
    Text.endsWord_cons (by decide) (by decide) rest
  have opens : Head.Ends ('\x7b' :: rest) .brace :=
    Atom.read?_of_isBare (Delimiter.brace.isBare_opener rest)
  exact ((block.implementation.passes ((endsWord_spaces _).append ends)).append
    (passes_spaces _ ends)).read_eq opens

/-- What is read behind the keyword is the implementation up to its end. -/
theorem afterImplementation_eq (block : Block) {name : List Char}
    (named : block.implementation.target.name? = some name)
    (closed : Method.Closed (block.blanks ++ ['\x7d']) block.methods) :
    let owner : Owner := ⟨some (String.ofList name), block.trait?⟩
    ∃ inside, (∀ finding ∈ inside, IsMethodOf owner finding) ∧
      inside.filterMap Finding.function? =
        Method.records owner (.ofText block.head) block.methods ∧
      Finding.afterImplementation .start
          ⟨block.signature ++ '\x7b' :: block.inner, .ofText ['i', 'm', 'p', 'l']⟩ =
        ⟨implementationFindings (String.ofList name) block.trait? inside 1,
          (block.signature ++ '\x7b' :: block.inner).length⟩ := by
  intro owner
  let cursor : Cursor := ⟨block.signature ++ '\x7b' :: block.inner, .ofText ['i', 'm', 'p', 'l']⟩
  obtain ⟨kept, head⟩ := block.read_head block.inner
  have resolved := target?_text block.implementation named block.spaces
  have split : cursor.rest = (block.signature ++ ['\x7b']) ++ block.inner := by
    rw [List.append_assoc]
    rfl
  have behind := Cursor.skip_split split
  have start : (cursor.skip (block.signature ++ ['\x7b']).length).place = .ofText block.head := by
    rw [behind.2]
    exact (Position.pastAll_append _ _ _).symm
  rw [List.length_append, List.length_singleton] at behind start
  obtain ⟨each, functions, length⟩ :=
    items_methods owner block.methods block.blank behind.1 closed
  rw [start] at functions
  refine ⟨_, each, functions, ?_⟩
  have cut : (⟨kept, block.signature.length + 1, .brace⟩ : Head).signature
      (block.signature ++ '\x7b' :: block.inner) = block.signature := List.take_left
  have target : target? block.signature =
      some ⟨name, block.implementation.trait?.map fun trait => trait.names.text⟩ := resolved
  have trait : Option.map String.ofList
      (block.implementation.trait?.map fun trait => trait.names.text) = block.trait? := by
    unfold trait?
    rw [Option.map_map]
    rfl
  have whole : block.signature.length + 1 + (Finding.items owner
      (cursor.skip (block.signature.length + 1))).length =
        (block.signature ++ '\x7b' :: block.inner).length := by
    rw [length]
    unfold inner
    simp only [List.length_append, List.length_cons, List.length_nil]
    omega
  unfold Finding.afterImplementation
  rw [head]
  dsimp only
  rw [cut, target]
  dsimp only
  rw [trait, ← whole]
  rfl

end Block

/-- A file that is one written implementation is surveyed as one type, named by what is
implemented, with the methods and the trait that were written. -/
theorem survey_implementation (config : Config) (block : Block) {name : List Char}
    (named : block.implementation.target.name? = some name)
    (closed : Method.Closed (block.blanks ++ ['\x7d']) block.methods)
    (small : Text.byteLength block.text ≤ 2 ^ 32 - 3) :
    let owner : Owner := ⟨some (String.ofList name), block.trait?⟩
    ∃ inventory type, survey config (String.ofList block.text) = .ok inventory ∧
      inventory.types.records = [type] ∧ type.name = String.ofList name ∧ type.span? = none ∧
      type.methods = Method.records owner (.ofText block.head) block.methods ∧
      type.traits = block.trait?.toList ∧
      inventory.traits.records = block.trait?.toList.map TraitRecord.named ∧
      inventory.functions = [] := by
  intro owner
  obtain ⟨inside, each, functions, visit⟩ := block.afterImplementation_eq named closed
  have whole : block.text =
      Keyword.implementation.spelling ++ (block.signature ++ '\x7b' :: block.inner) := by
    unfold Block.text Block.head
    rw [List.append_assoc, List.append_assoc]
    rfl
  have ends : Text.EndsWord (block.signature ++ '\x7b' :: block.inner) := by
    unfold Block.signature Implementation.text
    rw [List.append_assoc, List.append_assoc]
    exact endsWord_angled _ (endsWord_of_mem (by decide) _)
  obtain ⟨_, found⟩ := Finding.ofText_keyword config .implementation ends
  have visited : Finding.afterKeyword .implementation .start
      ⟨block.signature ++ '\x7b' :: block.inner, .ofText Keyword.implementation.spelling⟩ =
        ⟨implementationFindings (String.ofList name) block.trait? inside 1,
          (block.signature ++ '\x7b' :: block.inner).length⟩ := visit
  have all : Finding.ofText config block.text =
      implementationFindings (String.ofList name) block.trait? inside 1 := by
    let behind : Cursor := ⟨block.signature ++ '\x7b' :: block.inner,
      .ofText Keyword.implementation.spelling⟩
    have atEnd : (behind.skip (block.signature ++ '\x7b' :: block.inner).length).significant? =
        none := behind.significant?_toEnd
    rw [whole, found, visited, Finding.stream_of_none atEnd]
    exact List.append_nil _
  have surveyed := survey_ofList config small
  rw [all] at surveyed
  have types := types_implementationFindings each 1
  rw [functions] at types
  exact ⟨_, _, surveyed, types, rfl, rfl, rfl, rfl, traits_implementationFindings each 1,
    functions_implementationFindings each 1⟩

/-- The target is borrowed and dynamic, the trait has an argument that nests, and the first method
has a brace in a literal of its body. -/
theorem survey_implementation_dynamic :
    let t := Name.ofWord ['T'] rfl (by decide)
    let named := fun name : Name => Ty.path ⟨name, []⟩ []
    let block : Block :=
      { implementation :=
          { generics := [.lifetime ⟨['a'], by decide, by decide⟩, .type t]
            trait? := some ⟨⟨.ofWord "ops".toList rfl (by decide),
              [.ofWord "Add".toList rfl (by decide)]⟩,
              [.tuple [named t, .slice (named t)]]⟩
            target := .reference (some ⟨['a'], by decide, by decide⟩) true
              (.dynamic ⟨.ofWord "shapes".toList rfl (by decide),
                [.ofWord "Formed".toList rfl (by decide)]⟩)
            constraints := [⟨named t,
              ⟨⟨.ofWord "Copy".toList rfl (by decide), []⟩, []⟩⟩] }
        spaces := 1
        methods :=
          [{ blanks := ['\n', ' '], blank := by decide, isPublic := true
             item :=
              { prototype := ⟨.ofWord "add".toList rfl (by decide), [],
                  some .value, [⟨.ofWord "other".toList rfl (by decide),
                    .array (named t) t.toWord⟩], some (.tuple []), []⟩
                spaces := 1
                ending := .body " \"\x7d\" ".toList } },
           { blanks := ['\n', ' '], blank := by decide, isPublic := false
             item :=
              { prototype := ⟨.ofWord "zero".toList rfl (by decide), [], none, [],
                  none, []⟩
                spaces := 0
                ending := .semicolon } }]
        blanks := ['\n']
        blank := by decide }
    block.text = ("impl<'a, T> ops::Add<(T, [T])> for &'a mut dyn shapes::Formed where T: Copy " ++
        "\x7b\n pub fn add(self, other: [T; T]) -> () \x7b \"\x7d\" \x7d\n " ++
        "fn zero();\n\x7d").toList ∧
      Method.Closed (block.blanks ++ ['\x7d']) block.methods ∧
      ∃ inventory type, survey .standard (String.ofList block.text) = .ok inventory ∧
        inventory.types.records = [type] ∧ type.name = "shapes::Formed" ∧ type.span? = none ∧
        type.methods.map FunctionRecord.name = ["add", "zero"] ∧
        type.methods.map FunctionRecord.parameters = [["self", "other: [T; T]"], []] ∧
        type.methods.map FunctionRecord.owner =
          List.replicate 2 ⟨some "shapes::Formed", some "ops::Add"⟩ ∧
        type.methods.map (·.span.start.line) = [2, 3] ∧ type.traits = ["ops::Add"] := by
  intro t named block
  have closed : Method.Closed (block.blanks ++ ['\x7d']) block.methods := by
    refine ⟨?_, trivial, trivial⟩
    change Delimiter.brace.Closes _ _
    unfold Delimiter.Closes
    decide +kernel
  have head : block.implementation.target.name? = some "shapes::Formed".toList := by
    decide +kernel
  obtain ⟨inventory, type, surveyed, types, name, span, methods, traits, -, -⟩ :=
    survey_implementation .standard block head closed (by decide +kernel)
  refine ⟨by decide +kernel, closed, inventory, type, surveyed, types, name, span, ?_, ?_, ?_, ?_,
    traits.trans (by decide +kernel)⟩ <;>
  · rw [methods]
    decide +kernel

end Written
end Survey
