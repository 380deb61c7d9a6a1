import Survey.Proofs.SignatureRoundTrips

set_option autoImplicit false

/-!
# Functions as they are written

A written function has a prototype and then a semicolon or a body. Of the body only its closing
brace matters: reading has to come to it from the opening one. Wherever such a function stands,
what is read behind its keyword ends where the function ends, and is recorded with the name, the
parameters, the result and the extent that were written. So it is at the start of a file, and
what comes behind it does not matter.
-/

namespace Survey

/-- Before anything that ends it a word is read as a word, whatever it is. -/
theorem Token.read?_word {word : List Char} (isWord : Text.isWord word = true)
    {after : List Char} (ends : Text.EndsWord after) :
    Token.read? (word ++ after) = some (.word, word.length) := by
  cases word with
  | nil => cases isWord
  | cons c word =>
      obtain ⟨starts, parts⟩ := Text.isWord_cons isWord
      have stops : ∀ d, after.head? = some d → Text.isWordPart d = false :=
        fun d first => (ends d first).1
      have bare : Atom.IsBare c (word ++ after) :=
        Atom.isBare_of_isWordPart (Text.isWordPart_of_isWordStart starts)
          (Atom.next_of_parts parts ends)
      have missing : literalAfter? (c :: word) after = none := by
        cases after with
        | nil =>
            unfold literalAfter?
            split <;> rfl
        | cons d after =>
            have other := (ends d rfl).2
            simp only [List.mem_cons, List.not_mem_nil, or_false, not_or] at other
            exact literalAfter?_other other.2.1 other.2.2 other.1 after
      have plain : rawWordLength (c :: word) after = 0 := by
        unfold rawWordLength
        split
        · exact absurd (by decide) (ends '#' rfl).2
        · rfl
      have read := (Reading.word starts parts stops bare.notRaw missing).read?
      rw [plain, Nat.add_zero] at read
      exact read

namespace Written

open Signature

variable {rest : List Char}

/-! ### Heads -/

theorem passes_constraints (conditions : List Constraint) (ends : Text.EndsWord rest) :
    Head.Passes (constraintsText conditions) rest := by
  cases conditions with
  | nil => exact Head.passes_nil rest
  | cons condition conditions =>
      have bracketed : Bracketed [','] (listed ((condition :: conditions).map Constraint.text)) :=
        bracketed_listed (List.forall_mem_map.mpr fun condition _ => condition.bracketed)
      exact Head.passes_introducer (by decide) (Head.passes_of_bracketed bracketed (by decide) ends)

theorem endsWord_constraints (conditions : List Constraint) (ends : Text.EndsWord rest) :
    Text.EndsWord (constraintsText conditions ++ rest) := by
  cases conditions with
  | nil => exact ends
  | cons condition conditions => exact endsWord_of_mem (by decide) _

theorem passes_spaces (spaces : Nat) (ends : Text.EndsWord rest) :
    Head.Passes (List.replicate spaces ' ') rest := by
  have blanks := bracketed_spaces spaces (.nothing [])
  rw [List.append_nil] at blanks
  exact Head.passes_of_bracketed blanks (by decide) ends

/-- The head of a function goes on over its prototype. -/
theorem Prototype.passes (prototype : Prototype) (ends : Text.EndsWord rest) :
    Head.Passes prototype.text rest := by
  have behind := endsWord_constraints prototype.constraints ends
  have generics : Bracketed [] (angled (prototype.generics.map Generic.text)) :=
    bracketed_angled (List.forall_mem_map.mpr fun generic _ => generic.bracketed)
  have group : Bracketed [] (Delimiter.paren.enclose (listed prototype.fragments)) :=
    bracketed_group_listed .paren (by decide) prototype.bracketed_fragments
  have tail : Head.Passes prototype.tailText rest := by
    unfold tailText
    apply Head.Passes.append _ (passes_constraints _ ends)
    cases prototype.result? with
    | none => exact Head.passes_nil _
    | some result =>
        exact Head.passes_of_bracketed (bracketed_arrow result.bracketed) (by decide) behind
  have tailEnds : Text.EndsWord (prototype.tailText ++ rest) := by
    unfold tailText
    rw [List.append_assoc]
    cases prototype.result? with
    | none => exact behind
    | some result => exact endsWord_arrow _ _
  have groupEnds : Text.EndsWord
      (Delimiter.paren.enclose (listed prototype.fragments) ++ prototype.tailText ++ rest) := by
    rw [List.append_assoc]
    exact endsWord_enclose _ _ _
  have genericsEnds := endsWord_angled (prototype.generics.map Generic.text) groupEnds
  rw [← List.append_assoc] at genericsEnds
  unfold text
  exact (Head.passes_word prototype.name.parts genericsEnds).append
    ((Head.passes_of_bracketed generics (by decide) groupEnds).append
      ((Head.passes_of_bracketed group (by decide) tailEnds).append tail))

/-! ### Functions -/

/-- What stands behind a prototype. -/
inductive Ending where
  | semicolon
  | body (inner : List Char)

namespace Ending

def text : Ending → List Char
  | .semicolon => [';']
  | .body inner => Delimiter.brace.enclose inner

/-- A body is closed by its own brace, where the rest stands behind it. -/
def Closes (ending : Ending) (rest : List Char) : Prop :=
  match ending with
  | .semicolon => True
  | .body inner => Delimiter.brace.Closes inner rest

def headEnd : Ending → HeadEnd
  | .semicolon => .semicolon
  | .body _ => .brace

theorem ends (ending : Ending) (rest : List Char) :
    Head.Ends (ending.text ++ rest) ending.headEnd := by
  cases ending with
  | semicolon =>
      exact Atom.read?_ordinary (by decide) rest
  | body inner =>
      unfold text
      rw [Delimiter.enclose_append]
      exact Atom.read?_of_isBare (Delimiter.brace.isBare_opener _)

theorem endsWord (ending : Ending) (rest : List Char) : Text.EndsWord (ending.text ++ rest) := by
  cases ending with
  | semicolon => exact endsWord_of_mem (by decide) rest
  | body inner => exact endsWord_enclose .brace inner rest

end Ending

/-- A function with what ends it. -/
structure Item where
  prototype : Prototype
  spaces : Nat
  ending : Ending

namespace Item

/-- The prototype with the spaces around it. -/
def signature (item : Item) : List Char :=
  ' ' :: (item.prototype.text ++ List.replicate item.spaces ' ')

/-- A function as it is written. -/
def text (item : Item) : List Char := ['f', 'n'] ++ (item.signature ++ item.ending.text)

/-- The record of a function that starts at the given place. -/
def record (item : Item) (owner : Owner) (start : Position) : FunctionRecord where
  name := String.ofList item.prototype.name.chars
  parameters := item.prototype.fragments.map String.ofList
  result := String.ofList item.prototype.resultText
  span := ⟨start, start.pastAll item.text, by
    rw [Position.pastAll_offset]
    exact Nat.le_add_right _ _⟩
  owner := owner

/-- The same before it is written down. -/
def draft (item : Item) (owner : Owner) (start : Position) : FunctionDraft where
  name := String.ofList item.prototype.name.chars
  parameters := item.prototype.fragments.map String.ofList
  result := String.ofList item.prototype.resultText
  extent := ⟨start, start.pastAll item.text⟩
  owner := owner

theorem function?_draft (item : Item) (owner : Owner) (start : Position) (blocks : Nat) :
    Finding.function? (.function (item.draft owner start) blocks) =
      some (item.record owner start) := by
  have spanned : (item.draft owner start).extent.span = .ok (item.record owner start).span :=
    Span.between_of_le (item.record owner start).span.ordered
  change (item.draft owner start).record.toOption = _
  unfold FunctionDraft.record
  rw [spanned]
  rfl

/-- The receiver is told from the other parameters. -/
theorem record_receiver? (item : Item) (owner : Owner) (start : Position) :
    (item.record owner start).receiver? =
      item.prototype.receiver?.map fun receiver => String.ofList receiver.text := by
  unfold FunctionRecord.receiver? record Prototype.fragments
  cases item.prototype.receiver? with
  | some receiver =>
      simp [isReceiver_receiver]
  | none =>
      cases item.prototype.parameters with
      | nil => rfl
      | cons parameter parameters => simp [isReceiver_parameter]

theorem record_valueParameters (item : Item) (owner : Owner) (start : Position) :
    (item.record owner start).valueParameters =
      item.prototype.parameters.map fun parameter => String.ofList parameter.text := by
  unfold FunctionRecord.valueParameters FunctionRecord.isMethod
  rw [record_receiver?]
  unfold record Prototype.fragments
  cases item.prototype.receiver? <;> simp

/-- The head of a function is read up to what ends it. -/
theorem read_head (item : Item) (rest : List Char) :
    ∃ kept, Head.read Finding.signatureGroups (item.signature ++ (item.ending.text ++ rest)) =
      ⟨kept, item.signature.length + 1, item.ending.headEnd⟩ := by
  have ends := item.ending.endsWord rest
  have passes : Head.Passes item.signature (item.ending.text ++ rest) :=
    (Head.passes_space _).append ((item.prototype.passes ((endsWord_spaces _).append ends)).append
      (passes_spaces _ ends))
  obtain ⟨kept, read⟩ := passes.read_eq (item.ending.ends rest)
  refine ⟨kept, read.trans ?_⟩
  cases item.ending <;> rfl

theorem fullLength_eq (item : Item) (kept : List Char) (closes : item.ending.Closes rest) :
    (⟨kept, item.signature.length + 1, item.ending.headEnd⟩ : Head).fullLength
        (item.signature ++ (item.ending.text ++ rest)) =
      (item.signature ++ item.ending.text).length := by
  unfold Head.fullLength Head.bodyLength?
  rw [List.length_append]
  cases ending : item.ending with
  | semicolon => rfl
  | body inner =>
      rw [ending] at closes
      have behind : (item.signature ++ ((Ending.body inner).text ++ rest)).drop
          (item.signature.length + 1) = inner ++ '\x7d' :: rest := by
        rw [← List.drop_drop, List.drop_left]
        unfold Ending.text
        rw [Delimiter.enclose_append]
        rfl
      have length : (Ending.body inner).text.length = inner.length + 2 :=
        Delimiter.length_enclose .brace inner
      have body := Delimiter.Closes.closeLength closes
      dsimp only [Ending.headEnd]
      rw [behind, length]
      change _ + Delimiter.brace.closeLength (inner ++ Delimiter.brace.closer :: rest) = _
      rw [body]
      omega

theorem isPointerType_signature (item : Item) (rest : List Char) :
    Finding.isPointerType (item.signature ++ rest) = false := by
  obtain ⟨after, split⟩ : ∃ after,
      item.signature ++ rest = [' '] ++ (item.prototype.name.chars ++ after) := by
    obtain ⟨more, isNamed⟩ : ∃ more, item.prototype.text = item.prototype.name.chars ++ more :=
      ⟨_, rfl⟩
    refine ⟨more ++ (List.replicate item.spaces ' ' ++ rest), ?_⟩
    unfold signature
    rw [isNamed, List.cons_append, List.append_assoc, List.append_assoc]
    rfl
  have blanks : Trivia.blankLength ([' '] ++ (item.prototype.name.chars ++ after)) = 1 :=
    blankLength_word item.prototype.name.starts (List.forall_mem_singleton.mpr (by decide)) after
  have notGroup : (item.prototype.name.chars ++ after).head? ≠ some '(' := by
    intro starts
    obtain ⟨inner, isGroup⟩ := List.head?_eq_some_iff.mp starts
    exact item.prototype.name.ne_mark (by decide) _ _ isGroup
  unfold Finding.isPointerType
  rw [split, blanks, List.singleton_append, List.drop_succ_cons, List.drop_zero]
  exact beq_false_of_ne notGroup

/-- What is read behind the keyword is the function up to its end. -/
theorem afterFunction_eq (item : Item) (owner : Owner) (start : Position) (cursor : Cursor)
    (split : cursor.rest = item.signature ++ (item.ending.text ++ rest))
    (place : cursor.place = start.pastAll ['f', 'n']) (closes : item.ending.Closes rest) :
    ∃ (body : Cursor) (blocks : Nat), Finding.afterFunction owner start cursor =
      ⟨Finding.unsafeIn body ++ [.function (item.draft owner start) blocks],
        (item.signature ++ item.ending.text).length⟩ := by
  obtain ⟨kept, head⟩ := item.read_head rest
  have cut : (⟨kept, item.signature.length + 1, item.ending.headEnd⟩ : Head).signature
      (item.signature ++ (item.ending.text ++ rest)) = item.signature := by
    unfold Head.signature
    cases item.ending <;> exact List.take_left
  have parts : functionParts item.signature =
      ⟨item.prototype.name.chars, item.prototype.fragments, item.prototype.resultText⟩ :=
    functionParts_text item.prototype item.spaces
  have goesOn : item.ending.headEnd ≠ .endOfText := by
    cases item.ending <;> exact HeadEnd.noConfusion
  have named : item.prototype.name.chars.isEmpty = false := by
    have filled := item.prototype.name.filled
    simpa using filled
  have stop : (cursor.skip (item.signature ++ item.ending.text).length).place =
      start.pastAll item.text := by
    unfold Cursor.skip
    rw [split, ← List.append_assoc, List.take_left, place, ← Position.pastAll_append]
    rfl
  unfold Finding.afterFunction
  rw [split, isPointerType_signature, if_neg Bool.false_ne_true, head]
  dsimp only
  rw [item.fullLength_eq kept closes, cut, parts, if_neg goesOn]
  dsimp only
  rw [named, if_neg Bool.false_ne_true, stop, List.nil_append]
  exact ⟨_, _, rfl⟩

end Item

end Written

/-! ### Functions in a file -/

namespace Finding

/-- In the body of a function only unsafe blocks are found. -/
theorem eq_of_mem_unsafeIn {cursor : Cursor} {finding : Finding}
    (member : finding ∈ unsafeIn cursor) :
    (∃ extent, finding = .unsafeBlock extent) ∨ finding = .unsafeAtEnd := by
  induction cursor using Cursor.significant_induction with
  | atEnd cursor atEnd =>
      rw [unsafeIn_of_none atEnd] at member
      cases member
  | onward cursor token length next ih =>
      rw [unsafeIn_of_some next, List.mem_append] at member
      rcases member with first | later
      · unfold inBody at first
        split at first
        · cases first
        · split at first
          · unfold afterUnsafe at first
            dsimp only at first
            split at first
            · exact .inr (List.mem_singleton.mp first)
            · split at first
              · exact .inl ⟨_, List.mem_singleton.mp first⟩
              · cases first
          · cases first
      · exact ih _ later

theorem filterMap_unsafeIn {β : Type} (part : Finding → Option β)
    (block : ∀ extent, part (.unsafeBlock extent) = none) (atEnd : part .unsafeAtEnd = none)
    (cursor : Cursor) : (unsafeIn cursor).filterMap part = [] := by
  rw [List.filterMap_eq_nil_iff]
  intro finding member
  rcases eq_of_mem_unsafeIn member with ⟨extent, rfl⟩ | rfl
  · exact block extent
  · exact atEnd

/-- A keyword at the start of a file hands the text behind it to what reads the construct. -/
theorem ofText_keyword (config : Config) (keyword : Keyword) {after : List Char}
    (ends : Text.EndsWord after) :
    let behind : Cursor := ⟨after, .ofText keyword.spelling⟩
    ∃ announces, ofText config (keyword.spelling ++ after) =
      (afterKeyword keyword .start behind).found ++
        stream config announces (behind.skip (afterKeyword keyword .start behind).length) := by
  intro behind
  have isWord : Text.isWord keyword.spelling = true := by
    cases keyword <;> decide +kernel
  have next : (Cursor.ofText (keyword.spelling ++ after)).significant? =
      some (⟨.word, .start, keyword.spelling⟩, keyword.spelling.length) :=
    Cursor.significant?_of_read? after rfl (Token.read?_word isWord ends) rfl
  have unmarked : (⟨.word, Position.start, keyword.spelling⟩ : Token).tag ≠ .bang ∧
      (⟨.word, Position.start, keyword.spelling⟩ : Token).tag ≠ .hash := by
    constructor <;> exact Tag.noConfusion
  have isKeyword : Token.keyword? ⟨.word, .start, keyword.spelling⟩ = some keyword :=
    keyword.ofWord?_spelling
  have skipped : (Cursor.ofText (keyword.spelling ++ after)).skip keyword.spelling.length =
      behind := by
    unfold Cursor.skip Cursor.ofText
    rw [List.drop_left, List.take_left]
    rfl
  have visit : inFile config false ⟨.word, .start, keyword.spelling⟩ behind =
      afterKeyword keyword .start behind := by
    rw [inFile_of_unmarked config false unmarked, isKeyword]
  refine ⟨some keyword == some .macroRules, ?_⟩
  unfold ofText
  rw [stream_of_some next, ← Cursor.skip_skip, skipped, isKeyword, visit]

end Finding

theorem survey_ofList (config : Config) {text : List Char}
    (small : Text.byteLength text ≤ 2 ^ 32 - 3) :
    survey config (String.ofList text) =
      .ok ((Inventory.ofFindings (Finding.ofText config text)).withLength
        (Text.byteLength text)) := by
  have surveyed := survey_eq config (String.ofList text) (by rw [String.toList_ofList]; omega)
  rw [String.toList_ofList] at surveyed
  exact surveyed

namespace Written

/-- A written function at the start of a file is the first function of the survey, with the name,
the parameters, the result and the extent that it was written with. -/
theorem survey_function (config : Config) (item : Item) (rest : List Char)
    (closes : item.ending.Closes rest)
    (small : Text.byteLength (item.text ++ rest) ≤ 2 ^ 32 - 3) :
    ∃ inventory function, survey config (String.ofList (item.text ++ rest)) = .ok inventory ∧
      inventory.functions[0]? = some function ∧
      function.name = String.ofList item.prototype.name.chars ∧
      function.parameters = item.prototype.fragments.map String.ofList ∧
      function.receiver? =
        item.prototype.receiver?.map (fun receiver => String.ofList receiver.text) ∧
      function.valueParameters =
        item.prototype.parameters.map (fun parameter => String.ofList parameter.text) ∧
      function.result = String.ofList item.prototype.resultText ∧
      function.owner = .none ∧
      function.span.start = .start ∧ function.span.stop = .ofText item.text := by
  have whole : item.text ++ rest =
      Keyword.function.spelling ++ (item.signature ++ (item.ending.text ++ rest)) := by
    unfold Item.text
    rw [List.append_assoc, List.append_assoc]
    rfl
  have ends : Text.EndsWord (item.signature ++ (item.ending.text ++ rest)) :=
    endsWord_of_mem (by decide) _
  obtain ⟨_, found⟩ := Finding.ofText_keyword config .function ends
  obtain ⟨body, blocks, visit⟩ := item.afterFunction_eq .none .start
    ⟨item.signature ++ (item.ending.text ++ rest), .ofText ['f', 'n']⟩ rfl rfl closes
  have free : Finding.freeFunction? (.function (item.draft .none .start) blocks) =
      some (item.record .none .start) := by
    unfold Finding.freeFunction?
    rw [item.function?_draft]
    rfl
  have functions : ∃ later,
      (Inventory.ofFindings (Finding.ofText config (item.text ++ rest))).functions =
        item.record .none .start :: later := by
    have noFunction := Finding.filterMap_unsafeIn Finding.freeFunction? (fun _ => rfl) rfl body
    rw [Inventory.ofFindings_functions, whole, found, List.filterMap_append]
    refine ⟨_, congrArg (· ++ _) (?_ : _ = [item.record .none .start])⟩
    change (Finding.afterFunction .none .start ⟨_, .ofText ['f', 'n']⟩).found.filterMap _ = _
    rw [visit, List.filterMap_append, noFunction, List.nil_append, List.filterMap_cons_some free]
    rfl
  obtain ⟨later, functions⟩ := functions
  refine ⟨_, item.record .none .start, survey_ofList config small, ?_, rfl, rfl,
    item.record_receiver? _ _, item.record_valueParameters _ _, rfl, rfl, rfl, rfl⟩
  exact congrArg (·[0]?) functions

/-- The types nest tuples, arrays, function types and generic lists with arrows; the body holds
a brace in a literal and one in a comment. -/
theorem survey_function_nested :
    let t := Name.ofWord ['T'] rfl (by decide)
    let n := Name.ofWord ['N'] rfl (by decide)
    let u8 := Name.ofWord ['u', '8'] rfl (by decide)
    let a : Lifetime := ⟨['a'], by decide, by decide⟩
    let named := fun name : Name => Ty.path ⟨name, []⟩ []
    let item : Item :=
      { prototype :=
          { name := .ofWord "apply".toList rfl (by decide)
            generics := [.lifetime a, .bounded t
              (.path ⟨.ofWord "Into".toList rfl (by decide), []⟩
                [.reference a false (named u8)]), .constant n (named u8)]
            receiver? := some (.borrowed a true)
            parameters :=
              [⟨.ofWord ['f'] rfl (by decide),
                  .function [named t, .array (named u8) n.toWord] (.tuple [])⟩,
                ⟨.ofWord "selfish".toList rfl (by decide),
                  .reference none true (.tuple [named t, .slice (named t)])⟩]
            result? := some (.closure ⟨.ofWord "ops".toList rfl (by decide),
              [.ofWord "Fn".toList rfl (by decide)]⟩ [named u8] (named t))
            constraints := [⟨named t, ⟨⟨.ofWord "From".toList rfl (by decide), []⟩,
              [.tuple [named t, named u8]]⟩⟩] }
        spaces := 1
        ending := .body " \"\x7d\" /* \x7d */ \x7b\x7d ".toList }
    let rest := " fn g() \x7b\x7d".toList
    item.text = ("fn apply<'a, T: Into<&'a u8>, const N: u8>(&'a mut self, " ++
        "f: fn(T, [u8; N]) -> (), selfish: &mut (T, [T])) -> impl ops::Fn(u8) -> T " ++
        "where T: From<(T, u8)> \x7b \"\x7d\" /* \x7d */ \x7b\x7d \x7d").toList ∧
      item.ending.Closes rest ∧
      ∃ inventory function,
        survey .standard (String.ofList (item.text ++ rest)) = .ok inventory ∧
        inventory.functions[0]? = some function ∧ function.name = "apply" ∧
        function.parameters =
          ["&'a mut self", "f: fn(T, [u8; N]) -> ()", "selfish: &mut (T, [T])"] ∧
        function.receiver? = some "&'a mut self" ∧
        function.result = "impl ops::Fn(u8) -> T" ∧
        function.span.stop = .ofText item.text := by
  intro t n u8 a named item rest
  have closes : item.ending.Closes rest := by
    unfold Ending.Closes Delimiter.Closes
    decide +kernel
  obtain ⟨inventory, function, surveyed, first, name, parameters, receiver, -, result, -, -,
    stop⟩ := survey_function .standard item rest closes (by decide +kernel)
  exact ⟨by decide +kernel, closes, inventory, function, surveyed, first,
    name.trans (by decide +kernel), parameters.trans (by decide +kernel),
    receiver.trans (by decide +kernel), result.trans (by decide +kernel), stop⟩

end Written
end Survey
