import Survey.Proofs.PairedBrackets
import Survey.Proofs.MendedParts
import Survey.Proofs.WrittenSignatures

set_option autoImplicit false

/-!
# Pieces of a signature

Whatever text is taken for a signature, its name, its parameters and its result type stand in
it in this order and do not overlap; so do the trait and the type of an implementation. Each
reader of a signature cuts a text at one place and goes on with what is behind it, so what it
yields from the front stands before what it yields from behind. Trimming a piece and leaving
out an empty one keep the order.
-/

namespace Survey

/-! ### Parts at the surface

A text is split at the separators that lie outside all brackets. Its parts with the separators
between them are the text again, whatever brackets are missing or left over. Behind a separator
the count of brackets stands where it stood before the first character, so a part that is split
once more has no separator at the surface either. White space at its start changes no depth,
and nothing before a place depends on what comes behind it: trimming a part does not divide it. -/

namespace Signature

open Nesting

variable {separator c : Char} {nesting : Nesting} {text rest before after part : List Char}
  {parts : List (List Char)}

theorem splitTop_go_cons (separator : Char) (nesting : Nesting) (c : Char) (rest : List Char) :
    splitTop.go separator nesting (c :: rest) =
      if nesting.depthOf c = 0 ∧ c = separator then
        [] :: splitTop.go separator (nesting.past c) rest
      else prepend [c] (splitTop.go separator (nesting.past c) rest) := by
  rw [splitTop.go]
  split
  · rfl
  · cases splitTop.go separator (nesting.past c) rest <;> rfl

theorem prepend_nil (filled : parts ≠ []) : prepend [] parts = parts := by
  cases parts with
  | nil => exact absurd rfl filled
  | cons part parts => rfl

theorem prepend_prepend (first second : List Char) (parts : List (List Char)) :
    prepend first (prepend second parts) = prepend (first ++ second) parts := by
  cases parts with
  | nil => rfl
  | cons part parts => rw [prepend, prepend, prepend, List.append_assoc]

/-! ### Joining the parts -/

theorem intercalate_prepend (separator : List Char) (text : List Char) (filled : parts ≠ []) :
    separator.intercalate (prepend text parts) = text ++ separator.intercalate parts := by
  cases parts with
  | nil => exact absurd rfl filled
  | cons part parts =>
      rw [prepend]
      cases parts with
      | nil => rw [List.intercalate_singleton, List.intercalate_singleton]
      | cons next parts =>
          rw [List.intercalate_cons_cons, List.intercalate_cons_cons, List.append_assoc,
            List.append_assoc, List.append_assoc]

theorem intercalate_splitTop_go (separator : Char) (nesting : Nesting) (text : List Char) :
    [separator].intercalate (splitTop.go separator nesting text) = text := by
  induction text generalizing nesting with
  | nil => exact List.intercalate_singleton
  | cons c rest ih =>
      have filled := splitTop_ne_nil separator (nesting.past c) rest
      have joined := ih (nesting.past c)
      rw [splitTop_go_cons]
      split
      · rename_i divides
        obtain ⟨part, parts, split⟩ := List.exists_cons_of_ne_nil filled
        rw [split] at joined ⊢
        rw [List.intercalate_cons_cons, joined, divides.2]
        rfl
      · rw [intercalate_prepend _ _ filled, joined]
        rfl

/-- Nothing of a text is lost when it is split. -/
theorem intercalate_splitTop (separator : Char) (text : List Char) :
    [separator].intercalate (splitTop separator text) = text :=
  intercalate_splitTop_go separator .surface text

/-! ### Splitting a part -/

/-- Read from this nesting on, the text has no separator at the surface. -/
def IsWhole (separator : Char) (nesting : Nesting) (text : List Char) : Prop :=
  splitTop.go separator nesting text = [text]

theorem isWhole_nil (separator : Char) (nesting : Nesting) : IsWhole separator nesting [] := rfl

theorem isWhole_cons : IsWhole separator nesting (c :: rest) ↔
    ¬ (nesting.depthOf c = 0 ∧ c = separator) ∧ IsWhole separator (nesting.past c) rest := by
  unfold IsWhole
  rw [splitTop_go_cons]
  by_cases divides : nesting.depthOf c = 0 ∧ c = separator
  · rw [if_pos divides]
    constructor
    · intro whole
      cases (List.cons.inj whole).1
    · rintro ⟨stays, -⟩
      exact absurd divides stays
  · obtain ⟨part, parts, split⟩ :=
      List.exists_cons_of_ne_nil (splitTop_ne_nil separator (nesting.past c) rest)
    rw [if_neg divides, and_iff_right divides, split]
    simp [prepend]

/-- A text that starts a whole one is whole. -/
theorem IsWhole.of_append (whole : IsWhole separator nesting (before ++ after)) :
    IsWhole separator nesting before := by
  induction before generalizing nesting with
  | nil => exact isWhole_nil separator nesting
  | cons c before ih =>
      obtain ⟨stays, later⟩ := isWhole_cons.mp whole
      exact isWhole_cons.mpr ⟨stays, ih later⟩

theorem isWhiteSpace_shifting : ∀ d ∈ shifting, Text.isWhiteSpace d = false := by
  decide +kernel

theorem past_whiteSpace (space : Text.isWhiteSpace c = true) : surface.past c = surface := by
  apply past_level
  intro shifts
  rw [isWhiteSpace_shifting c shifts] at space
  cases space

theorem IsWhole.trimStart (whole : IsWhole separator .surface text) :
    IsWhole separator .surface (Text.trimStart text) := by
  induction text with
  | nil => exact whole
  | cons c rest ih =>
      unfold Text.trimStart
      rw [List.dropWhile_cons]
      split
      · rename_i space
        obtain ⟨-, later⟩ := isWhole_cons.mp whole
        rw [past_whiteSpace space] at later
        exact ih later
      · exact whole

theorem IsWhole.trim (whole : IsWhole separator .surface text) :
    IsWhole separator .surface (Text.trim text) := by
  obtain ⟨after, split⟩ := Text.trimEnd_isPrefix (Text.trimStart text)
  have starts := whole.trimStart
  rw [← split] at starts
  exact starts.of_append

/-- The first part is read from where the text is, and every other one from the surface: there
the separator lies, and it leaves the nesting there. -/
theorem isWhole_of_split (level : separator ∉ shifting)
    (split : splitTop.go separator nesting text = part :: parts) :
    IsWhole separator nesting part ∧ ∀ other ∈ parts, IsWhole separator .surface other := by
  induction text generalizing nesting part parts with
  | nil =>
      cases split
      exact ⟨isWhole_nil separator nesting, List.forall_mem_nil _⟩
  | cons c rest ih =>
      obtain ⟨first, later, behind⟩ :=
        List.exists_cons_of_ne_nil (splitTop_ne_nil separator (nesting.past c) rest)
      obtain ⟨isWhole, others⟩ := ih behind
      rw [splitTop_go_cons, behind] at split
      by_cases divides : nesting.depthOf c = 0 ∧ c = separator
      · rw [if_pos divides] at split
        cases split
        obtain ⟨atSurface, rfl⟩ := divides
        -- The separator is no bracket, so what is behind it is read from the surface.
        rw [depthOf_level level] at atSurface
        rw [past_level level, atSurface] at isWhole
        exact ⟨isWhole_nil c nesting, List.forall_mem_cons.mpr ⟨isWhole, others⟩⟩
      · rw [if_neg divides] at split
        cases split
        exact ⟨isWhole_cons.mpr ⟨divides, isWhole⟩, others⟩

/-- Each part of a text is whole when it is read alone. -/
theorem isWhole_of_mem_splitTop (level : separator ∉ shifting)
    (member : part ∈ splitTop separator text) : IsWhole separator .surface part := by
  obtain ⟨first, later, split⟩ :=
    List.exists_cons_of_ne_nil (splitTop_ne_nil separator .surface text)
  obtain ⟨isWhole, others⟩ := isWhole_of_split level split
  unfold splitTop at member
  rw [split] at member
  exact List.forall_mem_cons.mpr ⟨isWhole, others⟩ part member

end Signature

/-! ### Pieces in order -/

namespace Text

/-- The pieces stand in the text one behind the other, and none overlaps another. -/
def InOrder : List (List Char) → List Char → Prop
  | [], _ => True
  | piece :: pieces, text =>
      ∃ before after, text = before ++ (piece ++ after) ∧ InOrder pieces after

variable {text left right piece smaller : List Char} {pieces first second : List (List Char)}

theorem InOrder.prepend (ordered : InOrder pieces text) (more : List Char) :
    InOrder pieces (more ++ text) := by
  cases pieces with
  | nil => trivial
  | cons piece pieces =>
      obtain ⟨before, after, rfl, later⟩ := ordered
      exact ⟨more ++ before, after, (List.append_assoc _ _ _).symm, later⟩

theorem InOrder.append (ordered : InOrder first left) (later : InOrder second right) :
    InOrder (first ++ second) (left ++ right) := by
  induction first generalizing left with
  | nil => exact later.prepend left
  | cons piece pieces ih =>
      obtain ⟨before, after, rfl, behind⟩ := ordered
      exact ⟨before, after ++ right, by simp, ih behind⟩

/-- Pieces of a part of a text are pieces of the text. -/
theorem InOrder.of_isInfix (ordered : InOrder pieces text) {whole : List Char}
    (part : text <:+: whole) : InOrder pieces whole := by
  obtain ⟨before, after, rfl⟩ := part
  have nothing : InOrder [] after := trivial
  have more := ordered.append nothing
  rw [List.append_nil] at more
  rw [List.append_assoc]
  exact more.prepend before

theorem inOrder_singleton (part : piece <:+: text) : InOrder [piece] text := by
  obtain ⟨before, after, rfl⟩ := part
  exact ⟨before, after, List.append_assoc _ _ _, trivial⟩

/-- Making pieces smaller and leaving some out keeps the order. -/
theorem InOrder.of_sublist (ordered : InOrder second text) (kept : first.Sublist second) :
    InOrder first text := by
  induction kept generalizing text with
  | slnil => trivial
  | cons piece _ ih =>
      obtain ⟨before, after, rfl, later⟩ := ordered
      exact ((ih later).prepend piece).prepend before
  | cons_cons piece _ ih =>
      obtain ⟨before, after, split, later⟩ := ordered
      exact ⟨before, after, split, ih later⟩

theorem InOrder.map (ordered : InOrder pieces text) {shrink : List Char → List Char}
    (part : ∀ piece, shrink piece <:+: piece) : InOrder (pieces.map shrink) text := by
  induction pieces generalizing text with
  | nil => trivial
  | cons piece pieces ih =>
      obtain ⟨before, after, rfl, later⟩ := ordered
      have front := inOrder_singleton (part piece)
      exact (front.append (ih later)).prepend before

theorem inOrder_intercalate (separator : List Char) (pieces : List (List Char)) :
    InOrder pieces (separator.intercalate pieces) := by
  induction pieces with
  | nil => trivial
  | cons piece pieces ih =>
      cases pieces with
      | nil =>
          rw [List.intercalate_singleton]
          exact inOrder_singleton (List.infix_refl piece)
      | cons next pieces =>
          rw [List.intercalate_cons_cons, List.append_assoc]
          exact ⟨[], _, rfl, ih.prepend separator⟩

theorem trim_isInfix (text : List Char) : trim text <:+: text :=
  (trimEnd_isPrefix _).isInfix.trans (trimStart_isSuffix text).isInfix

/-- No white space stands at the ends of the text. -/
structure IsBare (text : List Char) : Prop where
  start : ∀ c, text.head? = some c → isWhiteSpace c = false
  stop : EndsTight text

theorem isBare_nil : IsBare [] := ⟨nofun, nofun⟩

theorem IsTrimmed.isBare (trimmed : IsTrimmed text) : IsBare text := ⟨trimmed.start, trimmed.stop⟩

theorem isBare_of_notSpace (notSpace : ∀ c ∈ text, isWhiteSpace c = false) : IsBare text where
  start c first := notSpace c (List.mem_of_head? first)
  stop c last := notSpace c (List.mem_of_getLast? last)

/-- The start of a text, trimmed at its end, is bare if the text starts without white space. -/
theorem isBare_trimEnd (start : ∀ c, text.head? = some c → isWhiteSpace c = false)
    (first : left <+: text) : IsBare (trimEnd left) where
  start c isFirst := by
    obtain ⟨after, split⟩ := (trimEnd_isPrefix left).trans first
    apply start
    rw [← split, List.head?_append, isFirst]
    rfl
  stop c isLast := by
    unfold trimEnd at isLast
    rw [List.getLast?_reverse] at isLast
    exact head?_dropWhile_isWhiteSpace isLast

end Text

namespace Signature

open Text

variable {text : List Char}

theorem inOrder_splitTop (separator : Char) (text : List Char) :
    InOrder (splitTop separator text) text := by
  have ordered := inOrder_intercalate [separator] (splitTop separator text)
  rwa [intercalate_splitTop] at ordered

theorem afterGenerics_isSuffix (text : List Char) : afterGenerics text <:+ text := by
  fun_cases afterGenerics text with
  | case1 inner index closes => exact (List.drop_suffix _ _).trans (List.suffix_cons _ _)
  | case2 inner unclosed => exact List.nil_suffix
  | case3 text notAngle => exact List.suffix_refl text

theorem beforeConstraints_eq (text : List Char) :
    ∃ before, before <+: text ∧ beforeConstraints text = trimEnd before := by
  unfold beforeConstraints
  split
  · exact ⟨_, List.take_prefix _ _, rfl⟩
  · exact ⟨text, List.prefix_refl text, rfl⟩

theorem beforeConstraints_isPrefix (text : List Char) : beforeConstraints text <+: text := by
  obtain ⟨before, first, split⟩ := beforeConstraints_eq text
  rw [split]
  exact (trimEnd_isPrefix before).trans first

/-! ### Functions -/

/-- The pieces of a signature in the order in which they are written. -/
def FunctionParts.pieces (parts : FunctionParts) : List (List Char) :=
  parts.name :: (parts.parameters ++ [parts.result])

theorem inOrder_parameters (text : List Char) : InOrder (parameters text) text :=
  ((inOrder_splitTop ',' text).map trim_isInfix).of_sublist List.filter_sublist

theorem resultType_cases (text : List Char) :
    resultType text = [] ∨ ∃ rest, '-' :: '>' :: rest <:+ text ∧
      resultType text = beforeConstraints (trimStart rest) := by
  fun_cases resultType text with
  | case1 rest isArrow =>
      refine .inr ⟨rest, ?_, rfl⟩
      rw [← isArrow]
      exact trimStart_isSuffix text
  | case2 notArrow => exact .inl rfl

theorem resultType_isInfix (text : List Char) : resultType text <:+: text := by
  rcases resultType_cases text with none | ⟨rest, arrow, split⟩
  · rw [none]
    exact List.nil_infix
  · have behind : rest <:+ text := ((List.suffix_cons _ _).trans (List.suffix_cons _ _)).trans arrow
    rw [split]
    exact (beforeConstraints_isPrefix _).isInfix.trans
      ((trimStart_isSuffix rest).trans behind).isInfix

theorem isBare_resultType (text : List Char) : IsBare (resultType text) := by
  rcases resultType_cases text with none | ⟨rest, -, split⟩
  · rw [none]
    exact isBare_nil
  · obtain ⟨before, first, trimmed⟩ := beforeConstraints_eq (trimStart rest)
    rw [split, trimmed]
    exact isBare_trimEnd (fun _ => head?_dropWhile_isWhiteSpace) first

/-- The parameters stand before the closer of their list, and the result type behind it. -/
theorem inOrder_partsInside (name inner : List Char) :
    InOrder ((partsInside name inner).parameters ++ [(partsInside name inner).result]) inner := by
  unfold partsInside
  cases closerIndex? inner with
  | none =>
      -- An unclosed list has no result type; the empty one stands at the end of the text.
      have ordered := (inOrder_parameters inner).append (inOrder_singleton (List.infix_refl []))
      rwa [List.append_nil] at ordered
  | some index =>
      have tail : inner.drop (index + 1) <:+ inner.drop index := by
        rw [← List.drop_drop]
        exact List.drop_suffix 1 _
      have result := (resultType_isInfix _).trans tail.isInfix
      have ordered := (inOrder_parameters (inner.take index)).append (inOrder_singleton result)
      rwa [List.take_append_drop] at ordered

/-- Does the character belong to a name that a signature starts with? -/
def isNamed (c : Char) : Bool := !(isWhiteSpace c || c == '<' || c == '(')

theorem functionParts_eq (text : List Char) :
    functionParts text =
      match trimStart (afterGenerics (trimStart ((trim text).dropWhile isNamed))) with
      | '(' :: inner => partsInside ((trim text).takeWhile isNamed) inner
      | _ => ⟨(trim text).takeWhile isNamed, [], []⟩ := rfl

/-- A signature is its name and, further behind, the text from inside its parameter list. -/
theorem functionParts_cases (text : List Char) :
    functionParts text = ⟨(trim text).takeWhile isNamed, [], []⟩ ∨
      ∃ inner, '(' :: inner <:+ (trim text).dropWhile isNamed ∧
        functionParts text = partsInside ((trim text).takeWhile isNamed) inner := by
  have behind : trimStart (afterGenerics (trimStart ((trim text).dropWhile isNamed))) <:+
      (trim text).dropWhile isNamed :=
    ((trimStart_isSuffix _).trans (afterGenerics_isSuffix _)).trans (trimStart_isSuffix _)
  rw [functionParts_eq]
  split
  · rename_i inner isList
    rw [isList] at behind
    exact .inr ⟨inner, behind, rfl⟩
  · exact .inl rfl

theorem partsInside_name (name inner : List Char) : (partsInside name inner).name = name := by
  unfold partsInside
  cases closerIndex? inner <;> rfl

theorem functionParts_name (text : List Char) :
    (functionParts text).name = (trim text).takeWhile isNamed := by
  rcases functionParts_cases text with alone | ⟨inner, -, split⟩
  · rw [alone]
  · rw [split, partsInside_name]

theorem inOrder_functionParts (text : List Char) : InOrder (functionParts text).pieces text := by
  have whole := List.takeWhile_append_dropWhile (p := isNamed) (l := trim text)
  have name := inOrder_singleton (List.infix_refl ((trim text).takeWhile isNamed))
  have ordered : InOrder (functionParts text).pieces
      ((trim text).takeWhile isNamed ++ (trim text).dropWhile isNamed) := by
    rcases functionParts_cases text with alone | ⟨inner, list, split⟩
    · rw [alone]
      exact name.append (inOrder_singleton List.nil_infix)
    · have inside := (inOrder_partsInside ((trim text).takeWhile isNamed) inner).of_isInfix
        ((List.suffix_cons _ _).trans list).isInfix
      rw [split, FunctionParts.pieces, partsInside_name]
      exact name.append inside
  rw [whole] at ordered
  exact ordered.of_isInfix (trim_isInfix text)

theorem isBare_name (text : List Char) : IsBare (functionParts text).name := by
  rw [functionParts_name]
  apply isBare_of_notSpace
  intro c inName
  have named := List.all_eq_true.mp List.all_takeWhile c inName
  simp only [isNamed, Bool.not_eq_true', Bool.or_eq_false_iff] at named
  exact named.1.1

theorem isBare_result (text : List Char) : IsBare (functionParts text).result := by
  rcases functionParts_cases text with alone | ⟨inner, -, split⟩
  · rw [alone]
    exact isBare_nil
  · rw [split, partsInside]
    split
    · exact isBare_resultType _
    · exact isBare_nil

theorem isBare_functionParts {piece : List Char} (member : piece ∈ (functionParts text).pieces) :
    IsBare piece := by
  rw [FunctionParts.pieces, List.mem_cons, List.mem_append, List.mem_singleton] at member
  rcases member with rfl | parameter | rfl
  · exact isBare_name text
  · exact (isTrimmed_of_functionParts parameter).isBare
  · exact isBare_result text

/-! ### Implementations -/

/-- The pieces of an implementation's target in the order in which they are written. -/
def Target.pieces (target : Target) : List (List Char) :=
  target.traitName?.toList ++ [target.typeName]

theorem bareType_isSuffix (text : List Char) : bareType text <:+ text := by
  fun_induction bareType text with
  | case1 rest ih => exact (ih.trans (trimStart_isSuffix rest)).trans (List.suffix_cons _ _)
  | case2 rest ih =>
      exact ((ih.trans (trimStart_isSuffix _)).trans (List.dropWhile_suffix _)).trans
        (List.suffix_cons _ _)
  | case3 rest ih =>
      exact (ih.trans (trimStart_isSuffix rest)).trans ⟨['m', 'u', 't', ' '], rfl⟩
  | case4 rest ih =>
      exact (ih.trans (trimStart_isSuffix rest)).trans ⟨['d', 'y', 'n', ' '], rfl⟩
  | case5 text => exact List.suffix_refl text

theorem groupName_isPrefix (text inner : List Char) : groupName text inner <+: text := by
  unfold groupName
  split
  · exact List.take_prefix _ _
  · exact trimEnd_isPrefix text

theorem typeName_isInfix (text : List Char) : typeName text <:+: text := by
  have bare := ((bareType_isSuffix _).trans (trimStart_isSuffix text)).isInfix
  have first : typeName text <+: bareType (trimStart text) := by
    unfold typeName
    dsimp only
    split
    · rename_i inner isTuple
      rw [isTuple]
      exact groupName_isPrefix ('(' :: inner) inner
    · rename_i inner isArray
      rw [isArray]
      exact groupName_isPrefix ('[' :: inner) inner
    · exact List.takeWhile_prefix _
  exact first.isInfix.trans bare

theorem traitName?_isInfix {name : List Char} (found : traitName? text = some name) :
    name <:+: text := by
  unfold traitName? at found
  dsimp only at found
  split at found
  · cases found
  · cases found
    have last := List.takeWhile_prefix (fun c => !isWhiteSpace c)
      (l := (trimEnd (text.takeWhile (· != '<'))).reverse)
    rw [← List.reverse_suffix, List.reverse_reverse] at last
    exact last.isInfix.trans
      ((trimEnd_isPrefix _).trans (List.takeWhile_prefix _)).isInfix

/-- The trait is named before the type, and neither name is empty. -/
theorem target?_split {target : Target} (resolved : target? text = some target) :
    ∃ before behind, before ++ behind <:+: text ∧
      (∀ name, target.traitName? = some name → name <:+: before ∧ name ≠ []) ∧
      target.typeName <:+: behind ∧ target.typeName ≠ [] := by
  have part : beforeConstraints (afterGenerics (trimStart text)) <:+: text :=
    (beforeConstraints_isPrefix _).isInfix.trans
      ((afterGenerics_isSuffix _).trans (trimStart_isSuffix text)).isInfix
  unfold target? at resolved
  dsimp only at resolved
  generalize beforeConstraints (afterGenerics (trimStart text)) = whole at part resolved
  cases found : wordIndex? ['f', 'o', 'r'] whole with
  | none =>
      rw [found] at resolved
      dsimp only at resolved
      split at resolved
      · cases resolved
      · rename_i named
        cases resolved
        exact ⟨[], whole, part, nofun, typeName_isInfix whole, by simpa using named⟩
  | some index =>
      rw [found] at resolved
      dsimp only at resolved
      split at resolved
      · cases resolved
      · rename_i named
        cases resolved
        have behind : whole.drop (index + 3) <:+ whole.drop index := by
          rw [← List.drop_drop]
          exact List.drop_suffix 3 _
        refine ⟨whole.take index, whole.drop index, ?_, ?_, ?_, by simpa using named⟩
        · rwa [List.take_append_drop]
        · intro name isTrait
          exact ⟨traitName?_isInfix isTrait, Finding.traitName?_ne_nil isTrait⟩
        · exact (typeName_isInfix _).trans behind.isInfix

theorem inOrder_target {target : Target} (resolved : target? text = some target) :
    InOrder target.pieces text := by
  obtain ⟨before, behind, part, traits, type, -⟩ := target?_split resolved
  have trait : InOrder target.traitName?.toList before := by
    cases named : target.traitName? with
    | none => trivial
    | some name => exact inOrder_singleton (traits name named).1
  exact (trait.append (inOrder_singleton type)).of_isInfix part

theorem filled_target {target : Target} (resolved : target? text = some target) :
    ∀ piece ∈ target.pieces, piece ≠ [] := by
  obtain ⟨before, behind, -, traits, -, filled⟩ := target?_split resolved
  intro piece member
  rw [Target.pieces, List.mem_append, Option.mem_toList, List.mem_singleton] at member
  rcases member with isTrait | rfl
  · exact (traits piece isTrait).2
  · exact filled

end Signature
end Survey
