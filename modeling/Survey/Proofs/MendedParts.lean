import Survey.Finding.Item
import Survey.Signature
import Survey.Proofs.MendedReaders

set_option autoImplicit false

/-!
# The parts of a mended text

What is cut out of a signature or out of the body of an enumeration is cut out of the mended
text at the same places, and is the mended part. Nothing that decides where to cut asks for
one of the two characters.
-/

namespace Survey

open Text

namespace Text

theorem trimStart_map_mend (text : List Char) :
    trimStart (text.map mend) = (trimStart text).map mend :=
  dropWhile_map_mend (by decide)

theorem trimEnd_map_mend (text : List Char) :
    trimEnd (text.map mend) = (trimEnd text).map mend := by
  unfold trimEnd
  rw [← List.map_reverse, dropWhile_map_mend (by decide), List.map_reverse]

theorem trim_map_mend (text : List Char) : trim (text.map mend) = (trim text).map mend := by
  unfold trim
  rw [trimStart_map_mend, trimEnd_map_mend]

end Text

namespace Signature

/-! ### Nesting -/

namespace Nesting

theorem past_mend (nesting : Nesting) (c : Char) : nesting.past (mend c) = nesting.past c :=
  apply_mend nesting.past rfl c

theorem depthOf_mend (nesting : Nesting) (c : Char) :
    nesting.depthOf (mend c) = nesting.depthOf c :=
  apply_mend nesting.depthOf rfl c

end Nesting

theorem closerIndex?_map_mend (text : List Char) :
    closerIndex? (text.map mend) = closerIndex? text := by
  have go : ∀ nesting passed, closerIndex?.go nesting passed (text.map mend) =
      closerIndex?.go nesting passed text := by
    induction text with
    | nil => exact fun _ _ => rfl
    | cons c rest ih =>
        intro nesting passed
        rw [List.map_cons, closerIndex?.go, closerIndex?.go, Nesting.past_mend, ih]
  exact go .inside 0

theorem afterGenerics_map_mend (text : List Char) :
    afterGenerics (text.map mend) = (afterGenerics text).map mend := by
  fun_cases afterGenerics text with
  | case1 inner index closes =>
      have angle : mend '<' = '<' := rfl
      rw [List.map_cons, angle, afterGenerics, closerIndex?_map_mend, closes, List.map_drop]
  | case2 inner unclosed =>
      have angle : mend '<' = '<' := rfl
      rw [List.map_cons, angle, afterGenerics, closerIndex?_map_mend, unclosed]
      rfl
  | case3 text notAngle =>
      unfold afterGenerics
      split
      · rename_i later isAngle
        obtain ⟨inner, rfl, -⟩ := (map_mend_eq_cons_iff (by decide)).mp isAngle
        exact absurd rfl (notAngle inner)
      · rfl

theorem splitTop_map_mend {separator : Char} (sound : IsSound separator) (text : List Char) :
    splitTop separator (text.map mend) = (splitTop separator text).map (List.map mend) := by
  have go : ∀ nesting, splitTop.go separator nesting (text.map mend) =
      (splitTop.go separator nesting text).map (List.map mend) := by
    induction text with
    | nil => exact fun _ => rfl
    | cons c rest ih =>
        intro nesting
        rw [List.map_cons, splitTop.go, splitTop.go, Nesting.past_mend, Nesting.depthOf_mend, ih]
        simp only [mend_eq_iff sound]
        split
        · rfl
        · cases splitTop.go separator (nesting.past c) rest <;> rfl
  exact go .surface

theorem isPrefixOf?_map_mend {word : List Char} (sound : AllSound word)
    (text : List Char) :
    word.isPrefixOf? (text.map mend) = (word.isPrefixOf? text).map (List.map mend) := by
  induction word generalizing text with
  | nil => rfl
  | cons c word ih =>
      cases text with
      | nil => rfl
      | cons d rest =>
          have first := sound.of_mem List.mem_cons_self
          rw [List.map_cons, List.isPrefixOf?, List.isPrefixOf?,
            ih (sound.mono (List.subset_cons_self c word))]
          have same : (c == mend d) = (c == d) := by
            rw [Bool.eq_iff_iff, beq_iff_eq, beq_iff_eq, eq_comm, mend_eq_iff first, eq_comm]
          rw [same]
          split <;> rfl

theorem standsAlone_map_mend {word : List Char} (sound : AllSound word)
    (text : List Char) :
    wordIndex?.standsAlone word (text.map mend) = wordIndex?.standsAlone word text := by
  unfold wordIndex?.standsAlone
  rw [isPrefixOf?_map_mend sound]
  cases word.isPrefixOf? text with
  | none => rfl
  | some after =>
      cases after with
      | nil => rfl
      | cons c rest => exact isWhiteSpace_mend c

theorem wordIndex?_map_mend {word : List Char} (sound : AllSound word)
    (text : List Char) : wordIndex? word (text.map mend) = wordIndex? word text := by
  have go : ∀ nesting afterSpace passed,
      wordIndex?.go word nesting afterSpace passed (text.map mend) =
        wordIndex?.go word nesting afterSpace passed text := by
    induction text with
    | nil => exact fun _ _ _ => rfl
    | cons c rest ih =>
        intro nesting afterSpace passed
        have alone := standsAlone_map_mend sound (c :: rest)
        rw [List.map_cons] at alone ⊢
        rw [wordIndex?.go, wordIndex?.go, Nesting.past_mend, Nesting.depthOf_mend, alone,
          isWhiteSpace_mend, ih]
  exact go .surface true 0

theorem beforeConstraints_map_mend (text : List Char) :
    beforeConstraints (text.map mend) = (beforeConstraints text).map mend := by
  unfold beforeConstraints
  rw [wordIndex?_map_mend (by decide)]
  split
  · rw [← List.map_take, trimEnd_map_mend]
  · exact trimEnd_map_mend text

theorem leadingName_map_mend (text : List Char) :
    leadingName (text.map mend) = (leadingName text).map mend := by
  unfold leadingName
  rw [trimStart_map_mend, takeWhile_map_mend (by decide)]

/-! ### Functions -/

/-- The parts of the mended signature. -/
def FunctionParts.mend (parts : FunctionParts) : FunctionParts where
  name := parts.name.map Text.mend
  parameters := parts.parameters.map (List.map Text.mend)
  result := parts.result.map Text.mend

theorem parameters_map_mend (text : List Char) :
    parameters (text.map mend) = (parameters text).map (List.map mend) := by
  have trimmed : Text.trim ∘ List.map mend = List.map mend ∘ Text.trim := funext trim_map_mend
  unfold parameters
  rw [splitTop_map_mend (by decide), List.map_map, trimmed, ← List.map_map, List.filter_map]
  congr 2
  funext part
  rw [Function.comp, List.isEmpty_map]

theorem resultType_map_mend (text : List Char) :
    resultType (text.map mend) = (resultType text).map mend := by
  fun_cases resultType text with
  | case1 rest isArrow =>
      have arrow : ('-' :: '>' :: rest).map mend = '-' :: '>' :: rest.map mend := rfl
      unfold resultType
      rw [trimStart_map_mend, isArrow, arrow]
      change beforeConstraints (trimStart (rest.map mend)) = _
      rw [trimStart_map_mend, beforeConstraints_map_mend]
  | case2 notArrow =>
      unfold resultType
      rw [trimStart_map_mend]
      split
      · rename_i later isArrow
        simp (disch := decide) only [map_mend_eq_cons_iff] at isArrow
        obtain ⟨_, split, rest, rfl, -⟩ := isArrow
        exact absurd split (notArrow rest)
      · rfl

/-- The parts of a signature, given its name and the text from inside its parameter list. -/
def partsInside (name inner : List Char) : FunctionParts :=
  match closerIndex? inner with
  | some index => ⟨name, parameters (inner.take index), resultType (inner.drop (index + 1))⟩
  | none => ⟨name, parameters inner, []⟩

theorem partsInside_map_mend (name inner : List Char) :
    partsInside (name.map mend) (inner.map mend) = (partsInside name inner).mend := by
  unfold partsInside
  rw [closerIndex?_map_mend]
  cases closerIndex? inner with
  | none =>
      dsimp only
      rw [parameters_map_mend]
      rfl
  | some index =>
      dsimp only
      rw [← List.map_take, ← List.map_drop, parameters_map_mend, resultType_map_mend]
      rfl

theorem functionParts_map_mend (text : List Char) :
    functionParts (text.map mend) = (functionParts text).mend := by
  unfold functionParts
  dsimp only
  rw [trim_map_mend, takeWhile_map_mend (by decide), dropWhile_map_mend (by decide),
    trimStart_map_mend, afterGenerics_map_mend, trimStart_map_mend]
  generalize (Text.trim text).takeWhile _ = name
  generalize trimStart _ = rest
  by_cases listed : rest.head? = some '('
  · obtain ⟨inner, rfl⟩ := List.head?_eq_some_iff.mp listed
    exact partsInside_map_mend name inner
  · split
    · rename_i later isList
      rw [← head?_map_mend_eq_iff (by decide), isList] at listed
      exact absurd rfl listed
    · split
      · exact absurd rfl listed
      · rfl

/-! ### Implementations -/

/-- The target of the mended implementation. -/
def Target.mend (target : Target) : Target where
  typeName := target.typeName.map Text.mend
  traitName? := target.traitName?.map (List.map Text.mend)

theorem bareType_map_mend (text : List Char) :
    bareType (text.map mend) = (bareType text).map mend := by
  fun_induction bareType text with
  | case1 rest ih =>
      have borrow : ('&' :: rest).map mend = '&' :: rest.map mend := rfl
      rw [borrow, bareType, trimStart_map_mend, ih]
  | case2 rest ih =>
      have quote : ('\'' :: rest).map mend = '\'' :: rest.map mend := rfl
      rw [quote, bareType, dropWhile_map_mend (by decide), trimStart_map_mend, ih]
  | case3 rest ih =>
      have qualifier : ('m' :: 'u' :: 't' :: ' ' :: rest).map mend =
          'm' :: 'u' :: 't' :: ' ' :: rest.map mend := rfl
      rw [qualifier, bareType, trimStart_map_mend, ih]
  | case4 rest ih =>
      have qualifier : ('d' :: 'y' :: 'n' :: ' ' :: rest).map mend =
          'd' :: 'y' :: 'n' :: ' ' :: rest.map mend := rfl
      rw [qualifier, bareType, trimStart_map_mend, ih]
  | case5 text notBorrow notQuote notMut notDyn =>
      rw [bareType]
      all_goals
        intro later isSplit
        simp (disch := decide) only [map_mend_eq_cons_iff] at isSplit
      · obtain ⟨rest, rfl, -⟩ := isSplit
        exact notBorrow rest rfl
      · obtain ⟨rest, rfl, -⟩ := isSplit
        exact notQuote rest rfl
      · obtain ⟨_, rfl, _, rfl, _, rfl, rest, rfl, -⟩ := isSplit
        exact notMut rest rfl
      · obtain ⟨_, rfl, _, rfl, _, rfl, rest, rfl, -⟩ := isSplit
        exact notDyn rest rfl

/-- The name of a tuple or an array, given also the text from inside it. -/
def groupName (text inner : List Char) : List Char :=
  match closerIndex? inner with
  | some index => text.take (index + 2)
  | none => trimEnd text

theorem groupName_map_mend (text inner : List Char) :
    groupName (text.map mend) (inner.map mend) = (groupName text inner).map mend := by
  unfold groupName
  rw [closerIndex?_map_mend]
  cases closerIndex? inner with
  | none => exact trimEnd_map_mend text
  | some index => exact List.map_take.symm

theorem typeName_map_mend (text : List Char) :
    typeName (text.map mend) = (typeName text).map mend := by
  unfold typeName
  dsimp only
  rw [trimStart_map_mend, bareType_map_mend]
  generalize bareType (trimStart text) = bare
  by_cases isTuple : bare.head? = some '('
  · obtain ⟨inner, rfl⟩ := List.head?_eq_some_iff.mp isTuple
    exact groupName_map_mend ('(' :: inner) inner
  · by_cases isArray : bare.head? = some '['
    · obtain ⟨inner, rfl⟩ := List.head?_eq_some_iff.mp isArray
      exact groupName_map_mend ('[' :: inner) inner
    · split
      · rename_i later isGroup
        rw [← head?_map_mend_eq_iff (by decide), isGroup] at isTuple
        exact absurd rfl isTuple
      · rename_i later isGroup
        rw [← head?_map_mend_eq_iff (by decide), isGroup] at isArray
        exact absurd rfl isArray
      · split
        · exact absurd rfl isTuple
        · exact absurd rfl isArray
        · exact takeWhile_map_mend (by decide)

theorem traitName?_map_mend (text : List Char) :
    traitName? (text.map mend) = (traitName? text).map (List.map mend) := by
  unfold traitName?
  dsimp only
  rw [takeWhile_map_mend (by decide), trimEnd_map_mend, ← List.map_reverse,
    takeWhile_map_mend (by decide), ← List.map_reverse, List.isEmpty_map]
  split <;> rfl

theorem target?_map_mend (text : List Char) :
    target? (text.map mend) = (target? text).map Target.mend := by
  unfold target?
  dsimp only
  rw [trimStart_map_mend, afterGenerics_map_mend, beforeConstraints_map_mend,
    wordIndex?_map_mend (by decide)]
  generalize beforeConstraints _ = whole
  cases wordIndex? ['f', 'o', 'r'] whole with
  | none =>
      dsimp only
      rw [typeName_map_mend, List.isEmpty_map]
      split <;> rfl
  | some index =>
      simp only [← List.map_drop, ← List.map_take, typeName_map_mend, traitName?_map_mend,
        List.isEmpty_map]
      split <;> rfl

end Signature

/-! ### Variants -/

namespace VariantList

/-- The body of the mended enumeration. -/
def mend (body : VariantList) : VariantList :=
  { body with variants := body.variants.map (List.map Text.mend) }

theorem note_map_mend (variant : List Char) (noted : List (List Char)) :
    note (variant.map Text.mend) (noted.map (List.map Text.mend)) =
      (note variant noted).map (List.map Text.mend) := by
  unfold note
  dsimp only
  rw [← List.map_reverse, trim_map_mend, List.isEmpty_map]
  split <;> rfl

theorem readFrom_map_mend (variant : List Char) (noted : List (List Char)) (taken : Nat)
    {text : List Char} (unquoted : ZerosUnquoted text) :
    readFrom (variant.map Text.mend) (noted.map (List.map Text.mend)) taken
        (text.map Text.mend) =
      (readFrom variant noted taken text).mend := by
  fun_induction readFrom variant noted taken text with
  | case1 variant noted taken text found =>
      rw [readFrom_eq, Atom.read?_map_mend unquoted, found]
      simp only [Option.map_none]
      rw [note_map_mend, ← List.map_reverse]
      rfl
  | case2 variant noted taken text length found ih =>
      rw [readFrom_eq, Atom.read?_map_mend unquoted, found]
      simp only [Option.map_some, Atom.mend]
      rw [← List.map_drop, ih (unquoted.drop length)]
  | case3 variant noted taken text written length found ih =>
      rw [readFrom_eq, Atom.read?_map_mend unquoted, found]
      simp only [Option.map_some, Atom.mend]
      rw [← List.map_drop, ← List.map_reverse, ← List.map_append, ih (unquoted.drop length)]
  | case4 variant noted taken text length found =>
      have brace : Text.mend '\x7d' = '\x7d' := rfl
      rw [readFrom_eq, Atom.read?_map_mend unquoted, found]
      simp only [Option.map_some, Atom.mend, brace, if_true]
      rw [note_map_mend, ← List.map_reverse]
      rfl
  | case5 variant noted taken text length found notBrace ih =>
      have comma : Text.mend ',' = ',' := rfl
      rw [readFrom_eq, Atom.read?_map_mend unquoted, found]
      simp only [Option.map_some, Atom.mend, comma, if_true]
      rw [if_neg notBrace, ← List.map_drop, note_map_mend]
      exact ih (unquoted.drop length)
  | case6 variant noted taken text length skipped found notBrace notComma ih =>
      have hash : Text.mend '#' = '#' := rfl
      rw [readFrom_eq, Atom.read?_map_mend unquoted, found]
      simp only [Option.map_some, Atom.mend, hash, if_true]
      rw [if_neg notBrace, if_neg notComma, ← List.map_drop,
        Attribute.skipLength_map_mend (unquoted.drop length), ← List.map_drop]
      exact ih (unquoted.drop _)
  | case7 variant noted taken text c length found notBrace notComma notHash group opens ih =>
      rw [readFrom_eq, Atom.read?_map_mend unquoted, found]
      simp (disch := decide) only [Option.map_some, Atom.mend, mend_eq_iff, notBrace, notComma,
        notHash, if_false]
      rw [← List.map_drop, Delimiter.groupAfter?_map_mend _ c (unquoted.drop length), opens]
      dsimp only
      rw [← List.map_take, ← List.map_drop, ← List.map_reverse, ← List.map_cons,
        ← List.map_append, ih (unquoted.drop _)]
  | case8 variant noted taken text c length found notBrace notComma notHash opens ih =>
      rw [readFrom_eq, Atom.read?_map_mend unquoted, found]
      simp (disch := decide) only [Option.map_some, Atom.mend, mend_eq_iff, notBrace, notComma,
        notHash, if_false]
      rw [← List.map_drop, Delimiter.groupAfter?_map_mend _ c (unquoted.drop length), opens]
      dsimp only
      rw [← List.map_cons, ih (unquoted.drop length)]

theorem read_map_mend {text : List Char} (unquoted : ZerosUnquoted text) :
    read (text.map Text.mend) = (read text).mend :=
  readFrom_map_mend [] [] 0 unquoted

end VariantList
end Survey
