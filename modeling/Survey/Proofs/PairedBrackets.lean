import Survey.Proofs.HeadEnds
import Survey.Proofs.MacroBodies

set_option autoImplicit false

/-!
# Texts whose brackets pair off

Two readers count brackets. One steps over a group of a chosen kind in the text of the file,
atom by atom; the other takes a signature apart and counts all kinds alike. In a text whose
brackets pair off kind by kind, with every arrow and every lifetime whole, both come back to
where they started, however deeply the brackets nest. So both find the closer of a group, the
separators outside all groups, and the words that introduce the parts of a signature.
-/

namespace Survey

namespace Text

/-- What holds of the characters of a list is decided one by one, not over all characters. -/
instance decidableForallMem (holds : Char → Prop) [DecidablePred holds] (text : List Char) :
    Decidable (∀ c ∈ text, holds c) :=
  List.decidableBAll holds text

/-- Whatever stands here, no word goes on with it and no literal starts with it. -/
def EndsWord (rest : List Char) : Prop :=
  ∀ c, rest.head? = some c → isWordPart c = false ∧ c ∉ ['\'', '"', '#']

theorem endsWord_cons {c : Char} (notPart : isWordPart c = false) (other : c ∉ ['\'', '"', '#'])
    (rest : List Char) : EndsWord (c :: rest) := by
  rintro d ⟨⟩
  exact ⟨notPart, other⟩

theorem endsWord_nil : EndsWord [] := nofun

theorem EndsWord.append {text rest : List Char} (ends : EndsWord text) (later : EndsWord rest) :
    EndsWord (text ++ rest) := by
  cases text with
  | nil => exact later
  | cons c text => exact ends

theorem isWhiteSpace_of_isWordPart {c : Char} (part : isWordPart c = true) :
    isWhiteSpace c = false := by
  rw [Bool.eq_false_iff]
  intro space
  have blank : isBlank c = true := by
    unfold isBlank
    rw [space, Bool.true_or]
  rw [isWordPart_of_isBlank blank] at part
  cases part

theorem ne_of_isWordPart {c d : Char} (part : isWordPart c = true)
    (other : isWordPart d = false) : c ≠ d := by
  rintro rfl
  rw [part] at other
  cases other

theorem notMem_of_isWordPart {c : Char} {marks : List Char} (part : isWordPart c = true)
    (others : ∀ d ∈ marks, isWordPart d = false) : c ∉ marks :=
  fun member => ne_of_isWordPart part (others c member) rfl

/-- The characters of a class up to the first one that is not of it. -/
theorem takeWhile_exact {keeps : Char → Bool} {word after : List Char}
    (keep : ∀ c ∈ word, keeps c = true) (stops : ∀ c, after.head? = some c → keeps c = false) :
    (word ++ after).takeWhile keeps = word := by
  rw [List.takeWhile_append_of_pos keep]
  cases after with
  | nil => exact List.append_nil word
  | cons c after =>
      rw [List.takeWhile_cons_of_neg (by rw [stops c rfl]; exact Bool.false_ne_true),
        List.append_nil]

theorem dropWhile_exact {keeps : Char → Bool} {word after : List Char}
    (keep : ∀ c ∈ word, keeps c = true) (stops : ∀ c, after.head? = some c → keeps c = false) :
    (word ++ after).dropWhile keeps = after := by
  rw [List.dropWhile_append_of_pos keep]
  cases after with
  | nil => rfl
  | cons c after =>
      exact List.dropWhile_cons_of_neg (by rw [stops c rfl]; exact Bool.false_ne_true)

end Text

namespace Signature

/-- The characters that change the nesting, or make an arrow of a `>` behind them. -/
def shifting : List Char := ['(', '[', '\x7b', '<', ')', ']', '\x7d', '>', '-', '=']

/-- The words that introduce a part of a signature. -/
def introducers : List (List Char) := [['f', 'o', 'r'], ['w', 'h', 'e', 'r', 'e']]

/-- The characters that stand between words and change nothing. -/
def spacers : List Char := [' ', ':', '&']

/-- The characters that divide lists. -/
def dividers : List Char := [',', ';']

/-- Texts in which brackets pair off, arrows and lifetimes are whole, and no introducing word
stands; outside all brackets, only the given separators may. -/
inductive Bracketed : List Char → List Char → Prop
  | nothing (separators : List Char) : Bracketed separators []
  | word {separators word text : List Char} (filled : word ≠ [])
      (parts : ∀ c ∈ word, Text.isWordPart c = true) (ordinary : word ∉ introducers)
      (ends : Text.EndsWord text) (later : Bracketed separators text) :
      Bracketed separators (word ++ text)
  | lifetime {separators word text : List Char} (filled : word ≠ [])
      (parts : ∀ c ∈ word, Text.isWordPart c = true) (ends : Text.EndsWord text)
      (later : Bracketed separators text) : Bracketed separators ('\'' :: (word ++ text))
  | spacer {separators text : List Char} {c : Char} (spaces : c ∈ spacers)
      (later : Bracketed separators text) : Bracketed separators (c :: text)
  | divider {separators text : List Char} {c : Char} (divides : c ∈ dividers)
      (allowed : c ∈ separators) (later : Bracketed separators text) :
      Bracketed separators (c :: text)
  | arrow {separators text : List Char} (later : Bracketed separators text) :
      Bracketed separators ('-' :: '>' :: text)
  | group {separators inner text : List Char} (kind : Delimiter) (notBrace : kind ≠ .brace)
      (inside : Bracketed dividers inner) (later : Bracketed separators text) :
      Bracketed separators (kind.enclose inner ++ text)

namespace Bracketed

variable {separators wider text more : List Char}

theorem mono (bracketed : Bracketed separators text) (widens : separators ⊆ wider) :
    Bracketed wider text := by
  induction bracketed with
  | nothing => exact .nothing _
  | word filled parts ordinary ends later ih => exact .word filled parts ordinary ends (ih widens)
  | lifetime filled parts ends later ih => exact .lifetime filled parts ends (ih widens)
  | spacer spaces later ih => exact .spacer spaces (ih widens)
  | divider divides allowed later ih => exact .divider divides (widens allowed) (ih widens)
  | arrow later ih => exact .arrow (ih widens)
  | group kind notBrace inside later _ ih => exact .group kind notBrace inside (ih widens)

theorem append (bracketed : Bracketed separators text) (ends : Text.EndsWord more)
    (others : Bracketed separators more) : Bracketed separators (text ++ more) := by
  induction bracketed with
  | nothing => exact others
  | word filled parts ordinary ends' later ih =>
      rw [List.append_assoc]
      exact .word filled parts ordinary (ends'.append ends) (ih others)
  | lifetime filled parts ends' later ih =>
      rw [List.cons_append, List.append_assoc]
      exact .lifetime filled parts (ends'.append ends) (ih others)
  | spacer spaces later ih => exact .spacer spaces (ih others)
  | divider divides allowed later ih => exact .divider divides allowed (ih others)
  | arrow later ih => exact .arrow (ih others)
  | group kind notBrace inside later _ ih =>
      rw [List.append_assoc]
      exact .group kind notBrace inside (ih others)

end Bracketed

/-! ### Walking over a signature -/

namespace Nesting

/-- One step over a character of a signature that does not leave the base depth, meets no other
separator there, and is not at the start of an introducing word. -/
structure Step (base : Nat) (separators : List Char) (nesting : Nesting) (afterSpace : Bool)
    (c : Char) (rest : List Char) : Prop where
  before : base ≤ nesting.depth
  behind : base ≤ (nesting.past c).depth
  separator : nesting.depthOf c = base → c ∈ dividers → c ∈ separators
  ordinary : nesting.depthOf c = base → afterSpace = true →
    ∀ word ∈ introducers, wordIndex?.standsAlone word (c :: rest) = false

/-- Steps over all characters of a text, from one nesting to another, with the rest behind. -/
inductive Walk (base : Nat) (separators rest : List Char) :
    Nesting → Bool → List Char → Nesting → Bool → Prop
  | nothing (nesting : Nesting) (afterSpace : Bool) :
      Walk base separators rest nesting afterSpace [] nesting afterSpace
  | onward {nesting last : Nesting} {afterSpace spaceBehind : Bool} {c : Char} {text : List Char}
      (step : Step base separators nesting afterSpace c (text ++ rest))
      (later : Walk base separators rest (nesting.past c) (Text.isWhiteSpace c) text last
        spaceBehind) :
      Walk base separators rest nesting afterSpace (c :: text) last spaceBehind

variable {base depth : Nat} {separators rest text more : List Char} {c : Char}
  {afterSpace spaceBehind : Bool} {nesting middle last : Nesting}

theorem isOpener_eq (c : Char) : isOpener c = (c ∈ ['(', '[', '\x7b', '<'] : Bool) := by
  unfold isOpener Delimiter.ofOpener?
  by_cases paren : c = '(' <;> by_cases bracket : c = '[' <;> by_cases brace : c = '\x7b' <;>
    by_cases angle : c = '<' <;> simp [*]

/-- A character that is neither a bracket nor the shaft of an arrow leaves the depth. -/
theorem past_level (level : c ∉ shifting) (nesting : Nesting) :
    nesting.past c = ⟨nesting.depth, false⟩ := by
  simp only [shifting, List.mem_cons, List.not_mem_nil, or_false, not_or] at level
  have notOpener : isOpener c = false := by
    rw [isOpener_eq]
    simp [level]
  have notCloser : isCloser nesting.afterShaft c = false := by
    simp [isCloser, level]
  have notShaft : Delimiter.isShaft c = false := by
    simp [Delimiter.isShaft, level]
  simp [past, notOpener, notCloser, notShaft]

theorem depthOf_level (level : c ∉ shifting) (nesting : Nesting) :
    nesting.depthOf c = nesting.depth := by
  unfold depthOf
  rw [past_level level]
  split <;> rfl

theorem past_opener (kind : Delimiter) (nesting : Nesting) :
    nesting.past kind.opener = ⟨nesting.depth + 1, false⟩ := by
  cases kind <;> rfl

theorem past_closer (kind : Delimiter) (depth : Nat) :
    past ⟨depth + 1, false⟩ kind.closer = ⟨depth, false⟩ := by
  cases kind <;> rfl

theorem base_le_depthOf (step : Step base separators nesting afterSpace c text) :
    base ≤ nesting.depthOf c := by
  unfold depthOf
  split
  · exact step.before
  · exact step.behind

/-- A step deeper down is a step. -/
theorem Step.shallower (step : Step (base + 1) more nesting afterSpace c text) :
    Step base separators nesting afterSpace c text := by
  have deep := base_le_depthOf step
  have before := step.before
  have behind := step.behind
  refine ⟨by omega, by omega, ?_, ?_⟩
  · intro atBase
    omega
  · intro atBase
    omega

theorem Walk.shallower (walk : Walk (base + 1) more rest nesting afterSpace text last spaceBehind) :
    Walk base separators rest nesting afterSpace text last spaceBehind := by
  induction walk with
  | nothing nesting afterSpace => exact .nothing nesting afterSpace
  | onward step later ih => exact .onward step.shallower ih

theorem Walk.append {spaceBetween : Bool}
    (walk : Walk base separators (more ++ rest) nesting afterSpace text middle spaceBetween)
    (later : Walk base separators rest middle spaceBetween more last spaceBehind) :
    Walk base separators rest nesting afterSpace (text ++ more) last spaceBehind := by
  induction walk with
  | nothing => exact later
  | onward step _ ih =>
      rw [← List.append_assoc] at step
      exact .onward step (ih later)

theorem introducers_parts : ∀ word ∈ introducers, ∀ c ∈ word, Text.isWordPart c = true := by
  decide +kernel

theorem isWordPart_shifting : ∀ c ∈ shifting, Text.isWordPart c = false := by
  decide +kernel

theorem level_of_mem : ∀ c ∈ spacers ++ dividers,
    c ∉ shifting ∧ Text.isWordPart c = false := by
  decide +kernel

theorem not_shifting_of_isWordPart {c : Char} (part : Text.isWordPart c = true) : c ∉ shifting :=
  Text.notMem_of_isWordPart part isWordPart_shifting

/-- An introducing word starts with a letter. -/
theorem standsAlone_of_notPart (notPart : Text.isWordPart c = false) (rest : List Char) :
    ∀ word ∈ introducers, wordIndex?.standsAlone word (c :: rest) = false := by
  intro word member
  unfold wordIndex?.standsAlone
  split
  · rename_i after found
    have split := List.isPrefixOf?_eq_some_iff_append_eq.mp found
    cases word with
    | nil => exact absurd member (by decide)
    | cons d word =>
        obtain rfl := (List.cons.inj split).1
        rw [introducers_parts _ member _ List.mem_cons_self] at notPart
        cases notPart
  · rfl

/-- Another word is no introducing word, even if it starts with one. -/
theorem standsAlone_of_ordinary {word : List Char}
    (parts : ∀ d ∈ word, Text.isWordPart d = true) (ordinary : word ∉ introducers)
    (ends : Text.EndsWord rest) :
    ∀ introducer ∈ introducers, wordIndex?.standsAlone introducer (word ++ rest) = false := by
  intro introducer member
  unfold wordIndex?.standsAlone
  split
  · rename_i after found
    have split := List.isPrefixOf?_eq_some_iff_append_eq.mp found
    rw [Bool.eq_false_iff]
    intro blank
    have afterEnds : ∀ d, after.head? = some d → Text.isWordPart d = false := by
      intro d first
      rw [first, Option.all_some] at blank
      apply Text.isWordPart_of_isBlank
      unfold Text.isBlank
      rw [blank, Bool.true_or]
    have same := congrArg (List.takeWhile Text.isWordPart) split
    rw [Text.takeWhile_exact (introducers_parts introducer member) afterEnds,
      Text.takeWhile_exact parts (fun d first => (ends d first).1)] at same
    exact ordinary (same ▸ member)
  · rfl

theorem step_level (level : c ∉ shifting) (deep : base ≤ depth)
    (separates : depth = base → c ∈ dividers → c ∈ separators)
    (ordinary : afterSpace = true →
      ∀ word ∈ introducers, wordIndex?.standsAlone word (c :: rest) = false) :
    Step base separators ⟨depth, false⟩ afterSpace c rest where
  before := deep
  behind := by
    rw [past_level level]
    exact deep
  separator := by
    rw [depthOf_level level]
    exact separates
  ordinary := fun _ => ordinary

theorem not_divider_of_isWordPart (part : Text.isWordPart c = true) : c ∉ dividers :=
  Text.notMem_of_isWordPart part fun d divides =>
    (level_of_mem d (List.mem_append_right _ divides)).2

/-- The characters of a word behind its first one. -/
theorem walk_parts {word : List Char} (parts : ∀ d ∈ word, Text.isWordPart d = true)
    (deep : base ≤ depth) :
    Walk base separators rest ⟨depth, false⟩ false word ⟨depth, false⟩ false := by
  induction word with
  | nil => exact .nothing _ _
  | cons c word ih =>
      have part := parts c List.mem_cons_self
      have level := not_shifting_of_isWordPart part
      refine .onward (step_level level deep ?_ nofun) ?_
      · intro _ separates
        exact absurd separates (not_divider_of_isWordPart part)
      · rw [past_level level, Text.isWhiteSpace_of_isWordPart part]
        exact ih (fun d member => parts d (List.mem_cons_of_mem _ member))

theorem walk_word {word : List Char} (filled : word ≠ [])
    (parts : ∀ d ∈ word, Text.isWordPart d = true) (ordinary : word ∉ introducers)
    (ends : Text.EndsWord rest) (deep : base ≤ depth) (afterSpace : Bool) :
    Walk base separators rest ⟨depth, false⟩ afterSpace word ⟨depth, false⟩ false := by
  have alone := standsAlone_of_ordinary parts ordinary ends
  cases word with
  | nil => exact absurd rfl filled
  | cons c word =>
      have part := parts c List.mem_cons_self
      have level := not_shifting_of_isWordPart part
      refine .onward (step_level level deep ?_ fun _ => alone) ?_
      · intro _ separates
        exact absurd separates (not_divider_of_isWordPart part)
      · rw [past_level level, Text.isWhiteSpace_of_isWordPart part]
        exact walk_parts (fun d member => parts d (List.mem_cons_of_mem _ member)) deep

/-- Over a character that neither is a bracket nor belongs to a word. -/
theorem walk_mark (level : c ∉ shifting) (notPart : Text.isWordPart c = false)
    (deep : base ≤ depth) (separates : depth = base → c ∈ dividers → c ∈ separators)
    (afterSpace : Bool) :
    Walk base separators rest ⟨depth, false⟩ afterSpace [c] ⟨depth, false⟩
      (Text.isWhiteSpace c) := by
  refine .onward (step_level level deep separates ?_) ?_
  · intro _
    exact standsAlone_of_notPart notPart _
  · rw [past_level level]
    exact .nothing _ _

theorem walk_arrow (deep : base ≤ depth) (afterSpace : Bool) :
    Walk base separators rest ⟨depth, false⟩ afterSpace ['-', '>'] ⟨depth, false⟩ false := by
  have notSeparator : '-' ∉ dividers ∧ '>' ∉ dividers := by
    decide
  refine .onward ⟨deep, deep, ?_, ?_⟩ (.onward ⟨deep, deep, ?_, ?_⟩ (.nothing _ _))
  · intro _ separates
    exact absurd separates notSeparator.1
  · intro _ _
    exact standsAlone_of_notPart (by decide) _
  · intro _ separates
    exact absurd separates notSeparator.2
  · intro _ _
    exact standsAlone_of_notPart (by decide) _

theorem walk_opener (kind : Delimiter) (deep : base ≤ depth) (afterSpace : Bool) :
    Walk base separators rest ⟨depth, false⟩ afterSpace [kind.opener] ⟨depth + 1, false⟩ false := by
  have notSeparator : kind.opener ∉ dividers := by
    cases kind <;> decide
  have notPart : Text.isWordPart kind.opener = false := by
    cases kind <;> decide
  have notSpace : Text.isWhiteSpace kind.opener = false := by
    cases kind <;> decide
  refine .onward ⟨deep, ?_, ?_, ?_⟩ ?_
  · rw [past_opener]
    exact Nat.le_succ_of_le deep
  · intro _ separates
    exact absurd separates notSeparator
  · intro _ _
    exact standsAlone_of_notPart notPart _
  · rw [past_opener, notSpace]
    exact .nothing _ _

theorem walk_closer (kind : Delimiter) (deep : base ≤ depth) (afterSpace : Bool) :
    Walk base separators rest ⟨depth + 1, false⟩ afterSpace [kind.closer] ⟨depth, false⟩ false := by
  have notSeparator : kind.closer ∉ dividers := by
    cases kind <;> decide
  have notPart : Text.isWordPart kind.closer = false := by
    cases kind <;> decide
  have notSpace : Text.isWhiteSpace kind.closer = false := by
    cases kind <;> decide
  refine .onward ⟨Nat.le_succ_of_le deep, ?_, ?_, ?_⟩ ?_
  · rw [past_closer]
    exact deep
  · intro _ separates
    exact absurd separates notSeparator
  · intro _ _
    exact standsAlone_of_notPart notPart _
  · rw [past_closer, notSpace]
    exact .nothing _ _

end Nesting

open Nesting

variable {base depth : Nat} {separators rest text more inner : List Char}
  {afterSpace spaceBehind : Bool} {nesting last : Nesting}

/-- A text whose brackets pair off leads back to the depth that it starts at. -/
theorem Bracketed.walk (bracketed : Bracketed separators text) (ends : Text.EndsWord rest)
    (depth : Nat) (afterSpace : Bool) :
    ∃ spaceBehind, Walk depth separators rest ⟨depth, false⟩ afterSpace text ⟨depth, false⟩
      spaceBehind := by
  induction bracketed generalizing rest depth afterSpace with
  | nothing => exact ⟨afterSpace, .nothing _ _⟩
  | word filled parts ordinary endsWord later ih =>
      obtain ⟨spaceBehind, walk⟩ := ih ends depth false
      exact ⟨spaceBehind, (walk_word filled parts ordinary (endsWord.append ends)
        (Nat.le_refl _) afterSpace).append walk⟩
  | lifetime filled parts endsWord later ih =>
      obtain ⟨spaceBehind, walk⟩ := ih ends depth false
      have notSeparator : '\'' ∉ dividers := by
        decide
      exact ⟨spaceBehind, (walk_mark (by decide) (by decide) (Nat.le_refl depth)
        (fun _ separates => absurd separates notSeparator) afterSpace).append
          ((walk_parts parts (Nat.le_refl _)).append walk)⟩
  | @spacer separators text c spaces later ih =>
      obtain ⟨spaceBehind, walk⟩ := ih ends depth (Text.isWhiteSpace c)
      have apart : ∀ d ∈ spacers, d ∉ dividers := by
        decide
      obtain ⟨level, notPart⟩ := level_of_mem c (List.mem_append_left _ spaces)
      exact ⟨spaceBehind, (walk_mark level notPart (Nat.le_refl _)
        (fun _ divides => absurd divides (apart c spaces)) afterSpace).append walk⟩
  | @divider separators text c divides allowed later ih =>
      obtain ⟨spaceBehind, walk⟩ := ih ends depth (Text.isWhiteSpace c)
      obtain ⟨level, notPart⟩ := level_of_mem c (List.mem_append_right _ divides)
      exact ⟨spaceBehind, (walk_mark level notPart (Nat.le_refl _) (fun _ _ => allowed)
        afterSpace).append walk⟩
  | arrow later ih =>
      obtain ⟨spaceBehind, walk⟩ := ih ends depth false
      exact ⟨spaceBehind, (walk_arrow (Nat.le_refl _) afterSpace).append walk⟩
  | @group separators inner text kind notBrace inside later ihInside ih =>
      obtain ⟨spaceBehind, walk⟩ := ih ends depth false
      have closerEnds : Text.EndsWord (kind.closer :: (text ++ rest)) := by
        apply Text.endsWord_cons <;> cases kind <;> decide
      -- Inside the group every divider is allowed: from here it lies a level too deep to count.
      obtain ⟨_, insideWalk⟩ := ihInside closerEnds (depth + 1) false
      have split : kind.enclose inner ++ text =
          [kind.opener] ++ (inner ++ ([kind.closer] ++ text)) := by
        simp [Delimiter.enclose]
      rw [split]
      exact ⟨spaceBehind, (walk_opener kind (Nat.le_refl _) afterSpace).append
        (insideWalk.shallower.append ((walk_closer kind (Nat.le_refl _) _).append walk))⟩

/-! ### Closers, separators and introducing words -/

theorem closerIndex?_walk (deep : 0 < base) (passed : Nat)
    (walk : Walk base separators rest nesting afterSpace text last spaceBehind) :
    closerIndex?.go nesting passed (text ++ rest) =
      closerIndex?.go last (passed + text.length) rest := by
  induction walk generalizing passed with
  | nothing => rfl
  | @onward nesting last afterSpace spaceBehind c text step later ih =>
      have stays : ¬ ((nesting.past c).depth = 0 ∧ nesting.depth = 1) := by
        have behind := step.behind
        omega
      rw [List.cons_append, closerIndex?.go, if_neg stays, ih, List.length_cons, Nat.add_assoc,
        Nat.add_comm 1]

/-- The closer of a group stands behind its inside. -/
theorem closerIndex?_of_bracketed (inside : Bracketed separators inner) (kind : Delimiter)
    (rest : List Char) : closerIndex? (inner ++ kind.closer :: rest) = some inner.length := by
  have ends : Text.EndsWord (kind.closer :: rest) := by
    apply Text.endsWord_cons <;> cases kind <;> decide
  obtain ⟨_, walk⟩ := inside.walk ends 1 false
  have closes : (past ⟨1, false⟩ kind.closer).depth = 0 ∧ (⟨1, false⟩ : Nesting).depth = 1 := by
    rw [past_closer]
    exact ⟨rfl, rfl⟩
  unfold closerIndex? Nesting.inside
  rw [closerIndex?_walk Nat.one_pos 0 walk, closerIndex?.go]
  dsimp only
  rw [if_pos closes, Nat.zero_add]

theorem afterGenerics_opener (text : List Char) : afterGenerics (Delimiter.angle.opener :: text) =
    ((closerIndex? text).map fun index => text.drop (index + 1)).getD [] := by
  change afterGenerics ('<' :: text) = _
  rw [afterGenerics]
  cases closerIndex? text <;> rfl

theorem afterGenerics_enclose (inside : Bracketed separators inner) (rest : List Char) :
    afterGenerics (Delimiter.angle.enclose inner ++ rest) = rest := by
  rw [Delimiter.enclose_append, afterGenerics_opener, closerIndex?_of_bracketed inside .angle rest,
    Option.map_some, Option.getD_some, ← List.drop_drop, List.drop_left]
  rfl

/-- The parts of a text with some more text before the first one. -/
def prepend (text : List Char) : List (List Char) → List (List Char)
  | [] => [text]
  | part :: parts => (text ++ part) :: parts

theorem splitTop_ne_nil (separator : Char) (nesting : Nesting) (text : List Char) :
    splitTop.go separator nesting text ≠ [] := by
  cases text with
  | nil => exact List.cons_ne_nil _ _
  | cons c text =>
      rw [splitTop.go]
      split
      · exact List.cons_ne_nil _ _
      · split <;> exact List.cons_ne_nil _ _

theorem splitTop_walk {separator : Char} (divides : separator ∈ dividers)
    (notAllowed : separator ∉ separators)
    (walk : Walk 0 separators rest nesting afterSpace text last spaceBehind) :
    splitTop.go separator nesting (text ++ rest) =
      prepend text (splitTop.go separator last rest) := by
  induction walk with
  | nothing =>
      rw [List.nil_append]
      cases parts : splitTop.go separator _ rest with
      | nil => exact absurd parts (splitTop_ne_nil _ _ _)
      | cons part parts => rfl
  | @onward nesting last afterSpace spaceBehind c text step later ih =>
      have stays : ¬ (nesting.depthOf c = 0 ∧ c = separator) := by
        rintro ⟨atBase, rfl⟩
        exact notAllowed (step.separator atBase divides)
      rw [List.cons_append, splitTop.go, if_neg stays, ih]
      cases parts : splitTop.go separator last rest <;> rfl

theorem splitTop_of_bracketed {separator : Char} (divides : separator ∈ dividers)
    (bracketed : Bracketed separators text) (notAllowed : separator ∉ separators)
    (ends : Text.EndsWord rest) :
    splitTop separator (text ++ rest) = prepend text (splitTop separator rest) := by
  obtain ⟨_, walk⟩ := bracketed.walk ends 0 false
  exact splitTop_walk divides notAllowed walk

theorem wordIndex?_walk {word : List Char} (introduces : word ∈ introducers) (passed : Nat)
    (walk : Walk 0 separators rest nesting afterSpace text last spaceBehind) :
    wordIndex?.go word nesting afterSpace passed (text ++ rest) =
      wordIndex?.go word last spaceBehind (passed + text.length) rest := by
  induction walk generalizing passed with
  | nothing => rfl
  | @onward nesting last afterSpace spaceBehind c text step later ih =>
      have stays : ¬ (nesting.depthOf c = 0 ∧ afterSpace = true ∧
          wordIndex?.standsAlone word (c :: (text ++ rest)) = true) := by
        rintro ⟨atBase, isBehind, alone⟩
        rw [step.ordinary atBase isBehind word introduces] at alone
        cases alone
      rw [List.cons_append, wordIndex?.go, if_neg stays, ih, List.length_cons, Nat.add_assoc,
        Nat.add_comm 1]

/-- Outside all brackets the word does not stand in the text, wherever the text does. -/
def Lacks (word text : List Char) : Prop :=
  ∀ (afterSpace : Bool) (passed : Nat) (rest : List Char), Text.EndsWord rest →
    ∃ spaceBehind, wordIndex?.go word .surface afterSpace passed (text ++ rest) =
      wordIndex?.go word .surface spaceBehind (passed + text.length) rest

theorem Bracketed.lacks {word : List Char} (bracketed : Bracketed separators text)
    (introduces : word ∈ introducers) : Lacks word text := by
  intro afterSpace passed rest ends
  obtain ⟨spaceBehind, walk⟩ := bracketed.walk ends 0 afterSpace
  exact ⟨spaceBehind, wordIndex?_walk introduces passed walk⟩

theorem Lacks.append {word : List Char} (lacks : Lacks word text) (ends : Text.EndsWord more)
    (later : Lacks word more) : Lacks word (text ++ more) := by
  intro afterSpace passed rest endsRest
  obtain ⟨spaceBetween, first⟩ := lacks afterSpace passed (more ++ rest) (ends.append endsRest)
  obtain ⟨spaceBehind, second⟩ := later spaceBetween (passed + text.length) rest endsRest
  refine ⟨spaceBehind, ?_⟩
  rw [List.append_assoc, first, second, List.length_append, Nat.add_assoc]

theorem Lacks.wordIndex?_eq_none {word : List Char} (lacks : Lacks word text) :
    wordIndex? word text = none := by
  obtain ⟨_, passes⟩ := lacks true 0 [] Text.endsWord_nil
  rw [List.append_nil] at passes
  exact passes

theorem wordIndex?_step {word : List Char} {c : Char} (level : c ∉ shifting)
    (stays : afterSpace = true → wordIndex?.standsAlone word (c :: rest) = false) (passed : Nat) :
    wordIndex?.go word .surface afterSpace passed (c :: rest) =
      wordIndex?.go word .surface (Text.isWhiteSpace c) (passed + 1) rest := by
  have notFound : ¬ (Nesting.surface.depthOf c = 0 ∧ afterSpace = true ∧
      wordIndex?.standsAlone word (c :: rest) = true) := by
    rintro ⟨-, isBehind, alone⟩
    rw [stays isBehind] at alone
    cases alone
  rw [wordIndex?.go, if_neg notFound, past_level level]
  rfl

/-- The first introducing word behind a text is found, if blanks stand on both sides. -/
theorem Lacks.wordIndex?_append {word : List Char} (lacks : Lacks word text)
    (introduces : word ∈ introducers) (after : List Char)
    (apart : after.head?.all Text.isWhiteSpace = true) :
    wordIndex? word (text ++ ' ' :: (word ++ after)) = some (text.length + 1) := by
  have ends : Text.EndsWord (' ' :: (word ++ after)) :=
    Text.endsWord_cons (by decide) (by decide) _
  obtain ⟨_, passes⟩ := lacks true 0 _ ends
  have blankStays := standsAlone_of_notPart (c := ' ') (by decide) (word ++ after) word introduces
  have alone : wordIndex?.standsAlone word (word ++ after) = true := by
    unfold wordIndex?.standsAlone
    rw [List.isPrefixOf?_eq_some_iff_append_eq.mpr rfl]
    exact apart
  unfold wordIndex?
  rw [passes, wordIndex?_step (by decide) (fun _ => blankStays), Nat.zero_add]
  cases word with
  | nil => exact absurd introduces (by decide)
  | cons c word =>
      have part := introducers_parts _ introduces c List.mem_cons_self
      have found : Nesting.surface.depthOf c = 0 ∧ Text.isWhiteSpace ' ' = true ∧
          wordIndex?.standsAlone (c :: word) (c :: (word ++ after)) = true :=
        ⟨depthOf_level (not_shifting_of_isWordPart part) _, by decide, alone⟩
      rw [List.cons_append, wordIndex?.go, if_pos found]

end Signature

/-! ### Groups in a file -/

namespace Atom

/-- A character that starts no comment and no literal is an atom of its own. -/
theorem read?_ordinary {c : Char} (ordinary : c ∉ ['/', '"', '\'', 'r']) (rest : List Char) :
    read? (c :: rest) = some (.char c, 1) := by
  simp only [List.mem_cons, List.not_mem_nil, or_false, not_or] at ordinary
  obtain ⟨notSlash, notString, notQuote, notRaw⟩ := ordinary
  exact read?_of_isBare (isBare_of_ne notSlash notString notQuote notRaw rest)

/-- A character of a word is read as itself, whatever comes behind the word. -/
theorem isBare_of_isWordPart {c : Char} (part : Text.isWordPart c = true) {rest : List Char}
    (next : ∀ d, rest.head? = some d → d ∉ ['"', '#']) : IsBare c rest where
  notSlash := ne_of_isInner (Token.isInner_of_isWordPart part) (isInner_special _ (by decide))
  notString := ne_of_isInner (Token.isInner_of_isWordPart part) (isInner_special _ (by decide))
  notQuote := ne_of_isInner (Token.isInner_of_isWordPart part) (isInner_special _ (by decide))
  notRaw := by
    cases raw : Literal.rawHashes? (c :: rest) with
    | none => rfl
    | some hashes =>
        obtain ⟨more, split⟩ := (Literal.rawHashes?_eq_some_iff _ hashes).mp raw
        have inner := (List.cons.inj split).2
        cases hashes with
        | zero => exact absurd (by decide) (next '"' (by rw [inner]; rfl))
        | succ hashes => exact absurd (by decide) (next '#' (by rw [inner]; rfl))

/-- No literal starts right behind a character of a word. -/
theorem next_of_parts {word rest : List Char} (parts : ∀ d ∈ word, Text.isWordPart d = true)
    (ends : Text.EndsWord rest) : ∀ d, (word ++ rest).head? = some d → d ∉ ['"', '#'] := by
  intro d first
  cases word with
  | nil =>
      have other := (ends d first).2
      intro member
      exact other (List.mem_cons_of_mem _ member)
  | cons e word =>
      cases first
      exact Text.notMem_of_isWordPart (parts d List.mem_cons_self) (by decide)

/-- The characters of a word are atoms of their own. -/
theorem read?_word {c : Char} {word rest : List Char}
    (parts : ∀ d ∈ c :: word, Text.isWordPart d = true) (ends : Text.EndsWord rest) :
    read? (c :: (word ++ rest)) = some (.char c, 1) := by
  apply read?_of_isBare
  apply isBare_of_isWordPart (parts c List.mem_cons_self)
  exact next_of_parts (fun d member => parts d (List.mem_cons_of_mem _ member)) ends

/-- A lifetime is one atom. -/
theorem read?_lifetime {word rest : List Char} (filled : word ≠ [])
    (parts : ∀ d ∈ word, Text.isWordPart d = true) (ends : Text.EndsWord rest) :
    read? ('\'' :: (word ++ rest)) = some (.literal ('\'' :: word), word.length + 1) := by
  have notEscape : (word ++ rest).head? ≠ some '\\' := by
    rw [List.head?_append_of_ne_nil _ filled]
    intro first
    exact Text.ne_of_isWordPart (parts _ (List.mem_of_mem_head? first)) (by decide) rfl
  have notClosed : (word ++ rest).tail.head? ≠ some '\'' := by
    cases word with
    | nil => exact absurd rfl filled
    | cons c word =>
        cases word with
        | nil =>
            intro first
            exact (ends _ first).2 (by decide)
        | cons d word =>
            intro first
            cases first
            exact Text.ne_of_isWordPart (parts '\'' (by simp)) (by decide) rfl
  have quote := Literal.quote?_open notEscape notClosed
  rw [Text.takeWhile_exact parts (fun c first => (ends c first).1), Nat.add_comm] at quote
  have read := read?_of_quote rfl rfl quote
  rw [List.take_succ_cons, List.take_left] at read
  exact read

end Atom

namespace Delimiter

variable {kind other : Delimiter} {c : Char} {rest : List Char}

/-- A character that opens none of the kinds opens no group. -/
theorem groupAfter?_of_ne {kinds : List Delimiter} (notOpener : ∀ kind ∈ kinds, c ≠ kind.opener)
    (text : List Char) : groupAfter? kinds c text = none := by
  unfold groupAfter?
  rw [Option.map_eq_none_iff, Option.filter_eq_none_iff]
  intro kind opens member
  exact notOpener kind (of_decide_eq_true member) (eq_opener_of_ofOpener? opens)

theorem isBare_closer (kind : Delimiter) (rest : List Char) : Atom.IsBare kind.closer rest := by
  cases kind <;> exact Atom.isBare_of_ne (by decide) (by decide) (by decide) (by decide) rest

/-- A character that opens and closes nothing is passed. -/
theorem closeFrom_passed (read : Atom.read? (c :: rest) = some (.char c, 1))
    (notOpener : c ≠ kind.opener) (notCloser : c ≠ kind.closer) (notShaft : isShaft c = false)
    (outer taken : Nat) :
    kind.closeFrom outer false taken (c :: rest) =
      kind.closeFrom outer false (taken + 1) rest := by
  have stays : kind.closes false c = false := by
    simp [closes, notCloser]
  rw [closeFrom_eq, read]
  dsimp only
  rw [stays, if_neg Bool.false_ne_true, deepen, if_neg notOpener, notShaft, List.drop_succ_cons,
    List.drop_zero]

theorem closeFrom_level (read : Atom.read? (c :: rest) = some (.char c, 1))
    (level : c ∉ Signature.shifting) (outer taken : Nat) :
    kind.closeFrom outer false taken (c :: rest) =
      kind.closeFrom outer false (taken + 1) rest := by
  have brackets : kind.opener ∈ Signature.shifting ∧ kind.closer ∈ Signature.shifting := by
    cases kind <;> decide
  have notShaft : isShaft c = false := by
    simp only [Signature.shifting, List.mem_cons, List.not_mem_nil, or_false, not_or] at level
    simp [isShaft, level]
  exact closeFrom_passed read (fun same => level (same ▸ brackets.1))
    (fun same => level (same ▸ brackets.2)) notShaft outer taken

theorem closeFrom_opener (kind : Delimiter) (rest : List Char) (outer taken : Nat) :
    kind.closeFrom outer false taken (kind.opener :: rest) =
      kind.closeFrom (outer + 1) false (taken + 1) rest := by
  have stays : kind.closes false kind.opener = false ∧ isShaft kind.opener = false := by
    cases kind <;> decide
  rw [closeFrom_eq, Atom.read?_of_isBare (kind.isBare_opener rest)]
  dsimp only
  rw [stays.1, stays.2, if_neg Bool.false_ne_true, deepen, if_pos rfl, List.drop_succ_cons,
    List.drop_zero]

theorem closes_closer (kind : Delimiter) : kind.closes false kind.closer = true := by
  cases kind <;> decide

theorem closeFrom_closer (kind : Delimiter) (rest : List Char) (outer taken : Nat) :
    kind.closeFrom (outer + 1) false taken (kind.closer :: rest) =
      kind.closeFrom outer false (taken + 1) rest := by
  rw [closeFrom_eq, Atom.read?_of_isBare (kind.isBare_closer rest)]
  dsimp only
  rw [kind.closes_closer, if_pos rfl, List.drop_succ_cons, List.drop_zero]

theorem closeFrom_last (kind : Delimiter) (rest : List Char) (taken : Nat) :
    kind.closeFrom 0 false taken (kind.closer :: rest) = taken + 1 := by
  rw [closeFrom_eq, Atom.read?_of_isBare (kind.isBare_closer rest)]
  dsimp only
  rw [kind.closes_closer, if_pos rfl]

/-- Behind the shaft of an arrow its head closes nothing. -/
theorem closeFrom_arrow (kind : Delimiter) (rest : List Char) (outer taken : Nat) :
    kind.closeFrom outer false taken ('-' :: '>' :: rest) =
      kind.closeFrom outer false (taken + 2) rest := by
  have shaft : Atom.read? ('-' :: '>' :: rest) = some (.char '-', 1) :=
    Atom.read?_ordinary (by decide) _
  have head : Atom.read? ('>' :: rest) = some (.char '>', 1) :=
    Atom.read?_ordinary (by decide) _
  have stays : kind.closes false '-' = false ∧ kind.closes true '>' = false ∧
      '-' ≠ kind.opener ∧ '>' ≠ kind.opener ∧ isShaft '-' = true ∧ isShaft '>' = false := by
    cases kind <;> decide
  obtain ⟨notCloser, notHead, notOpener, headNotOpener, isShaft, headNotShaft⟩ := stays
  rw [closeFrom_eq, shaft]
  dsimp only
  rw [notCloser, if_neg Bool.false_ne_true, deepen, if_neg notOpener, isShaft,
    List.drop_succ_cons, List.drop_zero, closeFrom_eq, head]
  dsimp only
  rw [notHead, if_neg Bool.false_ne_true, deepen, if_neg headNotOpener, headNotShaft,
    List.drop_succ_cons, List.drop_zero]

theorem closeFrom_word {word : List Char} (parts : ∀ d ∈ word, Text.isWordPart d = true)
    (ends : Text.EndsWord rest) (outer taken : Nat) :
    kind.closeFrom outer false taken (word ++ rest) =
      kind.closeFrom outer false (taken + word.length) rest := by
  induction word generalizing taken with
  | nil => rfl
  | cons c word ih =>
      have level := Signature.Nesting.not_shifting_of_isWordPart (parts c List.mem_cons_self)
      rw [List.cons_append, closeFrom_level (Atom.read?_word parts ends) level,
        ih (fun d member => parts d (List.mem_cons_of_mem _ member)), List.length_cons,
        Nat.add_assoc, Nat.add_comm 1]

theorem closeFrom_lifetime {word : List Char} (filled : word ≠ [])
    (parts : ∀ d ∈ word, Text.isWordPart d = true) (ends : Text.EndsWord rest)
    (outer taken : Nat) :
    kind.closeFrom outer false taken ('\'' :: (word ++ rest)) =
      kind.closeFrom outer false (taken + (word.length + 1)) rest := by
  rw [closeFrom_eq, Atom.read?_lifetime filled parts ends]
  dsimp only
  rw [List.drop_succ_cons, List.drop_left]

/-- The brackets of another kind are passed like any other character. -/
theorem closeFrom_other (different : other ≠ kind) (outer taken : Nat) :
    kind.closeFrom outer false taken (other.opener :: rest) =
        kind.closeFrom outer false (taken + 1) rest ∧
      kind.closeFrom outer false taken (other.closer :: rest) =
        kind.closeFrom outer false (taken + 1) rest := by
  have apart : other.opener ≠ kind.opener ∧ other.opener ≠ kind.closer ∧
      other.closer ≠ kind.opener ∧ other.closer ≠ kind.closer ∧
      isShaft other.opener = false ∧ isShaft other.closer = false := by
    revert different
    cases other <;> cases kind <;> decide
  obtain ⟨opens, opensCloser, closesOpener, closes, notShaft, closerNotShaft⟩ := apart
  exact ⟨closeFrom_passed (Atom.read?_of_isBare (other.isBare_opener rest)) opens opensCloser
      notShaft outer taken,
    closeFrom_passed (Atom.read?_of_isBare (other.isBare_closer rest)) closesOpener closes
      closerNotShaft outer taken⟩

end Delimiter

namespace Signature

variable {separators text inner rest : List Char}

theorem read?_level {c : Char} (member : c ∈ spacers ++ dividers) (rest : List Char) :
    Atom.read? (c :: rest) = some (.char c, 1) := by
  have ordinary : ∀ d ∈ spacers ++ dividers, d ∉ ['/', '"', '\'', 'r'] := by
    decide
  exact Atom.read?_ordinary (ordinary c member) rest

/-- A text whose brackets pair off closes no group that is open before it. -/
theorem Bracketed.closeFrom_eq (bracketed : Bracketed separators text)
    (ends : Text.EndsWord rest) (kind : Delimiter) (outer taken : Nat) :
    kind.closeFrom outer false taken (text ++ rest) =
      kind.closeFrom outer false (taken + text.length) rest := by
  induction bracketed generalizing rest outer taken with
  | nothing => rfl
  | word filled parts ordinary endsWord later ih =>
      rw [List.append_assoc, Delimiter.closeFrom_word parts (endsWord.append ends), ih ends,
        List.length_append, Nat.add_assoc]
  | lifetime filled parts endsWord later ih =>
      rw [List.cons_append, List.append_assoc,
        Delimiter.closeFrom_lifetime filled parts (endsWord.append ends), ih ends,
        List.length_cons, List.length_append, Nat.add_assoc, Nat.add_right_comm]
  | spacer spaces later ih =>
      have member := List.mem_append_left dividers spaces
      rw [List.cons_append, Delimiter.closeFrom_level (read?_level member _)
        (Nesting.level_of_mem _ member).1, ih ends, List.length_cons, Nat.add_assoc,
        Nat.add_comm 1]
  | divider divides allowed later ih =>
      have member := List.mem_append_right spacers divides
      rw [List.cons_append, Delimiter.closeFrom_level (read?_level member _)
        (Nesting.level_of_mem _ member).1, ih ends, List.length_cons, Nat.add_assoc,
        Nat.add_comm 1]
  | arrow later ih =>
      rw [List.cons_append, List.cons_append, Delimiter.closeFrom_arrow, ih ends,
        List.length_cons, List.length_cons, Nat.add_assoc, Nat.add_comm 2]
  | @group separators inner text other notBrace inside later ihInside ih =>
      have closerEnds : Text.EndsWord (other.closer :: (text ++ rest)) := by
        apply Text.endsWord_cons <;> cases other <;> decide
      have length : (other.enclose inner ++ text).length =
          1 + inner.length + 1 + text.length := by
        rw [List.length_append, Delimiter.length_enclose]
        omega
      rw [List.append_assoc, Delimiter.enclose_append, length, ← Nat.add_assoc,
        ← Nat.add_assoc, ← Nat.add_assoc]
      -- Only brackets of the searched kind count; those of another kind are plain characters.
      by_cases same : other = kind
      · subst same
        rw [Delimiter.closeFrom_opener, ihInside closerEnds, Delimiter.closeFrom_closer, ih ends]
      · rw [(Delimiter.closeFrom_other same _ _).1, ihInside closerEnds,
          (Delimiter.closeFrom_other same _ _).2, ih ends]

/-- A group is closed behind its inside. -/
theorem Bracketed.closeLength_eq (inside : Bracketed separators inner) (kind : Delimiter)
    (rest : List Char) :
    kind.closeLength (inner ++ kind.closer :: rest) = inner.length + 1 := by
  have ends : Text.EndsWord (kind.closer :: rest) := by
    apply Text.endsWord_cons <;> cases kind <;> decide
  unfold Delimiter.closeLength
  rw [inside.closeFrom_eq ends, Delimiter.closeFrom_last, Nat.zero_add]

end Signature

/-! ### Heads in a file -/

namespace Head

variable {c : Char} {separators text more word inner rest : List Char}

/-- The head of a function goes on over the text, if it goes on behind it. -/
def Passes (text rest : List Char) : Prop :=
  ∀ count, Surface Finding.signatureGroups rest count →
    Surface Finding.signatureGroups (text ++ rest) (text.length + count)

theorem passes_nil (rest : List Char) : Passes [] rest := by
  intro count later
  rw [List.length_nil, Nat.zero_add]
  exact later

theorem Passes.append (first : Passes text (more ++ rest)) (later : Passes more rest) :
    Passes (text ++ more) rest := by
  intro count surface
  rw [List.append_assoc, List.length_append, Nat.add_assoc]
  exact first _ (later _ surface)

theorem passes_char (read : Atom.read? (c :: rest) = some (.char c, 1))
    (plain : c ∉ [';', '\x7b', '(', '[', '<']) : Passes [c] rest := by
  simp only [List.mem_cons, List.not_mem_nil, or_false, not_or] at plain
  obtain ⟨notSemicolon, notBrace, notParen, notBracket, notAngle⟩ := plain
  intro count later
  refine .atom read ?_ later
  rintro d ⟨⟩
  refine ⟨notSemicolon, notBrace, Delimiter.groupAfter?_of_ne ?_ _⟩
  simp [Finding.signatureGroups, Delimiter.opener, notParen, notBracket, notAngle]

theorem passes_word (parts : ∀ d ∈ word, Text.isWordPart d = true) (ends : Text.EndsWord rest) :
    Passes word rest := by
  induction word with
  | nil => exact passes_nil rest
  | cons c word ih =>
      have plain : c ∉ [';', '\x7b', '(', '[', '<'] :=
        Text.notMem_of_isWordPart (parts c List.mem_cons_self) (by decide)
      exact (passes_char (Atom.read?_word parts ends) plain).append
        (ih fun d member => parts d (List.mem_cons_of_mem _ member))

theorem passes_lifetime (filled : word ≠ []) (parts : ∀ d ∈ word, Text.isWordPart d = true)
    (ends : Text.EndsWord rest) : Passes ('\'' :: word) rest := by
  intro count later
  refine .atom (Atom.read?_lifetime filled parts ends) (fun _ => nofun) ?_
  rw [List.drop_left]
  exact later

theorem passes_space (rest : List Char) : Passes [' '] rest :=
  passes_char (Signature.read?_level (by decide) rest) (by decide)

theorem passes_arrow (rest : List Char) : Passes ['-', '>'] rest :=
  Passes.append (passes_char (Atom.read?_ordinary (by decide) _) (by decide))
    (passes_char (Atom.read?_ordinary (by decide) _) (by decide))

/-- A group is stepped over as a whole. -/
theorem passes_group {kind : Delimiter} (notBrace : kind ≠ .brace)
    (inside : Signature.Bracketed separators inner) : Passes (kind.enclose inner) rest := by
  intro count later
  have goesOn : kind.opener ≠ ';' ∧ kind.opener ≠ '\x7b' ∧ kind ∈ Finding.signatureGroups := by
    revert notBrace
    cases kind <;> decide
  obtain ⟨notSemicolon, notBody, member⟩ := goesOn
  have reach : (kind.enclose inner).length + count = 1 + (inner.length + 1) + count := by
    rw [Delimiter.length_enclose]
    omega
  have behind : (kind.opener :: (inner ++ kind.closer :: rest)).drop (1 + (inner.length + 1)) =
      rest := by
    rw [Nat.add_comm 1, List.drop_succ_cons, ← List.drop_drop, List.drop_left]
    rfl
  have opens : Delimiter.groupAfter? Finding.signatureGroups kind.opener
      ((kind.opener :: (inner ++ kind.closer :: rest)).drop 1) = some (inner.length + 1) := by
    rw [Delimiter.groupAfter?_opener member, List.drop_succ_cons, List.drop_zero,
      inside.closeLength_eq]
  rw [reach, Delimiter.enclose_append]
  refine .group (Atom.read?_of_isBare (kind.isBare_opener _)) ⟨notSemicolon, notBody⟩ opens ?_
  rw [behind]
  exact later

/-- A text whose brackets pair off, without a semicolon outside them, does not end a head. -/
theorem passes_of_bracketed (bracketed : Signature.Bracketed separators text)
    (noSemicolon : ';' ∉ separators) (ends : Text.EndsWord rest) : Passes text rest := by
  induction bracketed with
  | nothing => exact passes_nil rest
  | word filled parts ordinary endsWord _ ih =>
      exact (passes_word parts (endsWord.append ends)).append (ih noSemicolon)
  | lifetime filled parts endsWord _ ih =>
      exact (passes_lifetime filled parts (endsWord.append ends)).append (ih noSemicolon)
  | @spacer separators text c spaces _ ih =>
      have plain : ∀ d ∈ Signature.spacers, d ∉ [';', '\x7b', '(', '[', '<'] := by
        decide
      exact (passes_char (Signature.read?_level (List.mem_append_left _ spaces) _)
        (plain c spaces)).append (ih noSemicolon)
  | @divider separators text c divides allowed _ ih =>
      have plain : ∀ d ∈ Signature.dividers, d ≠ ';' → d ∉ [';', '\x7b', '(', '[', '<'] := by
        decide
      have notSemicolon : c ≠ ';' := fun same => noSemicolon (same ▸ allowed)
      exact (passes_char (Signature.read?_level (List.mem_append_right _ divides) _)
        (plain c divides notSemicolon)).append (ih noSemicolon)
  | arrow _ ih => exact (passes_arrow _).append (ih noSemicolon)
  | group kind notBrace inside _ _ ih =>
      exact (passes_group notBrace inside).append (ih noSemicolon)

/-- A head goes on over a word with spaces around it. -/
theorem passes_introducer (parts : ∀ d ∈ word, Text.isWordPart d = true)
    (later : Passes text rest) : Passes (' ' :: (word ++ ' ' :: text)) rest := by
  have ends : Text.EndsWord (' ' :: text ++ rest) :=
    Text.endsWord_cons (by decide) (by decide) _
  exact (passes_space _).append ((passes_word parts ends).append ((passes_space _).append later))

/-- A head that goes on up to what ends it is read up to there. -/
theorem Passes.read_eq (passes : Passes text rest) {ending : HeadEnd} (ends : Ends rest ending) :
    ∃ kept, read Finding.signatureGroups (text ++ rest) =
      ⟨kept, text.length + ending.size, ending⟩ := by
  obtain ⟨kept, reads⟩ := (passes 0 (.here rest)).readFrom_eq [] 0
  rw [Nat.add_zero, List.drop_left, ends.readFrom_eq, Nat.zero_add] at reads
  exact ⟨kept.reverse, reads⟩

end Head
end Survey
