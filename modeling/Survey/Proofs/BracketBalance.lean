import Survey.Proofs.PairedBrackets
import Mathlib.Algebra.Ring.Int.Defs

set_option autoImplicit false

/-!
# Counting brackets

Where a group closes and what lies outside all brackets can be said by counting alone: a group
ends with the first item that closes more than was opened before it, and a place is at the
surface if no stretch that ends there opens more than it closes. This is said of lists of any
items that open and close brackets. The readers of signatures, which keep a depth, agree with
it, and so do those that look for a word outside all brackets.
-/

namespace Survey

/-- Which items of a list open and which close brackets. A tip closes nothing right behind a
shaft, as in an arrow. -/
structure Brackets (α : Type) where
  opens : α → Bool
  closes : α → Bool
  isShaft : α → Bool
  isTip : α → Bool

namespace Brackets

variable {α : Type} (brackets : Brackets α)

/-- What an item adds to the depth. -/
def turn (afterShaft : Bool) (item : α) : Int :=
  if brackets.opens item then 1
  else if brackets.closes item && !(afterShaft && brackets.isTip item) then -1
  else 0

/-- What the items of a list add to the depth, one by one. -/
def turns : Bool → List α → List Int
  | _, [] => []
  | afterShaft, item :: rest =>
      brackets.turn afterShaft item :: turns (brackets.isShaft item) rest

/-- What stands behind as many openers as the depth says, and one more: the last item is the
first one behind which fewer than these are open. -/
structure ClosesAt (depth : Int) (afterShaft : Bool) (group : List α) : Prop where
  inside : ∀ count < group.length, 0 ≤ depth + ((brackets.turns afterShaft group).take count).sum
  closed : depth + (brackets.turns afterShaft group).sum = -1

/-- Behind as many openers as the depth says, and one more, none of these is closed. -/
def StaysOpenAt (depth : Int) (afterShaft : Bool) (text : List α) : Prop :=
  ∀ count, 0 ≤ depth + ((brackets.turns afterShaft text).take count).sum

/-- What stands behind an opener, up to its closer. -/
def Closes (group : List α) : Prop := brackets.ClosesAt 0 false group

/-- What stands behind an opener that is never closed. -/
def StaysOpen (text : List α) : Prop := brackets.StaysOpenAt 0 false text

/-- No bracket of the text is open at its end. -/
def Level (text : List α) : Prop := ∀ count, ((brackets.turns false text).drop count).sum ≤ 0

variable {brackets} {depth : Int} {afterShaft : Bool} {item : α} {group other rest more : List α}

theorem least_turn (brackets : Brackets α) (afterShaft : Bool) (item : α) :
    -1 ≤ brackets.turn afterShaft item := by
  unfold turn
  split_ifs <;> omega

theorem length_turns (brackets : Brackets α) (afterShaft : Bool) (text : List α) :
    (brackets.turns afterShaft text).length = text.length := by
  induction text generalizing afterShaft with
  | nil => rfl
  | cons item rest ih => rw [turns, List.length_cons, List.length_cons, ih]

/-- What comes behind a text does not change what the text adds. -/
theorem turns_append (brackets : Brackets α) (afterShaft : Bool) (text more : List α) :
    ∃ later,
      brackets.turns afterShaft (text ++ more) = brackets.turns afterShaft text ++ later := by
  induction text generalizing afterShaft with
  | nil => exact ⟨_, rfl⟩
  | cons item rest ih =>
      obtain ⟨later, split⟩ := ih (brackets.isShaft item)
      exact ⟨later, by rw [List.cons_append, turns, turns, split, List.cons_append]⟩

theorem closesAt_last (nonneg : 0 ≤ depth) (closes : depth + brackets.turn afterShaft item = -1) :
    brackets.ClosesAt depth afterShaft [item] where
  inside count short := by
    rw [List.length_singleton] at short
    obtain rfl : count = 0 := by omega
    simpa using nonneg
  closed := by simpa [turns] using closes

theorem ClosesAt.cons (nonneg : 0 ≤ depth)
    (later : brackets.ClosesAt (depth + brackets.turn afterShaft item) (brackets.isShaft item)
      group) : brackets.ClosesAt depth afterShaft (item :: group) where
  inside count short := by
    cases count with
    | zero => simpa using nonneg
    | succ count =>
        rw [turns, List.take_succ_cons, List.sum_cons, ← Int.add_assoc]
        exact later.inside count (Nat.lt_of_succ_lt_succ short)
  closed := by
    rw [turns, List.sum_cons, ← Int.add_assoc]
    exact later.closed

theorem StaysOpenAt.nil (nonneg : 0 ≤ depth) : brackets.StaysOpenAt depth afterShaft [] := by
  intro count
  simpa [turns] using nonneg

theorem StaysOpenAt.cons (nonneg : 0 ≤ depth)
    (later : brackets.StaysOpenAt (depth + brackets.turn afterShaft item)
      (brackets.isShaft item) group) : brackets.StaysOpenAt depth afterShaft (item :: group) := by
  intro count
  cases count with
  | zero => simpa using nonneg
  | succ count =>
      rw [turns, List.take_succ_cons, List.sum_cons, ← Int.add_assoc]
      exact later count

/-- A group that closes does not stay open, whatever comes behind it. -/
theorem Closes.not_staysOpen (closes : brackets.Closes group) (rest : List α) :
    ¬ brackets.StaysOpen (group ++ rest) := by
  intro staysOpen
  obtain ⟨later, split⟩ := brackets.turns_append false group rest
  have before := staysOpen group.length
  rw [split, ← length_turns brackets false group, List.take_left] at before
  have closed := closes.closed
  omega

theorem Closes.length_le (closes : brackets.Closes group) (closesOther : brackets.Closes other)
    (same : group ++ rest = other ++ more) : other.length ≤ group.length := by
  by_contra short
  have front : group = other.take group.length := by
    have taken := congrArg (List.take group.length) same
    rwa [List.take_left, List.take_append_of_le_length (by omega)] at taken
  obtain ⟨later, split⟩ := brackets.turns_append false group (other.drop group.length)
  have whole : group ++ other.drop group.length = other := by
    conv_lhs => rw [front]
    rw [List.length_take, Nat.min_eq_left (by omega), List.take_append_drop]
  have before := closesOther.inside group.length (by omega)
  rw [← whole, split, ← length_turns brackets false group, List.take_left] at before
  have closed := closes.closed
  omega

/-- A group is closed at one place only. -/
theorem Closes.unique (closes : brackets.Closes group) (closesOther : brackets.Closes other)
    (same : group ++ rest = other ++ more) : group = other ∧ rest = more := by
  have length := Nat.le_antisymm (closesOther.length_le closes same.symm)
    (closes.length_le closesOther same)
  exact List.append_inj same length

end Brackets

/-! ### Brackets of a signature -/

namespace Signature

/-- In a signature all brackets count alike. -/
def brackets : Brackets Char where
  opens c := c ∈ ['(', '[', '\x7b', '<']
  closes c := c ∈ [')', ']', '\x7d', '>']
  isShaft c := c ∈ ['-', '=']
  isTip c := c == '>'

namespace Nesting

variable {nesting : Nesting} {c : Char} {text : List Char}

theorem past_afterShaft (nesting : Nesting) (c : Char) :
    (nesting.past c).afterShaft = brackets.isShaft c := by
  simp [past, brackets, Delimiter.isShaft, beq_eq_decide]

/-- A closer takes nothing away at the surface; otherwise a character adds its turn. -/
theorem past_depth (nesting : Nesting) (c : Char) :
    ((nesting.past c).depth : Int) =
      max 0 (nesting.depth + brackets.turn nesting.afterShaft c) := by
  have opener : isOpener c = brackets.opens c := isOpener_eq c
  have closer : isCloser nesting.afterShaft c =
      (brackets.closes c && !(nesting.afterShaft && brackets.isTip c)) := by
    by_cases tip : c = '>'
    · subst tip
      cases nesting.afterShaft <;> rfl
    · simp [isCloser, brackets, tip, beq_eq_decide, Bool.or_assoc]
  unfold past Brackets.turn
  rw [← opener, ← closer]
  dsimp only
  split_ifs <;> omega

/-- A text leads back to the surface if none of its brackets is open at its end, and those that
were open before it are closed. -/
theorem foldl_past_depth_eq_zero (nesting : Nesting) (text : List Char) :
    (text.foldl past nesting).depth = 0 ↔
      (nesting.depth : Int) + (brackets.turns nesting.afterShaft text).sum ≤ 0 ∧
        ∀ count, ((brackets.turns nesting.afterShaft text).drop count).sum ≤ 0 := by
  induction text generalizing nesting with
  | nil => simp [Brackets.turns]
  | cons c rest ih =>
      have step := past_depth nesting c
      rw [List.foldl_cons, ih, past_afterShaft, Brackets.turns, List.sum_cons]
      constructor
      · rintro ⟨closed, suffixes⟩
        refine ⟨by omega, ?_⟩
        intro count
        cases count with
        | zero =>
            rw [List.drop_zero, List.sum_cons]
            omega
        | succ count => exact suffixes count
      · rintro ⟨closed, suffixes⟩
        have rest := suffixes 1
        rw [List.drop_succ_cons, List.drop_zero] at rest
        exact ⟨by omega, fun count => suffixes (count + 1)⟩

theorem foldl_past_surface (text : List Char) :
    (text.foldl past surface).depth = 0 ↔ brackets.Level text := by
  rw [foldl_past_depth_eq_zero]
  constructor
  · exact fun both => both.2
  · intro level
    have whole := level 0
    exact ⟨by simpa [surface] using whole, level⟩

end Nesting

/-- The closer that is found is the first item that closes more than was opened. -/
theorem closerIndex?_go_cases (nesting : Nesting) (inside : 0 < nesting.depth) (passed : Nat)
    (text : List Char) :
    (closerIndex?.go nesting passed text = none ∧
      brackets.StaysOpenAt (nesting.depth - 1 : Int) nesting.afterShaft text) ∨
    ∃ inner closer rest, text = inner ++ closer :: rest ∧
      closerIndex?.go nesting passed text = some (passed + inner.length) ∧
      brackets.closes closer = true ∧
      brackets.ClosesAt (nesting.depth - 1 : Int) nesting.afterShaft (inner ++ [closer]) := by
  induction text generalizing nesting passed with
  | nil => exact .inl ⟨rfl, .nil (by omega)⟩
  | cons c rest ih =>
      have step := Nesting.past_depth nesting c
      have shaft := Nesting.past_afterShaft nesting c
      have least := brackets.least_turn nesting.afterShaft c
      rw [closerIndex?.go]
      by_cases closes : (nesting.past c).depth = 0 ∧ nesting.depth = 1
      · obtain ⟨atSurface, deep⟩ := closes
        have closer : brackets.turn nesting.afterShaft c = -1 := by omega
        right
        refine ⟨[], c, rest, rfl, if_pos ⟨atSurface, deep⟩, ?_,
          Brackets.closesAt_last (by omega) (by omega)⟩
        unfold Brackets.turn at closer
        split_ifs at closer with opens both
        · exact (Bool.and_eq_true_iff.mp both).1
      · have deeper : 0 < (nesting.past c).depth := by omega
        have depth : ((nesting.past c).depth - 1 : Int) =
            nesting.depth - 1 + brackets.turn nesting.afterShaft c := by omega
        rw [if_neg closes]
        rcases ih (nesting.past c) deeper (passed + 1) with
          ⟨missing, staysOpen⟩ | ⟨inner, closer, rest, rfl, found, isCloser, closesAt⟩
        · rw [depth, shaft] at staysOpen
          exact .inl ⟨missing, .cons (by omega) staysOpen⟩
        · rw [depth, shaft] at closesAt
          refine .inr ⟨c :: inner, closer, rest, rfl, ?_, isCloser, .cons (by omega) closesAt⟩
          rw [found, List.length_cons]
          congr 1
          omega

/-- A bracket that is open is closed where its group ends, or never. -/
theorem closerIndex?_cases (text : List Char) :
    (closerIndex? text = none ∧ brackets.StaysOpen text) ∨
      ∃ inner closer rest, text = inner ++ closer :: rest ∧
        closerIndex? text = some inner.length ∧ brackets.closes closer = true ∧
        brackets.Closes (inner ++ [closer]) := by
  rcases closerIndex?_go_cases .inside Nat.one_pos 0 text with
    ⟨missing, staysOpen⟩ | ⟨inner, closer, rest, split, found, isCloser, closes⟩
  · exact .inl ⟨missing, staysOpen⟩
  · rw [Nat.zero_add] at found
    exact .inr ⟨inner, closer, rest, split, found, isCloser, closes⟩

/-! ### Words at the surface -/

/-- Between the two texts a word stands outside all brackets, apart from other words. -/
structure Alone (before after : List Char) : Prop where
  level : brackets.Level before
  apart : ∀ c, before.getLast? = some c → Text.isWhiteSpace c = true
  bounded : ∀ c, after.head? = some c → Text.isWhiteSpace c = true

/-- The word parts the text where it stands alone for the first time. -/
structure Parts (word text before after : List Char) : Prop where
  split : text = before ++ (word ++ after)
  alone : Alone before after
  first : ∀ sooner later, text = sooner ++ (word ++ later) → Alone sooner later →
    before.length ≤ sooner.length

variable {w : Char} {word text before after front back : List Char}

theorem Parts.unique (parts : Parts word text before after) (others : Parts word text front back) :
    before = front ∧ after = back := by
  have lengths := Nat.le_antisymm (parts.first _ _ others.split others.alone)
    (others.first _ _ parts.split parts.alone)
  obtain ⟨same, rest⟩ := List.append_inj (parts.split.symm.trans others.split) lengths
  exact ⟨same, List.append_cancel_left rest⟩

/-- A word that stands alone starts the text. -/
theorem prefix_of_standsAlone (alone : wordIndex?.standsAlone word text = true) :
    ∃ after, text = word ++ after := by
  unfold wordIndex?.standsAlone at alone
  cases found : word.isPrefixOf? text with
  | none =>
      rw [found] at alone
      cases alone
  | some after => exact ⟨after, (List.isPrefixOf?_eq_some_iff_append_eq.mp found).symm⟩

theorem standsAlone_append (word after : List Char) :
    wordIndex?.standsAlone word (word ++ after) = after.head?.all Text.isWhiteSpace := by
  unfold wordIndex?.standsAlone
  rw [List.isPrefixOf?_eq_some_iff_append_eq.mpr rfl]

/-- A word is found behind the text if it stands alone there. -/
theorem alone_iff (plain : w ∉ shifting) (before after : List Char) :
    Alone before after ↔
      (before.foldl Nesting.past .surface).depthOf w = 0 ∧
        before.getLast?.all Text.isWhiteSpace = true ∧
        wordIndex?.standsAlone (w :: word) (w :: word ++ after) = true := by
  rw [Nesting.depthOf_level plain, Nesting.foldl_past_surface, standsAlone_append,
    Option.all_eq_true, Option.all_eq_true]
  constructor
  · rintro ⟨level, apart, bounded⟩
    exact ⟨level, apart, bounded⟩
  · rintro ⟨level, apart, bounded⟩
    exact ⟨level, apart, bounded⟩

theorem wordIndex?_go_cases (plain : w ∉ shifting) (word before text : List Char) :
    (wordIndex?.go (w :: word) (before.foldl Nesting.past .surface)
        (before.getLast?.all Text.isWhiteSpace) before.length text = none ∧
      ∀ middle after, text = middle ++ (w :: word ++ after) → ¬ Alone (before ++ middle) after) ∨
    ∃ middle after, text = middle ++ (w :: word ++ after) ∧
      wordIndex?.go (w :: word) (before.foldl Nesting.past .surface)
        (before.getLast?.all Text.isWhiteSpace) before.length text =
          some (before ++ middle).length ∧
      Alone (before ++ middle) after ∧
      ∀ sooner later, text = sooner ++ (w :: word ++ later) → Alone (before ++ sooner) later →
        middle.length ≤ sooner.length := by
  induction text generalizing before with
  | nil =>
      left
      refine ⟨rfl, ?_⟩
      intro middle after split
      simp at split
  | cons c rest ih =>
      rw [wordIndex?.go]
      by_cases here : (before.foldl Nesting.past .surface).depthOf c = 0 ∧
          before.getLast?.all Text.isWhiteSpace = true ∧
          wordIndex?.standsAlone (w :: word) (c :: rest) = true
      · right
        obtain ⟨after, split⟩ := prefix_of_standsAlone here.2.2
        obtain ⟨rfl, rfl⟩ := List.cons.inj split
        refine ⟨[], after, rfl, ?_, ?_, ?_⟩
        · rw [if_pos here, List.append_nil]
        · rw [List.append_nil]
          exact (alone_iff plain before after).mpr here
        · intro sooner later _ _
          exact Nat.zero_le _
      · rw [if_neg here]
        -- The word does not stand here, so wherever it does, this character is passed before.
        have passed : ∀ middle after, c :: rest = middle ++ (w :: word ++ after) →
            Alone (before ++ middle) after →
            ∃ further, middle = c :: further ∧ rest = further ++ (w :: word ++ after) := by
          intro middle after split alone
          cases middle with
          | nil =>
              obtain ⟨rfl, rfl⟩ := List.cons.inj split
              rw [List.append_nil] at alone
              exact absurd ((alone_iff plain before after).mp alone) here
          | cons d further =>
              obtain ⟨rfl, behind⟩ := List.cons.inj split
              exact ⟨further, rfl, behind⟩
        have onward := ih (before ++ [c])
        rw [List.foldl_append, List.getLast?_concat, List.length_append] at onward
        rcases onward with ⟨missing, nowhere⟩ | ⟨middle, after, rfl, found, alone, first⟩
        · left
          refine ⟨missing, ?_⟩
          intro middle after split alone
          obtain ⟨further, rfl, behind⟩ := passed middle after split alone
          rw [List.append_cons] at alone
          exact nowhere further after behind alone
        · right
          refine ⟨c :: middle, after, rfl, ?_, ?_, ?_⟩
          · rw [List.append_cons]
            exact found
          · rw [List.append_cons]
            exact alone
          · intro sooner later split aloneThere
            obtain ⟨further, rfl, behind⟩ := passed sooner later split aloneThere
            rw [List.append_cons] at aloneThere
            exact Nat.succ_le_succ (first further later behind aloneThere)

/-- The word that is found is the first one that stands alone. -/
theorem wordIndex?_parts (plain : w ∉ shifting) (word text : List Char) :
    (wordIndex? (w :: word) text = none ∧ ∀ before after, ¬ Parts (w :: word) text before after) ∨
      ∃ before after, wordIndex? (w :: word) text = some before.length ∧
        Parts (w :: word) text before after := by
  rcases wordIndex?_go_cases plain word [] text with
    ⟨missing, nowhere⟩ | ⟨before, after, split, found, alone, first⟩
  · left
    refine ⟨missing, ?_⟩
    intro before after parts
    exact nowhere before after parts.split parts.alone
  · right
    exact ⟨before, after, found, split, alone, first⟩

end Signature
end Survey
