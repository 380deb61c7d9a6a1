import Survey.Proofs.AtomRuns
import Survey.Proofs.Sessions

set_option autoImplicit false

/-!
# Groups by counting and by descent

The closer of a group is found by counting how many groups of its kind are open. A reader that
descends instead, and skips every group of the kind as a whole before it goes on, stops at the
same place: behind an inner group the count is what it was before, and the memory of an arrow's
shaft is gone in both readings. The count never falls to nothing before the last atom that is
read.
-/

namespace Survey

namespace Atom

/-- The first characters of the text, as many as the number says, are read as these atoms. -/
inductive Reads : List Char → List Atom → Nat → Prop
  | nothing (text : List Char) : Reads text [] 0
  | onward {text : List Char} {atom : Atom} {length more : Nat} {atoms : List Atom}
      (read : read? text = some (atom, length)) (later : Reads (text.drop length) atoms more) :
      Reads text (atom :: atoms) (length + more)

/-- Every atom has a character of its own. -/
theorem Reads.length_le {text : List Char} {atoms : List Atom} {count : Nat}
    (reads : Reads text atoms count) : atoms.length ≤ count ∧ count ≤ text.length := by
  induction reads with
  | nothing text => exact ⟨Nat.le_refl 0, Nat.zero_le _⟩
  | onward read later ih =>
      have positive := (read?_pos read).1
      have bound := read?_length_le read
      rw [List.length_drop] at ih
      rw [List.length_cons]
      omega

end Atom

namespace Delimiter

variable {kind : Delimiter}

/-- How many characters remain of a group whose opener has been read, its closer included.
Every group of the same kind within it is skipped as a whole. -/
def descend (kind : Delimiter) (afterShaft : Bool) (text : List Char) : Nat :=
  match _found : Atom.read? text with
  | none => 0
  | some (.char c, length) =>
      if kind.closes afterShaft c then length
      else if c = kind.opener then
        let inner := descend kind false (text.drop length)
        length + inner + descend kind false (text.drop (length + inner))
      else length + descend kind (isShaft c) (text.drop length)
  | some (_, length) => length + descend kind false (text.drop length)
termination_by text.length
decreasing_by
  all_goals first
    | exact Atom.length_drop_lt ‹_›
    | exact Atom.length_drop_add_lt ‹_› _

/-- What is left to do behind the innermost group: the search for the closer of the next. -/
def closeOuter (kind : Delimiter) : Nat → List Char → Nat
  | 0, _ => 0
  | outer + 1, text => kind.closeFrom outer false 0 text

theorem closeFrom_taken (outer : Nat) (afterShaft : Bool) (taken : Nat) (text : List Char) :
    kind.closeFrom outer afterShaft taken text =
      taken + kind.closeFrom outer afterShaft 0 text :=
  closeFrom_add kind outer afterShaft taken 0 text

/-- Counting, the innermost group ends where descending leaves it. -/
theorem closeFrom_eq_descend (outer : Nat) (afterShaft : Bool) (text : List Char) :
    kind.closeFrom outer afterShaft 0 text =
      kind.descend afterShaft text +
        kind.closeOuter outer (text.drop (kind.descend afterShaft text)) := by
  fun_induction descend kind afterShaft text generalizing outer with
  | case1 afterShaft text missing =>
      obtain rfl := (Atom.read?_eq_none_iff text).mp missing
      rw [closeFrom_nil, Nat.zero_add]
      cases outer with
      | zero => rfl
      | succ outer => exact closeFrom_nil.symm
  | case2 afterShaft text c length found closes =>
      rw [closeFrom_eq, found]
      dsimp only
      rw [if_pos closes]
      cases outer with
      | zero => exact Nat.zero_add _
      | succ outer =>
          dsimp only
          rw [Nat.zero_add, closeFrom_taken]
          rfl
  | case3 afterShaft text length inner found stays ihInner ihLater =>
      -- The opener deepens the count by one, and the whole inner group brings it back.
      have notShaft : isShaft kind.opener = false := by cases kind <;> rfl
      rw [closeFrom_eq, found]
      dsimp only
      rw [if_neg stays, deepen, if_pos rfl, notShaft, Nat.zero_add, closeFrom_taken,
        ihInner (outer + 1), List.drop_drop, closeOuter, ihLater, List.drop_drop]
      simp only [Nat.add_assoc]
      rfl
  | case4 afterShaft text c length found stays other ih =>
      rw [closeFrom_eq, found]
      dsimp only
      rw [if_neg stays, deepen, if_neg other, Nat.zero_add, closeFrom_taken, ih, List.drop_drop,
        Nat.add_assoc]
  | case5 afterShaft text atom length other found ih =>
      have passed : kind.closeFrom outer afterShaft 0 text =
          length + kind.closeFrom outer false 0 (text.drop length) := by
        rw [closeFrom_eq, found]
        cases atom with
        | char c => exact absurd rfl (other c)
        | comment | literal =>
            dsimp only
            rw [Nat.zero_add, closeFrom_taken]
      rw [passed, ih, List.drop_drop, Nat.add_assoc]

/-- The rest of a group is what descending skips. -/
theorem closeLength_eq_descend (kind : Delimiter) (text : List Char) :
    kind.closeLength text = kind.descend false text :=
  kind.closeFrom_eq_descend 0 false text

/-! ### The count -/

/-- How many of the atoms close a group. -/
def closers (kind : Delimiter) (afterShaft : Bool) : List Atom → Nat
  | [] => 0
  | .char c :: atoms => (kind.closes afterShaft c).toNat + closers kind (isShaft c) atoms
  | _ :: atoms => closers kind false atoms

/-- How many of the atoms open a group. -/
def openers (kind : Delimiter) (atoms : List Atom) : Nat := atoms.count (.char kind.opener)

/-- How deep the atoms lead into the groups, when the first group is open before them. -/
def depth (kind : Delimiter) (atoms : List Atom) : Int :=
  1 + kind.openers atoms - kind.closers false atoms

/-- The atoms are what the search for a closer reads, when further groups are open. -/
structure Counts (kind : Delimiter) (outer : Nat) (afterShaft : Bool) (text : List Char)
    (count : Nat) (atoms : List Atom) : Prop where
  reads : Atom.Reads text atoms count
  stays : ∀ before after, atoms = before ++ after → after ≠ [] →
    kind.closers afterShaft before ≤ kind.openers before + outer
  ends : (kind.closers afterShaft atoms = kind.openers atoms + outer + 1 ∧
      ∃ before, atoms = before ++ [.char kind.closer]) ∨
    (text.drop count = [] ∧ kind.closers afterShaft atoms ≤ kind.openers atoms + outer)

variable {outer next down up length more : Nat} {afterShaft shaft : Bool} {text : List Char}
  {atom : Atom} {atoms : List Atom}

/-- An atom in front, with what it adds to the closers and to the openers. -/
theorem Counts.onward (read : Atom.read? text = some (atom, length))
    (later : kind.Counts next shaft (text.drop length) more atoms)
    (closing : ∀ rest, kind.closers afterShaft (atom :: rest) = down + kind.closers shaft rest)
    (opening : ∀ rest, kind.openers (atom :: rest) = up + kind.openers rest)
    (level : up + outer = down + next) :
    kind.Counts outer afterShaft text (length + more) (atom :: atoms) where
  reads := .onward read later.reads
  stays := by
    intro before after split filled
    cases before with
    | nil => exact Nat.zero_le _
    | cons first before =>
        obtain ⟨rfl, behind⟩ := List.cons.inj split
        have deep := later.stays before after behind filled
        rw [closing, opening]
        omega
  ends := by
    rw [closing, opening, ← List.drop_drop]
    rcases later.ends with ⟨closed, before, rfl⟩ | ⟨atEnd, opened⟩
    · exact .inl ⟨by omega, atom :: before, rfl⟩
    · exact .inr ⟨atEnd, by omega⟩

theorem openers_other (other : atom ≠ .char kind.opener) (rest : List Atom) :
    kind.openers (atom :: rest) = 0 + kind.openers rest := by
  rw [openers, List.count_cons_of_ne other, Nat.zero_add]
  rfl

theorem openers_opener (rest : List Atom) :
    kind.openers (.char kind.opener :: rest) = 1 + kind.openers rest := by
  rw [openers, List.count_cons_self, Nat.add_comm]
  rfl

theorem closers_char (c : Char) (rest : List Atom) :
    kind.closers afterShaft (.char c :: rest) =
      (kind.closes afterShaft c).toNat + kind.closers (isShaft c) rest := rfl

/-- A character that closes a group is its closer, and neither opens one nor makes an arrow. -/
theorem eq_closer {c : Char} (closes : kind.closes afterShaft c = true) :
    c = kind.closer ∧ (.char c : Atom) ≠ .char kind.opener ∧ isShaft c = false := by
  have same : c = kind.closer := by
    unfold Delimiter.closes at closes
    rw [Bool.and_eq_true, beq_iff_eq] at closes
    exact closes.1
  subst same
  cases kind <;> decide

/-- The search for a closer reads atoms that keep a group open up to the last of them. -/
theorem exists_counts (outer : Nat) (afterShaft : Bool) (taken : Nat) (text : List Char) :
    ∃ count atoms, kind.closeFrom outer afterShaft taken text = taken + count ∧
      kind.Counts outer afterShaft text count atoms := by
  fun_induction closeFrom kind outer afterShaft taken text with
  | case1 outer afterShaft taken text missing =>
      obtain rfl := (Atom.read?_eq_none_iff text).mp missing
      refine ⟨0, [], rfl, .nothing [], ?_, .inr ⟨rfl, Nat.zero_le _⟩⟩
      intro before after split filled
      exact absurd (List.append_eq_nil_iff.mp split.symm).2 filled
  | case2 afterShaft taken text c length found closes =>
      obtain ⟨rfl, notOpener, notShaft⟩ := eq_closer closes
      refine ⟨length, [.char kind.closer], rfl, .onward found (.nothing _), ?_, .inl ⟨?_, [], rfl⟩⟩
      · intro before after split filled
        cases before with
        | nil => exact Nat.zero_le _
        | cons first before =>
            obtain ⟨-, behind⟩ := List.cons.inj split
            exact absurd (List.append_eq_nil_iff.mp behind.symm).2 filled
      · rw [closers_char, closes, openers_other notOpener]
        rfl
  | case3 afterShaft taken text c length found closes outer ih =>
      obtain ⟨-, notOpener, notShaft⟩ := eq_closer closes
      obtain ⟨count, atoms, reaches, counts⟩ := ih
      refine ⟨length + count, .char c :: atoms, by rw [reaches, Nat.add_assoc], ?_⟩
      have closing : ∀ rest, kind.closers afterShaft (.char c :: rest) =
          1 + kind.closers false rest := by
        intro rest
        rw [closers_char, closes, notShaft]
        rfl
      exact counts.onward found closing (openers_other notOpener) (by omega)
  | case4 outer afterShaft taken text c length found staysOpen ih =>
      obtain ⟨count, atoms, reaches, counts⟩ := ih
      refine ⟨length + count, .char c :: atoms, by rw [reaches, Nat.add_assoc], ?_⟩
      have closing : ∀ rest, kind.closers afterShaft (.char c :: rest) =
          0 + kind.closers (isShaft c) rest := by
        intro rest
        rw [closers_char, Bool.eq_false_iff.mpr staysOpen]
        rfl
      by_cases opens : c = kind.opener
      · subst opens
        rw [deepen, if_pos rfl] at counts
        exact counts.onward found closing openers_opener (by omega)
      · rw [deepen, if_neg opens] at counts
        refine counts.onward found closing (openers_other ?_) (by omega)
        intro same
        exact opens (Atom.char.inj same)
  | case5 outer afterShaft taken text atom length other found ih =>
      obtain ⟨count, atoms, reaches, counts⟩ := ih
      refine ⟨length + count, atom :: atoms, by rw [reaches, Nat.add_assoc], ?_⟩
      have closing : ∀ rest, kind.closers afterShaft (atom :: rest) =
          0 + kind.closers false rest := by
        intro rest
        cases atom with
        | char c => exact absurd rfl (other c)
        | comment | literal => exact (Nat.zero_add _).symm
      have notOpener : atom ≠ .char kind.opener := fun same => other _ same
      exact counts.onward found closing (openers_other notOpener) (by omega)

/-- No more groups are open than there were characters. -/
theorem depth_lt_limit {count : Nat} (reads : Atom.Reads text atoms count)
    (small : Text.byteLength text ≤ 2 ^ 32 - 2) {before after : List Atom}
    (split : atoms = before ++ after) : kind.depth before < Counter.limit := by
  have opened : kind.openers before ≤ before.length := List.count_le_length
  have parts := congrArg List.length split
  have sized := reads.length_le
  have bytes := Text.length_le_byteLength text
  rw [List.length_append] at parts
  unfold depth Counter.limit
  omega

end Delimiter

namespace Cursor

theorem IsTrueIn.slice_skip {text : List Char} {cursor : Cursor} (isTrue : cursor.IsTrueIn text)
    (count : Nat) :
    Text.slice text cursor.place.offset (cursor.skip count).place.offset =
      cursor.rest.take count := by
  obtain ⟨before, split, place⟩ := (isTrueIn_iff text cursor).mp isTrue
  have sliced := Text.slice_append before (cursor.rest.take count) (cursor.rest.drop count)
  rw [List.take_append_drop, ← split, Text.byteLength_append] at sliced
  rwa [offset_skip, place, Position.ofText_offset]

/-- Counting leaves a cursor that stands at a true place of the text where descending would
leave it, and what is read on the way is the text between the two places. As long as something
more is read a group is open, and never so many that their number is no counter. The last atom
closes the group, or the text is over. -/
theorem closeLength_descends {text : List Char} (small : Text.byteLength text ≤ 2 ^ 32 - 2)
    {cursor : Cursor} (isTrue : cursor.IsTrueIn text) (kind : Delimiter) :
    let behind := cursor.skip (kind.closeLength cursor.rest)
    behind = cursor.skip (kind.descend false cursor.rest) ∧
      behind.IsTrueIn text ∧ behind.place.Fits ∧
      Text.slice text cursor.place.offset behind.place.offset =
        cursor.rest.take (kind.closeLength cursor.rest) ∧
      ∃ atoms, Atom.Reads cursor.rest atoms (kind.closeLength cursor.rest) ∧
        (∀ before after, atoms = before ++ after →
          (after ≠ [] → 1 ≤ kind.depth before) ∧ kind.depth before < Counter.limit) ∧
        ((kind.depth atoms = 0 ∧ ∃ before, atoms = before ++ [.char kind.closer]) ∨
          (behind.rest = [] ∧ 1 ≤ kind.depth atoms)) := by
  obtain ⟨count, atoms, reaches, counts⟩ := kind.exists_counts 0 false 0 cursor.rest
  obtain rfl : kind.closeLength cursor.rest = count := reaches.trans (Nat.zero_add count)
  have isTrueBehind := isTrue.skip (kind.closeLength cursor.rest)
  have bytes : Text.byteLength cursor.rest ≤ Text.byteLength text := by
    obtain ⟨before, split, -⟩ := isTrue
    rw [split, Text.byteLength_append]
    exact Nat.le_add_left _ _
  refine ⟨by rw [kind.closeLength_eq_descend], isTrueBehind,
    isTrueBehind.place_isTrueIn.fits small, isTrue.slice_skip _, atoms, counts.reads, ?_, ?_⟩
  · intro before after split
    refine ⟨?_, Delimiter.depth_lt_limit counts.reads (by omega) split⟩
    intro filled
    have stays := counts.stays before after split filled
    unfold Delimiter.depth
    omega
  · unfold Delimiter.depth
    rcases counts.ends with ⟨closed, last⟩ | ⟨atEnd, opened⟩
    · exact .inl ⟨by omega, last⟩
    · exact .inr ⟨atEnd, by omega⟩

/-- A group within the group, the head of an arrow, and a closer in a comment. -/
theorem closeLength_descends_arrow :
    let text := "<A<B>, fn() -> C/*>*/> z".toList
    let cursor := (ofText text).skip 1
    Text.byteLength text ≤ 2 ^ 32 - 2 ∧ cursor.IsTrueIn text ∧
      cursor.skip (Delimiter.angle.descend false cursor.rest) = cursor.skip 21 ∧
      Text.slice text 1 22 = "A<B>, fn() -> C/*>*/>".toList ∧
      ∃ atoms, Atom.Reads cursor.rest atoms 21 ∧ Delimiter.angle.depth atoms = 0 := by
  intro text cursor
  have small : Text.byteLength text ≤ 2 ^ 32 - 2 := by
    decide
  have isTrue : cursor.IsTrueIn text := (ofText_isTrueIn text).skip 1
  have length : Delimiter.angle.closeLength cursor.rest = 21 := by
    decide +kernel
  have left : (cursor.skip 21).rest ≠ [] := by
    decide
  obtain ⟨descends, -, -, sliced, atoms, reads, -, closed | ⟨atEnd, -⟩⟩ :=
    closeLength_descends small isTrue .angle
  · rw [length] at descends sliced reads
    exact ⟨small, isTrue, descends.symm, sliced, atoms, reads, closed.1⟩
  · rw [length] at atEnd
    exact absurd atEnd left

end Cursor
end Survey
