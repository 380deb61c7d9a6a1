import Survey.Finding.Item
import Survey.Finding.Basic
import Survey.Proofs.CutGroups

set_option autoImplicit false

/-!
# Attributes, macros and other marks of a text that was cut short

What is stepped over as a whole, and what is looked for ahead of a keyword. A reader
that looks ahead may find its answer behind the cut; the lemmas here say what it
answers when that is gone.
-/

namespace Survey

namespace Attribute

theorem blankLength_of_le {text more : List Char}
    (inside : Trivia.blankLength (text ++ more) ≤ text.length) :
    Trivia.blankLength text = Trivia.blankLength (text ++ more) := by
  have cut := Text.length_takeWhile_append Text.isBlank text more
  unfold Trivia.blankLength at *
  omega

theorem bracketed?_of_ne {opening rest : List Char} {taken : Nat} {c : Char} (other : c ≠ '[') :
    bracketed? opening taken (c :: rest) = none := by
  unfold bracketed?
  split
  · rename_i split
    cases split
    exact absurd rfl other
  · rfl

theorem bracketed?_of_le {opening text more : List Char} {taken : Nat} {mark : Attribute}
    (found : bracketed? opening taken (text ++ more) = some mark)
    (inside : mark.length ≤ taken + text.length) : bracketed? opening taken text = some mark := by
  cases text with
  | nil =>
      cases more with
      | nil => exact found
      | cons c more =>
          unfold bracketed? at found
          split at found
          · cases found
            simp only [List.length_nil] at inside
            omega
          · cases found
  | cons c rest =>
      rw [List.cons_append] at found
      by_cases bracket : c = '['
      · subst bracket
        cases found
        simp only [List.length_cons] at inside
        have closed : Delimiter.bracket.closeLength (rest ++ more) ≤ rest.length := by omega
        rw [bracketed?, Delimiter.closeLength_of_le closed, List.take_append_of_le_length closed]
      · rw [bracketed?_of_ne bracket] at found
        cases found

theorem bracketed?_of_none {opening text more : List Char} {taken other : Nat}
    (missing : bracketed? opening taken (text ++ more) = none) :
    bracketed? opening other text = none := by
  cases text with
  | nil => rfl
  | cons c rest =>
      by_cases bracket : c = '['
      · subst bracket
        rw [List.cons_append] at missing
        cases missing
      · exact bracketed?_of_ne bracket

theorem lt_bracketed?_length {opening text : List Char} {taken : Nat} {mark : Attribute}
    (found : bracketed? opening taken text = some mark) : taken < mark.length := by
  unfold bracketed? at found
  split at found
  · cases found
    dsimp only
    omega
  · cases found

theorem read?_eq_bang {text rest : List Char}
    (split : text.drop (Trivia.blankLength text) = '!' :: rest) :
    read? text = bracketed? ['#', '!']
      (Trivia.blankLength text + 1 + Trivia.blankLength rest)
      (rest.drop (Trivia.blankLength rest)) := by
  unfold read?
  dsimp only
  rw [split]
  rfl

theorem read?_eq_bare {text : List Char}
    (bare : (text.drop (Trivia.blankLength text)).head? ≠ some '!') :
    read? text =
      bracketed? ['#'] (Trivia.blankLength text) (text.drop (Trivia.blankLength text)) := by
  unfold read?
  dsimp only
  split
  · rename_i split
    rw [split] at bare
    exact absurd rfl bare
  · rfl

theorem lt_read?_length {text : List Char} {mark : Attribute} (found : read? text = some mark) :
    Trivia.blankLength text < mark.length := by
  by_cases bang : (text.drop (Trivia.blankLength text)).head? = some '!'
  · obtain ⟨rest, split⟩ := List.head?_eq_some_iff.mp bang
    rw [read?_eq_bang split] at found
    have further := lt_bracketed?_length found
    omega
  · rw [read?_eq_bare bang] at found
    exact lt_bracketed?_length found

/-- Behind blanks that end before the cut the text goes on as it was. -/
theorem drop_blanks_append {text more : List Char}
    (inside : Trivia.blankLength (text ++ more) ≤ text.length) :
    (text ++ more).drop (Trivia.blankLength (text ++ more)) =
      text.drop (Trivia.blankLength text) ++ more := by
  rw [blankLength_of_le inside, List.drop_append_of_le_length inside]

/-- An attribute that ends before the cut is read the same. -/
theorem read?_of_le {text more : List Char} {mark : Attribute}
    (found : read? (text ++ more) = some mark) (inside : mark.length ≤ text.length) :
    read? text = some mark := by
  have blanks := lt_read?_length found
  have blanksLe : Trivia.blankLength (text ++ more) ≤ text.length := by omega
  have same := blankLength_of_le blanksLe
  have dropped := drop_blanks_append blanksLe
  cases split : text.drop (Trivia.blankLength text) with
  | nil =>
      rw [List.drop_eq_nil_iff] at split
      omega
  | cons c rest =>
      have lengths := congrArg List.length split
      rw [List.length_drop, List.length_cons] at lengths
      rw [split, List.cons_append] at dropped
      by_cases bang : c = '!'
      · subst bang
        rw [read?_eq_bang dropped] at found
        have further := lt_bracketed?_length found
        have restLe : Trivia.blankLength (rest ++ more) ≤ rest.length := by omega
        rw [drop_blanks_append restLe] at found
        rw [read?_eq_bang split, same, blankLength_of_le restLe] at *
        refine bracketed?_of_le found ?_
        rw [List.length_drop]
        omega
      · rw [read?_eq_bare (by rw [dropped]; simpa using bang), dropped, ← List.cons_append] at found
        rw [read?_eq_bare (by rw [split]; simpa using bang), split, same]
        refine bracketed?_of_le found ?_
        rw [List.length_cons]
        omega

theorem read?_of_none {text more : List Char} (missing : read? (text ++ more) = none) :
    read? text = none := by
  by_cases blanksLe : Trivia.blankLength (text ++ more) ≤ text.length
  · have dropped := drop_blanks_append blanksLe
    cases split : text.drop (Trivia.blankLength text) with
    | nil =>
        rw [read?_eq_bare (by rw [split]; simp), split]
        rfl
    | cons c rest =>
        rw [split, List.cons_append] at dropped
        by_cases bang : c = '!'
        · subst bang
          rw [read?_eq_bang split]
          rw [read?_eq_bang dropped] at missing
          by_cases restLe : Trivia.blankLength (rest ++ more) ≤ rest.length
          · rw [drop_blanks_append restLe] at missing
            exact bracketed?_of_none missing
          · have cut := Text.length_takeWhile_append Text.isBlank rest more
            have nothing : rest.drop (Trivia.blankLength rest) = [] := by
              rw [List.drop_eq_nil_iff]
              unfold Trivia.blankLength at *
              omega
            rw [nothing]
            rfl
        · rw [read?_eq_bare (by rw [dropped]; simpa using bang), dropped,
            ← List.cons_append] at missing
          rw [read?_eq_bare (by rw [split]; simpa using bang), split]
          exact bracketed?_of_none missing
  · have cut := Text.length_takeWhile_append Text.isBlank text more
    have nothing : text.drop (Trivia.blankLength text) = [] := by
      rw [List.drop_eq_nil_iff]
      unfold Trivia.blankLength at *
      omega
    rw [read?_eq_bare (by rw [nothing]; simp), nothing]
    rfl

/-- Blanks are stepped over with an attribute only. -/
theorem skipLength_of_le {text more : List Char}
    (inside : skipLength (text ++ more) ≤ text.length) :
    skipLength text = skipLength (text ++ more) := by
  unfold skipLength at *
  cases found : read? (text ++ more) with
  | none => rw [read?_of_none found]
  | some mark =>
      rw [found] at inside
      rw [read?_of_le found inside]

theorem skipLength_drop_of_le {text more : List Char} {count : Nat}
    (inside : count + skipLength ((text ++ more).drop count) ≤ text.length) :
    skipLength (text.drop count) = skipLength ((text ++ more).drop count) := by
  rw [List.drop_append_of_le_length (by omega)] at inside ⊢
  apply skipLength_of_le
  rw [List.length_drop]
  omega

end Attribute

/-! ### Macro bodies -/

/-- How many characters the name of a defined macro takes, with the blanks after it. -/
def macroNameLength (isDefinition : Bool) (text : List Char) : Nat :=
  if isDefinition && text.head?.any Text.isWordStart then
    (text.takeWhile Text.isWordPart).length +
      Trivia.blankLength (text.drop (text.takeWhile Text.isWordPart).length)
  else 0

/-- How many characters the group of a macro takes. -/
def macroGroupLength : List Char → Nat
  | [] => 0
  | c :: rest =>
    match Delimiter.groupAfter? [.brace, .paren, .bracket] c rest with
    | some group => 1 + group
    | none => 0

theorem macroLength_eq (isDefinition : Bool) (text : List Char) :
    macroLength isDefinition text =
      Trivia.blankLength text + macroNameLength isDefinition (text.drop (Trivia.blankLength text)) +
        macroGroupLength ((text.drop (Trivia.blankLength text)).drop
          (macroNameLength isDefinition (text.drop (Trivia.blankLength text)))) := by
  unfold macroLength macroNameLength macroGroupLength
  rfl

theorem macroNameLength_of_named {isDefinition : Bool} {text : List Char}
    (named : (isDefinition && text.head?.any Text.isWordStart) = true) :
    macroNameLength isDefinition text =
      (text.takeWhile Text.isWordPart).length +
        Trivia.blankLength (text.drop (text.takeWhile Text.isWordPart).length) :=
  if_pos named

theorem macroNameLength_of_le {isDefinition : Bool} {text more : List Char}
    (inside : macroNameLength isDefinition (text ++ more) ≤ text.length) :
    macroNameLength isDefinition text = macroNameLength isDefinition (text ++ more) := by
  cases text with
  | nil =>
      have nothing : macroNameLength isDefinition ([] ++ more) = 0 := Nat.le_zero.mp inside
      rw [nothing]
      unfold macroNameLength
      simp
  | cons c rest =>
      by_cases named : (isDefinition && (c :: rest).head?.any Text.isWordStart) = true
      · have full : macroNameLength isDefinition (c :: rest ++ more) = _ :=
          macroNameLength_of_named named
        rw [full] at inside ⊢
        rw [macroNameLength_of_named named]
        have cut := Text.length_takeWhile_append Text.isWordPart (c :: rest) more
        rw [Nat.min_eq_left (by omega)] at cut
        rw [List.drop_append_of_le_length (by omega), ← cut] at inside ⊢
        have blanksLe : Trivia.blankLength
            ((c :: rest).drop ((c :: rest).takeWhile Text.isWordPart).length ++ more) ≤
              ((c :: rest).drop ((c :: rest).takeWhile Text.isWordPart).length).length := by
          rw [List.length_drop]
          omega
        rw [Attribute.blankLength_of_le blanksLe]
      · exact (if_neg named).trans (if_neg named).symm

theorem macroGroupLength_of_le {text more : List Char}
    (inside : macroGroupLength (text ++ more) ≤ text.length) :
    macroGroupLength text = macroGroupLength (text ++ more) := by
  cases text with
  | nil => exact (Nat.le_zero.mp inside).symm
  | cons c rest =>
      unfold macroGroupLength at *
      simp only [List.cons_append] at *
      cases grouped : Delimiter.groupAfter? [.brace, .paren, .bracket] c (rest ++ more) with
      | none => rw [Delimiter.groupAfter?_of_none grouped]
      | some group =>
          rw [grouped] at inside
          simp only [List.length_cons] at inside
          rw [Delimiter.groupAfter?_of_le grouped (by omega)]

/-- A macro body that ends before the cut is stepped over in the same way. -/
theorem macroLength_of_le {isDefinition : Bool} {text more : List Char}
    (inside : macroLength isDefinition (text ++ more) ≤ text.length) :
    macroLength isDefinition text = macroLength isDefinition (text ++ more) := by
  rw [macroLength_eq isDefinition (text ++ more)] at inside ⊢
  rw [macroLength_eq]
  have blanksLe : Trivia.blankLength (text ++ more) ≤ text.length := by omega
  rw [Attribute.drop_blanks_append blanksLe] at inside ⊢
  have same := Attribute.blankLength_of_le blanksLe
  have nameLe : macroNameLength isDefinition (text.drop (Trivia.blankLength text) ++ more) ≤
      (text.drop (Trivia.blankLength text)).length := by
    rw [List.length_drop]
    omega
  rw [List.drop_append_of_le_length nameLe] at inside ⊢
  have groupLe : macroGroupLength ((text.drop (Trivia.blankLength text)).drop
      (macroNameLength isDefinition (text.drop (Trivia.blankLength text) ++ more)) ++ more) ≤
      ((text.drop (Trivia.blankLength text)).drop
        (macroNameLength isDefinition (text.drop (Trivia.blankLength text) ++ more))).length := by
    rw [List.length_drop, List.length_drop]
    omega
  rw [macroNameLength_of_le nameLe, macroGroupLength_of_le groupLe, same]

/-! ### Variants -/

namespace VariantList

theorem le_readFrom_length (variant : List Char) (noted : List (List Char)) (taken : Nat)
    (text : List Char) : taken ≤ (readFrom variant noted taken text).length := by
  fun_induction readFrom variant noted taken text with
  | case1 => exact Nat.le_refl _
  | case4 => exact Nat.le_add_right _ _
  | _ => omega

theorem readFrom_length_ge (variant : List Char) (noted : List (List Char)) (taken : Nat)
    {text : List Char} {atom : Atom} {length : Nat} (read : Atom.read? text = some (atom, length)) :
    taken + length ≤ (readFrom variant noted taken text).length := by
  rw [readFrom_eq, read]
  cases atom with
  | comment => exact le_readFrom_length _ _ _ _
  | literal written => exact le_readFrom_length _ _ _ _
  | char c =>
      dsimp only
      split
      · exact Nat.le_refl _
      · split
        · exact le_readFrom_length _ _ _ _
        · split
          · exact Nat.le_trans (by omega) (le_readFrom_length _ _ _ _)
          · split
            · exact Nat.le_trans (by omega) (le_readFrom_length _ _ _ _)
            · exact le_readFrom_length _ _ _ _

/-- The body of an enumeration that ends before the cut is read the same. -/
theorem readFrom_of_le (variant : List Char) (noted : List (List Char)) (taken : Nat)
    (text more : List Char)
    (inside : (readFrom variant noted taken (text ++ more)).length ≤ taken + text.length) :
    readFrom variant noted taken text = readFrom variant noted taken (text ++ more) := by
  induction size : text.length using Nat.strongRecOn generalizing text variant noted taken with
  | ind size ih =>
      subst size
      cases read : Atom.read? (text ++ more) with
      | none =>
          rw [Atom.read?_eq_none_iff, List.append_eq_nil_iff] at read
          rw [read.1, read.2]
          rfl
      | some pair =>
          obtain ⟨atom, length⟩ := pair
          have reach := Nat.le_trans (readFrom_length_ge variant noted taken read) inside
          have positive := (Atom.read?_pos read).1
          have lengthLe : length ≤ text.length := by omega
          have cut := Atom.read?_of_le read lengthLe
          have onward : ∀ (variant : List Char) (noted : List (List Char)) (skipped : Nat),
              0 < skipped →
              (readFrom variant noted (taken + skipped) ((text ++ more).drop skipped)).length ≤
                taken + text.length →
              readFrom variant noted (taken + skipped) (text.drop skipped) =
                readFrom variant noted (taken + skipped) ((text ++ more).drop skipped) := by
            intro variant noted skipped
            exact onward_of_le (readFrom variant noted) VariantList.length
              (le_readFrom_length variant noted)
              (fun rest taken less within => ih rest.length less variant noted taken rest within rfl)
          rw [readFrom_eq variant noted taken (text ++ more), read] at inside ⊢
          rw [readFrom_eq, cut]
          cases atom with
          | comment => exact onward _ _ _ positive inside
          | literal written => exact onward _ _ _ positive inside
          | char c =>
              dsimp only at inside ⊢
              by_cases brace : c = '\x7d'
              · rw [if_pos brace, if_pos brace]
              rw [if_neg brace] at inside
              rw [if_neg brace, if_neg brace]
              by_cases comma : c = ','
              · rw [if_pos comma] at inside
                rw [if_pos comma, if_pos comma]
                exact onward _ _ _ positive inside
              rw [if_neg comma] at inside
              rw [if_neg comma, if_neg comma]
              by_cases hash : c = '#'
              · rw [if_pos hash] at inside
                have bound := Nat.le_trans (le_readFrom_length _ _ _ _) inside
                have skipLe : length + Attribute.skipLength ((text ++ more).drop length) ≤
                    text.length := by
                  omega
                rw [if_pos hash, if_pos hash, Attribute.skipLength_drop_of_le skipLe]
                exact onward _ _ _ (by omega) inside
              rw [if_neg hash] at inside
              rw [if_neg hash, if_neg hash]
              cases grouped : Delimiter.groupAfter? [.brace, .paren] c
                  ((text ++ more).drop length) with
              | none =>
                  rw [grouped] at inside
                  rw [Delimiter.groupAfter?_drop_of_none grouped lengthLe]
                  exact onward _ _ _ positive inside
              | some group =>
                  rw [grouped] at inside
                  dsimp only at inside
                  have bound := Nat.le_trans (le_readFrom_length _ _ _ _) inside
                  have groupLe : group ≤ (text.drop length).length := by
                    rw [List.length_drop]
                    omega
                  rw [Delimiter.groupAfter?_drop_of_le grouped (by omega)]
                  dsimp only
                  rw [List.drop_append_of_le_length lengthLe,
                    List.take_append_of_le_length groupLe] at inside ⊢
                  exact onward _ _ _ (by omega) inside

theorem read_of_le {text more : List Char} (inside : (read (text ++ more)).length ≤ text.length) :
    read text = read (text ++ more) := by
  apply readFrom_of_le
  rw [Nat.zero_add]
  exact inside

end VariantList

/-! ### Looking ahead -/

namespace Trivia

/-- Blanks that end before the cut were not cut. -/
theorem blankLength_of_lt {text more : List Char} (inside : blankLength text < text.length) :
    blankLength (text ++ more) = blankLength text := by
  have cut := Text.length_takeWhile_append Text.isBlank text more
  unfold blankLength at *
  omega

theorem length_of_none {text : List Char}
    (missing : Comment.length? (text.drop (blankLength text)) = none) :
    length text = blankLength text := by
  rw [length_eq, missing]

theorem length_of_some {text : List Char} {comment : Nat}
    (commented : Comment.length? (text.drop (blankLength text)) = some comment) :
    length text =
      blankLength text + comment + length (text.drop (blankLength text + comment)) := by
  rw [length_eq, commented]

theorem blankLength_le_length (text : List Char) : blankLength text ≤ length text := by
  cases commented : Comment.length? (text.drop (blankLength text)) with
  | none => exact Nat.le_of_eq (length_of_none commented).symm
  | some comment =>
      have measured := length_of_some commented
      omega

/-- Trivia that end before the cut are read the same. -/
theorem length_of_lt {text more : List Char} (inside : length (text ++ more) < text.length) :
    length text = length (text ++ more) := by
  induction size : text.length using Nat.strongRecOn generalizing text with
  | ind size ih =>
      subst size
      have blanks := blankLength_le_length (text ++ more)
      have blanksLe : blankLength (text ++ more) ≤ text.length := by omega
      have same := Attribute.blankLength_of_le blanksLe
      have dropped := Attribute.drop_blanks_append blanksLe
      cases commented : Comment.length? (text.drop (blankLength text) ++ more) with
      | none =>
          rw [length_of_none (Comment.length?_of_none commented), same]
          rw [← dropped] at commented
          rw [length_of_none commented]
      | some comment =>
          have positive := Comment.length?_pos commented
          have full : length (text ++ more) = _ := length_of_some (by rw [dropped]; exact commented)
          rw [full] at inside ⊢
          have commentLe : comment ≤ (text.drop (blankLength text)).length := by
            rw [List.length_drop]
            omega
          rw [length_of_some (Comment.length?_of_le commented commentLe), same]
          rw [List.drop_append_of_le_length (by omega)] at inside ⊢
          congr 1
          refine ih _ ?_ ?_ rfl
          · rw [List.length_drop]
            omega
          · rw [List.length_drop]
            omega

/-- A brace after trivia shows that they were not cut. -/
theorem length_of_brace {text more inner : List Char}
    (brace : text.drop (length text) = '\x7b' :: inner) :
    length (text ++ more) = length text := by
  induction size : text.length using Nat.strongRecOn generalizing text with
  | ind size ih =>
      subst size
      have short : length text < text.length := by
        by_contra long
        rw [List.drop_eq_nil_iff.mpr (Nat.not_lt.mp long)] at brace
        cases brace
      have blanks := blankLength_le_length text
      have same : blankLength (text ++ more) = blankLength text := blankLength_of_lt (by omega)
      have dropped : (text ++ more).drop (blankLength (text ++ more)) =
          text.drop (blankLength text) ++ more := by
        rw [same, List.drop_append_of_le_length (by omega)]
      cases commented : Comment.length? (text.drop (blankLength text)) with
      | none =>
          rw [length_of_none commented] at brace ⊢
          rw [brace] at dropped
          rw [length_of_none (by rw [dropped]; rfl), same]
      | some comment =>
          have positive := Comment.length?_pos commented
          have two := Comment.two_le_length? commented
          have measured := length_of_some commented
          have lengths : (text.drop (blankLength text)).length =
              text.length - blankLength text := List.length_drop
          have uncut : Comment.length? (text.drop (blankLength text) ++ more) = some comment := by
            cases full : Comment.length? (text.drop (blankLength text) ++ more) with
            | none =>
                rw [Comment.length?_of_none full] at commented
                cases commented
            | some longer =>
                have cut := Comment.length?_append (by omega) full
                rw [commented, Option.some.injEq] at cut
                rw [Option.some.injEq]
                omega
          rw [measured] at brace
          rw [length_of_some (by rw [dropped]; exact uncut), measured, same,
            List.drop_append_of_le_length (by omega)]
          congr 1
          refine ih _ ?_ ?_ rfl
          · rw [List.length_drop]
            omega
          · rw [List.drop_drop]
            exact brace

end Trivia

namespace Finding

theorem isPointerType_of_cut {text more : List Char} (pointer : isPointerType text = true) :
    isPointerType (text ++ more) = true := by
  unfold isPointerType at *
  have inside : Trivia.blankLength text < text.length := by
    by_contra long
    rw [List.drop_eq_nil_iff.mpr (Nat.not_lt.mp long)] at pointer
    cases pointer
  rw [Trivia.blankLength_of_lt inside, List.drop_append_of_le_length (Nat.le_of_lt inside)]
  cases split : text.drop (Trivia.blankLength text) with
  | nil =>
      rw [split] at pointer
      cases pointer
  | cons c rest =>
      rw [split] at pointer
      exact pointer

/-- A parenthesis ahead is still there, unless only blanks are left before the cut. -/
theorem isPointerType_append {text more : List Char}
    (pointer : isPointerType (text ++ more) = true) :
    isPointerType text = true ∨ ∀ c ∈ text, Text.isBlank c = true := by
  have cut := Text.length_takeWhile_append Text.isBlank text more
  by_cases blank : Trivia.blankLength text = text.length
  · right
    have whole := (List.takeWhile_prefix (l := text) Text.isBlank).eq_of_length blank
    intro c member
    rw [← whole] at member
    exact List.all_eq_true.mp List.all_takeWhile c member
  · left
    have inside : Trivia.blankLength text < text.length := by
      unfold Trivia.blankLength at *
      omega
    unfold isPointerType at *
    rw [Trivia.blankLength_of_lt inside, List.drop_append_of_le_length (Nat.le_of_lt inside)]
      at pointer
    cases split : text.drop (Trivia.blankLength text) with
    | nil =>
        rw [List.drop_eq_nil_iff] at split
        omega
    | cons c rest =>
        rw [split] at pointer
        exact pointer

end Finding
end Survey
