import Survey.Delimiter
import Survey.Proofs.CutLiterals

set_option autoImplicit false

/-!
# Groups and heads of a text that was cut short

A group that is not closed before the cut runs to the cut; everything else that ends
before the cut is read as if the cut were not there. The one thing to know about a
literal that the cut undoes is that nothing after it is left to be read: its remains
end with the text, whatever they are taken for.
-/

namespace Survey

namespace Atom

theorem read?_of_comment {text : List Char} {length : Nat}
    (commented : Comment.length? text = some length) : read? text = some (.comment, length) := by
  cases text with
  | nil => cases commented
  | cons c rest => rw [read?, commented]

theorem read?_of_string {text : List Char} {length : Nat}
    (noComment : Comment.length? text = none)
    (quoted : Literal.stringLength? text = some length) :
    read? text = some (.literal (text.take length), length) := by
  cases text with
  | nil => cases quoted
  | cons c rest => rw [read?, noComment, quoted]

theorem read?_of_quote {text : List Char} {quote : Literal.Quote} {length : Nat}
    (noComment : Comment.length? text = none) (noString : Literal.stringLength? text = none)
    (quoted : Literal.quote? text = some (quote, length)) :
    read? text = some (.literal (text.take length), length) := by
  cases text with
  | nil => cases quoted
  | cons c rest => rw [read?, noComment, noString, quoted]

theorem read?_of_char {c : Char} {rest : List Char}
    (noComment : Comment.length? (c :: rest) = none)
    (noString : Literal.stringLength? (c :: rest) = none)
    (noQuote : Literal.quote? (c :: rest) = none) :
    read? (c :: rest) = some (.char c, 1) := by
  rw [read?, noComment, noString, noQuote]

/-- What the cut may leave of an atom that runs over it: something that is still one
atom, the opening of a raw string, a quote with a character, or a slash. -/
inductive Remains : List Char → Prop
  | whole {text : List Char} {atom : Atom} (read : read? text = some (atom, text.length))
      (notChar : ∀ c, atom ≠ .char c) : Remains text
  | opening (left : Nat) : Remains ('r' :: List.replicate left '#')
  | quote (c : Char) : Remains ['\'', c]
  | slash : Remains ['/']

private theorem remains_of_comment {text more : List Char} {length : Nat} (filled : text ≠ [])
    (commented : Comment.length? (text ++ more) = some length) (crosses : text.length < length) :
    Remains text := by
  by_cases two : 2 ≤ text.length
  · have cut := Comment.length?_append two commented
    rw [Nat.min_eq_right (by omega)] at cut
    exact .whole (read?_of_comment cut) (fun c => by simp)
  · obtain ⟨c, rfl⟩ : ∃ c, text = [c] := by
      match text, filled, two with
      | [c], _, _ => exact ⟨c, rfl⟩
      | _ :: _ :: _, _, two => simp at two
    rcases Comment.length?_cases ([c] ++ more) with ⟨rest, split⟩ | ⟨rest, split⟩ | missing
    · cases split
      exact .slash
    · cases split
      exact .slash
    · rw [missing] at commented
      cases commented

private theorem read?_append_of_string {text more : List Char} {length : Nat} (filled : text ≠ [])
    (noComment : Comment.length? text = none)
    (stringed : Literal.stringLength? (text ++ more) = some length) :
    (length ≤ text.length ∧ read? text = some (.literal ((text ++ more).take length), length)) ∨
      (text.length < length ∧ Remains text) := by
  rcases Literal.stringLength?_append filled stringed with cut | ⟨crosses, left, rfl⟩
  · by_cases inside : length ≤ text.length
    · left
      rw [Nat.min_eq_left inside] at cut
      refine ⟨inside, ?_⟩
      rw [read?_of_string noComment cut, List.take_append_of_le_length inside]
    · right
      rw [Nat.min_eq_right (by omega)] at cut
      exact ⟨by omega, .whole (read?_of_string noComment cut) (fun c => by simp)⟩
  · right
    exact ⟨crosses, .opening left⟩

private theorem read?_append_of_quote {text more : List Char} {quote : Literal.Quote}
    {length : Nat} (filled : text ≠ []) (noComment : Comment.length? text = none)
    (noString : Literal.stringLength? text = none)
    (quoted : Literal.quote? (text ++ more) = some (quote, length)) :
    (length ≤ text.length ∧ read? text = some (.literal ((text ++ more).take length), length)) ∨
      (text.length < length ∧ Remains text) := by
  rcases Literal.quote?_append filled quoted with
    ⟨inside, cut⟩ | ⟨crosses, ⟨other, cut⟩ | ⟨c, rfl⟩⟩
  · left
    refine ⟨inside, ?_⟩
    rw [read?_of_quote noComment noString cut, List.take_append_of_le_length inside]
  · right
    exact ⟨crosses, .whole (read?_of_quote noComment noString cut) (fun c => by simp)⟩
  · right
    exact ⟨crosses, .quote c⟩

/-- An atom that ends before the cut is read the same. -/
theorem read?_append {text more : List Char} {atom : Atom} {length : Nat} (filled : text ≠ [])
    (found : read? (text ++ more) = some (atom, length)) :
    (length ≤ text.length ∧ read? text = some (atom, length)) ∨
      (text.length < length ∧ Remains text) := by
  cases commented : Comment.length? (text ++ more) with
  | some comment =>
      rw [read?_of_comment commented] at found
      cases found
      by_cases inside : length ≤ text.length
      · left
        exact ⟨inside, read?_of_comment (Comment.length?_of_le commented inside)⟩
      · right
        have crosses := Nat.not_le.mp inside
        exact ⟨crosses, remains_of_comment filled commented crosses⟩
  | none =>
      have noComment := Comment.length?_of_none commented
      cases stringed : Literal.stringLength? (text ++ more) with
      | some string =>
          rw [read?_of_string commented stringed] at found
          cases found
          exact read?_append_of_string filled noComment stringed
      | none =>
          have noString := Literal.stringLength?_of_none stringed
          cases quoted : Literal.quote? (text ++ more) with
          | some pair =>
              obtain ⟨quote, measured⟩ := pair
              rw [read?_of_quote commented stringed quoted] at found
              cases found
              exact read?_append_of_quote filled noComment noString quoted
          | none =>
              have noQuote := Literal.quote?_of_none quoted
              cases text with
              | nil => exact absurd rfl filled
              | cons c rest =>
                  left
                  rw [List.cons_append] at commented stringed quoted found
                  rw [read?_of_char commented stringed quoted] at found
                  cases found
                  exact ⟨Nat.succ_le_succ (Nat.zero_le _), read?_of_char noComment noString noQuote⟩

theorem read?_of_le {text more : List Char} {atom : Atom} {length : Nat}
    (found : read? (text ++ more) = some (atom, length)) (inside : length ≤ text.length) :
    read? text = some (atom, length) := by
  have positive := (read?_pos found).1
  have filled : text ≠ [] := by
    intro empty
    rw [empty, List.length_nil] at inside
    omega
  rcases read?_append filled found with ⟨-, cut⟩ | ⟨crosses, -⟩
  · exact cut
  · omega

theorem read?_opening (left : Nat) :
    read? ('r' :: List.replicate left '#') = some (.char 'r', 1) := by
  apply read?_of_char
  · rfl
  · have noRaw : Literal.rawHashes? ('r' :: List.replicate left '#') = none := by
      cases raw : Literal.rawHashes? ('r' :: List.replicate left '#') with
      | none => rfl
      | some hashes =>
          obtain ⟨rest, split⟩ := (Literal.rawHashes?_eq_some_iff _ hashes).mp raw
          have quote : '"' ∈ 'r' :: List.replicate left '#' := by
            rw [split]
            simp
          simp at quote
    rcases Literal.stringLength?_cases ('r' :: List.replicate left '#') with
      ⟨hashes, raw⟩ | ⟨rest, plain⟩ | ⟨missing, -⟩
    · rw [noRaw] at raw
      cases raw
    · cases plain
    · exact missing
  · rfl

theorem read?_hash (rest : List Char) : read? ('#' :: rest) = some (.char '#', 1) := rfl

theorem read?_quote (c : Char) :
    ∃ written length, length ≤ 2 ∧ read? ['\'', c] = some (.literal written, length) := by
  have quoted : ∃ quote length, length ≤ 2 ∧
      Literal.quote? ['\'', c] = some (quote, length) := by
    by_cases escape : c = '\\'
    · subst escape
      exact ⟨.character, 2, Nat.le_refl 2, rfl⟩
    · have short := (List.takeWhile_prefix (l := [c]) Text.isWordPart).length_le
      rw [Literal.quote?_open (by simpa using escape) (by simp)]
      exact ⟨.lifetime, _, by simpa using Nat.add_le_add_left short 1, rfl⟩
  obtain ⟨quote, length, short, quoted⟩ := quoted
  exact ⟨_, length, short, read?_of_quote rfl rfl quoted⟩

/-- An atom never has more characters than there are. -/
theorem read?_length_le {text : List Char} {atom : Atom} {length : Nat}
    (found : read? text = some (atom, length)) : length ≤ text.length := by
  have filled := (read?_pos found).2
  have uncut : read? (text ++ []) = some (atom, length) := by
    rw [List.append_nil]
    exact found
  rcases read?_append filled uncut with ⟨inside, -⟩ | ⟨-, remains⟩
  · exact inside
  · cases remains with
    | whole read notChar =>
        rw [read] at found
        cases found
        exact Nat.le_refl _
    | opening left =>
        rw [read?_opening] at found
        cases found
        exact Nat.succ_le_succ (Nat.zero_le _)
    | quote c =>
        obtain ⟨written, short, le, read⟩ := read?_quote c
        rw [read] at found
        cases found
        exact le
    | slash =>
        cases found
        exact Nat.le_refl 1

theorem read?_singleton (c : Char) : ∃ atom, read? [c] = some (atom, 1) := by
  cases read : read? [c] with
  | none =>
      rw [read?_eq_none_iff] at read
      cases read
  | some pair =>
      obtain ⟨atom, length⟩ := pair
      have positive := (read?_pos read).1
      have short := read?_length_le read
      rw [List.length_singleton] at short
      exact ⟨atom, by rw [show length = 1 by omega]⟩

end Atom

namespace Delimiter

variable {kind : Delimiter} {outer taken : Nat} {afterShaft : Bool}

theorem closeFrom_nil : closeFrom kind outer afterShaft taken [] = taken := by
  rw [closeFrom_eq]
  rfl

theorem closeFrom_singleton (c : Char) : closeFrom kind outer afterShaft taken [c] = taken + 1 := by
  obtain ⟨atom, read⟩ := Atom.read?_singleton c
  rw [closeFrom_eq, read]
  cases atom with
  | comment => exact closeFrom_nil
  | literal written => exact closeFrom_nil
  | char c =>
      dsimp only
      split
      · split
        · rfl
        · exact closeFrom_nil
      · exact closeFrom_nil

theorem le_closeFrom (kind : Delimiter) (outer : Nat) (afterShaft : Bool) (taken : Nat)
    (text : List Char) : taken ≤ closeFrom kind outer afterShaft taken text := by
  have added := closeFrom_add kind outer afterShaft taken 0 text
  rw [Nat.add_zero] at added
  omega

private theorem closes_hash : ¬ kind.closes afterShaft '#' = true := by
  cases kind <;> exact Bool.false_ne_true

private theorem closes_r : ¬ kind.closes afterShaft 'r' = true := by
  cases kind <;> exact Bool.false_ne_true

private theorem closeFrom_hashes (left : Nat) :
    closeFrom kind outer afterShaft taken (List.replicate left '#') = taken + left := by
  induction left generalizing outer afterShaft taken with
  | zero => exact closeFrom_nil
  | succ left ih =>
      rw [List.replicate_succ, closeFrom_eq, Atom.read?_hash]
      dsimp only
      rw [if_neg closes_hash, List.drop_succ_cons, List.drop_zero, ih]
      omega

/-- The remains of an atom end a group only where the text ends. -/
theorem closeFrom_remains {text : List Char} (remains : Atom.Remains text) :
    closeFrom kind outer afterShaft taken text = taken + text.length := by
  cases remains with
  | whole read notChar =>
      rename_i atom
      rw [closeFrom_eq, read]
      cases atom with
      | comment =>
          dsimp only
          rw [List.drop_length, closeFrom_nil]
      | literal written =>
          dsimp only
          rw [List.drop_length, closeFrom_nil]
      | char c => exact absurd rfl (notChar c)
  | opening left =>
      rw [closeFrom_eq, Atom.read?_opening]
      dsimp only
      rw [if_neg closes_r, List.drop_succ_cons, List.drop_zero, closeFrom_hashes,
        List.length_cons, List.length_replicate]
      omega
  | quote c =>
      obtain ⟨written, length, short, read⟩ := Atom.read?_quote c
      have positive := (Atom.read?_pos read).1
      rw [closeFrom_eq, read]
      dsimp only
      by_cases one : length = 1
      · rw [one, List.drop_succ_cons, List.drop_zero, closeFrom_singleton]
        rfl
      · rw [show length = 2 by omega, List.drop_succ_cons, List.drop_succ_cons, List.drop_nil,
          closeFrom_nil]
        rfl
  | slash => exact closeFrom_singleton '/'

/-- A group ends where it did, or with the text if that comes first. -/
theorem closeFrom_append (kind : Delimiter) (outer : Nat) (afterShaft : Bool) (taken : Nat)
    (text more : List Char) :
    closeFrom kind outer afterShaft taken text =
      min (closeFrom kind outer afterShaft taken (text ++ more)) (taken + text.length) := by
  induction size : text.length using Nat.strongRecOn generalizing text outer afterShaft taken with
  | ind size ih =>
      subst size
      by_cases filled : text = []
      · subst filled
        have atLeast := le_closeFrom kind outer afterShaft taken more
        rw [closeFrom_nil, List.nil_append, List.length_nil]
        omega
      · obtain ⟨atom, length, read⟩ : ∃ atom length, Atom.read? (text ++ more) = some (atom, length) := by
          cases read : Atom.read? (text ++ more) with
          | none =>
              rw [Atom.read?_eq_none_iff, List.append_eq_nil_iff] at read
              exact absurd read.1 filled
          | some pair => exact ⟨pair.1, pair.2, rfl⟩
        rcases Atom.read?_append filled read with ⟨inside, cut⟩ | ⟨crosses, remains⟩
        · -- Behind an atom before the cut both go on in the same way.
          have shorter := Atom.length_drop_lt cut
          have onward : ∀ (outer : Nat) (afterShaft : Bool),
              closeFrom kind outer afterShaft (taken + length) (text.drop length) =
                min (closeFrom kind outer afterShaft (taken + length) ((text ++ more).drop length))
                  (taken + text.length) := by
            intro outer afterShaft
            rw [List.drop_append_of_le_length inside,
              ih _ shorter outer afterShaft (taken + length) (text.drop length) rfl,
              List.length_drop]
            omega
          rw [closeFrom_eq, cut, closeFrom_eq kind outer afterShaft taken (text ++ more), read]
          cases atom with
          | comment => exact onward outer false
          | literal written => exact onward outer false
          | char c =>
              dsimp only
              split
              · split
                · exact (Nat.min_eq_left (Nat.add_le_add_left inside taken)).symm
                · exact onward _ false
              · exact onward _ _
        · -- The full group goes on behind the atom, which is behind the cut.
          have further : taken + length ≤ closeFrom kind outer afterShaft taken (text ++ more) := by
            rw [closeFrom_eq, read]
            cases atom with
            | comment => exact le_closeFrom _ _ _ _ _
            | literal written => exact le_closeFrom _ _ _ _ _
            | char c =>
                dsimp only
                split
                · split
                  · exact Nat.le_refl _
                  · exact le_closeFrom _ _ _ _ _
                · exact le_closeFrom _ _ _ _ _
          rw [closeFrom_remains remains]
          omega

theorem closeLength_append (kind : Delimiter) (text more : List Char) :
    kind.closeLength text = min (kind.closeLength (text ++ more)) text.length := by
  have cut := closeFrom_append kind 0 false 0 text more
  rw [Nat.zero_add] at cut
  exact cut

theorem closeLength_of_le {kind : Delimiter} {text more : List Char}
    (inside : kind.closeLength (text ++ more) ≤ text.length) :
    kind.closeLength text = kind.closeLength (text ++ more) := by
  rw [closeLength_append kind text more, Nat.min_eq_left inside]

theorem closeLength_of_lt {kind : Delimiter} {text more : List Char}
    (crosses : text.length < kind.closeLength (text ++ more)) :
    kind.closeLength text = text.length := by
  rw [closeLength_append kind text more, Nat.min_eq_right (Nat.le_of_lt crosses)]

theorem groupAfter?_of_le {kinds : List Delimiter} {c : Char} {text more : List Char} {length : Nat}
    (found : groupAfter? kinds c (text ++ more) = some length) (inside : length ≤ text.length) :
    groupAfter? kinds c text = some length := by
  unfold groupAfter? at *
  obtain ⟨kind, opens, rfl⟩ := Option.map_eq_some_iff.mp found
  rw [opens, Option.map_some, closeLength_of_le inside]

theorem groupAfter?_of_none {kinds : List Delimiter} {c : Char} {text more : List Char}
    (missing : groupAfter? kinds c (text ++ more) = none) : groupAfter? kinds c text = none := by
  unfold groupAfter? at *
  rw [Option.map_eq_none_iff] at *
  exact missing

theorem groupAfter?_drop_of_le {kinds : List Delimiter} {c : Char} {text more : List Char}
    {count length : Nat} (found : groupAfter? kinds c ((text ++ more).drop count) = some length)
    (inside : count + length ≤ text.length) : groupAfter? kinds c (text.drop count) = some length := by
  rw [List.drop_append_of_le_length (by omega)] at found
  apply groupAfter?_of_le found
  rw [List.length_drop]
  omega

theorem groupAfter?_drop_of_none {kinds : List Delimiter} {c : Char} {text more : List Char}
    {count : Nat} (missing : groupAfter? kinds c ((text ++ more).drop count) = none)
    (inside : count ≤ text.length) : groupAfter? kinds c (text.drop count) = none := by
  rw [List.drop_append_of_le_length inside] at missing
  exact groupAfter?_of_none missing

end Delimiter

/-- Behind what is skipped, a reader is at the same text with and without the part behind
the cut, if shorter texts are read the same. -/
theorem onward_of_le {α : Type} {text more : List Char} {taken skipped : Nat}
    (reader : Nat → List Char → α) (length : α → Nat)
    (atLeast : ∀ taken text, taken ≤ length (reader taken text))
    (shorter : ∀ (rest : List Char) (taken : Nat), rest.length < text.length →
      length (reader taken (rest ++ more)) ≤ taken + rest.length →
        reader taken rest = reader taken (rest ++ more))
    (moves : 0 < skipped)
    (inside : length (reader (taken + skipped) ((text ++ more).drop skipped)) ≤
      taken + text.length) :
    reader (taken + skipped) (text.drop skipped) =
      reader (taken + skipped) ((text ++ more).drop skipped) := by
  have bound := Nat.le_trans (atLeast _ _) inside
  have skippedLe : skipped ≤ text.length := by omega
  rw [List.drop_append_of_le_length skippedLe] at inside ⊢
  apply shorter
  · rw [List.length_drop]
    omega
  · rw [List.length_drop]
    omega

namespace Head

theorem le_readFrom_length (groups : List Delimiter) (kept : List Char) (taken : Nat)
    (text : List Char) : taken ≤ (readFrom groups kept taken text).length := by
  fun_induction readFrom groups kept taken text with
  | case1 => exact Nat.le_refl _
  | case2 _ _ _ _ _ ih => omega
  | case3 _ _ _ _ _ _ ih => omega
  | case4 => exact Nat.le_add_right _ _
  | case5 => exact Nat.le_add_right _ _
  | case6 _ _ _ _ _ _ _ _ _ _ ih => omega
  | case7 _ _ _ _ _ _ _ _ _ ih => omega

/-- A head has at least its first atom. -/
theorem readFrom_length_ge (groups : List Delimiter) (kept : List Char) (taken : Nat)
    {text : List Char} {atom : Atom} {length : Nat} (read : Atom.read? text = some (atom, length)) :
    taken + length ≤ (readFrom groups kept taken text).length := by
  rw [readFrom_eq, read]
  cases atom with
  | comment => exact le_readFrom_length _ _ _ _
  | literal written => exact le_readFrom_length _ _ _ _
  | char c =>
      dsimp only
      split
      · exact Nat.le_refl _
      · split
        · exact Nat.le_refl _
        · split
          · exact Nat.le_trans (by omega) (le_readFrom_length _ _ _ _)
          · exact le_readFrom_length _ _ _ _

/-- A head that ends before the cut is read the same. -/
theorem readFrom_of_le (groups : List Delimiter) (kept : List Char) (taken : Nat)
    (text more : List Char)
    (inside : (readFrom groups kept taken (text ++ more)).length ≤ taken + text.length) :
    readFrom groups kept taken text = readFrom groups kept taken (text ++ more) := by
  induction size : text.length using Nat.strongRecOn generalizing text kept taken with
  | ind size ih =>
      subst size
      cases read : Atom.read? (text ++ more) with
      | none =>
          rw [Atom.read?_eq_none_iff, List.append_eq_nil_iff] at read
          rw [read.1, read.2]
          rfl
      | some pair =>
          obtain ⟨atom, length⟩ := pair
          have reach := Nat.le_trans (readFrom_length_ge groups kept taken read) inside
          have positive := (Atom.read?_pos read).1
          have lengthLe : length ≤ text.length := by omega
          have cut := Atom.read?_of_le read lengthLe
          have onward : ∀ (kept : List Char) (skipped : Nat), 0 < skipped →
              (readFrom groups kept (taken + skipped) ((text ++ more).drop skipped)).length ≤
                taken + text.length →
              readFrom groups kept (taken + skipped) (text.drop skipped) =
                readFrom groups kept (taken + skipped) ((text ++ more).drop skipped) := by
            intro kept skipped
            exact onward_of_le (readFrom groups kept) Head.length (le_readFrom_length groups kept)
              (fun rest taken less within => ih rest.length less kept taken rest within rfl)
          rw [readFrom_eq groups kept taken (text ++ more), read] at inside ⊢
          rw [readFrom_eq, cut]
          cases atom with
          | comment => exact onward _ _ positive inside
          | literal written => exact onward _ _ positive inside
          | char c =>
              dsimp only at inside ⊢
              by_cases semicolon : c = ';'
              · rw [if_pos semicolon, if_pos semicolon]
              rw [if_neg semicolon] at inside
              rw [if_neg semicolon, if_neg semicolon]
              by_cases brace : c = '\x7b'
              · rw [if_pos brace, if_pos brace]
              rw [if_neg brace] at inside
              rw [if_neg brace, if_neg brace]
              cases grouped : Delimiter.groupAfter? groups c ((text ++ more).drop length) with
              | none =>
                  rw [grouped] at inside
                  rw [Delimiter.groupAfter?_drop_of_none grouped lengthLe]
                  exact onward _ _ positive inside
              | some group =>
                  rw [grouped] at inside
                  have bound := Nat.le_trans (le_readFrom_length _ _ _ _) inside
                  rw [Delimiter.groupAfter?_drop_of_le grouped (by omega)]
                  exact onward _ _ (by omega) inside

theorem read_of_le {groups : List Delimiter} {text more : List Char}
    (inside : (read groups (text ++ more)).length ≤ text.length) :
    read groups text = read groups (text ++ more) := by
  apply readFrom_of_le
  rw [Nat.zero_add]
  exact inside

end Head

end Survey
