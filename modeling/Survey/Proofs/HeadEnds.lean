import Survey.Proofs.ReadersWithoutComments
import Survey.Proofs.Survival

set_option autoImplicit false

/-!
# Where heads end

Declarations step over different groups in their heads. Two readings of one head agree
exactly when what ends the first stands outside all groups of the second. A struct, an
enumeration or a trait therefore ends where the head of a function would, unless what
ended its head stands in a group that only the other reading steps over.
-/

namespace Survey

/-! ### Two readings of a head -/

/-- How many characters it takes to end a head. -/
def HeadEnd.size : HeadEnd → Nat
  | .endOfText => 0
  | .semicolon | .brace => 1

namespace Head

/-- A head that steps over these groups goes on behind the given number of characters, with
no group open. -/
inductive Surface (groups : List Delimiter) : List Char → Nat → Prop
  | here (text : List Char) : Surface groups text 0
  | atom {text : List Char} {atom : Atom} {length more : Nat}
      (read : Atom.read? text = some (atom, length))
      (goesOn : ∀ c, atom = .char c →
        c ≠ ';' ∧ c ≠ '\x7b' ∧ Delimiter.groupAfter? groups c (text.drop length) = none)
      (later : Surface groups (text.drop length) more) : Surface groups text (length + more)
  | group {text : List Char} {c : Char} {length group more : Nat}
      (read : Atom.read? text = some (.char c, length)) (goesOn : c ≠ ';' ∧ c ≠ '\x7b')
      (opens : Delimiter.groupAfter? groups c (text.drop length) = some group)
      (later : Surface groups (text.drop (length + group)) more) :
      Surface groups text (length + group + more)

/-- The text starts with what ends a head. -/
def Ends (text : List Char) : HeadEnd → Prop
  | .endOfText => Atom.read? text = none
  | .semicolon => Atom.read? text = some (.char ';', 1)
  | .brace => Atom.read? text = some (.char '\x7b', 1)

variable {groups wider : List Delimiter} {text : List Char}

theorem Ends.readFrom_eq {ending : HeadEnd} (ends : Ends text ending) (kept : List Char)
    (taken : Nat) :
    readFrom groups kept taken text = ⟨kept.reverse, taken + ending.size, ending⟩ := by
  rw [Head.readFrom_eq]
  cases ending with
  | endOfText => rw [show Atom.read? text = none from ends]; rfl
  | semicolon => rw [show Atom.read? text = some (.char ';', 1) from ends]; rfl
  | brace => rw [show Atom.read? text = some (.char '\x7b', 1) from ends]; rfl

/-- Reading a head comes to every place on its surface. -/
theorem Surface.readFrom_eq {count : Nat} (surface : Surface groups text count)
    (kept : List Char) (taken : Nat) :
    ∃ more, readFrom groups kept taken text =
      readFrom groups more (taken + count) (text.drop count) := by
  induction surface generalizing kept taken with
  | here text => exact ⟨kept, rfl⟩
  | @atom text atom length more read goesOn later ih =>
      rw [Head.readFrom_eq, read, ← Nat.add_assoc, ← List.drop_drop]
      cases atom with
      | comment => exact ih kept (taken + length)
      | literal written => exact ih (written.reverse ++ kept) (taken + length)
      | char c =>
          obtain ⟨notSemicolon, notBrace, notGroup⟩ := goesOn c rfl
          dsimp only
          rw [if_neg notSemicolon, if_neg notBrace, notGroup]
          exact ih (c :: kept) (taken + length)
  | @group text c length group more read goesOn opens later ih =>
      rw [Head.readFrom_eq, read, ← Nat.add_assoc taken, ← List.drop_drop]
      dsimp only
      rw [if_neg goesOn.1, if_neg goesOn.2, opens]
      exact ih kept (taken + (length + group))

/-- A head ends behind a place on its surface. -/
theorem readFrom_surface (groups : List Delimiter) (kept : List Char) (taken : Nat)
    (text : List Char) :
    ∃ count, Surface groups text count ∧
      Ends (text.drop count) (readFrom groups kept taken text).ending ∧
      (readFrom groups kept taken text).length =
        taken + count + (readFrom groups kept taken text).ending.size := by
  fun_induction readFrom groups kept taken text with
  | case1 kept taken text missing => exact ⟨0, .here text, missing, rfl⟩
  | case2 kept taken text length read ih =>
      obtain ⟨count, surface, ends, reaches⟩ := ih
      refine ⟨length + count, .atom read ?_ surface, ?_, ?_⟩
      · intro other isOther
        cases isOther
      · rwa [← List.drop_drop]
      · rw [reaches, Nat.add_assoc taken]
  | case3 kept taken text written length read ih =>
      obtain ⟨count, surface, ends, reaches⟩ := ih
      refine ⟨length + count, .atom read ?_ surface, ?_, ?_⟩
      · intro other isOther
        cases isOther
      · rwa [← List.drop_drop]
      · rw [reaches, Nat.add_assoc taken]
  | case4 kept taken text length read =>
      obtain ⟨rest, rfl, rfl⟩ := Atom.eq_of_read?_char read
      exact ⟨0, .here _, read, rfl⟩
  | case5 kept taken text length read notSemicolon =>
      obtain ⟨rest, rfl, rfl⟩ := Atom.eq_of_read?_char read
      exact ⟨0, .here _, read, rfl⟩
  | case6 kept taken text c length read notSemicolon notBrace group opens ih =>
      obtain ⟨count, surface, ends, reaches⟩ := ih
      refine ⟨length + group + count, .group read ⟨notSemicolon, notBrace⟩ opens surface,
        ?_, ?_⟩
      · rwa [← List.drop_drop]
      · rw [reaches, Nat.add_assoc taken]
  | case7 kept taken text c length read notSemicolon notBrace notGroup ih =>
      obtain ⟨count, surface, ends, reaches⟩ := ih
      refine ⟨length + count, .atom read ?_ surface, ?_, ?_⟩
      · intro other isOther
        cases isOther
        exact ⟨notSemicolon, notBrace, notGroup⟩
      · rwa [← List.drop_drop]
      · rw [reaches, Nat.add_assoc taken]

theorem length_signature (groups : List Delimiter) (text : List Char) :
    ((read groups text).signature text).length =
      (read groups text).length - (read groups text).ending.size := by
  have inside := read_length_le groups text
  unfold signature
  cases (read groups text).ending with
  | endOfText => exact List.length_take_of_le inside
  | semicolon => exact List.length_take_of_le (Nat.le_trans (Nat.sub_le _ _) inside)
  | brace => exact List.length_take_of_le (Nat.le_trans (Nat.sub_le _ _) inside)

/-- What ends a head stands behind its signature, which is on the surface. -/
theorem read_surface (groups : List Delimiter) (text : List Char) :
    Surface groups text ((read groups text).signature text).length ∧
      Ends (text.drop ((read groups text).signature text).length) (read groups text).ending ∧
      (read groups text).length =
        ((read groups text).signature text).length + (read groups text).ending.size := by
  obtain ⟨count, surface, ends, reaches⟩ := readFrom_surface groups [] 0 text
  have signature : ((read groups text).signature text).length = count := by
    rw [length_signature]
    unfold read
    rw [reaches, Nat.zero_add, Nat.add_sub_cancel]
  rw [signature]
  refine ⟨surface, ends, ?_⟩
  rw [← Nat.zero_add count]
  exact reaches

/-- Two readings end a head at the same place exactly when what ends it for the one is on
the surface of the other. -/
theorem read_agrees_iff (groups wider : List Delimiter) (text : List Char) :
    ((read wider text).length = (read groups text).length ∧
        (read wider text).ending = (read groups text).ending) ↔
      Surface wider text ((read groups text).signature text).length := by
  constructor
  · rintro ⟨sameLength, sameEnding⟩
    have same : ((read wider text).signature text).length =
        ((read groups text).signature text).length := by
      rw [length_signature, length_signature, sameLength, sameEnding]
    rw [← same]
    exact (read_surface wider text).1
  · intro surface
    obtain ⟨-, ends, reaches⟩ := read_surface groups text
    obtain ⟨kept, passes⟩ := surface.readFrom_eq [] 0
    rw [ends.readFrom_eq, Nat.zero_add, ← reaches] at passes
    unfold read at passes ⊢
    rw [passes]
    exact ⟨rfl, rfl⟩

theorem fullLength_eq_of_surface
    (surface : Surface wider text ((read groups text).signature text).length) :
    (read wider text).fullLength text = (read groups text).fullLength text := by
  obtain ⟨sameLength, sameEnding⟩ := (read_agrees_iff groups wider text).mpr surface
  unfold fullLength bodyLength?
  rw [sameLength, sameEnding]

end Head

/-! ### Braces that pair off -/

namespace Delimiter

/-- Among the first characters, as many as the number says, no closer is met while no group
is open. The other numbers say how many groups are open before and behind them. -/
inductive Crosses (kind : Delimiter) : Nat → List Char → Nat → Nat → Prop
  | nothing (depth : Nat) (text : List Char) : Crosses kind depth text 0 depth
  | opens {depth count deep : Nat} {rest : List Char}
      (read : Atom.read? (kind.opener :: rest) = some (.char kind.opener, 1))
      (later : Crosses kind (depth + 1) rest count deep) :
      Crosses kind depth (kind.opener :: rest) (1 + count) deep
  | closes {depth count deep : Nat} {rest : List Char}
      (read : Atom.read? (kind.closer :: rest) = some (.char kind.closer, 1))
      (later : Crosses kind depth rest count deep) :
      Crosses kind (depth + 1) (kind.closer :: rest) (1 + count) deep
  | atom {depth length count deep : Nat} {text : List Char} {atom : Atom}
      (read : Atom.read? text = some (atom, length))
      (other : atom ≠ .char kind.opener ∧ atom ≠ .char kind.closer)
      (later : Crosses kind depth (text.drop length) count deep) :
      Crosses kind depth text (length + count) deep

variable {kind : Delimiter}

theorem closes_of_ne_angle (notAngle : kind ≠ .angle) (afterShaft : Bool) (c : Char) :
    kind.closes afterShaft c = (c == kind.closer) := by
  cases kind <;> simp_all [closes]

/-- Only the closer of an angle group depends on what stands before it. -/
theorem closeFrom_afterShaft (notAngle : kind ≠ .angle) (outer : Nat) (afterShaft : Bool)
    (taken : Nat) (text : List Char) :
    closeFrom kind outer afterShaft taken text = closeFrom kind outer false taken text := by
  rw [closeFrom_eq, closeFrom_eq kind outer false]
  simp only [closes_of_ne_angle notAngle]

/-- The search for the closer goes on behind what it crosses. -/
theorem Crosses.closeFrom_eq {depth count deep : Nat} {text : List Char}
    (crosses : Crosses kind depth text count deep) (notAngle : kind ≠ .angle) (taken : Nat) :
    closeFrom kind depth false taken text =
      closeFrom kind deep false (taken + count) (text.drop count) := by
  induction crosses generalizing taken with
  | nothing depth text => rfl
  | @opens depth count deep rest read later ih =>
      have notCloser : (kind.opener == kind.closer) = false := by cases kind <;> rfl
      rw [Delimiter.closeFrom_eq, read]
      dsimp only
      rw [closes_of_ne_angle notAngle, notCloser, if_neg Bool.false_ne_true, deepen, if_pos rfl,
        closeFrom_afterShaft notAngle, List.drop_succ_cons, List.drop_zero, ih,
        Nat.add_comm 1 count, List.drop_succ_cons, Nat.add_comm count 1, Nat.add_assoc]
  | @closes depth count deep rest read later ih =>
      rw [Delimiter.closeFrom_eq, read]
      dsimp only
      rw [closes_of_ne_angle notAngle, if_pos (beq_self_eq_true _), List.drop_succ_cons,
        List.drop_zero, ih, Nat.add_comm 1 count, List.drop_succ_cons, Nat.add_comm count 1,
        Nat.add_assoc]
  | @atom depth length count deep text atom read other later ih =>
      rw [Delimiter.closeFrom_eq, read, ← Nat.add_assoc, ← List.drop_drop, ← ih]
      cases atom with
      | comment => rfl
      | literal written => rfl
      | char c =>
          have notOpener : c ≠ kind.opener := fun same => other.1 (same ▸ rfl)
          have notCloser : c ≠ kind.closer := fun same => other.2 (same ▸ rfl)
          dsimp only
          rw [closes_of_ne_angle notAngle, beq_false_of_ne notCloser, if_neg Bool.false_ne_true,
            deepen, if_neg notOpener, closeFrom_afterShaft notAngle]

end Delimiter

namespace VariantList

/-- The variants of an enumeration end at a closing brace, or where the text does. -/
structure Stops (text : List Char) (list : VariantList) (taken count : Nat) : Prop where
  length_eq : list.length = taken + count + list.isClosed.toNat
  read_eq : Atom.read? (text.drop count) =
    if list.isClosed then some (.char '\x7d', 1) else none

theorem Stops.onward {text : List Char} {list : VariantList} {taken skipped : Nat}
    (later : ∃ count, Stops (text.drop skipped) list (taken + skipped) count) :
    ∃ count, Stops text list taken count := by
  obtain ⟨count, length, read⟩ := later
  refine ⟨skipped + count, ?_, ?_⟩
  · rw [length, Nat.add_assoc taken]
  · rwa [← List.drop_drop]

theorem readFrom_stops (variant : List Char) (noted : List (List Char)) (taken : Nat)
    (text : List Char) : ∃ count, Stops text (readFrom variant noted taken text) taken count := by
  fun_induction readFrom variant noted taken text with
  | case1 variant noted taken text missing => exact ⟨0, rfl, missing⟩
  | case2 variant noted taken text length read ih => exact Stops.onward ih
  | case3 variant noted taken text written length read ih => exact Stops.onward ih
  | case4 variant noted taken text length read =>
      obtain ⟨rest, rfl, rfl⟩ := Atom.eq_of_read?_char read
      exact ⟨0, rfl, read⟩
  | case5 variant noted taken text length read _ ih => exact Stops.onward ih
  | case6 variant noted taken text length read _ _ _ ih => exact Stops.onward ih
  | case7 variant noted taken text c length read _ _ _ group opens ih => exact Stops.onward ih
  | case8 variant noted taken text c length read _ _ _ notGroup ih => exact Stops.onward ih

/-- The braces of an enumeration pair off up to where its variants end. -/
def Paired (text : List Char) : Prop :=
  ∃ deep, Delimiter.Crosses .brace 0 text
      ((read text).length - (read text).isClosed.toNat) deep ∧
    ((read text).isClosed = true → deep = 0)

/-- Variants whose braces pair off end where the body as one group does. -/
theorem Paired.length_eq {text : List Char} (paired : Paired text) :
    (read text).length = Delimiter.brace.closeLength text := by
  obtain ⟨deep, crosses, closed⟩ := paired
  obtain ⟨count, length, ends⟩ : ∃ count, Stops text (read text) 0 count :=
    readFrom_stops [] [] 0 text
  rw [length, Nat.zero_add, Nat.add_sub_cancel] at crosses
  have passes := crosses.closeFrom_eq (by decide) 0
  unfold Delimiter.closeLength
  rw [passes, length, Delimiter.closeFrom_eq, ends]
  cases isClosed : (read text).isClosed with
  | false => rfl
  | true =>
      obtain rfl := closed isClosed
      rfl

end VariantList

/-- The kind of declaration that the keyword announces. -/
def Keyword.declared? : Keyword → Option Kind
  | .struct => some .struct
  | .enum => some .enum
  | .trait => some .trait
  | .function | .implementation | .unsafeMark | .macroRules => none

namespace Finding

/-! ### Declarations -/

variable {text : List Char} {start : Position} {cursor : Cursor} {outline : Outline}

theorem afterStruct_stop (found : outline ∈ outlines (afterStruct start cursor).found) :
    outline.extent.stop = (cursor.skip (afterStruct start cursor).length).place := by
  unfold afterStruct at found ⊢
  dsimp only at found ⊢
  split at found
  · cases found
  · rw [List.mem_singleton.mp found]

/-- An enumeration is found only if it has a name; then its body was read. -/
theorem afterEnum_stop (found : outline ∈ outlines (afterEnum start cursor).found) :
    outline.extent.stop = (cursor.skip (afterEnum start cursor).length).place ∧
      (afterEnum start cursor).length = (Head.read [.angle] cursor.rest).length +
        if (Head.read [.angle] cursor.rest).ending = .brace then
          (VariantList.read (cursor.rest.drop (Head.read [.angle] cursor.rest).length)).length
        else 0 := by
  unfold afterEnum at found ⊢
  dsimp only at found ⊢
  split at found
  · cases found
  · rename_i named
    rw [if_neg named]
    have silent : ∀ isClosed : Bool, outlines
        (if isClosed then [] else [enumAtEnd (String.ofList
          (Signature.leadingName (Head.read [.angle] cursor.rest).kept))]) = [] := by
      intro isClosed
      cases isClosed <;> rfl
    rw [outlines_append, silent, List.nil_append] at found
    constructor
    · rw [List.mem_singleton.mp found]
    · dsimp only
      split <;> rfl

/-- Behind the declaration of a trait, functions and unsafe blocks of its body are found. -/
theorem afterTrait_stop (stands : cursor.StandsIn text)
    (found : outline ∈ outlines (afterTrait start cursor).found) (isTrait : outline.kind = .trait) :
    outline.extent.stop = (cursor.skip (afterTrait start cursor).length).place := by
  obtain ⟨name, hasName⟩ : ∃ name, String.ofList (Signature.leadingName
      (Head.read [.angle, .paren] cursor.rest).kept) = name := ⟨_, rfl⟩
  by_cases unnamed : name.isEmpty = true
  · rw [afterTrait_of_unnamed start hasName unnamed] at found
    cases found
  · cases body : (Head.read [.angle, .paren] cursor.rest).bodyLength? cursor.rest with
    | none =>
        rw [afterTrait_of_bodiless start hasName unnamed body] at found
        rw [List.mem_singleton.mp found]
    | some count =>
        obtain ⟨functions, findings⟩ := afterTrait_of_body start hasName unnamed body
        rw [findings, outlines_cons, outlines_append] at found
        rcases List.mem_append.mp found with declaration | inside
        · rw [List.mem_singleton.mp declaration]
        · rcases List.mem_append.mp inside with item | notice
          · have kinds := ((items_arranged ⟨none, some name⟩
              ((stands.skip _).window _)).liesIn outline item).kind_mem
            rw [isTrait] at kinds
            exact absurd kinds (by decide)
          · cases notice

/-- A struct, an enumeration or a trait ends where the head of a function and the group behind
it would, if what ends its own head stands in none of the groups of such a head, and if the
braces of an enumeration pair off. -/
theorem declaration_stop {keyword : Keyword} {groups : List Delimiter}
    (declares : keyword.declared? = some outline.kind) (known : keyword.headGroups? = some groups)
    (stands : cursor.StandsIn text)
    (surface : Head.Surface signatureGroups cursor.rest
      ((Head.read groups cursor.rest).signature cursor.rest).length)
    (paired : keyword = .enum → (Head.read groups cursor.rest).ending = .brace →
      VariantList.Paired (cursor.rest.drop (Head.read groups cursor.rest).length))
    (found : outline ∈ outlines (afterKeyword keyword start cursor).found) :
    outline.extent.stop =
      (cursor.skip ((Head.read signatureGroups cursor.rest).fullLength cursor.rest)).place := by
  have full := Head.fullLength_eq_of_surface surface
  rw [full]
  cases keyword with
  | struct =>
      cases known
      exact afterStruct_stop found
  | enum =>
      cases known
      obtain ⟨stop, length⟩ := afterEnum_stop found
      rw [stop, length]
      unfold Head.fullLength Head.bodyLength?
      cases ending : (Head.read [.angle] cursor.rest).ending with
      | endOfText => rfl
      | semicolon => rfl
      | brace =>
          rw [if_pos rfl, (paired rfl ending).length_eq]
          rfl
  | trait =>
      cases known
      rw [← afterTrait_length start cursor]
      exact afterTrait_stop stands found (Option.some.inj declares).symm
  | function => cases declares
  | implementation => cases declares
  | unsafeMark => cases declares
  | macroRules => cases declares

/-- The generic list of an enumeration is stepped over by both readings, and the braces of its
only variant pair off. -/
theorem declaration_stop_enum :
    ∃ text body : List Char, text = " E<T>\x7bA\x7b\x7d\x7d".toList ∧
      Head.Surface signatureGroups text ((Head.read [.angle] text).signature text).length ∧
      text.drop (Head.read [.angle] text).length = body ∧ VariantList.Paired body ∧
      (⟨.enum, ⟨.start, ⟨1, 15, 14⟩⟩⟩ : Outline) ∈
        outlines (afterKeyword .enum .start ⟨text, ⟨1, 5, 4⟩⟩).found ∧
      (⟨1, 15, 14⟩ : Position) = ((Cursor.mk text ⟨1, 5, 4⟩).skip
        ((Head.read signatureGroups text).fullLength text)).place := by
  refine ⟨_, "A\x7b\x7d\x7d".toList, rfl, ?_⟩
  have surface : Head.Surface signatureGroups " E<T>\x7bA\x7b\x7d\x7d".toList
      ((Head.read [.angle] " E<T>\x7bA\x7b\x7d\x7d".toList).signature
        " E<T>\x7bA\x7b\x7d\x7d".toList).length :=
    (Head.read_agrees_iff _ _ _).mp (by decide +kernel)
  have behind : " E<T>\x7bA\x7b\x7d\x7d".toList.drop
      (Head.read [.angle] " E<T>\x7bA\x7b\x7d\x7d".toList).length =
        "A\x7b\x7d\x7d".toList := by
    decide +kernel
  have paired : VariantList.Paired "A\x7b\x7d\x7d".toList := by
    refine ⟨0, ?_, fun _ => rfl⟩
    have stop : (VariantList.read "A\x7b\x7d\x7d".toList).length -
        (VariantList.read "A\x7b\x7d\x7d".toList).isClosed.toNat = 1 + (1 + (1 + 0)) := by
      decide +kernel
    have first : Atom.read? "A\x7b\x7d\x7d".toList = some (.char 'A', 1) := by
      decide +kernel
    rw [stop]
    exact .atom first (by decide)
      (.opens (by decide +kernel) (.closes (by decide +kernel) (.nothing 0 _)))
  have found : (⟨.enum, ⟨.start, ⟨1, 15, 14⟩⟩⟩ : Outline) ∈ outlines
      (afterKeyword .enum .start ⟨" E<T>\x7bA\x7b\x7d\x7d".toList, ⟨1, 5, 4⟩⟩).found := by
    decide +kernel
  have stands : (Cursor.mk " E<T>\x7bA\x7b\x7d\x7d".toList ⟨1, 5, 4⟩).StandsIn
      "enum E<T>\x7bA\x7b\x7d\x7d".toList :=
    ⟨"enum".toList, [], by decide, by decide⟩
  refine ⟨surface, behind, paired, found, declaration_stop rfl rfl stands surface ?_ found⟩
  intro _ _
  rw [behind]
  exact paired

/-- The semicolon of an array type ends the head of a struct, though not that of a function. -/
theorem struct_ends_in_array_type :
    outlines (afterKeyword .struct .start
        ((Cursor.ofText "struct S where [u8; 4]: Copy \x7b x: u8 \x7d".toList).skip 6)).found =
      [⟨.struct, ⟨.start, ⟨1, 20, 19⟩⟩⟩] ∧
    ((Cursor.ofText "struct S where [u8; 4]: Copy \x7b x: u8 \x7d".toList).skip
      (6 + (Head.read signatureGroups " S where [u8; 4]: Copy \x7b x: u8 \x7d".toList).fullLength
        " S where [u8; 4]: Copy \x7b x: u8 \x7d".toList)).place = ⟨1, 39, 38⟩ := by
  constructor <;> decide +kernel

end Finding
end Survey
