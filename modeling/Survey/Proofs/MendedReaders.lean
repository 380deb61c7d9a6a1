import Survey.Proofs.CommentsBehindTokens
import Mathlib.Data.List.Infix

set_option autoImplicit false

/-!
# Zero characters

The zero character belongs to no class of characters and is no delimiter, and neither is
U+0001. A text is mended by writing U+0001 in the place of every zero character. A reader
goes just as far in the mended text, with one exception: a zero character between two single
quotes is not read as a quoted character, although U+0001 is. `Text.ZerosUnquoted` excludes
this, and there is one lemma for each reader.
-/

namespace Survey

/-! ### Characters -/

namespace Text

/-- The character itself, or U+0001 in the place of the zero character. -/
def mend (c : Char) : Char := if c = '\x00' then '\x01' else c

/-- The character is neither the zero character nor what is written in its place. -/
def IsSound (c : Char) : Prop := c ≠ '\x00' ∧ c ≠ '\x01'

instance (c : Char) : Decidable (IsSound c) := by
  unfold IsSound
  infer_instance

/-- Every character of the text is sound. -/
def AllSound (text : List Char) : Prop := '\x00' ∉ text ∧ '\x01' ∉ text

instance (text : List Char) : Decidable (AllSound text) := by
  unfold AllSound
  infer_instance

theorem AllSound.of_mem {c : Char} {text : List Char} (sound : AllSound text) (member : c ∈ text) :
    IsSound c :=
  ⟨fun isZero => sound.1 (isZero ▸ member), fun isOne => sound.2 (isOne ▸ member)⟩

theorem AllSound.mono {text fewer : List Char} (sound : AllSound text) (subset : fewer ⊆ text) :
    AllSound fewer :=
  ⟨fun zero => sound.1 (subset zero), fun one => sound.2 (subset one)⟩

/-- Nowhere in the text does a zero character stand between two single quotes. -/
def ZerosUnquoted (text : List Char) : Prop := ¬ ['\'', '\x00', '\''] <:+: text

instance (text : List Char) : Decidable (ZerosUnquoted text) := by
  unfold ZerosUnquoted
  infer_instance

namespace ZerosUnquoted

variable {text : List Char}

theorem of_infix {part : List Char} (unquoted : ZerosUnquoted text) (within : part <:+: text) :
    ZerosUnquoted part :=
  fun quoted => unquoted (quoted.trans within)

theorem drop (unquoted : ZerosUnquoted text) (count : Nat) : ZerosUnquoted (text.drop count) :=
  unquoted.of_infix (List.drop_suffix count text).isInfix

theorem take (unquoted : ZerosUnquoted text) (count : Nat) : ZerosUnquoted (text.take count) :=
  unquoted.of_infix (List.take_prefix count text).isInfix

theorem of_cons {c : Char} (unquoted : ZerosUnquoted (c :: text)) : ZerosUnquoted text :=
  unquoted.of_infix (List.suffix_cons c text).isInfix

end ZerosUnquoted

theorem mend_eq_iff {c d : Char} (sound : IsSound d) : mend c = d ↔ c = d := by
  unfold mend
  by_cases isZero : c = '\x00'
  · rw [if_pos isZero, isZero]
    exact iff_of_false sound.2.symm sound.1.symm
  · rw [if_neg isZero]

/-- A property of characters that does not tell the two characters apart. -/
theorem apply_mend {α : Type} (property : Char → α) (same : property '\x01' = property '\x00')
    (c : Char) : property (mend c) = property c := by
  unfold mend
  by_cases isZero : c = '\x00'
  · rw [if_pos isZero, isZero, same]
  · rw [if_neg isZero]

@[simp] theorem isWordStart_mend (c : Char) : isWordStart (mend c) = isWordStart c :=
  apply_mend isWordStart rfl c

@[simp] theorem isWordPart_mend (c : Char) : isWordPart (mend c) = isWordPart c :=
  apply_mend isWordPart rfl c

@[simp] theorem isAsciiDigit_mend (c : Char) : isAsciiDigit (mend c) = isAsciiDigit c :=
  apply_mend isAsciiDigit rfl c

@[simp] theorem isWhiteSpace_mend (c : Char) : isWhiteSpace (mend c) = isWhiteSpace c :=
  apply_mend isWhiteSpace rfl c

@[simp] theorem isBlank_mend (c : Char) : isBlank (mend c) = isBlank c :=
  apply_mend isBlank rfl c

/-! ### Texts -/

variable {c : Char} {text : List Char}

theorem map_mend_eq_cons_iff {rest : List Char} (sound : IsSound c) :
    text.map mend = c :: rest ↔ ∃ before, text = c :: before ∧ before.map mend = rest := by
  rw [List.map_eq_cons_iff]
  constructor
  · rintro ⟨d, before, rfl, same, rfl⟩
    rw [(mend_eq_iff sound).mp same]
    exact ⟨before, rfl, rfl⟩
  · rintro ⟨before, rfl, rfl⟩
    exact ⟨c, before, rfl, (mend_eq_iff sound).mpr rfl, rfl⟩

theorem map_mend_eq_iff {other : List Char} (sound : AllSound other) :
    text.map mend = other ↔ text = other := by
  induction other generalizing text with
  | nil => exact List.map_eq_nil_iff
  | cons d other ih =>
      rw [map_mend_eq_cons_iff (sound.of_mem List.mem_cons_self)]
      simp only [ih (sound.mono (List.subset_cons_self d other)), exists_eq_right]

theorem getElem?_map_mend_eq_iff (sound : IsSound c) (index : Nat) :
    (text.map mend)[index]? = some c ↔ text[index]? = some c := by
  rw [List.getElem?_map, Option.map_eq_some_iff]
  simp only [mend_eq_iff sound, exists_eq_right]

theorem head?_map_mend_eq_iff (sound : IsSound c) :
    (text.map mend).head? = some c ↔ text.head? = some c := by
  simpa only [List.head?_eq_getElem?] using getElem?_map_mend_eq_iff sound 0

theorem any_head?_map_mend {property : Char → Bool} (same : property '\x01' = property '\x00') :
    (text.map mend).head?.any property = text.head?.any property := by
  cases text with
  | nil => rfl
  | cons c rest => exact apply_mend property same c

theorem takeWhile_map_mend {keep : Char → Bool} (same : keep '\x01' = keep '\x00') :
    (text.map mend).takeWhile keep = (text.takeWhile keep).map mend := by
  rw [List.takeWhile_map, show keep ∘ mend = keep from funext (apply_mend keep same)]

theorem dropWhile_map_mend {keep : Char → Bool} (same : keep '\x01' = keep '\x00') :
    (text.map mend).dropWhile keep = (text.dropWhile keep).map mend := by
  rw [List.dropWhile_map, show keep ∘ mend = keep from funext (apply_mend keep same)]

theorem length_takeWhile_map_mend {keep : Char → Bool} (same : keep '\x01' = keep '\x00') :
    ((text.map mend).takeWhile keep).length = (text.takeWhile keep).length := by
  rw [takeWhile_map_mend same, List.length_map]

theorem withoutWhiteSpace_map_mend (text : List Char) :
    withoutWhiteSpace (text.map mend) = (withoutWhiteSpace text).map mend := by
  unfold withoutWhiteSpace
  rw [List.filter_map]
  simp [Function.comp_def]

end Text

open Text

/-! ### Comments and trivia -/

namespace Comment

theorem blockLength_map_mend (outer taken : Nat) (text : List Char) :
    blockLength outer taken (text.map mend) = blockLength outer taken text := by
  fun_induction blockLength outer taken text with
  | case1 outer taken rest ih => exact ih
  | case2 taken rest => rfl
  | case3 taken rest outer ih => exact ih
  | case4 outer taken c rest notOpen notClose ih =>
      rw [List.map_cons, blockLength, ih]
      · intro later isSlash isStar
        obtain ⟨before, rfl, -⟩ := (map_mend_eq_cons_iff (by decide)).mp isStar
        exact notOpen before ((mend_eq_iff (by decide)).mp isSlash) rfl
      · intro later isStar isSlash
        obtain ⟨before, rfl, -⟩ := (map_mend_eq_cons_iff (by decide)).mp isSlash
        exact notClose before ((mend_eq_iff (by decide)).mp isStar) rfl
  | case5 outer taken => rfl

theorem length?_map_mend (text : List Char) : length? (text.map mend) = length? text := by
  fun_cases length? text with
  | case1 rest =>
      have line : lineLength (('/' :: '/' :: rest).map mend) = lineLength ('/' :: '/' :: rest) := by
        rw [lineLength_eq, lineLength_eq, length_takeWhile_map_mend (by decide)]
      exact congrArg some line
  | case2 rest => exact congrArg some (blockLength_map_mend 0 2 rest)
  | case3 text notLine notBlock =>
      unfold length?
      split
      · rename_i later isComment
        simp (disch := decide) only [map_mend_eq_cons_iff] at isComment
        obtain ⟨_, rfl, before, rfl, -⟩ := isComment
        exact absurd rfl (notLine before)
      · rename_i later isComment
        simp (disch := decide) only [map_mend_eq_cons_iff] at isComment
        obtain ⟨_, rfl, before, rfl, -⟩ := isComment
        exact absurd rfl (notBlock before)
      · rfl

end Comment

namespace Trivia

theorem blankLength_map_mend (text : List Char) :
    blankLength (text.map mend) = blankLength text :=
  length_takeWhile_map_mend (by decide)

theorem length_map_mend (text : List Char) : length (text.map mend) = length text := by
  fun_induction length text with
  | case1 text found =>
      rw [length_eq, blankLength_map_mend, ← List.map_drop, Comment.length?_map_mend, found]
  | case2 text comment found ih =>
      rw [length_eq, blankLength_map_mend, ← List.map_drop, Comment.length?_map_mend, found]
      dsimp only
      rw [← List.map_drop, ih]

end Trivia

/-! ### Literals -/

namespace Literal

theorem rawHashes?_map_mend (text : List Char) :
    rawHashes? (text.map mend) = rawHashes? text := by
  cases text with
  | nil => rfl
  | cons c rest =>
      by_cases isRaw : c = 'r'
      · subst isRaw
        have same : mend 'r' = 'r' := rfl
        simp (disch := decide) only [List.map_cons, same, rawHashes?, length_takeWhile_map_mend,
          getElem?_map_mend_eq_iff]
      · have isMendedRaw : mend c ≠ 'r' := fun same =>
          isRaw ((mend_eq_iff (by decide)).mp same)
        rw [List.map_cons, Token.rawHashes?_of_ne isRaw, Token.rawHashes?_of_ne isMendedRaw]

theorem rawLength_map_mend (hashes taken : Nat) (text : List Char) :
    rawLength hashes taken (text.map mend) = rawLength hashes taken text := by
  induction text generalizing taken with
  | nil => rfl
  | cons c rest ih =>
      have sound : AllSound (List.replicate hashes '#') := by
        constructor <;> simp
      have signs : (rest.map mend).take hashes = List.replicate hashes '#' ↔
          rest.take hashes = List.replicate hashes '#' := by
        rw [← List.map_take]
        exact map_mend_eq_iff sound
      simp (disch := decide) only [List.map_cons, rawLength, ih, mend_eq_iff, signs]

theorem plainLength_map_mend (taken : Nat) (text : List Char) :
    plainLength taken (text.map mend) = plainLength taken text := by
  fun_induction plainLength taken text with
  | case1 taken c rest ih => exact ih
  | case2 taken rest => rfl
  | case3 taken c rest notEscape notQuote ih =>
      rw [List.map_cons, plainLength, ih]
      · intro d later isEscape isFilled
        obtain ⟨before, _, rfl, -, -⟩ := List.map_eq_cons_iff.mp isFilled
        exact notEscape _ _ ((mend_eq_iff (by decide)).mp isEscape) rfl
      · intro isQuote
        exact notQuote ((mend_eq_iff (by decide)).mp isQuote)
  | case4 taken => rfl

theorem stringLength?_map_mend (text : List Char) :
    stringLength? (text.map mend) = stringLength? text := by
  fun_cases stringLength? text with
  | case1 text hashes raw =>
      have rawMended := raw
      rw [← rawHashes?_map_mend] at rawMended
      rw [stringLength?_of_raw rawMended, ← List.map_drop, rawLength_map_mend]
  | case2 rest notRaw =>
      have quote : mend '"' = '"' := rfl
      rw [List.map_cons, quote, stringLength?_quote, plainLength_map_mend]
  | case3 text notRaw notQuote =>
      unfold stringLength?
      rw [rawHashes?_map_mend, notRaw]
      dsimp only
      split
      · rename_i later isQuote
        obtain ⟨rest, rfl, -⟩ := (map_mend_eq_cons_iff (by decide)).mp isQuote
        exact absurd rfl (notQuote rest)
      · rfl

theorem escapeLength_map_mend (text : List Char) :
    escapeLength (text.map mend) = escapeLength text := by
  cases text with
  | nil => rfl
  | cons c rest =>
      simp (disch := decide) only [List.map_cons, escapeLength, length_takeWhile_map_mend,
        getElem?_map_mend_eq_iff]

/-- What a quote introduces, unless that is a zero character. -/
theorem quote?_map_mend {text : List Char} (unquoted : ZerosUnquoted text) :
    quote? (text.map mend) = quote? text := by
  by_cases opens : text.head? = some '\''
  · obtain ⟨rest, rfl⟩ := List.head?_eq_some_iff.mp opens
    have quote : mend '\'' = '\'' := rfl
    rw [List.map_cons, quote]
    by_cases escaped : rest.head? = some '\\'
    · obtain ⟨later, rfl⟩ := List.head?_eq_some_iff.mp escaped
      have backslash : mend '\\' = '\\' := rfl
      rw [List.map_cons, backslash, quote?_escape, quote?_escape, escapeLength_map_mend]
    · by_cases closed : rest.tail.head? = some '\''
      · cases rest with
        | nil => cases closed
        | cons c rest =>
            -- Only here is the character between the quotes compared with zero.
            obtain ⟨later, rfl⟩ := List.head?_eq_some_iff.mp closed
            have notZero : c ≠ '\x00' := by
              rintro rfl
              exact unquoted (List.prefix_append ['\'', '\x00', '\''] later).isInfix
            have notEscape : c ≠ '\\' := fun same => escaped (congrArg some same)
            rw [List.map_cons, List.map_cons, quote, mend, if_neg notZero, quote?_closed notEscape,
              quote?_closed notEscape]
      · have mendedEscape : (rest.map mend).head? ≠ some '\\' := fun same =>
          escaped ((head?_map_mend_eq_iff (by decide)).mp same)
        have mendedClosed : (rest.map mend).tail.head? ≠ some '\'' := fun same =>
          closed ((head?_map_mend_eq_iff (by decide)).mp (List.map_tail ▸ same))
        rw [quote?_open escaped closed, quote?_open mendedEscape mendedClosed,
          length_takeWhile_map_mend (by decide)]
  · have mendedOpens : (text.map mend).head? ≠ some '\'' := fun same =>
      opens ((head?_map_mend_eq_iff (by decide)).mp same)
    rw [(quote?_eq_none_iff text).mpr opens, (quote?_eq_none_iff _).mpr mendedOpens]

end Literal

/-! ### Atoms, groups and heads -/

namespace Atom

/-- The atom of the mended text. -/
def mend : Atom → Atom
  | .comment => .comment
  | .literal text => .literal (text.map Text.mend)
  | .char c => .char (Text.mend c)

theorem read?_map_mend {text : List Char} (unquoted : ZerosUnquoted text) :
    read? (text.map Text.mend) = (read? text).map fun (atom, length) => (atom.mend, length) := by
  cases text with
  | nil => rfl
  | cons c rest =>
      have comment := Comment.length?_map_mend (c :: rest)
      have string := Literal.stringLength?_map_mend (c :: rest)
      have quote := Literal.quote?_map_mend unquoted
      rw [List.map_cons] at comment string quote ⊢
      rw [read?, read?, comment, string, quote]
      split
      · rfl
      · split
        · rw [← List.map_cons, ← List.map_take]
          rfl
        · split
          · rw [← List.map_cons, ← List.map_take]
            rfl
          · rfl

end Atom

namespace Delimiter

variable {text : List Char}

theorem isShaft_mend (c : Char) : isShaft (mend c) = isShaft c :=
  apply_mend isShaft rfl c

theorem closes_mend (kind : Delimiter) (afterShaft : Bool) (c : Char) :
    kind.closes afterShaft (mend c) = kind.closes afterShaft c :=
  apply_mend (kind.closes afterShaft) (by cases kind <;> rfl) c

theorem deepen_mend (kind : Delimiter) (outer : Nat) (c : Char) :
    kind.deepen outer (mend c) = kind.deepen outer c :=
  apply_mend (kind.deepen outer) (by cases kind <;> rfl) c

theorem ofOpener?_mend (c : Char) : ofOpener? (mend c) = ofOpener? c :=
  apply_mend ofOpener? rfl c

theorem closeFrom_map_mend (kind : Delimiter) (outer : Nat) (afterShaft : Bool) (taken : Nat)
    (unquoted : ZerosUnquoted text) :
    closeFrom kind outer afterShaft taken (text.map mend) =
      closeFrom kind outer afterShaft taken text := by
  fun_induction closeFrom kind outer afterShaft taken text with
  | case1 outer afterShaft taken text found =>
      rw [closeFrom_eq, Atom.read?_map_mend unquoted, found]
      rfl
  | case2 afterShaft taken text c length found closes =>
      rw [closeFrom_eq, Atom.read?_map_mend unquoted, found]
      simp only [Option.map_some, Atom.mend, closes_mend, closes, if_true]
  | case3 afterShaft taken text c length found closes outer ih =>
      rw [closeFrom_eq, Atom.read?_map_mend unquoted, found]
      simp only [Option.map_some, Atom.mend, closes_mend, closes, if_true]
      rw [← List.map_drop, ih (unquoted.drop length)]
  | case4 outer afterShaft taken text c length found closes ih =>
      rw [closeFrom_eq, Atom.read?_map_mend unquoted, found]
      simp only [Option.map_some, Atom.mend, closes_mend, closes, deepen_mend, isShaft_mend]
      rw [← List.map_drop, if_neg Bool.false_ne_true, ih (unquoted.drop length)]
  | case5 outer afterShaft taken text atom length other found ih =>
      rw [closeFrom_eq, Atom.read?_map_mend unquoted, found]
      cases atom with
      | char c => exact absurd rfl (other c)
      | comment | literal written =>
          simp only [Option.map_some, Atom.mend]
          rw [← List.map_drop, ih (unquoted.drop length)]

theorem closeLength_map_mend (kind : Delimiter) (unquoted : ZerosUnquoted text) :
    kind.closeLength (text.map mend) = kind.closeLength text :=
  closeFrom_map_mend kind 0 false 0 unquoted

theorem groupAfter?_map_mend (kinds : List Delimiter) (c : Char) (unquoted : ZerosUnquoted text) :
    groupAfter? kinds (mend c) (text.map mend) = groupAfter? kinds c text := by
  unfold groupAfter?
  rw [ofOpener?_mend]
  congr 1
  funext kind
  exact closeLength_map_mend kind unquoted

end Delimiter

namespace Head

variable {text : List Char}

/-- The head of the mended text. -/
def mend (head : Head) : Head := { head with kept := head.kept.map Text.mend }

theorem readFrom_map_mend (groups : List Delimiter) (kept : List Char) (taken : Nat)
    (unquoted : ZerosUnquoted text) :
    readFrom groups (kept.map Text.mend) taken (text.map Text.mend) =
      (readFrom groups kept taken text).mend := by
  fun_induction readFrom groups kept taken text with
  | case1 kept taken text found =>
      rw [readFrom_eq, Atom.read?_map_mend unquoted, found]
      simp [mend]
  | case2 kept taken text length found ih =>
      rw [readFrom_eq, Atom.read?_map_mend unquoted, found]
      simp only [Option.map_some, Atom.mend]
      rw [← List.map_drop, ih (unquoted.drop length)]
  | case3 kept taken text written length found ih =>
      rw [readFrom_eq, Atom.read?_map_mend unquoted, found]
      simp only [Option.map_some, Atom.mend]
      rw [← List.map_drop, ← List.map_reverse, ← List.map_append, ih (unquoted.drop length)]
  | case4 kept taken text length found =>
      rw [readFrom_eq, Atom.read?_map_mend unquoted, found]
      simp [Atom.mend, mend, show Text.mend ';' = ';' from rfl]
  | case5 kept taken text length found =>
      rw [readFrom_eq, Atom.read?_map_mend unquoted, found]
      simp [Atom.mend, mend, show Text.mend '\x7b' = '\x7b' from rfl]
  | case6 kept taken text c length found notSemicolon notBrace group opens ih =>
      rw [readFrom_eq, Atom.read?_map_mend unquoted, found]
      simp (disch := decide) only [Option.map_some, Atom.mend, mend_eq_iff, notSemicolon, notBrace,
        if_false]
      rw [← List.map_drop, Delimiter.groupAfter?_map_mend groups c (unquoted.drop length), opens]
      dsimp only
      rw [← List.map_drop, ih (unquoted.drop _)]
  | case7 kept taken text c length found notSemicolon notBrace opens ih =>
      rw [readFrom_eq, Atom.read?_map_mend unquoted, found]
      simp (disch := decide) only [Option.map_some, Atom.mend, mend_eq_iff, notSemicolon, notBrace,
        if_false]
      rw [← List.map_drop, Delimiter.groupAfter?_map_mend groups c (unquoted.drop length), opens]
      dsimp only
      rw [← List.map_cons, ih (unquoted.drop length)]

theorem read_map_mend (groups : List Delimiter) (unquoted : ZerosUnquoted text) :
    read groups (text.map Text.mend) = (read groups text).mend :=
  readFrom_map_mend groups [] 0 unquoted

@[simp] theorem mend_length (head : Head) : head.mend.length = head.length := rfl

@[simp] theorem mend_ending (head : Head) : head.mend.ending = head.ending := rfl

theorem signature_mend (head : Head) (text : List Char) :
    head.mend.signature (text.map Text.mend) = (head.signature text).map Text.mend := by
  unfold signature
  rw [mend_ending, mend_length, ← List.map_take, ← List.map_take]
  split <;> rfl

theorem bodyLength?_mend (head : Head) (unquoted : ZerosUnquoted text) :
    head.mend.bodyLength? (text.map Text.mend) = head.bodyLength? text := by
  unfold bodyLength?
  rw [mend_ending, mend_length, ← List.map_drop,
    Delimiter.closeLength_map_mend _ (unquoted.drop head.length)]

theorem fullLength_mend (head : Head) (unquoted : ZerosUnquoted text) :
    head.mend.fullLength (text.map Text.mend) = head.fullLength text := by
  unfold fullLength
  rw [bodyLength?_mend head unquoted, mend_length]

end Head

/-! ### Attributes and macros -/

namespace Attribute

variable {text : List Char}

/-- The attribute of the mended text. -/
def mend (mark : Attribute) : Attribute := { mark with text := mark.text.map Text.mend }

theorem bracketed?_map_mend (opening : List Char) (taken : Nat) (unquoted : ZerosUnquoted text) :
    bracketed? (opening.map Text.mend) taken (text.map Text.mend) =
      (bracketed? opening taken text).map mend := by
  fun_cases bracketed? opening taken text with
  | case1 rest length =>
      have bracket : Text.mend '[' = '[' := rfl
      rw [List.map_cons, bracket, bracketed?,
        Delimiter.closeLength_map_mend _ unquoted.of_cons, ← List.map_take,
        withoutWhiteSpace_map_mend]
      simp [mend, bracket, length]
  | case2 text notBracket =>
      unfold bracketed?
      split
      · rename_i later isBracket
        obtain ⟨rest, rfl, -⟩ := (map_mend_eq_cons_iff (by decide)).mp isBracket
        exact absurd rfl (notBracket rest)
      · rfl

theorem read?_map_mend (unquoted : ZerosUnquoted text) :
    read? (text.map Text.mend) = (read? text).map mend := by
  have blanks := Trivia.blankLength_map_mend text
  have unquotedRest := unquoted.drop (Trivia.blankLength text)
  by_cases isInner : (text.drop (Trivia.blankLength text)).head? = some '!'
  · obtain ⟨rest, behind⟩ := List.head?_eq_some_iff.mp isInner
    have mendedBehind : (text.map Text.mend).drop (Trivia.blankLength (text.map Text.mend)) =
        '!' :: rest.map Text.mend := by
      rw [blanks, ← List.map_drop, behind]
      rfl
    rw [behind] at unquotedRest
    rw [read?_eq_bang behind, read?_eq_bang mendedBehind, blanks, Trivia.blankLength_map_mend,
      ← List.map_drop]
    exact bracketed?_map_mend ['#', '!'] _ (unquotedRest.of_cons.drop _)
  · have mendedOuter : ((text.map Text.mend).drop (Trivia.blankLength (text.map Text.mend))).head? ≠
        some '!' := by
      rw [blanks, ← List.map_drop, Ne, head?_map_mend_eq_iff (by decide)]
      exact isInner
    rw [read?_eq_bare isInner, read?_eq_bare mendedOuter, blanks, ← List.map_drop]
    exact bracketed?_map_mend ['#'] _ unquotedRest

theorem skipLength_map_mend (unquoted : ZerosUnquoted text) :
    skipLength (text.map Text.mend) = skipLength text := by
  unfold skipLength
  rw [read?_map_mend unquoted]
  cases read? text <;> rfl

end Attribute

theorem macroLength_map_mend {text : List Char} (isDefinition : Bool)
    (unquoted : ZerosUnquoted text) :
    macroLength isDefinition (text.map mend) = macroLength isDefinition text := by
  unfold macroLength
  dsimp only
  rw [Trivia.blankLength_map_mend, ← List.map_drop]
  have unquotedRest := unquoted.drop (Trivia.blankLength text)
  generalize text.drop (Trivia.blankLength text) = named at unquotedRest
  rw [any_head?_map_mend (by decide), length_takeWhile_map_mend (by decide), ← List.map_drop,
    Trivia.blankLength_map_mend]
  generalize (if (isDefinition && named.head?.any isWordStart) = true then
    (named.takeWhile isWordPart).length +
      Trivia.blankLength (named.drop (named.takeWhile isWordPart).length)
    else 0) = name
  have unquotedBody := unquotedRest.drop name
  rw [← List.map_drop]
  cases behind : named.drop name with
  | nil => rfl
  | cons c rest =>
      rw [behind] at unquotedBody
      rw [List.map_cons]
      dsimp only
      rw [Delimiter.groupAfter?_map_mend _ c unquotedBody.of_cons]

/-! ### Tokens -/

namespace Token

variable {text : List Char}

theorem punctuationTag_mend (c : Char) : punctuationTag (mend c) = punctuationTag c :=
  apply_mend punctuationTag rfl c

theorem numberLength_map_mend (taken : Nat) (text : List Char) :
    numberLength taken (text.map mend) = numberLength taken text := by
  induction text generalizing taken with
  | nil => rfl
  | cons c rest ih =>
      have point : (mend c == '.') = (c == '.') := apply_mend (· == '.') rfl c
      rw [List.map_cons, numberLength, numberLength, ih, isWordPart_mend, point,
        any_head?_map_mend (by decide)]

theorem slash_map_mend (text : List Char) : slash (text.map mend) = slash text := by
  unfold slash
  rw [Comment.length?_map_mend]
  simp (disch := decide) only [← List.map_tail, head?_map_mend_eq_iff]

theorem quoted_map_mend (unquoted : ZerosUnquoted text) : quoted (text.map mend) = quoted text := by
  unfold quoted
  rw [Literal.quote?_map_mend unquoted]

theorem literalAfter?_map_mend (word : List Char) (unquoted : ZerosUnquoted text) :
    literalAfter? (word.map mend) (text.map mend) = literalAfter? word text := by
  by_cases opens : OpensLiteral word
  · have sameWord : word.map mend = word := by rcases opens with rfl | rfl | rfl | rfl <;> rfl
    rw [sameWord]
    cases text with
    | nil => rfl
    | cons c rest =>
        rcases literal_opener_cases c with rfl | rfl | rfl | ⟨notString, notHash, notByte⟩
        · have quote : mend '"' = '"' := rfl
          rw [List.map_cons, quote, literalAfter?_string opens, literalAfter?_string opens,
            Literal.plainLength_map_mend]
        · have hash : ('#' :: rest).map mend = '#' :: rest.map mend := rfl
          have hashes : hashLength (('#' :: rest).map mend) = hashLength ('#' :: rest) :=
            length_takeWhile_map_mend (by decide)
          rw [hash, literalAfter?_hashes opens, literalAfter?_hashes opens, ← hash, hashes,
            ← List.map_drop, Literal.rawLength_map_mend]
          simp (disch := decide) only [getElem?_map_mend_eq_iff]
        · have quote : ('\'' :: rest).map mend = '\'' :: rest.map mend := rfl
          rw [quote, literalAfter?_byte opens, literalAfter?_byte opens, ← quote,
            quoted_map_mend unquoted]
        · rw [List.map_cons, literalAfter?_other notString notHash notByte]
          apply literalAfter?_other <;> rw [Ne, mend_eq_iff (by decide)] <;> assumption
  · have mendedOpens : ¬ OpensLiteral (word.map mend) := by
      unfold OpensLiteral at opens ⊢
      simpa (disch := decide) only [map_mend_eq_iff] using opens
    rw [literalAfter?_of_not_opens opens, literalAfter?_of_not_opens mendedOpens]

theorem rawWordLength_map_mend (word text : List Char) :
    rawWordLength (word.map mend) (text.map mend) = rawWordLength word text := by
  by_cases isHash : text.head? = some '#'
  · obtain ⟨rest, rfl⟩ := List.head?_eq_some_iff.mp isHash
    have hash : mend '#' = '#' := rfl
    rw [List.map_cons, hash, rawWordLength, rawWordLength, length_takeWhile_map_mend (by decide),
      any_head?_map_mend (by decide)]
    simp (disch := decide) only [map_mend_eq_iff]
  · have mendedHash : (text.map mend).head? ≠ some '#' := fun same =>
      isHash ((head?_map_mend_eq_iff (by decide)).mp same)
    rw [rawWordLength_other _ isHash, rawWordLength_other _ mendedHash]

theorem wordOrLiteral_map_mend (unquoted : ZerosUnquoted text) :
    wordOrLiteral (text.map mend) = wordOrLiteral text := by
  unfold wordOrLiteral
  dsimp only
  rw [← List.map_tail, length_takeWhile_map_mend (by decide), ← List.map_take, ← List.map_drop,
    literalAfter?_map_mend _ (unquoted.drop _), rawWordLength_map_mend]

/-- The mended text has a token of the same class and length. -/
theorem read?_map_mend (unquoted : ZerosUnquoted text) : read? (text.map mend) = read? text := by
  cases text with
  | nil => rfl
  | cons c rest =>
      have slashes := slash_map_mend (c :: rest)
      have quotes := quoted_map_mend unquoted
      have raws := Literal.rawHashes?_map_mend (c :: rest)
      have strings := Literal.stringLength?_map_mend (c :: rest)
      have words := wordOrLiteral_map_mend unquoted
      rw [List.map_cons] at slashes quotes raws strings words ⊢
      rw [read?, read?, slashes, quotes, raws, strings, words, Literal.plainLength_map_mend,
        numberLength_map_mend, length_takeWhile_map_mend (by decide), punctuationTag_mend]
      simp (disch := decide) only [mend_eq_iff, isWordStart_mend, isAsciiDigit_mend, isBlank_mend]

end Token
end Survey
