import Survey.Proofs.WrittenItems

set_option autoImplicit false

/-!
# Enumerations as they are written

A variant is written as a row of units: literals, characters that mean nothing to the reader,
and whole groups. White space, comments and attributes stand around it. What a unit is depends
on the text behind it, so all of this is said of a text with the rest behind it. Read back, the
body yields the variants as they are written, in order, and ends at its own brace.
-/

namespace Survey
namespace Written

/-! ### Bodies -/

/-- White space, comments and attributes, before the rest. -/
inductive Filler : List Char → List Char → Prop
  | nothing (rest : List Char) : Filler [] rest
  | space {c : Char} {text rest : List Char} (blank : Text.isWhiteSpace c = true)
      (later : Filler text rest) : Filler (c :: text) rest
  | comment {comment text rest : List Char}
      (read : Atom.read? (comment ++ (text ++ rest)) = some (.comment, comment.length))
      (later : Filler text rest) : Filler (comment ++ text) rest
  | mark {inner text rest : List Char} (closes : Delimiter.bracket.Closes inner (text ++ rest))
      (later : Filler text rest) : Filler ('#' :: (Delimiter.bracket.enclose inner ++ text)) rest

/-- A row of literals, plain characters and whole groups, before the rest. -/
inductive Units : List Char → List Char → Prop
  | nothing (rest : List Char) : Units [] rest
  | literal {written text rest : List Char}
      (read : Atom.read? (written ++ (text ++ rest)) = some (.literal written, written.length))
      (later : Units text rest) : Units (written ++ text) rest
  | char {c : Char} {text rest : List Char} (plain : c ∉ [',', '\x7d', '\x7b', '(', '#'])
      (read : Atom.read? (c :: (text ++ rest)) = some (.char c, 1))
      (later : Units text rest) : Units (c :: text) rest
  | group {kind : Delimiter} {inner text rest : List Char} (payload : kind ∈ [.brace, .paren])
      (closes : kind.Closes inner (text ++ rest)) (later : Units text rest) :
      Units (kind.enclose inner ++ text) rest

/-- A variant with what surrounds it, before the rest. -/
inductive Entry : List Char → List Char → List Char → Prop
  | mk {variant before after rest : List Char}
      (filling : Filler before (variant ++ (after ++ rest)))
      (units : Units variant (after ++ rest)) (trimmed : Text.IsTrimmed variant)
      (behind : Filler after rest) : Entry variant (before ++ (variant ++ after)) rest

/-- The variants of a body up to its closing brace, before the rest. A comma may stand behind
the last one; where no variant stands, a comma separates nothing. -/
inductive Body : List (List Char) → List Char → List Char → Prop
  | closed {text rest : List Char} (filling : Filler text ('\x7d' :: rest)) :
      Body [] (text ++ ['\x7d']) rest
  | blank {text later rest : List Char} {variants : List (List Char)}
      (filling : Filler text (',' :: (later ++ rest))) (others : Body variants later rest) :
      Body variants (text ++ ',' :: later) rest
  | last {variant text rest : List Char} (entry : Entry variant text ('\x7d' :: rest)) :
      Body [variant] (text ++ ['\x7d']) rest
  | more {variant text later rest : List Char} {variants : List (List Char)}
      (entry : Entry variant text (',' :: (later ++ rest))) (others : Body variants later rest) :
      Body (variant :: variants) (text ++ ',' :: later) rest

section Reading

variable {c : Char} {variant text rest : List Char} {variants noted : List (List Char)}

/-- A character that means nothing to the reader is kept. -/
theorem readFrom_plain (plain : c ∉ [',', '\x7d', '\x7b', '(', '#'])
    (read : Atom.read? (c :: rest) = some (.char c, 1)) (kept : List Char)
    (noted : List (List Char)) (taken : Nat) :
    VariantList.readFrom kept noted taken (c :: rest) =
      VariantList.readFrom (c :: kept) noted (taken + 1) rest := by
  simp only [List.mem_cons, List.not_mem_nil, or_false, not_or] at plain
  obtain ⟨notComma, notCloser, notBrace, notParen, notHash⟩ := plain
  have noGroup : Delimiter.groupAfter? [.brace, .paren] c rest = none :=
    Delimiter.groupAfter?_of_ne (by simp [Delimiter.opener, notBrace, notParen]) rest
  rw [VariantList.readFrom_eq, read]
  dsimp only
  rw [if_neg notCloser, if_neg notComma, if_neg notHash, List.drop_succ_cons, List.drop_zero,
    noGroup]

theorem read?_space (blank : Text.isWhiteSpace c = true) (rest : List Char) :
    c ∉ [',', '\x7d', '\x7b', '(', '#'] ∧ Atom.read? (c :: rest) = some (.char c, 1) := by
  have other : ∀ marks : List Char, (∀ d ∈ marks, Text.isWhiteSpace d = false) → c ∉ marks := by
    intro marks notSpace member
    rw [notSpace c member] at blank
    cases blank
  exact ⟨other _ (by decide), Atom.read?_ordinary (other _ (by decide)) rest⟩

theorem skipLength_enclose {inner : List Char} (closes : Delimiter.bracket.Closes inner rest) :
    Attribute.skipLength (Delimiter.bracket.enclose inner ++ rest) =
      (Delimiter.bracket.enclose inner).length := by
  have split : Delimiter.bracket.enclose inner ++ rest = '[' :: (inner ++ ']' :: rest) :=
    Delimiter.enclose_append .bracket inner rest
  have length : Delimiter.bracket.closeLength (inner ++ ']' :: rest) = inner.length + 1 :=
    closes.closeLength
  have read : (Attribute.read? ('[' :: (inner ++ ']' :: rest))).map Attribute.length =
      some (0 + 1 + (inner.length + 1)) := by
    rw [← length]
    rfl
  obtain ⟨found, isFound, reach⟩ := Option.map_eq_some_iff.mp read
  unfold Attribute.skipLength
  rw [split, isFound, Delimiter.length_enclose]
  dsimp only
  omega

/-- Of what stands around a variant only white space is kept. -/
theorem Filler.readFrom_eq (filler : Filler text rest) (kept : List Char)
    (noted : List (List Char)) (taken : Nat) :
    ∃ blanks, (∀ c ∈ blanks, Text.isWhiteSpace c = true) ∧
      VariantList.readFrom kept noted taken (text ++ rest) =
        VariantList.readFrom (blanks ++ kept) noted (taken + text.length) rest := by
  induction filler generalizing kept taken with
  | nothing => exact ⟨[], nofun, rfl⟩
  | @space c text rest blank later ih =>
      obtain ⟨plain, read⟩ := read?_space blank (text ++ rest)
      obtain ⟨blanks, allBlank, reads⟩ := ih (c :: kept) (taken + 1)
      refine ⟨blanks ++ [c], ?_, ?_⟩
      · rw [List.forall_mem_append]
        exact ⟨allBlank, List.forall_mem_singleton.mpr blank⟩
      · rw [List.cons_append, readFrom_plain plain read, reads, List.length_cons,
          Nat.add_right_comm, Nat.add_assoc, List.append_assoc]
        rfl
  | @comment comment text rest read later ih =>
      obtain ⟨blanks, allBlank, reads⟩ := ih kept (taken + comment.length)
      refine ⟨blanks, allBlank, ?_⟩
      rw [List.append_assoc, VariantList.readFrom_eq, read]
      dsimp only
      rw [List.drop_left, reads, List.length_append, Nat.add_assoc]
  | @mark inner text rest closes later ih =>
      have bare : Atom.read? ('#' :: (Delimiter.bracket.enclose inner ++ (text ++ rest))) =
          some (.char '#', 1) :=
        Atom.read?_ordinary (by decide) _
      have skips := skipLength_enclose closes
      obtain ⟨blanks, allBlank, reads⟩ :=
        ih kept (taken + (1 + (Delimiter.bracket.enclose inner).length))
      refine ⟨blanks, allBlank, ?_⟩
      rw [List.cons_append, List.append_assoc, VariantList.readFrom_eq, bare]
      dsimp only
      rw [if_neg (by decide), if_neg (by decide), if_pos rfl, List.drop_succ_cons, List.drop_zero,
        skips, Nat.add_comm 1, List.drop_succ_cons, List.drop_left, Nat.add_comm _ 1, reads,
        List.length_cons, List.length_append]
      congr 1
      omega

/-- Units are kept as they are written. -/
theorem Units.readFrom_eq (units : Units text rest) (kept : List Char)
    (noted : List (List Char)) (taken : Nat) :
    VariantList.readFrom kept noted taken (text ++ rest) =
      VariantList.readFrom (text.reverse ++ kept) noted (taken + text.length) rest := by
  induction units generalizing kept taken with
  | nothing => rfl
  | @literal written text rest read later ih =>
      rw [List.append_assoc, VariantList.readFrom_eq, read]
      dsimp only
      rw [List.drop_left, ih, List.reverse_append, List.append_assoc, List.length_append,
        Nat.add_assoc]
  | @char c text rest plain read later ih =>
      rw [List.cons_append, readFrom_plain plain read, ih, List.reverse_cons, List.append_assoc,
        List.length_cons, Nat.add_right_comm, Nat.add_assoc]
      rfl
  | @group kind inner text rest payload closes later ih =>
      have goesOn : kind.opener ≠ '\x7d' ∧ kind.opener ≠ ',' ∧ kind.opener ≠ '#' := by
        cases kind <;> decide
      obtain ⟨notCloser, notComma, notHash⟩ := goesOn
      have whole : (inner ++ kind.closer :: (text ++ rest)).take (inner.length + 1) =
          inner ++ [kind.closer] := by
        rw [List.take_length_add_append]
        rfl
      have behind : (inner ++ kind.closer :: (text ++ rest)).drop (inner.length + 1) =
          text ++ rest := by
        rw [← List.drop_drop, List.drop_left]
        rfl
      rw [List.append_assoc, Delimiter.enclose_append, VariantList.readFrom_eq,
        Atom.read?_of_isBare (kind.isBare_opener _)]
      dsimp only
      rw [if_neg notCloser, if_neg notComma, if_neg notHash, List.drop_succ_cons, List.drop_zero,
        Delimiter.groupAfter?_opener payload, closes.closeLength]
      dsimp only
      rw [whole, Nat.add_comm 1, List.drop_succ_cons, behind, ih]
      have backwards : text.reverse ++ ((inner ++ [kind.closer]).reverse ++ kind.opener :: kept) =
          (kind.enclose inner ++ text).reverse ++ kept := by
        simp [Delimiter.enclose]
      have length : (kind.enclose inner ++ text).length =
          inner.length + 1 + 1 + text.length := by
        rw [List.length_append, Delimiter.length_enclose]
      rw [backwards, length, Nat.add_assoc taken]

theorem note_blanks {blanks : List Char} (blank : ∀ c ∈ blanks, Text.isWhiteSpace c = true)
    (noted : List (List Char)) : VariantList.note blanks noted = noted := by
  have nothing : Text.trim blanks.reverse = [] := by
    unfold Text.trim
    have trimmed := Text.trimStart_append (fun d member => blank d (List.mem_reverse.mp member)) []
    rw [List.append_nil] at trimmed
    rw [trimmed]
    rfl
  unfold VariantList.note
  rw [nothing]
  rfl

theorem Filler.note (filler : Filler text rest) (noted : List (List Char)) (taken : Nat) :
    ∃ progress, VariantList.readFrom [] noted taken (text ++ rest) =
        VariantList.readFrom progress noted (taken + text.length) rest ∧
      VariantList.note progress noted = noted := by
  obtain ⟨blanks, allBlank, reads⟩ := filler.readFrom_eq [] noted taken
  refine ⟨blanks, ?_, note_blanks allBlank noted⟩
  rw [reads, List.append_nil]

/-- A variant is noted without what surrounds it. -/
theorem Entry.note (entry : Entry variant text rest) (noted : List (List Char)) (taken : Nat) :
    ∃ progress, VariantList.readFrom [] noted taken (text ++ rest) =
        VariantList.readFrom progress noted (taken + text.length) rest ∧
      VariantList.note progress noted = variant :: noted := by
  obtain @⟨before, after, rest, filling, units, trimmed, behind⟩ := entry
  obtain ⟨blanks, allBlank, reads⟩ := filling.readFrom_eq [] noted taken
  obtain ⟨blanksBehind, allBlankBehind, readsBehind⟩ :=
    behind.readFrom_eq (variant.reverse ++ blanks) noted (taken + before.length + variant.length)
  refine ⟨blanksBehind ++ (variant.reverse ++ blanks), ?_, ?_⟩
  · rw [List.append_assoc, List.append_assoc, reads, List.append_nil, units.readFrom_eq,
      readsBehind, List.length_append, List.length_append, Nat.add_assoc, Nat.add_assoc]
  · have written : (blanksBehind ++ (variant.reverse ++ blanks)).reverse =
        blanks.reverse ++ (variant ++ blanksBehind.reverse) := by
      simp
    have noted' : Text.trim (blanksBehind ++ (variant.reverse ++ blanks)).reverse = variant := by
      rw [written]
      exact trimmed.trim_eq (fun d member => allBlank d (List.mem_reverse.mp member))
        (fun d member => allBlankBehind d (List.mem_reverse.mp member))
    unfold VariantList.note
    rw [noted', if_neg (by simpa using trimmed.filled)]

theorem readFrom_closer (progress : List Char) (noted : List (List Char)) (taken : Nat)
    (rest : List Char) : VariantList.readFrom progress noted taken ('\x7d' :: rest) =
      ⟨(VariantList.note progress noted).reverse, taken + 1, true⟩ := by
  rw [VariantList.readFrom_eq, Atom.read?_ordinary (by decide)]
  dsimp only
  rw [if_pos rfl]

theorem readFrom_comma (progress : List Char) (noted : List (List Char)) (taken : Nat)
    (rest : List Char) : VariantList.readFrom progress noted taken (',' :: rest) =
      VariantList.readFrom [] (VariantList.note progress noted) (taken + 1) rest := by
  rw [VariantList.readFrom_eq, Atom.read?_ordinary (by decide)]
  dsimp only
  rw [if_neg (by decide), if_pos rfl, List.drop_succ_cons, List.drop_zero]

/-- Behind what is noted of it, a body is read as its variants and ends at its brace. -/
theorem Body.readFrom_eq (body : Body variants text rest) (noted : List (List Char))
    (taken : Nat) : VariantList.readFrom [] noted taken (text ++ rest) =
      ⟨noted.reverse ++ variants, taken + text.length, true⟩ := by
  -- A comma starts the next variant afresh, behind one more that is noted.
  induction body generalizing noted taken with
  | @closed text rest filling =>
      obtain ⟨progress, reads, nothing⟩ := filling.note noted taken
      rw [List.append_assoc, List.singleton_append, reads, readFrom_closer, nothing,
        List.append_nil, List.length_append, List.length_singleton, Nat.add_assoc]
  | @blank text later rest variants filling others ih =>
      obtain ⟨progress, reads, nothing⟩ := filling.note noted taken
      rw [List.append_assoc, List.cons_append, reads, readFrom_comma, nothing, ih,
        List.length_append, List.length_cons, Nat.add_assoc, Nat.add_assoc, Nat.add_comm 1]
  | @last variant text rest entry =>
      obtain ⟨progress, reads, one⟩ := entry.note noted taken
      rw [List.append_assoc, List.singleton_append, reads, readFrom_closer, one,
        List.reverse_cons, List.length_append, List.length_singleton, Nat.add_assoc]
  | @more variant text later rest variants entry others ih =>
      obtain ⟨progress, reads, one⟩ := entry.note noted taken
      rw [List.append_assoc, List.cons_append, reads, readFrom_comma, one, ih,
        List.reverse_cons, List.append_assoc, List.singleton_append, List.length_append,
        List.length_cons, Nat.add_assoc, Nat.add_assoc, Nat.add_comm 1]

end Reading

end Written

/-! ### Heads -/

namespace Head

variable {c : Char} {text more word inner rest : List Char}

/-- The head of an enumeration keeps the text. -/
def Keeps (text rest : List Char) : Prop :=
  ∀ kept taken, readFrom [.angle] kept taken (text ++ rest) =
    readFrom [.angle] (text.reverse ++ kept) (taken + text.length) rest

theorem keeps_nil (rest : List Char) : Keeps [] rest :=
  fun _ _ => rfl

theorem Keeps.append (first : Keeps text (more ++ rest)) (later : Keeps more rest) :
    Keeps (text ++ more) rest := by
  intro kept taken
  rw [List.append_assoc, first, later, List.reverse_append, List.append_assoc,
    List.length_append, Nat.add_assoc]

theorem keeps_char (read : Atom.read? (c :: rest) = some (.char c, 1))
    (plain : c ∉ [';', '\x7b', '<']) : Keeps [c] rest := by
  simp only [List.mem_cons, List.not_mem_nil, or_false, not_or] at plain
  obtain ⟨notSemicolon, notBrace, notAngle⟩ := plain
  have noGroup : Delimiter.groupAfter? [.angle] c rest = none :=
    Delimiter.groupAfter?_of_ne (by simp [Delimiter.opener, notAngle]) rest
  intro kept taken
  rw [List.singleton_append, readFrom_eq, read]
  dsimp only
  rw [if_neg notSemicolon, if_neg notBrace, List.drop_succ_cons, List.drop_zero, noGroup]
  rfl

theorem keeps_word (parts : ∀ d ∈ word, Text.isWordPart d = true) (ends : Text.EndsWord rest) :
    Keeps word rest := by
  induction word with
  | nil => exact keeps_nil rest
  | cons c word ih =>
      have plain : c ∉ [';', '\x7b', '<'] :=
        Text.notMem_of_isWordPart (parts c List.mem_cons_self) (by decide)
      exact (keeps_char (Atom.read?_word parts ends) plain).append
        (ih fun d member => parts d (List.mem_cons_of_mem _ member))

theorem keeps_space (rest : List Char) : Keeps [' '] rest :=
  keeps_char (Signature.read?_level (by decide) rest) (by decide)

theorem keeps_spaces (spaces : Nat) (rest : List Char) :
    Keeps (List.replicate spaces ' ') rest := by
  induction spaces with
  | zero => exact keeps_nil rest
  | succ spaces ih => exact (keeps_space _).append ih

/-- The generic list of a head is stepped over. -/
theorem readFrom_angle (closes : Delimiter.angle.Closes inner rest) (kept : List Char)
    (taken : Nat) : readFrom [.angle] kept taken (Delimiter.angle.enclose inner ++ rest) =
      readFrom [.angle] kept (taken + (Delimiter.angle.enclose inner).length) rest := by
  have notEnd : Delimiter.angle.opener ≠ ';' ∧ Delimiter.angle.opener ≠ '\x7b' := by
    decide
  have behind : (inner ++ Delimiter.angle.closer :: rest).drop (inner.length + 1) = rest := by
    rw [← List.drop_drop, List.drop_left]
    rfl
  rw [Delimiter.length_enclose, Delimiter.enclose_append, readFrom_eq,
    Atom.read?_of_isBare (Delimiter.angle.isBare_opener _)]
  dsimp only
  rw [if_neg notEnd.1, if_neg notEnd.2, List.drop_succ_cons, List.drop_zero,
    Delimiter.groupAfter?_opener List.mem_cons_self, closes.closeLength]
  dsimp only
  rw [Nat.add_comm 1, List.drop_succ_cons, behind]

end Head

namespace Written

/-- An enumeration: its name, the inside of its generic list, its variants and the text of its
body, the closing brace included. -/
structure Enumeration where
  name : List Char
  isName : Text.isWord name = true
  generics? : Option (List Char)
  spaces : Nat
  variants : List (List Char)
  body : List Char

namespace Enumeration

variable {rest : List Char}

def generics (enumeration : Enumeration) : List Char :=
  (enumeration.generics?.map Delimiter.angle.enclose).getD []

/-- What stands between the keyword and the brace. -/
def head (enumeration : Enumeration) : List Char :=
  ' ' :: (enumeration.name ++
    (enumeration.generics ++ List.replicate enumeration.spaces ' '))

def text (enumeration : Enumeration) : List Char :=
  Keyword.enum.spelling ++ (enumeration.head ++ '\x7b' :: enumeration.body)

/-- The record of an enumeration that starts at the given place. -/
def record (enumeration : Enumeration) (start : Position) : EnumRecord where
  name := String.ofList enumeration.name
  span := ⟨start, start.pastAll enumeration.text, by
    rw [Position.pastAll_offset]
    exact Nat.le_add_right _ _⟩
  variants := enumeration.variants.map String.ofList

theorem enum?_record (enumeration : Enumeration) (start : Position) :
    Finding.enum? (.enum (String.ofList enumeration.name)
      (enumeration.variants.map String.ofList) ⟨start, start.pastAll enumeration.text⟩) =
        some (enumeration.record start) := by
  have spanned : Span.between start (start.pastAll enumeration.text) =
      .ok (enumeration.record start).span :=
    Span.between_of_le (enumeration.record start).span.ordered
  change (Span.between start (start.pastAll enumeration.text)).toOption.map _ = _
  rw [spanned]
  rfl

/-- The generic list and the body are closed by their own brackets, before the rest. -/
structure Closes (enumeration : Enumeration) (rest : List Char) : Prop where
  generics : ∀ inner ∈ enumeration.generics?, Delimiter.angle.Closes inner
    (List.replicate enumeration.spaces ' ' ++ '\x7b' :: (enumeration.body ++ rest))
  body : Body enumeration.variants enumeration.body rest

theorem endsWord_generics (enumeration : Enumeration) (ends : Text.EndsWord rest) :
    Text.EndsWord (enumeration.generics ++ rest) := by
  unfold generics
  cases enumeration.generics? with
  | none => exact ends
  | some inner => exact endsWord_enclose .angle inner rest

theorem readFrom_generics (enumeration : Enumeration)
    (closes : ∀ inner ∈ enumeration.generics?, Delimiter.angle.Closes inner rest)
    (kept : List Char) (taken : Nat) :
    Head.readFrom [.angle] kept taken (enumeration.generics ++ rest) =
      Head.readFrom [.angle] kept (taken + enumeration.generics.length) rest := by
  unfold generics
  cases isGeneric : enumeration.generics? with
  | none => rfl
  | some inner => exact Head.readFrom_angle (closes inner isGeneric) kept taken

/-- The head is read up to the brace; the generic list is not kept. -/
theorem read_head (enumeration : Enumeration) (closes : enumeration.Closes rest) :
    Head.read [.angle] (enumeration.head ++ '\x7b' :: (enumeration.body ++ rest)) =
      ⟨' ' :: (enumeration.name ++ List.replicate enumeration.spaces ' '),
        enumeration.head.length + 1, .brace⟩ := by
  have brace : Text.EndsWord ('\x7b' :: (enumeration.body ++ rest)) :=
    Text.endsWord_cons (by decide) (by decide) _
  have ends := enumeration.endsWord_generics ((endsWord_spaces enumeration.spaces).append brace)
  have parts := (Text.filled_parts_of_isWord enumeration.isName).2
  have named := (Head.keeps_space _).append (Head.keeps_word parts ends)
  have isBrace : Atom.read? ('\x7b' :: (enumeration.body ++ rest)) = some (.char '\x7b', 1) :=
    Atom.read?_ordinary (by decide) _
  have split : enumeration.head ++ '\x7b' :: (enumeration.body ++ rest) =
      [' '] ++ enumeration.name ++ (enumeration.generics ++
        (List.replicate enumeration.spaces ' ' ++ '\x7b' :: (enumeration.body ++ rest))) := by
    simp [head]
  have length : enumeration.head.length = ([' '] ++ enumeration.name).length +
      enumeration.generics.length + (List.replicate enumeration.spaces ' ').length := by
    simp only [head, List.length_cons, List.length_append, List.length_nil]
    omega
  unfold Head.read
  rw [split, named, enumeration.readFrom_generics closes.generics, Head.keeps_spaces,
    Head.readFrom_eq, isBrace, length]
  dsimp only
  rw [if_neg (by decide), if_pos rfl, Nat.zero_add]
  simp

/-- The name is what the head starts with. -/
theorem leadingName_head (enumeration : Enumeration) :
    Signature.leadingName (' ' :: (enumeration.name ++ List.replicate enumeration.spaces ' ')) =
      enumeration.name := by
  obtain ⟨filled, parts⟩ := Text.filled_parts_of_isWord enumeration.isName
  have trimmed := Text.isTrimmed_of_parts filled parts
  have start : Text.trimStart
      ([' '] ++ (enumeration.name ++ List.replicate enumeration.spaces ' ')) =
        enumeration.name ++ List.replicate enumeration.spaces ' ' := by
    rw [Text.trimStart_append (by decide), trimmed.trimStart_append]
  unfold Signature.leadingName
  rw [← List.singleton_append, start]
  apply Text.takeWhile_exact
  · intro c member
    have part := parts c member
    have notColon : c ≠ ':' := Text.ne_of_isWordPart part (by decide)
    have notAngle : c ≠ '<' := Text.ne_of_isWordPart part (by decide)
    simp [Text.isWhiteSpace_of_isWordPart part, notColon, notAngle]
  · intro c first
    have blank := isWhiteSpace_of_mem_spaces c (List.mem_of_mem_head? first)
    rw [blank]
    rfl

/-- What is read behind the keyword is the enumeration up to its closing brace. -/
theorem afterEnum_eq (enumeration : Enumeration) (start : Position) (cursor : Cursor)
    (split : cursor.rest = enumeration.head ++ '\x7b' :: (enumeration.body ++ rest))
    (place : cursor.place = start.pastAll Keyword.enum.spelling)
    (closes : enumeration.Closes rest) :
    Finding.afterEnum start cursor =
      ⟨[.enum (String.ofList enumeration.name) (enumeration.variants.map String.ofList)
          ⟨start, start.pastAll enumeration.text⟩],
        (enumeration.head ++ '\x7b' :: enumeration.body).length⟩ := by
  have behind : (enumeration.head ++ '\x7b' :: (enumeration.body ++ rest)).drop
      (enumeration.head.length + 1) = enumeration.body ++ rest := by
    rw [← List.drop_drop, List.drop_left]
    rfl
  have body : VariantList.read (enumeration.body ++ rest) =
      ⟨enumeration.variants, enumeration.body.length, true⟩ := by
    have reads := closes.body.readFrom_eq [] 0
    rw [Nat.zero_add] at reads
    exact reads
  have length : enumeration.head.length + 1 + enumeration.body.length =
      (enumeration.head ++ '\x7b' :: enumeration.body).length := by
    rw [List.length_append, List.length_cons]
    omega
  have whole : enumeration.head ++ '\x7b' :: (enumeration.body ++ rest) =
      (enumeration.head ++ '\x7b' :: enumeration.body) ++ rest := by
    rw [List.append_assoc, List.cons_append]
  have stop : (cursor.skip (enumeration.head ++ '\x7b' :: enumeration.body).length).place =
      start.pastAll enumeration.text := by
    unfold Cursor.skip
    rw [split, whole, List.take_left, place, ← Position.pastAll_append]
    rfl
  have named : enumeration.name.isEmpty = false := by
    simpa using (Text.filled_parts_of_isWord enumeration.isName).1
  unfold Finding.afterEnum
  rw [split, enumeration.read_head closes]
  dsimp only
  rw [enumeration.leadingName_head, named, if_neg Bool.false_ne_true, if_pos rfl, behind, body]
  dsimp only
  rw [length, stop, if_pos rfl, List.nil_append]

end Enumeration

/-! ### Names of variants -/

/-- What a variant may carry: nothing, or a group. -/
inductive Payload : List Char → Prop
  | nothing : Payload []
  | group {kind : Delimiter} (carries : kind ∈ [.brace, .paren]) (inner : List Char) :
      Payload (kind.enclose inner)

/-- What a variant may be equal to: nothing, or an expression. -/
inductive Value : List Char → Prop
  | nothing : Value []
  | equals (expression : List Char) : Value ('=' :: expression)

/-- The variant is the name, with a payload and a value behind it. -/
inductive Declares : List Char → List Char → Prop
  | mk {name gap payload more value : List Char} (isName : Text.isWord name = true)
      (blankGap : ∀ c ∈ gap, Text.isWhiteSpace c = true)
      (blankMore : ∀ c ∈ more, Text.isWhiteSpace c = true)
      (carries : Payload payload) (values : Value value) :
      Declares name (name ++ (gap ++ (payload ++ (more ++ value))))

/-- A variant is named up to its payload or its value, without the white space before them. -/
theorem variantName_split {name blanks after : List Char} (isName : Text.isWord name = true)
    (blank : ∀ c ∈ blanks, Text.isWhiteSpace c = true)
    (stops : ∀ c, after.head? = some c → c ∈ [':', '\x7b', '(', '=']) :
    variantName (String.ofList (name ++ (blanks ++ after))) = String.ofList name := by
  obtain ⟨filled, parts⟩ := Text.filled_parts_of_isWord isName
  have marks : ∀ d ∈ [':', '\x7b', '(', '='],
      Text.isWordPart d = false ∧ Text.isWhiteSpace d = false := by
    decide
  have notMark : ∀ c ∈ name ++ blanks, c ∉ [':', '\x7b', '(', '='] := by
    intro c member isMark
    obtain ⟨notPart, notSpace⟩ := marks c isMark
    rcases List.mem_append.mp member with isPart | isBlank
    · rw [parts c isPart] at notPart
      cases notPart
    · rw [blank c isBlank] at notSpace
      cases notSpace
  have taken : (name ++ blanks ++ after).takeWhile
      (fun c => !(c == ':' || c == '\x7b' || c == '(' || c == '=')) = name ++ blanks := by
    apply Text.takeWhile_exact
    · intro c member
      have other := notMark c member
      simp only [List.mem_cons, List.not_mem_nil, or_false, not_or] at other
      simp [other]
    · intro c first
      have isMark := stops c first
      simp only [List.mem_cons, List.not_mem_nil, or_false] at isMark
      rcases isMark with rfl | rfl | rfl | rfl <;> rfl
  have trimmed : Text.trim ([] ++ (name ++ blanks)) = name :=
    (Text.isTrimmed_of_parts filled parts).trim_eq nofun blank
  unfold variantName
  dsimp only
  rw [String.toList_ofList, ← List.append_assoc, taken]
  exact congrArg String.ofList trimmed

theorem Declares.variantName_eq {name variant : List Char} (declares : Declares name variant) :
    variantName (String.ofList variant) = String.ofList name := by
  cases declares with
  | @mk gap payload more value isName blankGap blankMore carries values =>
      have stops : ∀ c, value.head? = some c → c ∈ [':', '\x7b', '(', '='] := by
        intro c first
        cases values with
        | nothing => cases first
        | equals expression =>
            cases first
            decide
      cases carries with
      | nothing =>
          have blank : ∀ c ∈ gap ++ more, Text.isWhiteSpace c = true :=
            List.forall_mem_append.mpr ⟨blankGap, blankMore⟩
          rw [List.nil_append, ← List.append_assoc gap]
          exact variantName_split isName blank stops
      | @group kind member inner =>
          refine variantName_split isName blankGap ?_
          rw [Delimiter.enclose_append]
          rintro c ⟨⟩
          revert member
          cases kind <;> decide

/-- The names of the variants are those that they declare. -/
theorem map_variantName {names variants : List (List Char)}
    (declared : List.Forall₂ Declares names variants) :
    (variants.map String.ofList).map variantName = names.map String.ofList := by
  induction declared with
  | nil => rfl
  | cons declares _ ih =>
      rw [List.map_cons, List.map_cons, List.map_cons, declares.variantName_eq, ih]

/-! ### Enumerations in a file -/

/-- A written enumeration at the start of a file is the first enumeration of the survey, with the
name, the variants and the extent that it was written with. Where the variants are names, with
payloads and values behind them, these are their names. -/
theorem survey_enum (config : Config) (enumeration : Enumeration) (rest : List Char)
    (closes : enumeration.Closes rest)
    (small : Text.byteLength (enumeration.text ++ rest) ≤ 2 ^ 32 - 3) :
    ∃ inventory enum, survey config (String.ofList (enumeration.text ++ rest)) = .ok inventory ∧
      inventory.enums[0]? = some enum ∧
      enum.name = String.ofList enumeration.name ∧
      enum.variants = enumeration.variants.map String.ofList ∧
      enum.span.start = .start ∧ enum.span.stop = .ofText enumeration.text ∧
      ∀ names, List.Forall₂ Declares names enumeration.variants →
        enum.variantNames = names.map String.ofList := by
  have whole : enumeration.text ++ rest = Keyword.enum.spelling ++
      (enumeration.head ++ '\x7b' :: (enumeration.body ++ rest)) := by
    unfold Enumeration.text
    rw [List.append_assoc, List.append_assoc, List.cons_append]
  have ends : Text.EndsWord (enumeration.head ++ '\x7b' :: (enumeration.body ++ rest)) :=
    endsWord_of_mem (by decide) _
  obtain ⟨_, found⟩ := Finding.ofText_keyword config .enum ends
  have visit := enumeration.afterEnum_eq .start
    ⟨enumeration.head ++ '\x7b' :: (enumeration.body ++ rest), .ofText Keyword.enum.spelling⟩
    rfl rfl closes
  have enums : ∃ later,
      (Inventory.ofFindings (Finding.ofText config (enumeration.text ++ rest))).enums =
        enumeration.record .start :: later := by
    rw [Inventory.ofFindings_enums, whole, found, List.filterMap_append]
    refine ⟨_, congrArg (· ++ _) (?_ : _ = [enumeration.record .start])⟩
    change (Finding.afterEnum .start ⟨_, .ofText Keyword.enum.spelling⟩).found.filterMap _ = _
    rw [visit, List.filterMap_cons_some (enumeration.enum?_record .start)]
    rfl
  obtain ⟨later, enums⟩ := enums
  refine ⟨_, enumeration.record .start, survey_ofList config small, ?_, rfl, rfl, rfl, rfl, ?_⟩
  · exact congrArg (·[0]?) enums
  · exact fun names declared => map_variantName declared

/-- Commas stand in an attribute, in a payload and in a comment, a brace in a literal; the second
variant has a value, and a comma behind it. -/
theorem survey_enum_commas :
    let payload := "u8, \"\x7d\"".toList
    let fields := " x: [u8; 2] ".toList
    let marked := [' '] ++ ('#' :: (Delimiter.bracket.enclose "doc = \"a, b\"".toList ++ [' ']))
    let remark := "/* c, \x7d */".toList
    let remarked := [' '] ++ (remark ++ [' '])
    let first := 'A' :: (Delimiter.paren.enclose payload ++ [])
    let second := 'B' :: ' ' :: (Delimiter.brace.enclose fields ++ [' ', '=', ' ', '1'])
    let enumeration : Enumeration :=
      { name := "Code".toList
        isName := rfl
        generics? := some "T: Fn() -> u8".toList
        spaces := 1
        variants := [first, second]
        body := marked ++ (first ++ []) ++ ',' :: (remarked ++ (second ++ []) ++ ',' ::
          ([' '] ++ ['\x7d'])) }
    let rest := " fn f() \x7b\x7d".toList
    enumeration.text = ("enum Code<T: Fn() -> u8> \x7b #[doc = \"a, b\"] A(u8, \"\x7d\"), " ++
        "/* c, \x7d */ B \x7b x: [u8; 2] \x7d = 1, \x7d").toList ∧
      enumeration.Closes rest ∧
      ∃ inventory enum,
        survey .standard (String.ofList (enumeration.text ++ rest)) = .ok inventory ∧
        inventory.enums[0]? = some enum ∧ enum.name = "Code" ∧
        enum.variants = ["A(u8, \"\x7d\")", "B \x7b x: [u8; 2] \x7d = 1"] ∧
        enum.variantNames = ["A", "B"] ∧
        enum.span.start = .start ∧ enum.span.stop = .ofText enumeration.text := by
  intro payload fields marked remark remarked first second enumeration rest
  have closes : enumeration.Closes rest := by
    refine ⟨?_, .more ?_ (.more ?_ (.closed (.space (by decide) (.nothing _))))⟩
    · rintro inner ⟨⟩
      unfold Delimiter.Closes
      decide +kernel
    · refine .mk (.space (by decide) (.mark ?_ (.space (by decide) (.nothing _))))
        ?_ ?_ (.nothing _)
      · unfold Delimiter.Closes
        decide +kernel
      · refine .char (by decide) (by decide +kernel) (.group (by decide) ?_ (.nothing _))
        unfold Delimiter.Closes
        decide +kernel
      · exact .cons (by decide) [] (Text.isTrimmed_enclose .paren payload)
    · refine .mk (.space (by decide) (@Filler.comment remark [' '] _ (by decide +kernel)
        (.space (by decide) (.nothing _)))) ?_ ?_ (.nothing _)
      · refine .char (by decide) (by decide +kernel) (.char (by decide) (by decide +kernel)
          (.group (by decide) ?_ (.char (by decide) (by decide +kernel)
            (.char (by decide) (by decide +kernel) (.char (by decide) (by decide +kernel)
              (.char (by decide) (by decide +kernel) (.nothing _)))))))
        unfold Delimiter.Closes
        decide +kernel
      · constructor
        · exact List.cons_ne_nil _ _
        · rintro c ⟨⟩
          decide
        · rintro c ⟨⟩
          decide
  have declared : List.Forall₂ Declares ["A".toList, "B".toList] [first, second] := by
    refine .cons ?_ (.cons ?_ .nil)
    · exact @Declares.mk ['A'] [] _ [] _ (by decide +kernel) nofun nofun
        (.group (by decide) payload) .nothing
    · exact @Declares.mk ['B'] [' '] _ [' '] _ (by decide +kernel) (by decide) (by decide)
        (.group (by decide) fields) (.equals [' ', '1'])
  obtain ⟨inventory, enum, surveyed, isFirst, name, variants, start, stop, names⟩ :=
    survey_enum .standard enumeration rest closes (by decide +kernel)
  exact ⟨by decide +kernel, closes, inventory, enum, surveyed, isFirst,
    name.trans (by decide +kernel), variants.trans (by decide +kernel),
    (names _ declared).trans (by decide +kernel), start, stop⟩

end Written
end Survey
