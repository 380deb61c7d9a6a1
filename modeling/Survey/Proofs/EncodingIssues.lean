import Survey.Proofs.MaximalSubparts

set_option autoImplicit false

/-!
# Encoding issues

The issues of an input are found by starting over: a validator reads on from an offset up to
the first ill-formed bytes, these are recorded, and it is started again behind them. The text
comes from a decoder that knows nothing of the issues. Where both follow the rule of the
maximal subparts they cut the input at the same places, and the one pass over the input that
`decode` makes gives the issues of the one and the text of the other.
-/

namespace Survey
namespace Encoding

open String (utf8EncodeChar)

/-- The bytes are UTF-8. -/
def IsUtf8 (bytes : List UInt8) : Prop := bytes.toByteArray.IsValidUTF8

theorem isUtf8_iff {bytes : List UInt8} :
    IsUtf8 bytes ↔ ∃ text : List Char, bytes = text.flatMap utf8EncodeChar := by
  constructor
  · rintro ⟨text, encoded⟩
    exact ⟨text, List.toByteArray_inj.mp encoded⟩
  · rintro ⟨text, rfl⟩
    exact ⟨text, rfl⟩

/-! ### Issues of ill-formed pieces -/

/-- The ill-formed pieces of bytes that start at some offset. -/
def illFormedFrom (start : Nat) (bytes : List UInt8) : List Issue :=
  illFormedIssues (piecesFrom start bytes)

theorem illFormedFrom_nil (start : Nat) : illFormedFrom start [] = [] := rfl

theorem illFormedFrom_encodeChar_append (start : Nat) (c : Char) (rest : List UInt8) :
    illFormedFrom start (utf8EncodeChar c ++ rest) =
      illFormedFrom (start + c.utf8Size) rest := by
  unfold illFormedFrom
  rw [piecesFrom_encodeChar_append]
  rfl

theorem illFormedFrom_encode_append (start : Nat) (text : List Char) (rest : List UInt8) :
    illFormedFrom start (text.flatMap utf8EncodeChar ++ rest) =
      illFormedFrom (start + (text.flatMap utf8EncodeChar).length) rest := by
  induction text generalizing start with
  | nil => rfl
  | cons c text ih =>
      rw [List.flatMap_cons, List.append_assoc, illFormedFrom_encodeChar_append, ih,
        List.length_append, String.length_utf8EncodeChar, Nat.add_assoc]

theorem illFormedFrom_encode (start : Nat) (text : List Char) :
    illFormedFrom start (text.flatMap utf8EncodeChar) = [] := by
  have alone := illFormedFrom_encode_append start text []
  rw [List.append_nil] at alone
  rw [alone, illFormedFrom_nil]

theorem IsIllFormed.illFormedFrom_eq {bytes : List UInt8} {width start : Nat}
    (illFormed : IsIllFormed bytes width) (small : start < Counter.limit) :
    illFormedFrom start bytes =
      ⟨.illFormed, start, width⟩ :: illFormedFrom (start + width) (bytes.drop width) := by
  unfold illFormedFrom
  rw [illFormed.piecesFrom_eq]
  exact List.filterMap_cons_some (if_pos ⟨rfl, small⟩)

/-- A recorded range lies in the input and holds one to three bytes. -/
theorem inside_of_mem_illFormedFrom {bytes : List UInt8} {start : Nat} {issue : Issue}
    (small : start + bytes.length ≤ Counter.limit) (recorded : issue ∈ illFormedFrom start bytes) :
    start ≤ issue.offset ∧ issue.offset + issue.length ≤ start + bytes.length ∧
      1 ≤ issue.length ∧ issue.length ≤ 3 := by
  induction bytes using piece_induction generalizing start with
  | nil => cases recorded
  | char c rest ih =>
      rw [illFormedFrom_encodeChar_append] at recorded
      rw [List.length_append, String.length_utf8EncodeChar] at small ⊢
      have later := ih (by omega) recorded
      omega
  | illFormed bytes width bad ih =>
      have positive := bad.positive
      have inside := bad.inside
      have most := bad.width_le
      rw [bad.illFormedFrom_eq (by omega)] at recorded
      rw [List.length_drop] at ih
      rcases List.mem_cons.mp recorded with rfl | recorded
      · dsimp only
        omega
      · have later := ih (by omega) recorded
        omega

/-- The recorded ranges are disjoint, and they are in order. -/
theorem pairwise_illFormedFrom {bytes : List UInt8} {start : Nat}
    (small : start + bytes.length ≤ Counter.limit) :
    (illFormedFrom start bytes).Pairwise
      fun earlier later => earlier.offset + earlier.length ≤ later.offset := by
  induction bytes using piece_induction generalizing start with
  | nil => exact .nil
  | char c rest ih =>
      rw [List.length_append, String.length_utf8EncodeChar] at small
      rw [illFormedFrom_encodeChar_append]
      exact ih (by omega)
  | illFormed bytes width bad ih =>
      have positive := bad.positive
      have inside := bad.inside
      have left : start + width + (bytes.drop width).length ≤ Counter.limit := by
        rw [List.length_drop]
        omega
      rw [bad.illFormedFrom_eq (by omega)]
      refine .cons ?_ (ih left)
      intro later recorded
      exact (inside_of_mem_illFormedFrom left recorded).1

/-- Nothing is recorded of UTF-8, and of nothing else. -/
theorem illFormedFrom_eq_nil_iff {bytes : List UInt8} {start : Nat}
    (small : start + bytes.length ≤ Counter.limit) :
    illFormedFrom start bytes = [] ↔ IsUtf8 bytes := by
  rw [isUtf8_iff]
  constructor
  · intro silent
    induction bytes using piece_induction generalizing start with
    | nil => exact ⟨[], rfl⟩
    | char c rest ih =>
        rw [List.length_append, String.length_utf8EncodeChar] at small
        rw [illFormedFrom_encodeChar_append] at silent
        obtain ⟨text, rfl⟩ := ih (by omega) silent
        exact ⟨c :: text, rfl⟩
    | illFormed bytes width bad ih =>
        have positive := bad.positive
        have inside := bad.inside
        rw [bad.illFormedFrom_eq (by omega)] at silent
        cases silent
  · rintro ⟨text, rfl⟩
    exact illFormedFrom_encode start text

/-! ### Replacing the recorded ranges -/

/-- The bytes of the replacement character. -/
def replacement : List UInt8 := [0xEF, 0xBF, 0xBD]

/-- The input with the replacement character in the place of every recorded range. The last
range is replaced first, so the offsets of the others stay what they are. -/
def replaced (bytes : List UInt8) (issues : List Issue) : List UInt8 :=
  issues.foldr
    (fun issue bytes =>
      bytes.take issue.offset ++ replacement ++ bytes.drop (issue.offset + issue.length))
    bytes

/-- Replacing the ranges behind some bytes gives these bytes and the text behind them. -/
theorem replaced_append {front bytes : List UInt8}
    (small : front.length + bytes.length ≤ Counter.limit) :
    replaced (front ++ bytes) (illFormedFrom front.length bytes) =
      front ++ ((piecesFrom front.length bytes).map Piece.shown).flatMap utf8EncodeChar := by
  induction bytes using piece_induction generalizing front with
  | nil => rfl
  | char c rest ih =>
      have size : (front ++ utf8EncodeChar c).length = front.length + c.utf8Size := by
        rw [List.length_append, String.length_utf8EncodeChar]
      rw [List.length_append, String.length_utf8EncodeChar] at small
      have behind := @ih (front ++ utf8EncodeChar c) (by omega)
      rw [size, List.append_assoc, List.append_assoc] at behind
      rw [illFormedFrom_encodeChar_append, behind, piecesFrom_encodeChar_append]
      rfl
  | illFormed bytes width bad ih =>
      have positive := bad.positive
      have inside := bad.inside
      have size : (front ++ bytes.take width).length = front.length + width := by
        rw [List.length_append, List.length_take_of_le inside]
      have behind := @ih (front ++ bytes.take width) (by rw [List.length_drop]; omega)
      rw [size, List.append_assoc, List.append_assoc, List.take_append_drop] at behind
      have shown : utf8EncodeChar '\uFFFD' = replacement := by decide
      rw [bad.illFormedFrom_eq (by omega), bad.piecesFrom_eq, replaced, List.foldr_cons]
      change (replaced (front ++ bytes) _).take _ ++ _ ++ (replaced (front ++ bytes) _).drop _ = _
      rw [behind, List.take_left, ← List.append_assoc front, ← size, List.drop_left,
        List.map_cons, List.flatMap_cons, Piece.shown, Option.getD_none, shown, List.append_assoc]

/-! ### Starting over -/

/-- Where a validator stops: the number of bytes that are UTF-8, and of the ill-formed bytes
behind them, or nothing where the input ends in the middle of a character. -/
structure Failure where
  validUpTo : Nat
  length? : Option Nat
deriving DecidableEq, Repr

/-- A validator that stops at the first maximal subpart. -/
structure Validator where
  failure? : List UInt8 → Option Failure
  accepts : ∀ {bytes}, failure? bytes = none → IsUtf8 bytes
  valid : ∀ {bytes failure}, failure? bytes = some failure →
    IsUtf8 (bytes.take failure.validUpTo)
  stops : ∀ {bytes failure}, failure? bytes = some failure →
    IsIllFormed (bytes.drop failure.validUpTo)
      (failure.length?.getD (bytes.length - failure.validUpTo))

/-- A failure takes bytes, so what is started over starts further on. -/
theorem Validator.advances (validator : Validator) {bytes : List UInt8} {offset : Nat}
    {failure : Failure} (failed : validator.failure? (bytes.drop offset) = some failure) :
    0 < failure.length?.getD (bytes.length - (offset + failure.validUpTo)) := by
  have positive := (validator.stops failed).positive
  rwa [List.length_drop, Nat.sub_sub] at positive

/-- The issues from an offset on: the validator is started over behind every failure. -/
def Validator.issuesFrom (validator : Validator) (bytes : List UInt8) (offset : Nat) :
    List Issue :=
  if offset < bytes.length then
    match failed : validator.failure? (bytes.drop offset) with
    | none => []
    | some failure =>
        let start := offset + failure.validUpTo
        let width := failure.length?.getD (bytes.length - start)
        have : 0 < width := validator.advances failed
        let later := validator.issuesFrom bytes (start + width)
        if start < Counter.limit ∧ width < Counter.limit then
          ⟨.illFormed, start, width⟩ :: later
        else later
  else []
termination_by bytes.length - offset
decreasing_by
  dsimp only [width, start] at this ⊢
  omega

/-- A decoder that shows every maximal subpart as one replacement character. -/
structure Replacer where
  decode : List UInt8 → List Char
  nil : decode [] = []
  char : ∀ c rest, decode (utf8EncodeChar c ++ rest) = c :: decode rest
  illFormed : ∀ {bytes width}, IsIllFormed bytes width →
    decode bytes = '\uFFFD' :: decode (bytes.drop width)

/-- What is recorded where the validator stops, and what is left behind it. -/
theorem illFormedFrom_of_stop {bytes : List UInt8} {validUpTo width start : Nat}
    (small : start + bytes.length ≤ Counter.limit) (valid : IsUtf8 (bytes.take validUpTo))
    (illFormed : IsIllFormed (bytes.drop validUpTo) width) :
    start + validUpTo + width ≤ start + bytes.length ∧
      illFormedFrom start bytes =
        ⟨.illFormed, start + validUpTo, width⟩ ::
          illFormedFrom (start + validUpTo + width) (bytes.drop (validUpTo + width)) := by
  have positive := illFormed.positive
  have inside := illFormed.inside
  rw [List.length_drop] at inside
  obtain ⟨text, encoded⟩ := isUtf8_iff.mp valid
  have size : (text.flatMap utf8EncodeChar).length = validUpTo := by
    rw [← encoded, List.length_take_of_le (by omega)]
  refine ⟨by omega, ?_⟩
  calc illFormedFrom start bytes
      = illFormedFrom start (text.flatMap utf8EncodeChar ++ bytes.drop validUpTo) := by
        rw [← encoded, List.take_append_drop]
    _ = illFormedFrom (start + validUpTo) (bytes.drop validUpTo) := by
        rw [illFormedFrom_encode_append, size]
    _ = _ := by
        rw [illFormed.illFormedFrom_eq (by omega), List.drop_drop]

/-- A failure behind the offset is the first ill-formed piece from there on, and its numbers
are counters. -/
theorem Validator.illFormedFrom_of_failure (validator : Validator) {bytes : List UInt8}
    (small : bytes.length ≤ Counter.limit) {offset : Nat} (inside : offset < bytes.length)
    {failure : Failure} (failed : validator.failure? (bytes.drop offset) = some failure) :
    let start := offset + failure.validUpTo
    let width := failure.length?.getD (bytes.length - start)
    (start < Counter.limit ∧ width < Counter.limit) ∧
      illFormedFrom offset (bytes.drop offset) =
        ⟨.illFormed, start, width⟩ ::
          illFormedFrom (start + width) (bytes.drop (start + width)) := by
  have advances := validator.advances failed
  have illFormed := validator.stops failed
  rw [List.length_drop, Nat.sub_sub] at illFormed
  have most := illFormed.width_le
  have left : offset + (bytes.drop offset).length = bytes.length := by
    rw [List.length_drop]
    omega
  obtain ⟨within, recorded⟩ :=
    illFormedFrom_of_stop (left ▸ small) (validator.valid failed) illFormed
  rw [List.drop_drop, ← Nat.add_assoc] at recorded
  have limit : Counter.limit = 4294967296 := rfl
  exact ⟨by omega, recorded⟩

/-- Starting over finds the ill-formed pieces. -/
theorem Validator.issuesFrom_eq (validator : Validator) {bytes : List UInt8}
    (small : bytes.length ≤ Counter.limit) (offset : Nat) :
    validator.issuesFrom bytes offset = illFormedFrom offset (bytes.drop offset) := by
  fun_induction Validator.issuesFrom validator bytes offset with
  | case1 offset inside failed =>
      obtain ⟨text, encoded⟩ := isUtf8_iff.mp (validator.accepts failed)
      rw [encoded, illFormedFrom_encode]
  | case2 offset inside failure failed start width advances later counters ih =>
      rw [(validator.illFormedFrom_of_failure small inside failed).2, ← ih]
  | case3 offset inside failure failed start width advances later noCounters ih =>
      -- No failure of an input this short is left out.
      exact absurd (validator.illFormedFrom_of_failure small inside failed).1 noCounters
  | case4 offset outside =>
      rw [List.drop_eq_nil_of_le (by omega), illFormedFrom_nil]

theorem Replacer.decode_eq (replacer : Replacer) (bytes : List UInt8) (start : Nat) :
    replacer.decode bytes = (piecesFrom start bytes).map Piece.shown := by
  induction bytes using piece_induction generalizing start with
  | nil => exact replacer.nil
  | char c rest ih =>
      rw [replacer.char, piecesFrom_encodeChar_append, List.map_cons, ← ih]
      rfl
  | illFormed bytes width bad ih =>
      rw [replacer.illFormed bad, bad.piecesFrom_eq, List.map_cons, ← ih]
      rfl

/-! ### A validator and a replacer -/

/-- The first ill-formed piece stands behind UTF-8. -/
theorem find?_piecesFrom (bytes : List UInt8) (start : Nat) :
    ((piecesFrom start bytes).find? (fun piece => piece.char? = none) = none ∧ IsUtf8 bytes) ∨
      ∃ validUpTo width,
        (piecesFrom start bytes).find? (fun piece => piece.char? = none) =
            some ⟨start + validUpTo, width, none⟩ ∧
          IsUtf8 (bytes.take validUpTo) ∧ IsIllFormed (bytes.drop validUpTo) width := by
  induction bytes using piece_induction generalizing start with
  | nil => exact .inl ⟨rfl, isUtf8_iff.mpr ⟨[], rfl⟩⟩
  | char c rest ih =>
      rw [piecesFrom_encodeChar_append, List.find?_cons_of_neg (by simp)]
      rcases ih (start + c.utf8Size) with ⟨silent, valid⟩ | ⟨validUpTo, width, found, valid, bad⟩
      · obtain ⟨text, rfl⟩ := isUtf8_iff.mp valid
        exact .inl ⟨silent, isUtf8_iff.mpr ⟨c :: text, rfl⟩⟩
      · obtain ⟨text, encoded⟩ := isUtf8_iff.mp valid
        refine .inr ⟨c.utf8Size + validUpTo, width, ?_, ?_, ?_⟩
        · rw [found, Nat.add_assoc]
        · refine isUtf8_iff.mpr ⟨c :: text, ?_⟩
          rw [← String.length_utf8EncodeChar, List.take_length_add_append, encoded,
            List.flatMap_cons]
        · rwa [← String.length_utf8EncodeChar, List.drop_length_add_append]
  | illFormed bytes width bad _ =>
      refine .inr ⟨0, width, ?_, isUtf8_iff.mpr ⟨[], rfl⟩, bad⟩
      rw [bad.piecesFrom_eq, List.find?_cons_of_pos (by simp)]
      rfl

/-- The input ends in the middle of the piece: its first byte asks for more. -/
def IsTruncated (bytes : List UInt8) (piece : Piece) : Prop :=
  piece.start + piece.width = bytes.length ∧
    (bytes[piece.start]?.bind fun byte => lead? byte.toNat).isSome

instance (bytes : List UInt8) (piece : Piece) : Decidable (IsTruncated bytes piece) := by
  unfold IsTruncated
  infer_instance

/-- The validator that stops at the first ill-formed piece of the reader. -/
def Validator.ofPieces : Validator where
  failure? bytes :=
    ((pieces bytes).find? fun piece => piece.char? = none).map fun piece =>
      ⟨piece.start, if IsTruncated bytes piece then none else some piece.width⟩
  accepts := by
    intro bytes none
    rw [pieces_eq_piecesFrom, Option.map_eq_none_iff] at none
    rcases find?_piecesFrom bytes 0 with ⟨_, valid⟩ | ⟨_, _, found, _⟩
    · exact valid
    · rw [none] at found
      cases found
  valid := by
    intro bytes failure failed
    rw [pieces_eq_piecesFrom] at failed
    rcases find?_piecesFrom bytes 0 with ⟨silent, _⟩ | ⟨validUpTo, width, found, valid, _⟩
    · rw [silent] at failed
      cases failed
    · rw [found, Nat.zero_add, Option.map_some] at failed
      cases failed
      exact valid
  stops := by
    intro bytes failure failed
    rw [pieces_eq_piecesFrom] at failed
    rcases find?_piecesFrom bytes 0 with ⟨silent, _⟩ | ⟨validUpTo, width, found, _, bad⟩
    · rw [silent] at failed
      cases failed
    · rw [found, Nat.zero_add, Option.map_some] at failed
      cases failed
      dsimp only
      split
      · rename_i truncated
        have last : bytes.length - validUpTo = width := by
          have ends := truncated.1
          dsimp only at ends
          omega
        rwa [Option.getD_none, last]
      · exact bad

/-- Where the bytes start makes no difference to what is shown. -/
theorem map_shown_piecesFrom (start : Nat) (bytes : List UInt8) :
    (piecesFrom start bytes).map Piece.shown = (pieces bytes).map Piece.shown := by
  rw [pieces_eq_piecesFrom]
  induction bytes using piece_induction generalizing start with
  | nil => rfl
  | char c rest ih =>
      rw [piecesFrom_encodeChar_append, piecesFrom_encodeChar_append, List.map_cons,
        List.map_cons, ih, ih (0 + c.utf8Size)]
      rfl
  | illFormed bytes width bad ih =>
      rw [bad.piecesFrom_eq, bad.piecesFrom_eq, List.map_cons, List.map_cons, ih, ih (0 + width)]
      rfl

/-- The decoder that shows the pieces of the reader. -/
def Replacer.ofPieces : Replacer where
  decode bytes := (pieces bytes).map Piece.shown
  nil := rfl
  char c rest := by
    rw [pieces_eq_piecesFrom, piecesFrom_encodeChar_append, List.map_cons, map_shown_piecesFrom]
    rfl
  illFormed := by
    intro bytes width bad
    rw [pieces_eq_piecesFrom, bad.piecesFrom_eq, List.map_cons, map_shown_piecesFrom]
    rfl

/-! ### Zero bytes and byte order marks -/

theorem mem_zeroIssues {bytes : List UInt8} {issue : Issue} :
    issue ∈ zeroIssues bytes ↔ issue.kind = .zeroByte ∧ bytes[issue.offset]? = some 0 ∧
      issue.offset < Counter.limit ∧ issue.length = 1 := by
  unfold zeroIssues
  rw [List.mem_filterMap]
  constructor
  · rintro ⟨⟨byte, offset⟩, placed, recorded⟩
    dsimp only at recorded
    split at recorded
    · rename_i zero
      cases recorded
      rw [List.mem_zipIdx_iff_getElem?, zero.1] at placed
      exact ⟨rfl, placed, zero.2, rfl⟩
    · cases recorded
  · obtain ⟨kind, offset, length⟩ := issue
    rintro ⟨rfl, placed, small, rfl⟩
    exact ⟨(0, offset), List.mem_zipIdx_iff_getElem?.mpr placed, if_pos ⟨rfl, small⟩⟩

theorem pairwise_zeroIssues (bytes : List UInt8) :
    (zeroIssues bytes).Pairwise fun earlier later => earlier.offset < later.offset := by
  have ordered : bytes.zipIdx.Pairwise fun earlier later => earlier.2 < later.2 := by
    rw [← List.pairwise_map, List.zipIdx_map_snd]
    exact List.pairwise_lt_range'
  unfold zeroIssues
  rw [List.pairwise_filterMap]
  refine ordered.imp ?_
  rintro ⟨byte, offset⟩ ⟨other, further⟩ before issue recorded later recordedLater
  dsimp only at recorded recordedLater before
  split at recorded
  · split at recordedLater
    · cases recorded
      cases recordedLater
      exact before
    · cases recordedLater
  · cases recorded

/-- The issue is of a byte order mark. -/
def IssueKind.isMark : IssueKind → Bool
  | .utf8Mark | .utf16LittleEndianMark | .utf16BigEndianMark => true
  | .zeroByte | .illFormed => false

theorem markIssues_cases (bytes : List UInt8) :
    markIssues bytes = [] ∨ ∃ mark, markIssues bytes = [mark] ∧ mark.kind.isMark = true := by
  unfold markIssues
  split
  · exact .inr ⟨_, rfl, rfl⟩
  · split
    · exact .inr ⟨_, rfl, rfl⟩
    · split
      · exact .inr ⟨_, rfl, rfl⟩
      · exact .inl rfl

theorem kind_of_mem_illFormedIssues {pieces : List Piece} {issue : Issue}
    (recorded : issue ∈ illFormedIssues pieces) : issue.kind = .illFormed := by
  obtain ⟨piece, _, recorded⟩ := List.mem_filterMap.mp recorded
  split at recorded
  · cases recorded
    rfl
  · cases recorded

/-! ### All issues -/

/-- The issues of one kind. -/
def Decoded.ofKind (decoded : Decoded) (kind : IssueKind) : List Issue :=
  decoded.issues.filter fun issue => issue.kind = kind

private theorem filter_markIssues (bytes : List UInt8) {kind : IssueKind}
    (noMark : kind.isMark = false) :
    (markIssues bytes).filter (fun issue => issue.kind = kind) = [] := by
  rcases markIssues_cases bytes with none | ⟨mark, one, isMark⟩
  · rw [none]
    rfl
  · have other : mark.kind ≠ kind := by
      rintro rfl
      rw [isMark] at noMark
      cases noMark
    rw [one, List.filter_cons_of_neg (by simpa using other), List.filter_nil]

/-- Of issues that are all of one kind, all or none are of a given kind. -/
private theorem filter_of_uniform {issues : List Issue} {own : IssueKind}
    (uniform : ∀ issue ∈ issues, issue.kind = own) (kind : IssueKind) :
    issues.filter (fun issue => issue.kind = kind) = if own = kind then issues else [] := by
  split
  · rename_i same
    rw [List.filter_eq_self]
    intro issue recorded
    exact decide_eq_true ((uniform issue recorded).trans same)
  · rename_i other
    rw [List.filter_eq_nil_iff]
    intro issue recorded same
    exact other ((uniform issue recorded).symm.trans (of_decide_eq_true same))

/-- Issues of a kind that is no mark are zero bytes or ill-formed pieces. -/
theorem decode_ofKind (bytes : List UInt8) {kind : IssueKind} (noMark : kind.isMark = false) :
    (decode bytes).ofKind kind =
      (if .zeroByte = kind then zeroIssues bytes else []) ++
        (if .illFormed = kind then illFormedFrom 0 bytes else []) := by
  have zeros : ∀ issue ∈ zeroIssues bytes, issue.kind = .zeroByte :=
    fun _ recorded => (mem_zeroIssues.mp recorded).1
  have illFormed : ∀ issue ∈ illFormedFrom 0 bytes, issue.kind = .illFormed :=
    fun _ recorded => kind_of_mem_illFormedIssues recorded
  unfold Decoded.ofKind decode
  rw [List.filter_append, List.filter_append, filter_markIssues bytes noMark,
    filter_of_uniform zeros, List.nil_append]
  exact congrArg _ (filter_of_uniform illFormed kind)

theorem decode_ofKind_zeroByte (bytes : List UInt8) :
    (decode bytes).ofKind .zeroByte = zeroIssues bytes :=
  (decode_ofKind bytes rfl).trans (List.append_nil _)

theorem decode_ofKind_illFormed (bytes : List UInt8) :
    (decode bytes).ofKind .illFormed = illFormedFrom 0 bytes :=
  decode_ofKind bytes rfl

/-- The issues and the text of an input agree with its bytes and with each other. -/
structure Decoded.Reports (decoded : Decoded) (bytes : List UInt8) : Prop where
  /-- A byte order mark is the first issue, so there is no second one. -/
  markFirst : ∀ index issue, decoded.issues[index]? = some issue →
    issue.kind.isMark = true → index = 0
  zeros : ∀ offset length, ⟨.zeroByte, offset, length⟩ ∈ decoded.issues ↔
    bytes[offset]? = some 0 ∧ length = 1
  zerosOrdered : (decoded.ofKind .zeroByte).Pairwise
    fun earlier later => earlier.offset < later.offset
  illFormedInside : ∀ issue ∈ decoded.ofKind .illFormed,
    issue.offset + issue.length ≤ bytes.length ∧ 1 ≤ issue.length ∧ issue.length ≤ 3
  /-- The ranges are disjoint and in order. -/
  illFormedApart : (decoded.ofKind .illFormed).Pairwise
    fun earlier later => earlier.offset + earlier.length ≤ later.offset
  text : replaced bytes (decoded.ofKind .illFormed) = bytesOf decoded.text
  silent : decoded.ofKind .illFormed = [] ↔ IsUtf8 bytes
  faithful : IsUtf8 bytes → bytesOf decoded.text = bytes

theorem decode_markFirst {bytes : List UInt8} {index : Nat} {issue : Issue}
    (placed : (decode bytes).issues[index]? = some issue) (isMark : issue.kind.isMark = true) :
    index = 0 := by
  have later : ∀ {place : Nat},
      (zeroIssues bytes ++ illFormedIssues (pieces bytes))[place]? ≠ some issue := by
    intro place found
    rcases List.mem_append.mp (List.mem_of_getElem? found) with zero | illFormed
    · rw [(mem_zeroIssues.mp zero).1] at isMark
      cases isMark
    · rw [kind_of_mem_illFormedIssues illFormed] at isMark
      cases isMark
  unfold decode at placed
  dsimp only at placed
  rw [List.append_assoc] at placed
  rcases markIssues_cases bytes with none | ⟨mark, one, _⟩
  · rw [none, List.nil_append] at placed
    exact absurd placed later
  · rw [one, List.singleton_append] at placed
    cases index with
    | zero => rfl
    | succ place =>
        rw [List.getElem?_cons_succ] at placed
        exact absurd placed later

/-- In an input whose offsets are counters the zero bytes are recorded, and no others. -/
theorem zeroByte_mem_decode {bytes : List UInt8} (short : bytes.length < Counter.limit)
    (offset length : Nat) :
    ⟨.zeroByte, offset, length⟩ ∈ (decode bytes).issues ↔
      bytes[offset]? = some 0 ∧ length = 1 := by
  have recorded : ⟨.zeroByte, offset, length⟩ ∈ (decode bytes).issues ↔
      ⟨.zeroByte, offset, length⟩ ∈ (decode bytes).ofKind .zeroByte := by
    unfold Decoded.ofKind
    rw [List.mem_filter, decide_eq_true_eq, and_iff_left rfl]
  rw [recorded, decode_ofKind_zeroByte, mem_zeroIssues]
  constructor
  · rintro ⟨_, placed, _, one⟩
    exact ⟨placed, one⟩
  · rintro ⟨placed, one⟩
    obtain ⟨inside, _⟩ := List.getElem?_eq_some_iff.mp placed
    exact ⟨rfl, placed, Nat.lt_trans inside short, one⟩

/-- The text is the input with the recorded ranges replaced. -/
theorem replaced_decode {bytes : List UInt8} (small : 0 + bytes.length ≤ Counter.limit) :
    replaced bytes (illFormedFrom 0 bytes) = bytesOf (decode bytes).text := by
  unfold decode shownText
  rw [bytesOf_eq, String.toList_ofList]
  exact @replaced_append [] bytes small

/-- The single pass of `decode` reports the input, and it gives the issues that starting over
gives and the text of the decoder that replaces. -/
theorem decode_reports (bytes : List UInt8) (short : bytes.length < Counter.limit) :
    (decode bytes).Reports bytes ∧
      ∀ (validator : Validator) (replacer : Replacer),
        (decode bytes).issues =
            markIssues bytes ++ zeroIssues bytes ++ validator.issuesFrom bytes 0 ∧
          (decode bytes).text = String.ofList (replacer.decode bytes) := by
  have small : 0 + bytes.length ≤ Counter.limit := by omega
  have silent := illFormedFrom_eq_nil_iff small
  constructor
  · constructor
    case markFirst => exact fun _ _ => decode_markFirst
    case zeros => exact zeroByte_mem_decode short
    case zerosOrdered =>
      rw [decode_ofKind_zeroByte]
      exact pairwise_zeroIssues bytes
    case illFormedInside =>
      rw [decode_ofKind_illFormed]
      intro issue recorded
      have inside := inside_of_mem_illFormedFrom small recorded
      omega
    case illFormedApart =>
      rw [decode_ofKind_illFormed]
      exact pairwise_illFormedFrom small
    case text =>
      rw [decode_ofKind_illFormed]
      exact replaced_decode small
    case silent =>
      rw [decode_ofKind_illFormed]
      exact silent
    case faithful =>
      intro valid
      rw [← replaced_decode small, silent.mpr valid]
      rfl
  · intro validator replacer
    rw [validator.issuesFrom_eq (by omega), replacer.decode_eq bytes 0]
    exact ⟨rfl, rfl⟩

/-- A byte order mark, a zero byte, a surrogate, a character that another one interrupts, and
a character that the input ends in. -/
theorem decode_reports_damaged :
    let bytes : List UInt8 := [0xEF, 0xBB, 0xBF, 0x00, 0xED, 0xA0, 0x80, 0xF0, 0x9F, 0x98, 0xC3]
    bytes.length < Counter.limit ∧ (decode bytes).Reports bytes ∧
      markIssues bytes ++ zeroIssues bytes ++ Validator.ofPieces.issuesFrom bytes 0 =
        [⟨.utf8Mark, 0, 3⟩, ⟨.zeroByte, 3, 1⟩, ⟨.illFormed, 4, 1⟩, ⟨.illFormed, 5, 1⟩,
          ⟨.illFormed, 6, 1⟩, ⟨.illFormed, 7, 3⟩, ⟨.illFormed, 10, 1⟩] ∧
      Validator.ofPieces.failure? (bytes.drop 7) = some ⟨0, some 3⟩ ∧
      Validator.ofPieces.failure? (bytes.drop 10) = some ⟨0, none⟩ ∧
      (decode bytes).text = String.ofList (Replacer.ofPieces.decode bytes) := by
  intro bytes
  have short : bytes.length < Counter.limit := by decide
  obtain ⟨reports, agree⟩ := decode_reports bytes short
  obtain ⟨issues, text⟩ := agree Validator.ofPieces Replacer.ofPieces
  exact ⟨short, reports, issues ▸ by decide, by decide, by decide, text⟩

end Encoding
end Survey
