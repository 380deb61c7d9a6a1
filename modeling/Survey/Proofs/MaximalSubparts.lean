import Survey.Proofs.Decoding
import Mathlib.Data.List.Forall2

set_option autoImplicit false

/-!
# Maximal subparts

The bytes of an input are cut by one rule: where a character is encoded its bytes are a piece,
and elsewhere the piece is the longest run of bytes that starts the encoding of a character, or
a single byte. The rule is said here with encodings of characters alone; the reader, which
knows first bytes and ranges only, follows it.
-/

namespace Survey
namespace Encoding

open String (utf8EncodeChar)

/-- The piece at the start of the input, of so many bytes, is ill-formed: no character is
encoded there, and of the bytes there no longer run starts the encoding of one. -/
structure IsIllFormed (bytes : List UInt8) (width : Nat) : Prop where
  positive : 0 < width
  inside : width ≤ bytes.length
  noChar : ∀ c, ¬ utf8EncodeChar c <+: bytes
  begins : width = 1 ∨ ∃ c, bytes.take width <+: utf8EncodeChar c
  maximal : ∀ more, width < more → more ≤ bytes.length →
    ∀ c, ¬ bytes.take more <+: utf8EncodeChar c

/-- An ill-formed piece has one width. -/
theorem IsIllFormed.width_eq {bytes : List UInt8} {width other : Nat}
    (illFormed : IsIllFormed bytes width) (same : IsIllFormed bytes other) : width = other := by
  have bounded : ∀ {first second : Nat}, IsIllFormed bytes first → IsIllFormed bytes second →
      second ≤ first := by
    intro first second shorter longer
    apply Nat.le_of_not_lt
    intro further
    have positive := shorter.positive
    rcases longer.begins with single | ⟨c, begins⟩
    · omega
    · exact shorter.maximal second (by omega) longer.inside c begins
  exact Nat.le_antisymm (bounded same illFormed) (bounded illFormed same)

/-- Three bytes of an ill-formed piece would be one short of the longest encoding. -/
theorem IsIllFormed.width_le {bytes : List UInt8} {width : Nat}
    (illFormed : IsIllFormed bytes width) : width ≤ 3 := by
  rcases illFormed.begins with single | ⟨c, begins⟩
  · omega
  · have inside := illFormed.inside
    have most := c.utf8Size_le_four
    have size := String.length_utf8EncodeChar c
    have short := begins.length_le
    rw [List.length_take_of_le inside] at short
    apply Nat.le_of_not_lt
    intro wide
    -- All four bytes are there, so they are the encoding.
    have whole := begins.eq_of_length (by rw [List.length_take_of_le inside]; omega)
    apply illFormed.noChar c
    rw [← whole]
    exact List.take_prefix _ _

/-! ### First bytes and ranges -/

/-- The byte lies in the range. -/
def InRange (range : Nat × Nat) (byte : UInt8) : Prop :=
  range.1 ≤ byte.toNat ∧ byte.toNat ≤ range.2

instance (range : Nat × Nat) (byte : UInt8) : Decidable (InRange range byte) := by
  unfold InRange
  infer_instance

/-- What a first byte asks for, by the number of bytes that it asks for. -/
theorem lead?_cases {byte code : Nat} {next : Nat × Nat} {later : List (Nat × Nat)}
    (leads : lead? byte = some (code, next, later)) :
    (later = [] ∧ next = tail ∧ 0xC2 ≤ byte ∧ byte ≤ 0xDF) ∨
      (later = [tail] ∧ 0xE0 ≤ byte ∧ byte ≤ 0xEF ∧
        next = (if byte = 0xE0 then 0xA0 else 0x80, if byte = 0xED then 0x9F else 0xBF)) ∨
      (later = [tail, tail] ∧ 0xF0 ≤ byte ∧ byte ≤ 0xF4 ∧
        next = (if byte = 0xF0 then 0x90 else 0x80, if byte = 0xF4 then 0x8F else 0xBF)) := by
  unfold lead? at leads
  simp only [Bool.and_eq_true, decide_eq_true_eq, beq_iff_eq] at leads
  have parts : ∀ {value : Nat} {second : Nat × Nat} {others : List (Nat × Nat)},
      some (value, second, others) = some (code, next, later) → next = second ∧ later = others := by
    intro value second others same
    simp only [Option.some.injEq, Prod.mk.injEq] at same
    exact ⟨same.2.1.symm, same.2.2.symm⟩
  split at leads
  · obtain ⟨rfl, rfl⟩ := parts leads
    exact .inl ⟨rfl, rfl, by assumption⟩
  · right
    split at leads
    · obtain ⟨rfl, rfl⟩ := parts leads
      exact .inl ⟨rfl, by omega, by omega, by rw [if_pos (by omega), if_neg (by omega)]⟩
    · split at leads
      · obtain ⟨rfl, rfl⟩ := parts leads
        exact .inl ⟨rfl, by omega, by omega, by rw [if_neg (by omega), if_pos (by omega)]⟩
      · split at leads
        · obtain ⟨rfl, rfl⟩ := parts leads
          exact .inl ⟨rfl, by omega, by omega, by rw [if_neg (by omega), if_neg (by omega)]; rfl⟩
        · right
          split at leads
          · obtain ⟨rfl, rfl⟩ := parts leads
            exact ⟨rfl, by omega, by omega, by rw [if_pos (by omega), if_neg (by omega)]⟩
          · split at leads
            · obtain ⟨rfl, rfl⟩ := parts leads
              exact ⟨rfl, by omega, by omega, by rw [if_neg (by omega), if_neg (by omega)]; rfl⟩
            · split at leads
              · obtain ⟨rfl, rfl⟩ := parts leads
                exact ⟨rfl, by omega, by omega, by rw [if_neg (by omega), if_pos (by omega)]⟩
              · cases leads

theorem exists_char {code : Nat} (scalar : code < 0xD800 ∨ 0xDFFF < code ∧ code < 0x110000) :
    ∃ c : Char, c.val.toNat = code :=
  ⟨Char.ofNatAux code scalar, UInt32.toNat_ofNatLT⟩

private theorem byte_eq (byte : UInt8) {value : Nat} (same : value = byte.toNat) :
    UInt8.ofNat value = byte := by
  rw [same, UInt8.ofNat_toNat]

private theorem exists_two {lead first : UInt8} (low : 0xC2 ≤ lead.toNat)
    (high : lead.toNat ≤ 0xDF) (inRange : InRange tail first) :
    ∃ c, utf8EncodeChar c = [lead, first] := by
  obtain ⟨firstLow, firstHigh⟩ := inRange
  dsimp only [tail] at firstLow firstHigh
  have scalar : (lead.toNat - 0xC0) * 64 + (first.toNat - 0x80) < 0xD800 := by omega
  obtain ⟨c, code⟩ := exists_char (.inl scalar)
  refine ⟨c, ?_⟩
  unfold utf8EncodeChar
  rw [code]
  dsimp only
  rw [if_neg (by omega), if_pos (by omega), byte_eq lead (by omega), byte_eq first (by omega)]

/-- Three bytes stand for no shorter encoding and for no surrogate. -/
private theorem exists_three {lead first second : UInt8} {next : Nat × Nat}
    (low : 0xE0 ≤ lead.toNat) (high : lead.toNat ≤ 0xEF)
    (range : next = (if lead.toNat = 0xE0 then 0xA0 else 0x80,
      if lead.toNat = 0xED then 0x9F else 0xBF))
    (inRange : InRange next first) (secondInRange : InRange tail second) :
    ∃ c, utf8EncodeChar c = [lead, first, second] := by
  obtain ⟨firstLow, firstHigh⟩ := inRange
  obtain ⟨secondLow, secondHigh⟩ := secondInRange
  rw [range] at firstLow firstHigh
  dsimp only [tail] at firstLow firstHigh secondLow secondHigh
  have bounds : 0x80 ≤ first.toNat ∧ first.toNat ≤ 0xBF := by
    split at firstLow <;> split at firstHigh <;> omega
  have scalar : ((lead.toNat - 0xE0) * 64 + (first.toNat - 0x80)) * 64 + (second.toNat - 0x80) <
        0xD800 ∨
      0xDFFF < ((lead.toNat - 0xE0) * 64 + (first.toNat - 0x80)) * 64 + (second.toNat - 0x80) ∧
        ((lead.toNat - 0xE0) * 64 + (first.toNat - 0x80)) * 64 + (second.toNat - 0x80) <
          0x110000 := by
    split at firstHigh <;> omega
  have long : 0x7FF <
      ((lead.toNat - 0xE0) * 64 + (first.toNat - 0x80)) * 64 + (second.toNat - 0x80) := by
    split at firstLow <;> omega
  obtain ⟨c, code⟩ := exists_char scalar
  refine ⟨c, ?_⟩
  unfold utf8EncodeChar
  rw [code]
  dsimp only
  rw [if_neg (by omega), if_neg (by omega), if_pos (by omega), byte_eq lead (by omega),
    byte_eq first (by omega), byte_eq second (by omega)]

/-- Four bytes stand for no shorter encoding and for a code point. -/
private theorem exists_four {lead first second third : UInt8} {next : Nat × Nat}
    (low : 0xF0 ≤ lead.toNat) (high : lead.toNat ≤ 0xF4)
    (range : next = (if lead.toNat = 0xF0 then 0x90 else 0x80,
      if lead.toNat = 0xF4 then 0x8F else 0xBF))
    (inRange : InRange next first) (secondInRange : InRange tail second)
    (thirdInRange : InRange tail third) :
    ∃ c, utf8EncodeChar c = [lead, first, second, third] := by
  obtain ⟨firstLow, firstHigh⟩ := inRange
  obtain ⟨secondLow, secondHigh⟩ := secondInRange
  obtain ⟨thirdLow, thirdHigh⟩ := thirdInRange
  rw [range] at firstLow firstHigh
  dsimp only [tail] at firstLow firstHigh secondLow secondHigh thirdLow thirdHigh
  have bounds : 0x80 ≤ first.toNat ∧ first.toNat ≤ 0xBF := by
    split at firstLow <;> split at firstHigh <;> omega
  have scalar : (((lead.toNat - 0xF0) * 64 + (first.toNat - 0x80)) * 64 +
      (second.toNat - 0x80)) * 64 + (third.toNat - 0x80) < 0x110000 := by
    split at firstHigh <;> omega
  have long : 0xFFFF < (((lead.toNat - 0xF0) * 64 + (first.toNat - 0x80)) * 64 +
      (second.toNat - 0x80)) * 64 + (third.toNat - 0x80) := by
    split at firstLow <;> omega
  obtain ⟨c, code⟩ := exists_char (.inr ⟨by omega, scalar⟩)
  refine ⟨c, ?_⟩
  unfold utf8EncodeChar
  rw [code]
  dsimp only
  rw [if_neg (by omega), if_neg (by omega), if_neg (by omega), byte_eq lead (by omega),
    byte_eq first (by omega), byte_eq second (by omega), byte_eq third (by omega)]

/-- Bytes in all the ranges that a first byte asks for complete the encoding of a character. -/
theorem exists_encodeChar {lead : UInt8} {code : Nat} {next : Nat × Nat}
    {later : List (Nat × Nat)} {bytes : List UInt8}
    (leads : lead? lead.toNat = some (code, next, later))
    (inRanges : List.Forall₂ InRange (next :: later) bytes) :
    ∃ c, utf8EncodeChar c = lead :: bytes := by
  rcases lead?_cases leads with ⟨rfl, rfl, low, high⟩ | ⟨rfl, low, high, range⟩ |
    ⟨rfl, low, high, range⟩
  · cases inRanges with
    | cons first others =>
        cases others
        exact exists_two low high first
  · cases inRanges with
    | cons first others =>
        cases others with
        | cons second others =>
            cases others
            exact exists_three low high range first second
  · cases inRanges with
    | cons first others =>
        cases others with
        | cons second others =>
            cases others with
            | cons third others =>
                cases others
                exact exists_four low high range first second third

private theorem toNat_ofNat {value : Nat} (small : value < 256) :
    (UInt8.ofNat value).toNat = value :=
  UInt8.toNat_ofNat_of_lt' small

private theorem inRange_tail {bits : Nat} (few : bits < 64) :
    InRange tail (UInt8.ofNat (bits + 128)) := by
  unfold InRange
  rw [toNat_ofNat (by omega)]
  dsimp only [tail]
  omega

/-- The first byte of an encoding is the encoding, or it asks for the bytes behind it. -/
theorem encodeChar_cons {c : Char} {lead : UInt8} {bytes : List UInt8}
    (encodes : utf8EncodeChar c = lead :: bytes) :
    lead.toNat < 0x80 ∨ ∃ code next later, lead? lead.toNat = some (code, next, later) ∧
      List.Forall₂ InRange (next :: later) bytes := by
  have valid : c.val.toNat < 0xD800 ∨ 0xDFFF < c.val.toNat ∧ c.val.toNat < 0x110000 := c.valid
  unfold utf8EncodeChar at encodes
  generalize c.val.toNat = code at valid encodes
  dsimp only at encodes
  split at encodes
  · obtain ⟨rfl, rfl⟩ := List.cons.inj encodes
    rw [toNat_ofNat (by omega)]
    exact .inl (by omega)
  · right
    split at encodes
    · obtain ⟨rfl, rfl⟩ := List.cons.inj encodes
      rw [toNat_ofNat (by omega)]
      exact ⟨_, _, _, lead?_two (by omega) (by omega), .cons (inRange_tail (by omega)) .nil⟩
    · split at encodes
      · obtain ⟨rfl, rfl⟩ := List.cons.inj encodes
        have scalar : code < 0xD800 ∨ 0xDFFF < code := by omega
        obtain ⟨next, leads, low, high⟩ := lead?_three (by omega) (by omega) scalar
        rw [toNat_ofNat (by omega)]
        have first : InRange next (UInt8.ofNat (code / 64 % 64 + 128)) := by
          unfold InRange
          rw [toNat_ofNat (by omega)]
          exact ⟨low, high⟩
        exact ⟨_, _, _, leads, .cons first (.cons (inRange_tail (by omega)) .nil)⟩
      · obtain ⟨rfl, rfl⟩ := List.cons.inj encodes
        obtain ⟨next, leads, low, high⟩ := lead?_four code (by omega) (by omega)
        rw [toNat_ofNat (by omega)]
        have first : InRange next (UInt8.ofNat (code / 4096 % 64 + 128)) := by
          unfold InRange
          rw [toNat_ofNat (by omega)]
          exact ⟨low, high⟩
        exact ⟨_, _, _, leads, .cons first
          (.cons (inRange_tail (by omega)) (.cons (inRange_tail (by omega)) .nil))⟩

/-! ### Bytes that fit -/

/-- How many of the bytes lie in the ranges, up to the first that does not. -/
def fitting : List (Nat × Nat) → List UInt8 → Nat
  | range :: ranges, byte :: bytes =>
      if InRange range byte then 1 + fitting ranges bytes else 0
  | _, _ => 0

theorem fitting_le (ranges : List (Nat × Nat)) (bytes : List UInt8) :
    fitting ranges bytes ≤ ranges.length ∧ fitting ranges bytes ≤ bytes.length := by
  fun_induction fitting ranges bytes with
  | case1 range ranges byte bytes inRange ih =>
      rw [List.length_cons, List.length_cons]
      omega
  | case2 => exact ⟨Nat.zero_le _, Nat.zero_le _⟩
  | case3 => exact ⟨Nat.zero_le _, Nat.zero_le _⟩

/-- What the input shares with bytes in the ranges fits. -/
theorem le_fitting {ranges : List (Nat × Nat)} {whole part bytes : List UInt8}
    (inRanges : List.Forall₂ InRange ranges whole) (ofWhole : part <+: whole)
    (ofInput : part <+: bytes) : part.length ≤ fitting ranges bytes := by
  induction inRanges generalizing part bytes with
  | nil =>
      rw [List.prefix_nil.mp ofWhole]
      exact Nat.zero_le _
  | @cons range byte ranges whole inRange later ih =>
      cases part with
      | nil => exact Nat.zero_le _
      | cons first part =>
          obtain ⟨rfl, restOfWhole⟩ := List.cons_prefix_cons.mp ofWhole
          cases bytes with
          | nil => exact absurd (List.prefix_nil.mp ofInput) (List.cons_ne_nil _ _)
          | cons byte bytes =>
              obtain ⟨rfl, restOfInput⟩ := List.cons_prefix_cons.mp ofInput
              have shared := ih restOfWhole restOfInput
              rw [fitting, if_pos inRange, List.length_cons]
              omega

private theorem forall₂_least {ranges : List (Nat × Nat)}
    (filled : ∀ range ∈ ranges, range.1 ≤ range.2 ∧ range.1 < 256) :
    List.Forall₂ InRange ranges (ranges.map fun range => UInt8.ofNat range.1) := by
  induction ranges with
  | nil => exact .nil
  | cons range ranges ih =>
      obtain ⟨⟨ordered, small⟩, others⟩ := List.forall_mem_cons.mp filled
      refine .cons ?_ (ih others)
      unfold InRange
      rw [toNat_ofNat small]
      exact ⟨Nat.le_refl _, ordered⟩

/-- The bytes that fit can be completed by bytes in the ranges that are left. -/
theorem exists_completion {ranges : List (Nat × Nat)}
    (filled : ∀ range ∈ ranges, range.1 ≤ range.2 ∧ range.1 < 256) (bytes : List UInt8) :
    ∃ whole, List.Forall₂ InRange ranges whole ∧ bytes.take (fitting ranges bytes) <+: whole := by
  fun_induction fitting ranges bytes with
  | case1 range ranges byte bytes inRange ih =>
      obtain ⟨whole, inRanges, completes⟩ := ih (List.forall_mem_cons.mp filled).2
      refine ⟨byte :: whole, .cons inRange inRanges, ?_⟩
      rw [Nat.add_comm, List.take_succ_cons]
      exact List.cons_prefix_cons.mpr ⟨rfl, completes⟩
  | case2 => exact ⟨_, forall₂_least filled, List.nil_prefix⟩
  | case3 => exact ⟨_, forall₂_least filled, List.nil_prefix⟩

/-- Where as many bytes fit as there are ranges, they lie in them. -/
theorem forall₂_take {ranges : List (Nat × Nat)} {bytes : List UInt8}
    (full : fitting ranges bytes = ranges.length) :
    List.Forall₂ InRange ranges (bytes.take ranges.length) := by
  fun_induction fitting ranges bytes with
  | case1 range ranges byte bytes inRange ih =>
      rw [List.length_cons] at full ⊢
      exact .cons inRange (ih (by omega))
  | case2 => cases full
  | case3 ranges bytes noCons =>
      cases ranges with
      | nil => exact .nil
      | cons range ranges => cases full

/-! ### How the input starts -/

private theorem lead?_high {lead : UInt8} {asked : Nat × (Nat × Nat) × List (Nat × Nat)}
    (leads : lead? lead.toNat = some asked) : 0x80 ≤ lead.toNat := by
  obtain ⟨code, next, later⟩ := asked
  rcases lead?_cases leads with ⟨_, _, low, _⟩ | ⟨_, low, _⟩ | ⟨_, low, _⟩ <;> omega

private theorem lead?_filled {byte code : Nat} {next : Nat × Nat} {later : List (Nat × Nat)}
    (leads : lead? byte = some (code, next, later)) :
    ∀ range ∈ next :: later, range.1 ≤ range.2 ∧ range.1 < 256 := by
  have tailFilled : tail.1 ≤ tail.2 ∧ tail.1 < 256 := by decide
  rcases lead?_cases leads with ⟨rfl, rfl, _⟩ | ⟨rfl, _, _, rfl⟩ | ⟨rfl, _, _, rfl⟩
  · simpa using tailFilled
  · refine List.forall_mem_cons.mpr ⟨?_, by simpa using tailFilled⟩
    dsimp only
    split <;> split <;> omega
  · refine List.forall_mem_cons.mpr ⟨?_, by simpa using tailFilled⟩
    dsimp only
    split <;> split <;> omega

/-- What the input shares with an encoding that has its first byte. -/
private theorem shared_le {c : Char} {lead : UInt8} {rest part : List UInt8} {code : Nat}
    {next : Nat × Nat} {later : List (Nat × Nat)}
    (leads : lead? lead.toNat = some (code, next, later))
    (ofEncoding : lead :: part <+: utf8EncodeChar c) (ofInput : part <+: rest) :
    part.length ≤ fitting (next :: later) rest := by
  obtain ⟨after, encodes⟩ := ofEncoding
  rw [List.cons_append] at encodes
  rcases encodeChar_cons encodes.symm with ascii | ⟨_, _, _, asked, inRanges⟩
  · have high := lead?_high leads
    omega
  · rw [leads] at asked
    cases asked
    exact le_fitting inRanges ⟨after, rfl⟩ ofInput

/-- A first byte with too few bytes that fit behind it is ill-formed with these bytes. -/
theorem isIllFormed_of_fitting {lead : UInt8} {rest : List UInt8} {code : Nat}
    {next : Nat × Nat} {later : List (Nat × Nat)}
    (leads : lead? lead.toNat = some (code, next, later))
    (short : fitting (next :: later) rest ≤ later.length) :
    IsIllFormed (lead :: rest) (fitting (next :: later) rest + 1) := by
  refine ⟨by omega, ?_, ?_, ?_, ?_⟩
  · have inside := (fitting_le (next :: later) rest).2
    rw [List.length_cons]
    omega
  · intro c starts
    cases encodes : utf8EncodeChar c with
    | nil => exact absurd encodes (String.utf8EncodeChar_ne_nil)
    | cons first bytes =>
        rw [encodes] at starts
        obtain ⟨rfl, ofInput⟩ := List.cons_prefix_cons.mp starts
        rcases encodeChar_cons encodes with ascii | ⟨_, _, _, asked, inRanges⟩
        · have high := lead?_high leads
          omega
        · rw [leads] at asked
          cases asked
          have fits := le_fitting inRanges List.prefix_rfl ofInput
          have count := inRanges.length_eq
          rw [List.length_cons] at count
          omega
  · obtain ⟨whole, inRanges, completes⟩ := exists_completion (lead?_filled leads) rest
    obtain ⟨c, encodes⟩ := exists_encodeChar leads inRanges
    refine .inr ⟨c, ?_⟩
    rw [encodes, List.take_succ_cons]
    exact List.cons_prefix_cons.mpr ⟨rfl, completes⟩
  · intro more further within c starts
    cases more with
    | zero => omega
    | succ count =>
        rw [List.take_succ_cons] at starts
        rw [List.length_cons] at within
        have fits := shared_le leads starts (List.take_prefix _ _)
        rw [List.length_take_of_le (by omega)] at fits
        omega

/-- A byte that no encoding starts with is ill-formed alone. -/
theorem isIllFormed_of_unled {lead : UInt8} {rest : List UInt8} (high : 0x80 ≤ lead.toNat)
    (unled : lead? lead.toNat = none) : IsIllFormed (lead :: rest) 1 := by
  have noEncoding : ∀ (c : Char) (bytes : List UInt8), utf8EncodeChar c ≠ lead :: bytes := by
    intro c bytes encodes
    rcases encodeChar_cons encodes with ascii | ⟨_, _, _, asked, _⟩
    · omega
    · rw [unled] at asked
      cases asked
  refine ⟨Nat.one_pos, by rw [List.length_cons]; omega, ?_, .inl rfl, ?_⟩
  · intro c starts
    cases encodes : utf8EncodeChar c with
    | nil => exact absurd encodes (String.utf8EncodeChar_ne_nil)
    | cons first bytes =>
        rw [encodes] at starts
        obtain ⟨rfl, _⟩ := List.cons_prefix_cons.mp starts
        exact noEncoding c bytes encodes
  · intro more further within c starts
    cases more with
    | zero => omega
    | succ count =>
        obtain ⟨after, encodes⟩ := starts
        rw [List.take_succ_cons, List.cons_append] at encodes
        exact noEncoding c _ encodes.symm

/-! ### Reading what is ill-formed -/

namespace Reader

theorem feed_unfinished_of_not_inRange {next : Nat × Nat} {byte : UInt8}
    (outside : ¬ InRange next byte) (taken start width code : Nat) (finished : List Piece)
    (later : List (Nat × Nat)) :
    feed ⟨taken, finished, some ⟨start, width, code, next, later⟩⟩ byte =
      feed ⟨taken, ⟨start, width, none⟩ :: finished, none⟩ byte := by
  unfold InRange at outside
  unfold feed
  dsimp only
  rw [if_neg (by rwa [Bool.and_eq_true, decide_eq_true_eq, decide_eq_true_eq])]

theorem feed_unfinished_of_inRange {next : Nat × Nat} {byte : UInt8}
    (inside : InRange next byte) (taken start width code : Nat) (finished : List Piece)
    (coming : Nat × Nat) (later : List (Nat × Nat)) :
    feed ⟨taken, finished, some ⟨start, width, code, next, coming :: later⟩⟩ byte =
      ⟨taken + 1, finished,
        some ⟨start, width + 1, code * 64 + (byte.toNat - 0x80), coming, later⟩⟩ := by
  unfold InRange at inside
  unfold feed
  dsimp only
  rw [if_pos (by rwa [Bool.and_eq_true, decide_eq_true_eq, decide_eq_true_eq])]

/-- An encoding that is not completed ends as one piece behind the bytes that fit. -/
theorem finish_foldl_feed_unfinished {next : Nat × Nat} {later : List (Nat × Nat)}
    {rest : List UInt8} (short : fitting (next :: later) rest ≤ later.length)
    (taken start width code : Nat) (finished : List Piece) :
    (rest.foldl feed ⟨taken, finished, some ⟨start, width, code, next, later⟩⟩).finish =
      ((rest.drop (fitting (next :: later) rest)).foldl feed
        ⟨taken + fitting (next :: later) rest,
          ⟨start, width + fitting (next :: later) rest, none⟩ :: finished, none⟩).finish := by
  induction rest generalizing next later taken width code with
  | nil => rfl
  | cons byte rest ih =>
      by_cases inRange : InRange next byte
      · rw [fitting, if_pos inRange] at short ⊢
        cases later with
        | nil =>
            rw [List.length_nil] at short
            omega
        | cons coming later =>
            rw [List.length_cons] at short
            rw [List.foldl_cons, feed_unfinished_of_inRange inRange, ih (by omega), Nat.add_comm 1,
              List.drop_succ_cons, Nat.add_right_comm taken, Nat.add_right_comm width,
              Nat.add_assoc taken, Nat.add_assoc width]
      · rw [fitting, if_neg inRange, List.foldl_cons, feed_unfinished_of_not_inRange inRange]
        rfl

end Reader

/-- The input starts with a character or with an ill-formed piece, and the reader takes this
piece as one. -/
private theorem start_cases (bytes : List UInt8) :
    bytes = [] ∨ (∃ c rest, bytes = utf8EncodeChar c ++ rest) ∨
      ∃ width, IsIllFormed bytes width ∧ ∀ taken finished,
        (bytes.foldl Reader.feed ⟨taken, finished, none⟩).finish =
          ((bytes.drop width).foldl Reader.feed
            ⟨taken + width, ⟨taken, width, none⟩ :: finished, none⟩).finish := by
  cases bytes with
  | nil => exact .inl rfl
  | cons lead rest =>
      right
      by_cases ascii : lead.toNat < 0x80
      · obtain ⟨c, code⟩ := exists_char (.inl (Nat.lt_trans ascii (by decide)))
        refine .inl ⟨c, rest, ?_⟩
        unfold utf8EncodeChar
        rw [code]
        dsimp only
        rw [if_pos (by omega), byte_eq lead rfl]
        rfl
      · cases leads : lead? lead.toNat with
        | none =>
            refine .inr ⟨1, isIllFormed_of_unled (by omega) leads, ?_⟩
            intro taken finished
            rw [List.foldl_cons]
            unfold Reader.feed Reader.begin
            dsimp only
            rw [if_neg ascii, leads]
            rfl
        | some asked =>
            obtain ⟨code, next, later⟩ := asked
            by_cases short : fitting (next :: later) rest ≤ later.length
            · refine .inr ⟨_, isIllFormed_of_fitting leads short, ?_⟩
              intro taken finished
              have first : Reader.feed ⟨taken, finished, none⟩ lead =
                  ⟨taken + 1, finished, some ⟨taken, 1, code, next, later⟩⟩ := by
                unfold Reader.feed Reader.begin
                dsimp only
                rw [if_neg ascii, leads]
              rw [List.foldl_cons, first, Reader.finish_foldl_feed_unfinished short,
                List.drop_succ_cons, Nat.add_comm (fitting (next :: later) rest) 1, Nat.add_assoc]
            · have most := (fitting_le (next :: later) rest).1
              have full : fitting (next :: later) rest = (next :: later).length := by
                rw [List.length_cons] at most ⊢
                omega
              obtain ⟨c, encodes⟩ := exists_encodeChar leads (forall₂_take full)
              refine .inl ⟨c, rest.drop (next :: later).length, ?_⟩
              rw [encodes, List.cons_append, List.take_append_drop]

/-- An ill-formed piece at the start of the input is read as one piece. -/
theorem IsIllFormed.finish_foldl_feed {bytes : List UInt8} {width : Nat}
    (illFormed : IsIllFormed bytes width) (taken : Nat) (finished : List Piece) :
    (bytes.foldl Reader.feed ⟨taken, finished, none⟩).finish =
      ((bytes.drop width).foldl Reader.feed
        ⟨taken + width, ⟨taken, width, none⟩ :: finished, none⟩).finish := by
  rcases start_cases bytes with rfl | ⟨c, rest, rfl⟩ | ⟨other, same, reads⟩
  · have positive := illFormed.positive
    have inside := illFormed.inside
    rw [List.length_nil] at inside
    omega
  · exact absurd (List.prefix_append _ _) (illFormed.noChar c)
  · rw [illFormed.width_eq same]
    exact reads taken finished

/-- Bytes are gone through piece by piece: by characters, and by ill-formed pieces. -/
theorem piece_induction {motive : List UInt8 → Prop} (nil : motive [])
    (char : ∀ c rest, motive rest → motive (utf8EncodeChar c ++ rest))
    (illFormed : ∀ bytes width, IsIllFormed bytes width → motive (bytes.drop width) →
      motive bytes) (bytes : List UInt8) : motive bytes := by
  induction size : bytes.length using Nat.strongRecOn generalizing bytes with
  | ind size ih =>
      rcases start_cases bytes with rfl | ⟨c, rest, rfl⟩ | ⟨width, bad, _⟩
      · exact nil
      · have positive := c.utf8Size_pos
        rw [List.length_append, String.length_utf8EncodeChar] at size
        exact char c rest (ih _ (by omega) rest rfl)
      · have positive := bad.positive
        have inside := bad.inside
        exact illFormed bytes width bad (ih _ (by rw [List.length_drop]; omega) _ rfl)

/-! ### Pieces from an offset on -/

/-- The pieces of bytes that start at some offset. -/
def piecesFrom (start : Nat) (bytes : List UInt8) : List Piece :=
  (bytes.foldl Reader.feed ⟨start, [], none⟩).finish

theorem pieces_eq_piecesFrom (bytes : List UInt8) : pieces bytes = piecesFrom 0 bytes := rfl

/-- What is finished stays in front of the pieces that follow. -/
theorem finish_foldl_feed (bytes : List UInt8) (taken : Nat) (finished : List Piece) :
    (bytes.foldl Reader.feed ⟨taken, finished, none⟩).finish =
      finished.reverse ++ piecesFrom taken bytes := by
  induction bytes using piece_induction generalizing taken finished with
  | nil => exact (List.append_nil _).symm
  | char c rest ih =>
      unfold piecesFrom
      rw [List.foldl_append, List.foldl_append, Reader.foldl_feed_encodeChar,
        Reader.foldl_feed_encodeChar, ih, ih, List.reverse_cons, List.append_assoc]
      rfl
  | illFormed bytes width bad ih =>
      unfold piecesFrom
      rw [bad.finish_foldl_feed, bad.finish_foldl_feed, ih, ih, List.reverse_cons,
        List.append_assoc]
      rfl

theorem piecesFrom_encodeChar_append (start : Nat) (c : Char) (rest : List UInt8) :
    piecesFrom start (utf8EncodeChar c ++ rest) =
      ⟨start, c.utf8Size, some c⟩ :: piecesFrom (start + c.utf8Size) rest := by
  rw [piecesFrom, List.foldl_append, Reader.foldl_feed_encodeChar, finish_foldl_feed]
  rfl

theorem IsIllFormed.piecesFrom_eq {bytes : List UInt8} {width : Nat}
    (illFormed : IsIllFormed bytes width) (start : Nat) :
    piecesFrom start bytes =
      ⟨start, width, none⟩ :: piecesFrom (start + width) (bytes.drop width) := by
  rw [piecesFrom, illFormed.finish_foldl_feed, Encoding.finish_foldl_feed]
  rfl

end Encoding
end Survey
