import Survey.Encoding
import Survey.Text.Bytes

set_option autoImplicit false

/-!
# Decoding what was encoded

The bytes of a text in UTF-8 are read character by character: between two characters the
reader waits for nothing, the first byte of a character says which bytes it waits for, and
the bytes that follow lie in the ranges asked for. So each character is one piece, and
decoding gives the text back.
-/

namespace Survey
namespace Encoding

/-- The bytes of a text in UTF-8. -/
def bytesOf (text : String) : List UInt8 := text.toUTF8.data.toList

theorem bytesOf_eq (text : String) :
    bytesOf text = text.toList.flatMap String.utf8EncodeChar := by
  have encoded := String.toByteArray_ofList (l := text.toList)
  rw [String.ofList_toList] at encoded
  unfold bytesOf
  rw [String.toUTF8_eq_toByteArray, encoded, List.utf8Encode, List.data_toByteArray]

/-! ### First bytes -/

theorem lead?_two {code : Nat} (least : 127 < code) (most : code ≤ 2047) :
    lead? (code / 64 % 32 + 192) = some (code / 64, tail, []) := by
  have inRange : (0xC2 ≤ code / 64 % 32 + 192 && code / 64 % 32 + 192 ≤ 0xDF) = true := by
    rw [Bool.and_eq_true, decide_eq_true_eq, decide_eq_true_eq]
    omega
  have bits : code / 64 % 32 + 192 - 0xC0 = code / 64 := by omega
  unfold lead?
  rw [if_pos inRange, bits]

/-- The second byte of three lies in the range that the first one asks for: no shorter
encoding exists, and the character is no surrogate. -/
theorem lead?_three {code : Nat} (least : 2047 < code) (most : code ≤ 65535)
    (scalar : code < 0xD800 ∨ 0xDFFF < code) :
    ∃ next, lead? (code / 4096 % 16 + 224) = some (code / 4096, next, [tail]) ∧
      next.1 ≤ code / 64 % 64 + 128 ∧ code / 64 % 64 + 128 ≤ next.2 := by
  unfold lead?
  simp only [Bool.and_eq_true, decide_eq_true_eq, beq_iff_eq]
  rw [if_neg (by omega)]
  split
  · have bits : code / 4096 = 0 := by omega
    rw [bits]
    exact ⟨_, rfl, by dsimp only; omega, by dsimp only; omega⟩
  · split
    · have bits : code / 4096 = 0xD := by omega
      rw [bits]
      exact ⟨_, rfl, by dsimp only; omega, by dsimp only; omega⟩
    · have bits : code / 4096 % 16 + 224 - 0xE0 = code / 4096 := by omega
      rw [if_pos (by omega), bits]
      exact ⟨_, rfl, by dsimp only [tail]; omega, by dsimp only [tail]; omega⟩

/-- The second byte of four lies in the range that the first one asks for. -/
theorem lead?_four (code : Nat) (least : 65535 < code) (most : code < 0x110000) :
    ∃ next, lead? (code / 262144 % 8 + 240) = some (code / 262144, next, [tail, tail]) ∧
      next.1 ≤ code / 4096 % 64 + 128 ∧ code / 4096 % 64 + 128 ≤ next.2 := by
  unfold lead?
  simp only [Bool.and_eq_true, decide_eq_true_eq, beq_iff_eq]
  rw [if_neg (by omega), if_neg (by omega), if_neg (by omega), if_neg (by omega)]
  split
  · have bits : code / 262144 = 0 := by omega
    rw [bits]
    exact ⟨_, rfl, by dsimp only; omega, by dsimp only; omega⟩
  · split
    · have bits : code / 262144 % 8 + 240 - 0xF0 = code / 262144 := by omega
      rw [bits]
      exact ⟨_, rfl, by dsimp only [tail]; omega, by dsimp only [tail]; omega⟩
    · have bits : code / 262144 = 4 := by omega
      rw [if_pos (by omega), bits]
      exact ⟨_, rfl, by dsimp only; omega, by dsimp only; omega⟩

private theorem toNat_byte {value : Nat} (small : value < 256) :
    (UInt8.ofNat value).toNat = value :=
  UInt8.toNat_ofNat_of_lt' small

namespace Reader

/-! ### One byte -/

theorem feed_ascii {byte : Nat} (ascii : byte ≤ 127) (taken : Nat) (finished : List Piece) :
    feed ⟨taken, finished, none⟩ (UInt8.ofNat byte) =
      ⟨taken + 1, ⟨taken, 1, some (Char.ofNat byte)⟩ :: finished, none⟩ := by
  have value : (UInt8.ofNat byte).toNat = byte := toNat_byte (by omega)
  unfold feed begin
  dsimp only
  rw [value, if_pos (by omega)]

theorem feed_lead {byte code : Nat} {next : Nat × Nat} {later : List (Nat × Nat)}
    (high : 128 ≤ byte) (small : byte < 256) (leads : lead? byte = some (code, next, later))
    (taken : Nat) (finished : List Piece) :
    feed ⟨taken, finished, none⟩ (UInt8.ofNat byte) =
      ⟨taken + 1, finished, some ⟨taken, 1, code, next, later⟩⟩ := by
  have value : (UInt8.ofNat byte).toNat = byte := toNat_byte small
  unfold feed begin
  dsimp only
  rw [value, if_neg (by omega), leads]

theorem feed_onward {bits start width code : Nat} {range next : Nat × Nat}
    {later : List (Nat × Nat)} (few : bits < 64) (low : range.1 ≤ bits + 128)
    (high : bits + 128 ≤ range.2) (taken : Nat) (finished : List Piece) :
    feed ⟨taken, finished, some ⟨start, width, code, range, next :: later⟩⟩
        (UInt8.ofNat (bits + 128)) =
      ⟨taken + 1, finished, some ⟨start, width + 1, code * 64 + bits, next, later⟩⟩ := by
  have value : (UInt8.ofNat (bits + 128)).toNat = bits + 128 := toNat_byte (by omega)
  have inRange : (range.1 ≤ bits + 128 && bits + 128 ≤ range.2) = true := by
    rw [Bool.and_eq_true, decide_eq_true_eq, decide_eq_true_eq]
    exact ⟨low, high⟩
  unfold feed
  dsimp only
  rw [value, if_pos inRange, Nat.add_sub_cancel]

theorem feed_last {bits start width code : Nat} (few : bits < 64) (taken : Nat)
    (finished : List Piece) :
    feed ⟨taken, finished, some ⟨start, width, code, tail, []⟩⟩ (UInt8.ofNat (bits + 128)) =
      ⟨taken + 1, ⟨start, width + 1, some (Char.ofNat (code * 64 + bits))⟩ :: finished, none⟩ := by
  have value : (UInt8.ofNat (bits + 128)).toNat = bits + 128 := toNat_byte (by omega)
  have inRange : (0x80 ≤ bits + 128 && bits + 128 ≤ 0xBF) = true := by
    rw [Bool.and_eq_true, decide_eq_true_eq, decide_eq_true_eq]
    omega
  unfold feed tail
  dsimp only
  rw [value, if_pos inRange, Nat.add_sub_cancel]

/-! ### One character -/

/-- The bytes of a character are read as one piece that is this character. -/
theorem foldl_feed_encodeChar (c : Char) (taken : Nat) (finished : List Piece) :
    (String.utf8EncodeChar c).foldl feed ⟨taken, finished, none⟩ =
      ⟨taken + c.utf8Size, ⟨taken, c.utf8Size, some c⟩ :: finished, none⟩ := by
  have valid : c.val.toNat < 0xD800 ∨ 0xDFFF < c.val.toNat ∧ c.val.toNat < 0x110000 := c.valid
  have readBack : Char.ofNat c.val.toNat = c := Char.ofNat_toNat c
  rw [← String.length_utf8EncodeChar]
  unfold String.utf8EncodeChar
  generalize c.val.toNat = code at valid readBack ⊢
  dsimp only
  split
  · rename_i one
    rw [List.foldl_cons, List.foldl_nil, feed_ascii one, readBack]
    rfl
  · split
    · rename_i least most
      have bits : code / 64 * 64 + code % 64 = code := by omega
      rw [List.foldl_cons, List.foldl_cons, List.foldl_nil,
        feed_lead (by omega) (by omega) (lead?_two (by omega) most), feed_last (by omega), bits,
        readBack]
      rfl
    · split
      · rename_i least most
        have bits : (code / 4096 * 64 + code / 64 % 64) * 64 + code % 64 = code := by omega
        obtain ⟨next, leads, low, high⟩ := lead?_three (by omega) most (by omega)
        rw [List.foldl_cons, List.foldl_cons, List.foldl_cons, List.foldl_nil,
          feed_lead (by omega) (by omega) leads, feed_onward (by omega) low high,
          feed_last (by omega), bits, readBack]
        rfl
      · rename_i least
        have bits : ((code / 262144 * 64 + code / 4096 % 64) * 64 + code / 64 % 64) * 64 +
            code % 64 = code := by
          omega
        obtain ⟨next, leads, low, high⟩ := lead?_four code (by omega) (by omega)
        have third : tail.1 ≤ code / 64 % 64 + 128 ∧ code / 64 % 64 + 128 ≤ tail.2 := by
          unfold tail
          omega
        rw [List.foldl_cons, List.foldl_cons, List.foldl_cons, List.foldl_cons, List.foldl_nil,
          feed_lead (by omega) (by omega) leads, feed_onward (by omega) low high,
          feed_onward (by omega) third.1 third.2, feed_last (by omega), bits, readBack]
        rfl

end Reader

/-! ### A whole text -/

/-- The pieces of a text that starts at some offset, a character each. -/
def charPieces (start : Nat) : List Char → List Piece
  | [] => []
  | c :: rest => ⟨start, c.utf8Size, some c⟩ :: charPieces (start + c.utf8Size) rest

theorem map_shown_charPieces (start : Nat) (text : List Char) :
    (charPieces start text).map Piece.shown = text := by
  induction text generalizing start with
  | nil => rfl
  | cons c rest ih =>
      unfold charPieces
      rw [List.map_cons, ih]
      rfl

theorem Reader.foldl_feed_encode (text : List Char) (taken : Nat) (finished : List Piece) :
    (text.flatMap String.utf8EncodeChar).foldl feed ⟨taken, finished, none⟩ =
      ⟨taken + Text.byteLength text, (charPieces taken text).reverse ++ finished, none⟩ := by
  induction text generalizing taken finished with
  | nil => rfl
  | cons c rest ih =>
      unfold charPieces
      rw [List.flatMap_cons, List.foldl_append, foldl_feed_encodeChar, ih, Text.byteLength_cons,
        Nat.add_assoc, List.reverse_cons, List.append_assoc, List.singleton_append]

/-- The bytes of a text are cut into pieces between its characters. -/
theorem pieces_bytesOf (text : String) : pieces (bytesOf text) = charPieces 0 text.toList := by
  unfold pieces Reader.initial
  rw [bytesOf_eq, Reader.foldl_feed_encode]
  unfold Reader.finish
  dsimp only
  rw [List.append_nil, List.reverse_reverse]

/-- Decoding gives back the text that was encoded. -/
theorem decode_bytesOf_text (text : String) : (decode (bytesOf text)).text = text := by
  unfold decode shownText
  dsimp only
  rw [pieces_bytesOf, map_shown_charPieces, String.ofList_toList]

end Encoding
end Survey
