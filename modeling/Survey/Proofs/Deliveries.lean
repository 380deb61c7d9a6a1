import Survey.Input.Surveying
import Survey.Proofs.Decoding
import Survey.Proofs.InventoryContents

set_option autoImplicit false

/-!
# Surveys of streams, however the data arrive

A stream is read on through data and interruptions, up to a failure, to a delivery without
data, or to its end. What was read is the data joined, so it makes no difference where a
text is cut, be it inside a character: the survey of the stream is the survey of the text.
-/

namespace Survey
namespace Delivery

/-- The data that a delivery brings. -/
def bytes : Delivery → List UInt8
  | .data bytes => bytes
  | .interrupted | .failure _ => []

/-- Is a stream read on behind the delivery? -/
def goesOn : Delivery → Bool
  | .data bytes => !bytes.isEmpty
  | .interrupted => true
  | .failure _ => false

theorem readAll_cons {delivery : Delivery} (onward : delivery.goesOn = true)
    (later : List Delivery) :
    readAll (delivery :: later) = (readAll later).map (delivery.bytes ++ ·) := by
  cases delivery with
  | data bytes =>
      cases bytes with
      | nil => cases onward
      | cons byte bytes => rfl
  | interrupted =>
      change readAll later = (readAll later).map ([] ++ ·)
      cases readAll later <;> rfl
  | failure cause => cases onward

/-- Data are joined until something ends the stream. -/
theorem readAll_append {first : List Delivery}
    (onward : ∀ delivery ∈ first, delivery.goesOn = true) (later : List Delivery) :
    readAll (first ++ later) = (readAll later).map (first.flatMap bytes ++ ·) := by
  induction first with
  | nil =>
      rw [List.nil_append]
      cases readAll later <;> rfl
  | cons delivery rest ih =>
      rw [List.forall_mem_cons] at onward
      rw [List.cons_append, readAll_cons onward.1, ih onward.2, List.flatMap_cons]
      cases readAll later with
      | error cause => rfl
      | ok bytes => exact congrArg Except.ok (List.append_assoc _ _ _).symm

theorem readAll_of_goesOn {script : List Delivery}
    (onward : ∀ delivery ∈ script, delivery.goesOn = true) :
    readAll script = .ok (script.flatMap bytes) := by
  have joined := readAll_append onward []
  rw [List.append_nil] at joined
  rw [joined]
  exact congrArg Except.ok (List.append_nil _)

theorem readAll_failure {first : List Delivery}
    (onward : ∀ delivery ∈ first, delivery.goesOn = true) (cause : String)
    (later : List Delivery) : readAll (first ++ .failure cause :: later) = .error cause := by
  rw [readAll_append onward]
  rfl

/-- A stream ends at the first delivery without data, whatever comes before and behind. -/
theorem readAll_empty (first later : List Delivery) :
    readAll (first ++ .data [] :: later) = readAll first := by
  induction first with
  | nil => rfl
  | cons delivery rest ih =>
      cases delivery with
      | data bytes =>
          cases bytes with
          | nil => rfl
          | cons byte bytes => exact congrArg (Except.map (byte :: bytes ++ ·)) ih
      | interrupted => exact ih
      | failure cause => rfl

end Delivery

theorem surveyStream_of_readAll {script : List Delivery} {bytes : List UInt8}
    (read : Delivery.readAll script = .ok bytes) (config : Config) :
    surveyStream config script = surveyBytes config bytes := by
  unfold surveyStream
  rw [read]
  rfl

/-- Surveying the bytes of a text is surveying the text. -/
theorem surveyBytes_bytesOf (config : Config) (text : String) :
    surveyBytes config (Encoding.bytesOf text) = (survey config text).mapError .fault := by
  unfold surveyBytes
  rw [Encoding.decode_bytesOf_text]

/-- A text that is delivered in any pieces, with any interruptions, is surveyed as the text
itself. A failure that the stream is read up to is the result, and nothing behind a delivery
without data has an effect. -/
theorem surveyStream_agrees (config : Config) :
    (∀ (text : String) (script : List Delivery),
      (∀ delivery ∈ script, delivery.goesOn = true) →
      script.flatMap Delivery.bytes = Encoding.bytesOf text →
        surveyStream config script = (survey config text).mapError .fault ∧
          (Text.byteLength text.toList ≤ 2 ^ 32 - 3 →
            ∃ inventory, survey config text = .ok inventory ∧
              surveyStream config script = .ok inventory)) ∧
    (∀ (first later : List Delivery) (cause : String),
      (∀ delivery ∈ first, delivery.goesOn = true) →
        surveyStream config (first ++ .failure cause :: later) = .error (.stream cause)) ∧
    (∀ first later : List Delivery,
      surveyStream config (first ++ .data [] :: later) = surveyStream config first) := by
  refine ⟨?_, ?_, ?_⟩
  · intro text script onward joined
    have whole : surveyStream config script = (survey config text).mapError .fault := by
      have read := Delivery.readAll_of_goesOn onward
      rw [joined] at read
      rw [surveyStream_of_readAll read, surveyBytes_bytesOf]
    refine ⟨whole, ?_⟩
    intro small
    have surveyed := survey_eq config text small
    refine ⟨_, surveyed, ?_⟩
    rw [whole, surveyed]
    rfl
  · intro first later cause onward
    unfold surveyStream
    rw [Delivery.readAll_failure onward]
    rfl
  · intro first later
    unfold surveyStream
    rw [Delivery.readAll_empty]

/-- The name of the function is cut inside its first character, and the stream fails only
behind a delivery without data. -/
theorem surveyStream_agrees_cut_character :
    let script := [.interrupted, .data [0x66, 0x6E, 0x20, 0xC3], .interrupted, .interrupted,
      .data [0xA9, 0x28, 0x29, 0x7B], Delivery.data [0x7D]]
    (∀ delivery ∈ script, delivery.goesOn = true) ∧
      script.flatMap Delivery.bytes = Encoding.bytesOf "fn é()\x7b\x7d" ∧
      ∃ inventory, survey .standard "fn é()\x7b\x7d" = .ok inventory ∧
        surveyStream .standard (script ++ [.data [], .failure "gone"]) = .ok inventory ∧
        surveyStream .standard (script ++ [.failure "gone"]) = .error (.stream "gone") := by
  intro script
  have onward : ∀ delivery ∈ script, delivery.goesOn = true := by
    decide
  have joined : script.flatMap Delivery.bytes = Encoding.bytesOf "fn é()\x7b\x7d" := by
    decide +kernel
  have small : Text.byteLength "fn é()\x7b\x7d".toList ≤ 2 ^ 32 - 3 := by
    decide +kernel
  obtain ⟨delivered, failed, ended⟩ := surveyStream_agrees .standard
  obtain ⟨inventory, surveyed, streamed⟩ := (delivered _ script onward joined).2 small
  refine ⟨onward, joined, inventory, surveyed, ?_, failed script [] "gone" onward⟩
  rw [ended]
  exact streamed

end Survey
