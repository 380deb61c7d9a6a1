import Survey.Proofs.BracketBalance
import Survey.Proofs.Shapes
import Survey.Proofs.SignaturePieces

set_option autoImplicit false

/-!
# Signatures sliced by byte offsets

A signature may also be taken apart as a program does that holds texts as bytes. Closers,
separators and words are then found at byte offsets, and each part is a slice between two of
them; a slice is refused if an offset lies outside the text or inside a character, or if the
offsets are reversed. Depths are 32-bit counters.

No slice is ever refused, and the parts are those that are found by counting characters: an
offset is always the length in bytes of the characters before it, and what is stepped over at
an offset (a closer, a separator, a word) is as wide as its characters. Only a depth may be
refused, and only in a text of 2^32 bytes or more.
-/

namespace Survey

/-- Why a text is not taken apart. -/
inductive Miscut where
  /-- The offsets of a slice are reversed, outside the text or inside a character. -/
  | slice
  /-- A depth is no 32-bit counter. -/
  | depth
deriving DecidableEq, Repr

/-- The outcome is the value, or a depth was refused and the size is no 32-bit counter. -/
def Yields {α : Type} (size : Nat) (outcome : Except Miscut α) (value : α) : Prop :=
  outcome = .ok value ∨ outcome = .error .depth ∧ Counter.limit ≤ size

namespace Yields

variable {α β : Type} {size : Nat} {value : α} {outcome : Except Miscut α}

theorem pure (size : Nat) (value : α) : Yields size (.ok value) value := .inl rfl

theorem bind (yields : Yields size outcome value) {next : α → Except Miscut β} {result : β}
    (later : Yields size (next value) result) : Yields size (outcome >>= next) result := by
  rcases yields with rfl | ⟨rfl, large⟩
  · exact later
  · exact .inr ⟨rfl, large⟩

theorem eq_ok (yields : Yields size outcome value) (small : size < Counter.limit) :
    outcome = .ok value := by
  rcases yields with done | ⟨-, large⟩
  · exact done
  · omega

/-- What is done with a value at once. -/
theorem map (yields : Yields size outcome value) (next : α → β) :
    Yields size (outcome >>= fun value => .ok (next value)) (next value) :=
  yields.bind (.pure size _)

end Yields

/-! ### Slices -/

namespace Text

/-- The characters between two byte offsets. -/
def cut (text : List Char) (start stop : Nat) : Except Miscut (List Char) :=
  match charsBefore? start text, charsBefore? stop text with
  | some first, some last =>
      if first ≤ last then .ok ((text.drop first).take (last - first)) else .error .slice
  | _, _ => .error .slice

/-- The characters before a byte offset. -/
def cutBefore (text : List Char) (stop : Nat) : Except Miscut (List Char) := cut text 0 stop

/-- The characters behind a byte offset. -/
def cutBehind (text : List Char) (start : Nat) : Except Miscut (List Char) :=
  cut text start (byteLength text)

/-- How many bytes the characters of a class take that the text starts with. -/
def bytesWhile (keep : Char → Bool) (text : List Char) : Nat := byteLength (text.takeWhile keep)

theorem cut_append (before piece after : List Char) :
    cut (before ++ (piece ++ after)) (byteLength before) (byteLength (before ++ piece)) =
      .ok piece := by
  have last := charsBefore?_append (before ++ piece) after
  rw [List.append_assoc] at last
  unfold cut
  rw [charsBefore?_append, last]
  dsimp only
  rw [if_pos (List.length_append ▸ Nat.le_add_right _ _), List.drop_left, List.length_append,
    Nat.add_sub_cancel_left, List.take_left]

theorem cutBefore_append (before after : List Char) :
    cutBefore (before ++ after) (byteLength before) = .ok before :=
  cut_append [] before after

theorem cutBehind_append (before after : List Char) :
    cutBehind (before ++ after) (byteLength before) = .ok after := by
  have whole := cut_append before after []
  rw [List.append_nil] at whole
  exact whole

/-- A character of one byte is stepped over at an offset. -/
theorem cutBehind_mark {mark : Char} (narrow : mark.utf8Size = 1) (before after : List Char) :
    cutBehind (before ++ mark :: after) (byteLength before + 1) = .ok after := by
  have sliced := cutBehind_append (before ++ [mark]) after
  rwa [byteLength_append, byteLength_cons, narrow, byteLength_nil, List.append_assoc] at sliced

theorem drop_mark (before : List Char) (mark : Char) (after : List Char) :
    (before ++ mark :: after).drop (before.length + 1) = after := by
  rw [← List.drop_drop, List.drop_left]
  rfl

theorem cutBefore_bytesWhile (keep : Char → Bool) (text : List Char) :
    cutBefore text (bytesWhile keep text) = .ok (text.takeWhile keep) := by
  have split := cutBefore_append (text.takeWhile keep) (text.dropWhile keep)
  rwa [List.takeWhile_append_dropWhile] at split

theorem cutBehind_bytesWhile (keep : Char → Bool) (text : List Char) :
    cutBehind text (bytesWhile keep text) = .ok (text.dropWhile keep) := by
  have split := cutBehind_append (text.takeWhile keep) (text.dropWhile keep)
  rwa [List.takeWhile_append_dropWhile] at split

theorem length_le_of_cutBehind {text piece : List Char} {start : Nat}
    (sliced : cutBehind text start = .ok piece) : piece.length ≤ text.length := by
  unfold cutBehind cut at sliced
  split at sliced
  · split at sliced
    · cases sliced
      exact ((List.take_sublist _ _).trans (List.drop_sublist _ _)).length_le
    · cases sliced
  · cases sliced

theorem byteLength_le_of_sublist {piece text : List Char} (part : piece.Sublist text) :
    byteLength piece ≤ byteLength text := by
  induction part with
  | slnil => exact Nat.le_refl _
  | cons c part ih =>
      rw [byteLength_cons]
      omega
  | cons_cons c part ih =>
      rw [byteLength_cons, byteLength_cons]
      omega

end Text

namespace Signature
namespace Sliced

/-- Go past a character with a depth of 32 bits; the depth that the character lies at comes
first. -/
def feed (nesting : Nesting) (c : Char) : Except Miscut (Nat × Nesting) :=
  if (nesting.past c).depth < Counter.limit then .ok (nesting.depthOf c, nesting.past c)
  else .error .depth

/-- The byte offset of the closer that leads back to the surface. -/
def closer? (text : List Char) : Except Miscut (Option Nat) :=
  go .inside 0 text
where
  go (nesting : Nesting) (offset : Nat) : List Char → Except Miscut (Option Nat)
    | [] => .ok none
    | c :: rest => do
        let (_, next) ← feed nesting c
        if next.depth = 0 ∧ nesting.depth = 1 then .ok (some offset)
        else go next (offset + c.utf8Size) rest

/-- The text behind the generic list that it starts with. -/
def afterGenerics : List Char → Except Miscut (List Char)
  | '<' :: inner => do
      match ← closer? inner with
      | some offset => Text.cutBehind inner (offset + 1)
      | none => .ok []
  | text => .ok text

/-- The slices between the separators that lie at the surface. -/
def splitTop (separator : Char) (text : List Char) : Except Miscut (List (List Char)) :=
  go .surface 0 0 text
where
  go (nesting : Nesting) (start offset : Nat) : List Char → Except Miscut (List (List Char))
    | [] => do
        let part ← Text.cutBehind text start
        .ok [part]
    | c :: rest => do
        let (depth, next) ← feed nesting c
        if depth = 0 ∧ c = separator then
          let part ← Text.cut text start offset
          let parts ← go next (offset + c.utf8Size) (offset + c.utf8Size) rest
          .ok (part :: parts)
        else go next start (offset + c.utf8Size) rest

/-- Does the word stand at the offset, with white space or the end of the text behind it? -/
def standsAlone (word text : List Char) (offset : Nat) : Except Miscut Bool := do
  let behind ← Text.cutBehind text offset
  if word.isPrefixOf behind then
    let after ← Text.cutBehind text (offset + Text.byteLength word)
    .ok (after.head?.all Text.isWhiteSpace)
  else .ok false

/-- The byte offset of a word that stands alone at the surface. -/
def word? (word text : List Char) : Except Miscut (Option Nat) :=
  go .surface true 0 text
where
  go (nesting : Nesting) (afterSpace : Bool) (offset : Nat) :
      List Char → Except Miscut (Option Nat)
    | [] => .ok none
    | c :: rest => do
        let (depth, next) ← feed nesting c
        let found ← if depth = 0 ∧ afterSpace then standsAlone word text offset else .ok false
        if found then .ok (some offset)
        else go next (Text.isWhiteSpace c) (offset + c.utf8Size) rest

/-- The text before its constraints. -/
def beforeConstraints (text : List Char) : Except Miscut (List Char) := do
  match ← word? ['w', 'h', 'e', 'r', 'e'] text with
  | some offset =>
      let before ← Text.cutBefore text offset
      .ok (Text.trimEnd before)
  | none => .ok (Text.trimEnd text)

/-- The parts of a parameter list. -/
def parameters (text : List Char) : Except Miscut (List (List Char)) := do
  let parts ← splitTop ',' text
  .ok ((parts.map Text.trim).filter fun part => !part.isEmpty)

/-- The result type behind a parameter list. -/
def resultType (text : List Char) : Except Miscut (List Char) :=
  match Text.trimStart text with
  | '-' :: '>' :: rest => beforeConstraints (Text.trimStart rest)
  | _ => .ok []

/-- The parts of a signature, given its name and the text from inside its parameter list. -/
def partsInside (name inner : List Char) : Except Miscut FunctionParts := do
  match ← closer? inner with
  | some offset =>
      let list ← Text.cutBefore inner offset
      let tail ← Text.cutBehind inner (offset + 1)
      let listed ← parameters list
      let result ← resultType tail
      .ok ⟨name, listed, result⟩
  | none =>
      let listed ← parameters inner
      .ok ⟨name, listed, []⟩

/-- Take a signature apart. -/
def functionParts (text : List Char) : Except Miscut FunctionParts := do
  let text := Text.trim text
  let nameEnd := Text.bytesWhile isNamed text
  let name ← Text.cutBefore text nameEnd
  let behind ← Text.cutBehind text nameEnd
  let listed ← afterGenerics (Text.trimStart behind)
  match Text.trimStart listed with
  | '(' :: inner => partsInside name inner
  | _ => .ok ⟨name, [], []⟩

/-- A type without the borrows, lifetimes and qualifiers that it starts with. -/
def bareType (text : List Char) : Except Miscut (List Char) :=
  match text with
  | '&' :: rest => bareType (Text.trimStart rest)
  | '\'' :: rest =>
      match _sliced : Text.cutBehind rest (Text.bytesWhile Text.isWordPart rest) with
      | .ok behind => bareType (Text.trimStart behind)
      | .error miscut => .error miscut
  | 'm' :: 'u' :: 't' :: ' ' :: rest => bareType (Text.trimStart rest)
  | 'd' :: 'y' :: 'n' :: ' ' :: rest => bareType (Text.trimStart rest)
  | text => .ok text
termination_by text.length
decreasing_by
  all_goals
    have trimmed := fun text => (Text.trimStart_isSuffix text).length_le
    have sliced := @Text.length_le_of_cutBehind
    simp only [List.length_cons]
    grind

/-- The name of a tuple or an array, given also the text from inside it. -/
def groupName (text inner : List Char) : Except Miscut (List Char) := do
  match ← closer? inner with
  | some offset => Text.cutBefore text (offset + 2)
  | none => .ok (Text.trimEnd text)

/-- The name of a type. -/
def typeName (text : List Char) : Except Miscut (List Char) := do
  let bare ← bareType (Text.trimStart text)
  match bare with
  | '(' :: inner => groupName ('(' :: inner) inner
  | '[' :: inner => groupName ('[' :: inner) inner
  | bare =>
      Text.cutBefore bare (Text.bytesWhile (fun c => !(Text.isWhiteSpace c || c == '<')) bare)

/-- What an implementation belongs to. -/
def target? (text : List Char) : Except Miscut (Option Target) := do
  let behind ← afterGenerics (Text.trimStart text)
  let whole ← beforeConstraints behind
  match ← word? ['f', 'o', 'r'] whole with
  | some offset =>
      let trait ← Text.cutBefore whole offset
      let type ← Text.cutBehind whole (offset + 3)
      let name ← typeName type
      .ok (if name.isEmpty then none else some ⟨name, traitName? trait⟩)
  | none =>
      let name ← typeName whole
      .ok (if name.isEmpty then none else some ⟨name, none⟩)

/-! ### Finding by bytes and by characters -/

variable {size : Nat} {nesting : Nesting} {afterSpace : Bool} {separator c : Char}
  {word text before part rest : List Char}

theorem depth_past_le (nesting : Nesting) (c : Char) :
    (nesting.past c).depth ≤ nesting.depth + 1 := by
  unfold Nesting.past
  dsimp only
  split_ifs <;> omega

/-- The depth at a place is at most the number of bytes before it. -/
theorem feed_yields (c : Char) (bound : nesting.depth + 1 ≤ size) :
    Yields size (feed nesting c) (nesting.depthOf c, nesting.past c) := by
  have deeper := depth_past_le nesting c
  unfold feed
  split
  · exact .pure _ _
  · exact .inr ⟨rfl, by omega⟩

theorem closer?_go_yields (nesting : Nesting) (before text : List Char)
    (bound : nesting.depth + Text.byteLength text ≤ size) :
    Yields size (closer?.go nesting (Text.byteLength before) text)
      ((closerIndex?.go nesting before.length text).map fun index =>
        Text.byteLength ((before ++ text).take index)) := by
  induction text generalizing nesting before with
  | nil => exact .pure _ _
  | cons c rest ih =>
      -- The depth grows by one at most and the text shrinks by a byte at least.
      have wide := c.utf8Size_pos
      have deeper := depth_past_le nesting c
      rw [Text.byteLength_cons] at bound
      rw [closer?.go, closerIndex?.go]
      refine (feed_yields c (by omega)).bind ?_
      dsimp only
      split
      · rw [Option.map_some, List.take_left]
        exact .pure _ _
      · have later := ih (nesting.past c) (before ++ [c]) (by omega)
        rwa [Text.byteLength_append, Text.byteLength_cons, Text.byteLength_nil,
          List.length_append, List.append_assoc] at later

/-- The closer is found in both ways, and what stands before it is the same, or in neither. -/
theorem closer?_cases (text : List Char) (bound : 1 + Text.byteLength text ≤ size) :
    (closerIndex? text = none ∧ Yields size (closer? text) none) ∨
      ∃ inner closer rest, text = inner ++ closer :: rest ∧ closer.utf8Size = 1 ∧
        closerIndex? text = some inner.length ∧
        Yields size (closer? text) (some (Text.byteLength inner)) := by
  have yields := closer?_go_yields .inside [] text bound
  change Yields size (closer? text) ((closerIndex? text).map _) at yields
  rcases closerIndex?_cases text with
    ⟨missing, -⟩ | ⟨inner, closer, rest, rfl, found, closes, -⟩
  · rw [missing] at yields
    exact .inl ⟨missing, yields⟩
  · rw [found, Option.map_some, List.nil_append, List.take_left] at yields
    have narrow : ∀ c ∈ [')', ']', '\x7d', '>'], c.utf8Size = 1 := by
      decide
    exact .inr ⟨inner, closer, rest, rfl, narrow closer (of_decide_eq_true closes), found, yields⟩

theorem afterGenerics_yields (text : List Char) (bound : Text.byteLength text ≤ size) :
    Yields size (afterGenerics text) (Signature.afterGenerics text) := by
  fun_cases afterGenerics text with
  | case1 inner =>
      rw [Text.byteLength_cons] at bound
      rw [Signature.afterGenerics]
      rcases closer?_cases inner bound with
        ⟨missing, yields⟩ | ⟨list, closer, rest, rfl, narrow, found, yields⟩
      · rw [missing]
        exact yields.bind (.pure _ _)
      · rw [found]
        dsimp only
        rw [Text.drop_mark]
        exact yields.bind (.inl (Text.cutBehind_mark narrow list rest))
  | case2 text notAngle =>
      rw [Signature.afterGenerics]
      · exact .pure _ _
      · exact notAngle

/-- A part is sliced from the end of the last separator, however much of it was passed. -/
theorem splitTop_go_yields (separator : Char) (nesting : Nesting) (done part rest : List Char)
    (split : text = done ++ (part ++ rest))
    (bound : nesting.depth + Text.byteLength rest ≤ size) :
    Yields size
      (splitTop.go separator text nesting (Text.byteLength done)
        (Text.byteLength (done ++ part)) rest)
      (prepend part (Signature.splitTop.go separator nesting rest)) := by
  induction rest generalizing nesting done part with
  | nil =>
      rw [split, splitTop.go, Text.cutBehind_append]
      exact .pure _ _
  | cons c rest ih =>
      have wide := c.utf8Size_pos
      have deeper := depth_past_le nesting c
      rw [Text.byteLength_cons] at bound
      rw [splitTop.go, splitTop_go_cons]
      refine (feed_yields c (by omega)).bind ?_
      dsimp only
      -- A separator ends the part and starts an empty one behind itself.
      split
      · have sliced := Text.cut_append done part (c :: rest)
        rw [← split] at sliced
        have filled := splitTop_ne_nil separator (nesting.past c) rest
        have later := ih (nesting.past c) (done ++ part ++ [c]) [] (by simp [split]) (by omega)
        rw [List.append_nil, Text.byteLength_append (done ++ part), Text.byteLength_cons,
          Text.byteLength_nil, prepend_nil filled] at later
        rw [sliced, prepend, List.append_nil]
        exact later.map (part :: ·)
      · have later := ih (nesting.past c) done (part ++ [c]) (by simp [split]) (by omega)
        rw [← List.append_assoc, Text.byteLength_append (done ++ part), Text.byteLength_cons,
          Text.byteLength_nil] at later
        rwa [prepend_prepend]

theorem splitTop_yields (separator : Char) (text : List Char)
    (bound : Text.byteLength text ≤ size) :
    Yields size (splitTop separator text) (Signature.splitTop separator text) := by
  rw [← Nat.zero_add (Text.byteLength text)] at bound
  have yields := splitTop_go_yields separator .surface [] [] text rfl bound
  obtain ⟨part, parts, split⟩ :=
    List.exists_cons_of_ne_nil (splitTop_ne_nil separator .surface text)
  rw [split] at yields
  unfold splitTop Signature.splitTop
  rw [split]
  exact yields

/-! ### Words -/

theorem standsAlone_eq (word before rest : List Char) :
    standsAlone word (before ++ rest) (Text.byteLength before) =
      .ok (wordIndex?.standsAlone word rest) := by
  unfold standsAlone wordIndex?.standsAlone
  rw [Text.cutBehind_append]
  change (if word.isPrefixOf rest = true then _ else _) = _
  split
  · rename_i stands
    obtain ⟨after, rfl⟩ := List.isPrefixOf_iff_prefix.mp stands
    have behind := Text.cutBehind_append (before ++ word) after
    rw [List.append_assoc, Text.byteLength_append] at behind
    rw [behind, List.isPrefixOf?_eq_some_iff_append_eq.mpr rfl]
    rfl
  · rename_i differs
    have missing : word.isPrefixOf? rest = none := by
      cases found : word.isPrefixOf? rest with
      | none => rfl
      | some after =>
          have split := List.isPrefixOf?_eq_some_iff_append_eq.mp found
          exact absurd (List.isPrefixOf_iff_prefix.mpr ⟨after, split⟩) differs
    rw [missing]

theorem word?_go_yields (word : List Char) (nesting : Nesting) (afterSpace : Bool)
    (before rest : List Char) (split : text = before ++ rest)
    (bound : nesting.depth + Text.byteLength rest ≤ size) :
    Yields size (word?.go word text nesting afterSpace (Text.byteLength before) rest)
      ((wordIndex?.go word nesting afterSpace before.length rest).map fun index =>
        Text.byteLength (text.take index)) := by
  induction rest generalizing nesting afterSpace before with
  | nil => exact .pure _ _
  | cons c rest ih =>
      have wide := c.utf8Size_pos
      have deeper := depth_past_le nesting c
      have alone := standsAlone_eq word before (c :: rest)
      rw [Text.byteLength_cons] at bound
      rw [← split] at alone
      rw [word?.go, wordIndex?.go, alone]
      have later := ih (nesting.past c) (Text.isWhiteSpace c) (before ++ [c]) (by simp [split])
        (by omega)
      rw [Text.byteLength_append, Text.byteLength_cons, Text.byteLength_nil,
        List.length_append] at later
      refine (feed_yields c (by omega)).bind ?_
      dsimp only
      by_cases found : nesting.depthOf c = 0 ∧ afterSpace = true ∧
          wordIndex?.standsAlone word (c :: rest) = true
      · obtain ⟨atSurface, isBehind, stands⟩ := found
        rw [if_pos ⟨atSurface, isBehind⟩, if_pos ⟨atSurface, isBehind, stands⟩, stands,
          Option.map_some, split, List.take_left]
        exact .pure _ _
      · rw [if_neg found]
        split_ifs with place
        · have differs : wordIndex?.standsAlone word (c :: rest) = false :=
            Bool.eq_false_iff.mpr fun stands => found ⟨place.1, place.2, stands⟩
          rw [differs]
          exact later
        · exact later

/-- The word is found in both ways, and what stands before it is the same, or in neither. -/
theorem word?_cases {w : Char} (plain : w ∉ shifting) (word text : List Char)
    (bound : Text.byteLength text ≤ size) :
    (wordIndex? (w :: word) text = none ∧ Yields size (word? (w :: word) text) none) ∨
      ∃ before after, text = before ++ (w :: word ++ after) ∧
        wordIndex? (w :: word) text = some before.length ∧
        Yields size (word? (w :: word) text) (some (Text.byteLength before)) := by
  rw [← Nat.zero_add (Text.byteLength text)] at bound
  have yields := word?_go_yields (w :: word) .surface true [] text rfl bound
  change Yields size (word? (w :: word) text) ((wordIndex? (w :: word) text).map _) at yields
  rcases wordIndex?_parts plain word text with
    ⟨missing, -⟩ | ⟨before, after, found, parts⟩
  · rw [missing] at yields
    exact .inl ⟨missing, yields⟩
  · rw [found, List.nil_append, Option.map_some, parts.split, List.take_left, ← parts.split]
      at yields
    exact .inr ⟨before, after, parts.split, found, yields⟩

theorem beforeConstraints_yields (text : List Char) (bound : Text.byteLength text ≤ size) :
    Yields size (beforeConstraints text) (Signature.beforeConstraints text) := by
  unfold beforeConstraints Signature.beforeConstraints
  rcases word?_cases (w := 'w') (by decide) ['h', 'e', 'r', 'e'] text bound with
    ⟨missing, yields⟩ | ⟨before, after, rfl, found, yields⟩
  · rw [missing]
    exact yields.bind (.pure _ _)
  · rw [found]
    dsimp only
    rw [List.take_left]
    refine yields.bind ?_
    dsimp only
    rw [Text.cutBefore_append]
    exact .pure _ _

/-! ### Functions -/

theorem parameters_yields (text : List Char) (bound : Text.byteLength text ≤ size) :
    Yields size (parameters text) (Signature.parameters text) :=
  (splitTop_yields ',' text bound).map _

theorem resultType_yields (text : List Char) (bound : Text.byteLength text ≤ size) :
    Yields size (resultType text) (Signature.resultType text) := by
  unfold Signature.resultType
  fun_cases resultType text with
  | case1 rest isArrow =>
      have trimmed := Text.byteLength_le_of_sublist (Text.trimStart_isSuffix text).sublist
      rw [isArrow, Text.byteLength_cons, Text.byteLength_cons] at trimmed
      have behind := Text.byteLength_le_of_sublist (Text.trimStart_isSuffix rest).sublist
      rw [isArrow]
      exact beforeConstraints_yields _ (by omega)
  | case2 notArrow =>
      split
      · rename_i rest isArrow
        exact absurd isArrow (notArrow rest)
      · exact .pure _ _

theorem partsInside_yields (name inner : List Char) (bound : 1 + Text.byteLength inner ≤ size) :
    Yields size (partsInside name inner) (Signature.partsInside name inner) := by
  unfold partsInside Signature.partsInside
  rcases closer?_cases inner bound with
    ⟨missing, yields⟩ | ⟨list, closer, tail, rfl, narrow, found, yields⟩
  · rw [missing]
    exact yields.bind ((parameters_yields inner (by omega)).map _)
  · rw [Text.byteLength_append, Text.byteLength_cons] at bound
    rw [found]
    dsimp only
    rw [Text.drop_mark, List.take_left]
    refine yields.bind ?_
    dsimp only
    rw [Text.cutBefore_append, Text.cutBehind_mark narrow]
    exact (parameters_yields list (by omega)).bind ((resultType_yields tail (by omega)).map _)

theorem functionParts_yields (text : List Char) (bound : Text.byteLength text ≤ size) :
    Yields size (functionParts text) (Signature.functionParts text) := by
  have behind : (Text.trimStart ((Text.trim text).dropWhile isNamed)).Sublist text :=
    ((Text.trimStart_isSuffix _).trans (List.dropWhile_suffix _)).sublist.trans
      (Text.trim_isInfix text).sublist
  have list := Text.byteLength_le_of_sublist
    (((Text.trimStart_isSuffix _).trans (afterGenerics_isSuffix _)).sublist.trans behind)
  rw [functionParts_eq]
  unfold functionParts
  dsimp only
  rw [Text.cutBefore_bytesWhile, Text.cutBehind_bytesWhile]
  refine (afterGenerics_yields _
    ((Text.byteLength_le_of_sublist behind).trans bound)).bind ?_
  generalize Text.trimStart (Signature.afterGenerics _) = rest at list ⊢
  -- Both readers look for the same opener: the case decides for both at once.
  by_cases isList : ∃ inner, rest = '(' :: inner
  · obtain ⟨inner, rfl⟩ := isList
    have narrow : ('(' : Char).utf8Size = 1 := rfl
    rw [Text.byteLength_cons, narrow] at list
    exact partsInside_yields _ inner (list.trans bound)
  · have notList : ∀ inner, rest = '(' :: inner → False :=
      fun inner opens => isList ⟨inner, opens⟩
    simp only
    exact .pure _ _

/-! ### Implementations -/

theorem bareType_eq (text : List Char) : bareType text = .ok (Signature.bareType text) := by
  fun_induction Signature.bareType text with
  | case1 rest ih => rw [bareType, ih]
  | case2 rest ih =>
      rw [bareType]
      split
      · rename_i behind sliced
        rw [Text.cutBehind_bytesWhile] at sliced
        cases sliced
        exact ih
      · rename_i miscut sliced
        rw [Text.cutBehind_bytesWhile] at sliced
        cases sliced
  | case3 rest ih => rw [bareType, ih]
  | case4 rest ih => rw [bareType, ih]
  | case5 text notBorrow notQuote notMut notDyn => rw [bareType] <;> assumption

theorem groupName_yields {opener : Char} (narrow : opener.utf8Size = 1) (inner : List Char)
    (bound : 1 + Text.byteLength inner ≤ size) :
    Yields size (groupName (opener :: inner) inner)
      (Signature.groupName (opener :: inner) inner) := by
  unfold groupName Signature.groupName
  rcases closer?_cases inner bound with
    ⟨missing, yields⟩ | ⟨list, closer, rest, rfl, closes, found, yields⟩
  · rw [missing]
    exact yields.bind (.pure _ _)
  · rw [found]
    refine yields.bind ?_
    -- The offset is counted inside the group, so its opener and its closer are added.
    have whole : opener :: (list ++ closer :: rest) = opener :: (list ++ [closer]) ++ rest := by
      simp
    have offset : Text.byteLength list + 2 = Text.byteLength (opener :: (list ++ [closer])) := by
      simp only [Text.byteLength_cons, Text.byteLength_append, Text.byteLength_nil, narrow, closes]
      omega
    have chars : list.length + 2 = (opener :: (list ++ [closer])).length := by
      simp
    dsimp only
    rw [whole, offset, chars, Text.cutBefore_append, List.take_left]
    exact .pure _ _

theorem typeName_yields (text : List Char) (bound : Text.byteLength text ≤ size) :
    Yields size (typeName text) (Signature.typeName text) := by
  have bare := Text.byteLength_le_of_sublist
    ((bareType_isSuffix _).trans (Text.trimStart_isSuffix text)).sublist
  unfold typeName Signature.typeName
  dsimp only
  rw [bareType_eq]
  refine (Yields.pure size (Signature.bareType (Text.trimStart text))).bind ?_
  generalize Signature.bareType (Text.trimStart text) = type at bare ⊢
  split
  · rename_i inner
    rw [Text.byteLength_cons] at bare
    have narrow : ('(' : Char).utf8Size = 1 := rfl
    exact groupName_yields narrow inner (by omega)
  · rename_i inner
    rw [Text.byteLength_cons] at bare
    have narrow : ('[' : Char).utf8Size = 1 := rfl
    exact groupName_yields narrow inner (by omega)
  · rename_i notTuple notArray
    simp only [Text.cutBefore_bytesWhile]
    exact .pure _ _

theorem target?_yields (text : List Char) (bound : Text.byteLength text ≤ size) :
    Yields size (target? text) (Signature.target? text) := by
  have trimmed := Text.byteLength_le_of_sublist (Text.trimStart_isSuffix text).sublist
  have behind := Text.byteLength_le_of_sublist
    (afterGenerics_isSuffix (Text.trimStart text)).sublist
  have before := Text.byteLength_le_of_sublist
    (beforeConstraints_isPrefix (Signature.afterGenerics (Text.trimStart text))).sublist
  unfold target? Signature.target?
  dsimp only
  refine (afterGenerics_yields _ (by omega)).bind ?_
  refine (beforeConstraints_yields _ (by omega)).bind ?_
  generalize Signature.beforeConstraints _ = whole at before ⊢
  have inside : Text.byteLength whole ≤ size := by
    omega
  rcases word?_cases (w := 'f') (by decide) ['o', 'r'] whole inside with
    ⟨missing, yields⟩ | ⟨trait, type, rfl, found, yields⟩
  · rw [missing]
    exact yields.bind ((typeName_yields whole inside).map _)
  · have sliced := Text.cutBehind_append (trait ++ ['f', 'o', 'r']) type
    have word : Text.byteLength ['f', 'o', 'r'] = 3 := rfl
    have rest : (trait ++ (['f', 'o', 'r'] ++ type)).drop (trait.length + 3) = type := by
      rw [← List.drop_drop, List.drop_left]
      rfl
    rw [List.append_assoc, Text.byteLength_append, word] at sliced
    rw [Text.byteLength_append, Text.byteLength_append] at inside
    rw [found]
    refine yields.bind ?_
    dsimp only
    rw [Text.cutBefore_append, sliced]
    simp only [rest, List.take_left]
    exact (typeName_yields type (by omega)).map _

end Sliced

/-! ### All signatures -/

/-- However malformed a text is, no slice of it is refused, and slicing yields the parts that
are found by counting characters; a depth is refused in texts of 2^32 bytes at least. The name,
the parameters and the result type of a function stand in the text in this order without
overlap, each without white space at its ends and no parameter empty; the trait of an
implementation stands before its type, and neither is empty. The parts between top-level commas
make up the text, and each of them, trimmed or not, is its own only part. -/
theorem sliced_in_order (text : List Char) :
    Yields (Text.byteLength text) (Sliced.functionParts text) (functionParts text) ∧
      Yields (Text.byteLength text) (Sliced.target? text) (target? text) ∧
      Yields (Text.byteLength text) (Sliced.splitTop ',' text) (splitTop ',' text) ∧
      (Text.InOrder (functionParts text).pieces text ∧
        (∀ piece ∈ (functionParts text).pieces, Text.IsBare piece) ∧
        ∀ parameter ∈ (functionParts text).parameters, parameter ≠ []) ∧
      (∀ target, target? text = some target →
        Text.InOrder target.pieces text ∧ ∀ piece ∈ target.pieces, piece ≠ []) ∧
      [','].intercalate (splitTop ',' text) = text ∧
      ∀ part ∈ splitTop ',' text,
        splitTop ',' part = [part] ∧ splitTop ',' (Text.trim part) = [Text.trim part] := by
  have bound := Nat.le_refl (Text.byteLength text)
  refine ⟨Sliced.functionParts_yields text bound, Sliced.target?_yields text bound,
    Sliced.splitTop_yields ',' text bound, ⟨inOrder_functionParts text, ?_, ?_⟩, ?_,
    intercalate_splitTop ',' text, ?_⟩
  · intro piece member
    exact isBare_functionParts member
  · intro parameter member
    exact (isTrimmed_of_functionParts member).filled
  · intro target resolved
    exact ⟨inOrder_target resolved, filled_target resolved⟩
  · intro part member
    have whole := isWhole_of_mem_splitTop (by decide) member
    exact ⟨whole, whole.trim⟩

/-- Wide characters, nested commas and an arrow, in a text that may be read either way. -/
theorem sliced_in_order_wide :
    let text := "é<T>(a: (B, C), ñ ) -> D for &'x Ü , z ".toList
    let parts : FunctionParts :=
      ⟨"é".toList, ["a: (B, C)".toList, "ñ".toList], "D for &'x Ü , z".toList⟩
    let target : Target := ⟨"Ü".toList, some "é".toList⟩
    functionParts text = parts ∧ target? text = some target ∧
      " z ".toList ∈ splitTop ',' text ∧
      Sliced.functionParts text = .ok parts ∧ Sliced.target? text = .ok (some target) ∧
      Text.InOrder parts.pieces text ∧ (∀ piece ∈ parts.pieces, Text.IsBare piece) ∧
      (∀ parameter ∈ parts.parameters, parameter ≠ []) ∧
      Text.InOrder target.pieces text ∧ (∀ piece ∈ target.pieces, piece ≠ []) ∧
      splitTop ',' " z ".toList = [" z ".toList] ∧ splitTop ',' "z".toList = ["z".toList] := by
  intro text parts target
  have small : Text.byteLength text < Counter.limit := by
    decide
  have isParts : functionParts text = parts := by
    decide +kernel
  have isTarget : target? text = some target := by
    decide +kernel
  have isPart : " z ".toList ∈ splitTop ',' text := by
    decide +kernel
  obtain ⟨functions, targets, -, ⟨ordered, bare, filled⟩, resolved, -, whole⟩ :=
    sliced_in_order text
  rw [isParts] at functions ordered bare filled
  rw [isTarget] at targets
  obtain ⟨targetOrdered, targetFilled⟩ := resolved target isTarget
  obtain ⟨alone, trimmed⟩ := whole _ isPart
  exact ⟨isParts, isTarget, isPart, functions.eq_ok small, targets.eq_ok small, ordered, bare,
    filled, targetOrdered, targetFilled, alone, trimmed⟩

end Signature
end Survey
