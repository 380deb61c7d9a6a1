import Survey.Proofs.Origins
import Survey.Proofs.Spans

set_option autoImplicit false

/-!
# What spans look like in the text

The slice of a recorded span starts as its kind is written and ends with a terminator,
unless the text ends there. Where a reader stops is decided by one character: the closer
of a group, or the semicolon or brace of a head. A reader that only sees the body of
something, and comes to its end, still stops at a terminator of the file, since the body
itself was cut behind a closing brace; `Cursor.EndsClosed` carries that through all
readers.
-/

namespace Survey

/-! ### Where readers stop -/

namespace Text

/-- The first characters of the text end with one of the closers, or are all of it. -/
def EndsAt (closers : List Char) (text : List Char) (count : Nat) : Prop :=
  text.length ≤ count ∨ ∃ c ∈ closers, (text.take count).getLast? = some c

variable {closers wider text : List Char} {count : Nat}

theorem EndsAt.mono (ends : EndsAt closers text count) (widens : closers ⊆ wider) :
    EndsAt wider text count := by
  rcases ends with all | ⟨c, member, last⟩
  · exact .inl all
  · exact .inr ⟨c, widens member, last⟩

theorem EndsAt.behind {first : Nat} (ends : EndsAt closers (text.drop first) count) :
    EndsAt closers text (first + count) := by
  rcases ends with all | ⟨c, member, last⟩
  · left
    rw [List.length_drop] at all
    omega
  · right
    refine ⟨c, member, ?_⟩
    rw [List.take_add, List.getLast?_append, last]
    rfl

theorem EndsAt.drop {first more : Nat} (ends : EndsAt closers text (first + more))
    (filled : 0 < more) (inside : more ≤ (text.drop first).length) : EndsAt closers (text.drop first) more := by
  rcases ends with all | ⟨c, isCloser, last⟩
  · left
    rw [List.length_drop]
    omega
  · right
    refine ⟨c, isCloser, ?_⟩
    have notEmpty : (text.drop first).take more ≠ [] := by
      intro empty
      have nothing := congrArg List.length empty
      rw [List.length_take, List.length_nil] at nothing
      omega
    rw [List.take_add, List.getLast?_append_of_ne_nil _ notEmpty] at last
    exact last

theorem EndsAt.single {c : Char} (member : c ∈ closers) (rest : List Char) :
    EndsAt closers (c :: rest) 1 :=
  .inr ⟨c, member, rfl⟩

end Text

theorem Atom.eq_of_read?_char {text : List Char} {c : Char} {length : Nat}
    (found : read? text = some (.char c, length)) : ∃ rest, text = c :: rest ∧ length = 1 := by
  cases text with
  | nil => cases found
  | cons first rest =>
      rw [read?] at found
      split at found
      · cases found
      · split at found
        · cases found
        · split at found
          · cases found
          · cases found
            exact ⟨rest, rfl, rfl⟩

/-- A reader that goes on behind the first characters stops where it stops there. -/
theorem Text.EndsAt.onward {closers text : List Char} {first taken reach count : Nat}
    (reaches : reach = taken + count) (further : taken + first ≤ reach)
    (later : ∀ {more : Nat}, reach = taken + first + more → EndsAt closers (text.drop first) more) :
    EndsAt closers text count := by
  obtain ⟨more, rfl⟩ := Nat.exists_eq_add_of_le (show first ≤ count by omega)
  exact .behind (later (by omega))

namespace Delimiter

theorem eq_closer_of_closes {kind : Delimiter} {afterShaft : Bool} {c : Char}
    (closes : kind.closes afterShaft c = true) : c = kind.closer := by
  unfold Delimiter.closes at closes
  exact eq_of_beq (Bool.and_eq_true_iff.mp closes).1

theorem closeFrom_endsAt (kind : Delimiter) (outer : Nat) (afterShaft : Bool) (taken : Nat)
    (text : List Char) {count : Nat}
    (reaches : closeFrom kind outer afterShaft taken text = taken + count) :
    Text.EndsAt [kind.closer] text count := by
  fun_induction closeFrom kind outer afterShaft taken text generalizing count with
  | case1 outer afterShaft taken text missing =>
      rw [Atom.read?_eq_none_iff] at missing
      subst missing
      exact .inl (Nat.zero_le _)
  | case2 afterShaft taken text c length found closes =>
      obtain ⟨rest, rfl, rfl⟩ := Atom.eq_of_read?_char found
      obtain rfl : count = 1 := by omega
      exact .single (List.mem_singleton.mpr (eq_closer_of_closes closes)) rest
  | case3 afterShaft taken text c length found closes outer ih =>
      exact .onward reaches (le_closeFrom _ _ _ _ _) ih
  | case4 outer afterShaft taken text c length found staysOpen ih =>
      exact .onward reaches (le_closeFrom _ _ _ _ _) ih
  | case5 outer afterShaft taken text atom length other found ih =>
      exact .onward reaches (le_closeFrom _ _ _ _ _) ih

/-- A group ends with its closer, or is never closed and runs to the end of the text. -/
theorem closeLength_endsAt (kind : Delimiter) (text : List Char) :
    Text.EndsAt [kind.closer] text (kind.closeLength text) :=
  kind.closeFrom_endsAt 0 false 0 text (Nat.zero_add _).symm

end Delimiter

namespace Head

/-- The character that ends a head. -/
def endings : HeadEnd → List Char
  | .endOfText => []
  | .semicolon => [';']
  | .brace => ['\x7b']

theorem readFrom_endsAt (groups : List Delimiter) (kept : List Char) (taken : Nat)
    (text : List Char) {count : Nat}
    (reaches : (readFrom groups kept taken text).length = taken + count) :
    Text.EndsAt (endings (readFrom groups kept taken text).ending) text count := by
  fun_induction readFrom groups kept taken text generalizing count with
  | case1 kept taken text missing =>
      rw [Atom.read?_eq_none_iff] at missing
      subst missing
      exact .inl (Nat.zero_le _)
  | case2 kept taken text length found ih =>
      exact .onward reaches (le_readFrom_length _ _ _ _) ih
  | case3 kept taken text written length found ih =>
      exact .onward reaches (le_readFrom_length _ _ _ _) ih
  | case4 kept taken text length found =>
      obtain ⟨rest, rfl, rfl⟩ := Atom.eq_of_read?_char found
      obtain rfl : 1 = count := Nat.add_left_cancel reaches
      exact .single (List.mem_singleton.mpr rfl) rest
  | case5 kept taken text length found notSemicolon =>
      obtain ⟨rest, rfl, rfl⟩ := Atom.eq_of_read?_char found
      obtain rfl : 1 = count := Nat.add_left_cancel reaches
      exact .single (List.mem_singleton.mpr rfl) rest
  | case6 kept taken text c length found notSemicolon notBrace group grouped ih =>
      exact .onward reaches (le_readFrom_length _ _ _ _) ih
  | case7 kept taken text c length found notSemicolon notBrace alone ih =>
      exact .onward reaches (le_readFrom_length _ _ _ _) ih

theorem read_endsAt (groups : List Delimiter) (text : List Char) :
    Text.EndsAt (endings (read groups text).ending) text (read groups text).length :=
  readFrom_endsAt groups [] 0 text (Nat.zero_add _).symm

/-- What a head and its body end with. -/
def terminators : List Char := ['\x7d', ';']

/-- A head and its body end with a closing brace or a semicolon, or with the text. -/
theorem fullLength_endsAt (groups : List Delimiter) (text : List Char) :
    Text.EndsAt terminators text ((read groups text).fullLength text) := by
  have ends := read_endsAt groups text
  unfold fullLength bodyLength?
  cases ending : (read groups text).ending with
  | brace =>
      apply Text.EndsAt.behind
      exact (Delimiter.brace.closeLength_endsAt _).mono (by decide)
  | semicolon =>
      rw [ending] at ends
      exact ends.mono (by decide)
  | endOfText =>
      rw [ending] at ends
      exact ends.mono (by decide)

end Head

namespace VariantList

theorem readFrom_endsAt (variant : List Char) (noted : List (List Char)) (taken : Nat)
    (text : List Char) {count : Nat}
    (reaches : (readFrom variant noted taken text).length = taken + count) :
    Text.EndsAt ['\x7d'] text count := by
  fun_induction readFrom variant noted taken text generalizing count with
  | case1 variant noted taken text missing =>
      rw [Atom.read?_eq_none_iff] at missing
      subst missing
      exact .inl (Nat.zero_le _)
  | case2 variant noted taken text length found ih =>
      exact .onward reaches (le_readFrom_length _ _ _ _) ih
  | case3 variant noted taken text written length found ih =>
      exact .onward reaches (le_readFrom_length _ _ _ _) ih
  | case4 variant noted taken text length found =>
      obtain ⟨rest, rfl, rfl⟩ := Atom.eq_of_read?_char found
      obtain rfl : 1 = count := Nat.add_left_cancel reaches
      exact .single (List.mem_singleton.mpr rfl) rest
  | case5 variant noted taken text length found notBrace ih =>
      exact .onward reaches (le_readFrom_length _ _ _ _) ih
  | case6 variant noted taken text length skipped found notBrace notComma =>
      rename_i ih
      exact .onward reaches (le_readFrom_length _ _ _ _) ih
  | case7 variant noted taken text c length found notBrace notComma notHash group grouped ih =>
      exact .onward reaches (le_readFrom_length _ _ _ _) ih
  | case8 variant noted taken text c length found notBrace notComma notHash alone ih =>
      exact .onward reaches (le_readFrom_length _ _ _ _) ih

/-- The body of an enumeration ends with its closing brace, or with the text. -/
theorem read_endsAt (text : List Char) : Text.EndsAt ['\x7d'] text (read text).length :=
  readFrom_endsAt [] [] 0 text (Nat.zero_add _).symm

/-- The head of an enumeration and its body end as a head and a group do. -/
theorem endsAt_behind_head {text : List Char} {body : VariantList}
    (isRead : body = if (Head.read [.angle] text).ending = .brace then
      read (text.drop (Head.read [.angle] text).length) else ⟨[], 0, true⟩) :
    Text.EndsAt Head.terminators text ((Head.read [.angle] text).length + body.length) := by
  have headEnds := Head.read_endsAt [.angle] text
  cases ending : (Head.read [.angle] text).ending with
  | brace =>
      rw [isRead, if_pos ending]
      exact .behind ((read_endsAt _).mono (by decide))
  | semicolon =>
      rw [ending] at headEnds
      rw [isRead, if_neg (by rw [ending]; decide)]
      exact headEnds.mono (by decide)
  | endOfText =>
      rw [ending] at headEnds
      rw [isRead, if_neg (by rw [ending]; decide)]
      exact headEnds.mono (by decide)

end VariantList

/-! ### Slices -/

namespace Text

private theorem charsBefore?_go (taken : Nat) (before after : List Char) :
    charsBefore?.go (byteLength before) taken (before ++ after) = some (taken + before.length) := by
  induction before generalizing taken with
  | nil => cases after <;> rfl
  | cons c before ih =>
      have wide := c.utf8Size_pos
      rw [List.cons_append, charsBefore?.go, byteLength_cons, if_neg (by omega), if_pos (by omega),
        Nat.add_sub_cancel_left, ih, List.length_cons]
      congr 1
      omega

theorem charsBefore?_append (before after : List Char) :
    charsBefore? (byteLength before) (before ++ after) = some before.length := by
  unfold charsBefore?
  rw [charsBefore?_go, Nat.zero_add]

theorem slice_append (before piece after : List Char) :
    slice (before ++ (piece ++ after)) (byteLength before) (byteLength (before ++ piece)) =
      piece := by
  have last := charsBefore?_append (before ++ piece) after
  rw [List.append_assoc] at last
  unfold slice
  rw [charsBefore?_append, last]
  dsimp only
  rw [List.drop_left, List.length_append, Nat.add_sub_cancel_left, List.take_left]

end Text

/-- The slice of the extent starts with the opening and ends with one of the closers,
unless the text ends there. -/
structure Extent.Shaped (text opening closers : List Char) (extent : Extent) : Prop where
  opens : opening <+: Text.slice text extent.start.offset extent.stop.offset
  closes : extent.stop.offset = Text.byteLength text ∨
    ∃ c ∈ closers, (Text.slice text extent.start.offset extent.stop.offset).getLast? = some c

namespace Cursor

/-- What the cursor has left of the text ends with the text or behind a closing brace. -/
def EndsClosed (text : List Char) (cursor : Cursor) : Prop :=
  ∃ before after : List Char, text = before ++ (cursor.rest ++ after) ∧
    cursor.place = .ofText before ∧
    (after = [] ∨ (before ++ cursor.rest).getLast? = some '\x7d')

namespace EndsClosed

variable {text : List Char} {cursor : Cursor}

theorem ofText (text : List Char) : (Cursor.ofText text).EndsClosed text :=
  ⟨[], [], by simp [Cursor.ofText], rfl, .inl rfl⟩

theorem skip (ends : cursor.EndsClosed text) (count : Nat) :
    (cursor.skip count).EndsClosed text := by
  obtain ⟨before, after, split, place, closed⟩ := ends
  refine ⟨before ++ cursor.rest.take count, after, ?_, ?_, ?_⟩
  · rw [split, skip_rest, List.append_assoc, ← List.append_assoc (cursor.rest.take count),
      List.take_append_drop]
  · unfold Cursor.skip Position.ofText
    rw [place, Position.pastAll_append]
    rfl
  · rw [skip_rest, List.append_assoc, List.take_append_drop]
    exact closed

theorem window (ends : cursor.EndsClosed text) {count : Nat}
    (atBrace : Text.EndsAt ['\x7d'] cursor.rest count) : (cursor.window count).EndsClosed text := by
  obtain ⟨before, after, split, place, closed⟩ := ends
  refine ⟨before, cursor.rest.drop count ++ after, ?_, place, ?_⟩
  · unfold Cursor.window
    rw [split, ← List.append_assoc (cursor.rest.take count), List.take_append_drop]
  · unfold Cursor.window
    rcases atBrace with all | ⟨c, member, last⟩
    · rw [List.drop_eq_nil_of_le all, List.take_of_length_le all]
      exact closed
    · right
      rw [List.mem_singleton] at member
      subst member
      rw [List.getLast?_append, last]
      rfl

/-- Between two places that a cursor comes to, the text is what the cursor passes. -/
theorem slice_skip (ends : cursor.EndsClosed text) (first more : Nat) :
    Text.slice text (cursor.skip first).place.offset (cursor.skip (first + more)).place.offset =
      (cursor.rest.drop first).take more := by
  obtain ⟨before, after, split, place, -⟩ := ends
  have rests : cursor.rest ++ after = cursor.rest.take first ++
      ((cursor.rest.drop first).take more ++ ((cursor.rest.drop first).drop more ++ after)) := by
    rw [← List.append_assoc ((cursor.rest.drop first).take more), List.take_append_drop,
      ← List.append_assoc, List.take_append_drop]
  have sliced := Text.slice_append (before ++ cursor.rest.take first)
    ((cursor.rest.drop first).take more) ((cursor.rest.drop first).drop more ++ after)
  rw [List.append_assoc before, ← rests, ← split] at sliced
  rw [offset_skip, offset_skip, place, Position.ofText_offset, List.take_add]
  simp only [Text.byteLength_append, Nat.add_assoc] at sliced ⊢
  exact sliced

/-- What a cursor passes has the shape that the places where it starts and stops give. -/
theorem shaped (ends : cursor.EndsClosed text) {opening closers : List Char} {first count : Nat}
    (filled : opening ≠ []) (opens : opening <+: cursor.rest.drop first)
    (further : first + opening.length ≤ count) (closing : '\x7d' ∈ closers)
    (stops : Text.EndsAt closers cursor.rest count) :
    Extent.Shaped text opening closers ⟨(cursor.skip first).place, (cursor.skip count).place⟩ := by
  obtain ⟨more, rfl⟩ := Nat.exists_eq_add_of_le (show first ≤ count by omega)
  have sliced := ends.slice_skip first more
  have written : opening <+: (cursor.rest.drop first).take more :=
    List.prefix_take_iff.mpr ⟨opens, by omega⟩
  have notEmpty : (cursor.rest.drop first).take more ≠ [] := by
    intro empty
    rw [empty, List.prefix_nil] at written
    exact filled written
  constructor
  · rw [sliced]
    exact written
  · dsimp only
    rw [sliced]
    rcases stops with all | ⟨c, member, last⟩
    · obtain ⟨before, after, split, place, closed⟩ := ends
      rcases closed with rfl | closed
      · left
        rw [offset_skip, place, Position.ofText_offset, List.take_of_length_le all, split,
          List.append_nil, Text.byteLength_append]
      · right
        refine ⟨_, closing, ?_⟩
        rw [← List.take_of_length_le all, List.take_add, ← List.append_assoc,
          List.getLast?_append_of_ne_nil _ notEmpty] at closed
        exact closed
    · right
      refine ⟨c, member, ?_⟩
      rw [List.take_add, List.getLast?_append_of_ne_nil _ notEmpty] at last
      exact last

end EndsClosed
end Cursor

namespace Finding

theorem endsClosed_course (text : List Char) :
    Course (Cursor.EndsClosed text) (Cursor.EndsClosed text) where
  token ends _ := ends.skip _
  onward ends := ends
  toEnd ends := ends.skip _
  group _ ends := ends.skip _
  body ends := ends.window (Delimiter.brace.closeLength_endsAt _)
  mark ends _ := ends.skip _
  invocation ends := ends.skip _
  definition ends _ _ _ _ := ((ends.skip _).skip _).skip _
  block ends := ends.skip _
  head _ ends := ends.skip _
  variants ends := ends.skip _

variable {text opening closers : List Char} {cursor : Cursor} {token : Token} {length count : Nat}

theorem shaped_behind_token (standing : cursor.EndsClosed text)
    (next : cursor.significant? = some (token, length)) (opens : token.lexeme = opening)
    (closing : '\x7d' ∈ closers) (stops : Text.EndsAt closers (cursor.skip length).rest count) :
    Extent.Shaped text opening closers ⟨token.start, ((cursor.skip length).skip count).place⟩ := by
  obtain ⟨trivia, size, -, read, -, rfl, start, lexeme⟩ := Cursor.significant?_eq_some next
  have positive := (Token.read?_pos read).1
  have bound := Token.read?_length_le read
  have sized : opening.length = size := by
    rw [← opens, lexeme, List.length_take]
    exact Nat.min_eq_left bound
  have filled : opening ≠ [] := by
    intro empty
    rw [empty, List.length_nil] at sized
    omega
  rw [start, Cursor.skip_skip]
  refine standing.shaped filled ?_ ?_ closing (.behind stops)
  · rw [← opens, lexeme]
    exact List.take_prefix _ _
  · omega

theorem lexeme_of_hash (next : cursor.significant? = some (token, length))
    (isHash : token.tag = .hash) : token.lexeme = ['#'] := by
  obtain ⟨trivia, size, -, read, -, -, -, lexeme⟩ := Cursor.significant?_eq_some next
  rw [isHash] at read
  obtain ⟨rest, split, rfl⟩ := Token.read?_punctuator (d := '#') (by decide) read
  rw [lexeme, split]
  rfl

end Finding

/-- How something of the kind starts. -/
def Kind.opening : Kind → List Char
  | .unsafeBlock => ['\x7b']
  | .function => Keyword.function.spelling
  | .struct => Keyword.struct.spelling
  | .enum => Keyword.enum.spelling
  | .trait => Keyword.trait.spelling
  | .test => ['#']

/-- What something of the kind may end with. -/
def Kind.closers : Kind → List Char
  | .unsafeBlock => ['\x7d']
  | .function | .struct | .enum | .trait | .test => Head.terminators

namespace Finding

theorem outline?_of_isNotice {finding : Finding} (isNotice : finding.isNotice = true) :
    finding.outline? = none := by
  cases finding <;> first | rfl | cases isNotice

theorem Origin.shaped {text : List Char} {finding : Finding} {outline : Outline}
    (origin : Origin (Cursor.EndsClosed text) (Cursor.EndsClosed text) finding)
    (outlined : finding.outline? = some outline) :
    outline.extent.Shaped text outline.kind.opening outline.kind.closers := by
  have closing : '\x7d' ∈ Head.terminators := by decide
  cases origin with
  | @unsafeBlock cursor token length inner standing next marks opens =>
      cases outlined
      dsimp only [Kind.opening, Kind.closers]
      refine (standing.skip length).shaped (by decide) ?_ ?_ (by decide) ?_
      · rw [opens]
        exact List.prefix_append ['\x7b'] inner
      · exact Nat.le_add_right _ _
      · rw [Nat.add_assoc]
        apply Text.EndsAt.behind
        rw [opens]
        exact .behind (Delimiter.brace.closeLength_endsAt inner)
  | function owner blocks standing next announces taken named =>
      cases outlined
      exact shaped_behind_token standing next (Token.lexeme_of_keyword? announces).2 closing
        (Head.fullLength_endsAt _ _)
  | struct standing next announces named =>
      cases outlined
      exact shaped_behind_token standing next (Token.lexeme_of_keyword? announces).2 closing
        (Head.fullLength_endsAt _ _)
  | enum standing next announces named read =>
      cases outlined
      exact shaped_behind_token standing next (Token.lexeme_of_keyword? announces).2 closing
        (VariantList.endsAt_behind_head read)
  | trait standing next announces named =>
      cases outlined
      exact shaped_behind_token standing next (Token.lexeme_of_keyword? announces).2 closing
        (Head.fullLength_endsAt _ _)
  | @test cursor token length read name standing next isHash named atName =>
      cases outlined
      rw [Cursor.skip_skip (cursor.skip length)]
      exact shaped_behind_token standing next (lexeme_of_hash next isHash) closing
        (.behind (Head.fullLength_endsAt _ _))
  | target isResolved => cases outlined
  | testModule line => cases outlined
  | notice isNotice =>
      rw [outline?_of_isNotice isNotice] at outlined
      cases outlined

end Finding

/-! ### Surveys -/

/-- Every recorded span has the property, as the span of something of its kind. -/
structure Inventory.EachSpan (property : Kind → Span → Prop) (inventory : Inventory) : Prop where
  functions : ∀ function ∈ inventory.functions, property .function function.span
  methods : ∀ type ∈ inventory.types.records, ∀ method ∈ type.methods,
    property .function method.span
  types : ∀ type ∈ inventory.types.records, ∀ span, type.span? = some span →
    property .struct span
  enums : ∀ enum ∈ inventory.enums, property .enum enum.span
  traits : ∀ trait ∈ inventory.traits.records, ∀ span, trait.span? = some span →
    property .trait span
  tests : ∀ test ∈ inventory.tests, property .test test.span
  unsafeBlocks : ∀ block ∈ inventory.unsafeBlocks, property .unsafeBlock block

theorem Inventory.EachSpan.withLength {property : Kind → Span → Prop} {inventory : Inventory}
    (each : inventory.EachSpan property) (length : Nat) :
    (inventory.withLength length).EachSpan property where
  functions := each.functions
  methods := each.methods
  types := each.types
  enums := each.enums
  traits := each.traits
  tests := each.tests
  unsafeBlocks := each.unsafeBlocks

/-- What holds of every outline found holds of every recorded span. -/
theorem Inventory.ofFindings_eachSpan {found : List Finding} (property : Kind → Extent → Prop)
    (each : ∀ outline ∈ Finding.outlines found, property outline.kind outline.extent) :
    (ofFindings found).EachSpan fun kind span => property kind span.extent := by
  have recorded : ∀ outline ∈ (ofFindings found).outlines,
      property outline.kind outline.extent :=
    fun outline member => each outline ((ofFindings_outlines_subperm found).subset member)
  unfold outlines at recorded
  simp only [List.forall_mem_append] at recorded
  obtain ⟨⟨⟨⟨⟨functions, types⟩, enums⟩, traits⟩, tests⟩, blocks⟩ := recorded
  constructor
  · intro function member
    exact functions _ (List.mem_map_of_mem (List.mem_append_left _ member))
  · intro type typeMember method member
    have among : method ∈ (ofFindings found).methods :=
      List.mem_flatMap.mpr ⟨type, typeMember, member⟩
    exact functions _ (List.mem_map_of_mem (List.mem_append_right _ among))
  · intro type member span declared
    exact types _ (List.mem_filterMap.mpr ⟨type, member, by rw [declared]; rfl⟩)
  · intro enum member
    exact enums _ (List.mem_map_of_mem member)
  · intro trait member span declared
    exact traits _ (List.mem_filterMap.mpr ⟨trait, member, by rw [declared]; rfl⟩)
  · intro test member
    exact tests _ (List.mem_map_of_mem member)
  · intro block member
    exact blocks _ (List.mem_map_of_mem member)

/-- In a text of at most 2^32 - 3 bytes, the slice of every recorded span starts as its
kind is written, and ends with a closing brace or a semicolon (an unsafe block with a
closing brace) unless the span ends with the text. -/
theorem survey_spans_shaped (config : Config) (text : String)
    (small : Text.byteLength text.toList ≤ 2 ^ 32 - 3) :
    ∃ inventory, survey config text = .ok inventory ∧
      inventory.EachSpan fun kind span =>
        span.extent.Shaped text.toList kind.opening kind.closers := by
  refine ⟨_, survey_eq config text small, ?_⟩
  have origins := (Finding.endsClosed_course text.toList).ofText_origins config
    (.ofText text.toList)
  have shaped := Inventory.ofFindings_eachSpan
    (fun kind extent => extent.Shaped text.toList kind.opening kind.closers)
    (fun outline member => by
      obtain ⟨finding, isFound, outlined⟩ := List.mem_filterMap.mp member
      exact (origins finding isFound).shaped outlined)
  exact shaped.withLength _

/-- The body of the trait ends inside a function, where the file goes on. -/
theorem survey_spans_shaped_cut :
    Text.byteLength "trait T \x7b fn f() -> u8 \x7d enum E".toList ≤ 2 ^ 32 - 3 ∧
      ∃ inventory, survey .standard "trait T \x7b fn f() -> u8 \x7d enum E" = .ok inventory ∧
        inventory.EachSpan fun kind span =>
          span.extent.Shaped "trait T \x7b fn f() -> u8 \x7d enum E".toList kind.opening
            kind.closers := by
  have small : Text.byteLength "trait T \x7b fn f() -> u8 \x7d enum E".toList ≤ 2 ^ 32 - 3 := by
    decide
  exact ⟨small, survey_spans_shaped .standard _ small⟩

end Survey
