import Survey.Finding.Stream
import Survey.Proofs.Places

set_option autoImplicit false

/-!
# How findings are arranged in a text

Every reader moves forward only, so what it finds lies between where it started and
where it stopped. Two extents that one reading finds are therefore either one behind
the other, or one was read again inside the other: unsafe blocks in the body of a
function or a test, functions and their blocks in the body of a trait. `Arranged` is
this invariant. It is shown for each reader from what the readers it calls satisfy,
and then for the whole stream by going on behind each token.
-/

namespace Survey

/-- What an extent is the extent of. -/
inductive Kind where
  | unsafeBlock
  | function
  | struct
  | enum
  | trait
  | test
deriving DecidableEq, Repr

def Kind.all : List Kind := [.unsafeBlock, .function, .struct, .enum, .trait, .test]

theorem Kind.mem_all (kind : Kind) : kind ∈ all := by
  cases kind <;> decide

/-- May something of the second kind lie inside something of the first? -/
def Kind.holds : Kind → Kind → Bool
  | .function, .unsafeBlock | .test, .unsafeBlock | .trait, .function
  | .trait, .unsafeBlock => true
  | _, _ => false

theorem Kind.trait_holds :
    ∀ kind ∈ [Kind.function, Kind.unsafeBlock], Kind.trait.holds kind = true := by
  decide

structure Outline where
  kind : Kind
  extent : Extent
deriving DecidableEq, Repr

namespace Outline

def Precedes (first second : Outline) : Prop :=
  first.extent.stop.offset ≤ second.extent.start.offset

def Encloses (outer inner : Outline) : Prop :=
  outer.kind.holds inner.kind = true ∧
    outer.extent.start.offset ≤ inner.extent.start.offset ∧
    inner.extent.stop.offset ≤ outer.extent.stop.offset

/-- How two extents may lie to each other, the one that was reported first given
first. -/
def Compatible (first second : Outline) : Prop :=
  first.Precedes second ∨ first.Encloses second ∨ second.Encloses first

end Outline

/-- The outline of what was found; mere notices and mentions have none. -/
def Finding.outline? : Finding → Option Outline
  | .unsafeBlock extent => some ⟨.unsafeBlock, extent⟩
  | .function draft _ => some ⟨.function, draft.extent⟩
  | .struct _ extent => some ⟨.struct, extent⟩
  | .enum _ _ extent => some ⟨.enum, extent⟩
  | .trait _ extent => some ⟨.trait, extent⟩
  | .test _ extent => some ⟨.test, extent⟩
  | .unsafeAtEnd | .signatureAtEnd _ | .enumAtEnd _ | .traitBody _ _ _
  | .implementationAtEnd _ | .targetUnresolved _ | .target _ _
  | .implementationBody _ _ _ | .testModule _ => none

/-- The outlines of some findings, in the same order. -/
def Finding.outlines (found : List Finding) : List Outline := found.filterMap outline?

@[simp] theorem Finding.outlines_nil : outlines [] = [] := rfl

@[simp] theorem Finding.outlines_append (first second : List Finding) :
    outlines (first ++ second) = outlines first ++ outlines second :=
  List.filterMap_append

@[simp] theorem Finding.outlines_cons (finding : Finding) (rest : List Finding) :
    outlines (finding :: rest) = finding.outline?.toList ++ outlines rest := by
  unfold outlines
  rw [List.filterMap_cons]
  cases finding.outline? <;> rfl

/-- The outline is of one of the kinds, is not empty, lies between two offsets, and
its places are true in the text. -/
structure Outline.LiesIn (text : List Char) (kinds : List Kind) (low high : Nat)
    (outline : Outline) : Prop where
  start_isTrue : outline.extent.start.IsTrueIn text
  stop_isTrue : outline.extent.stop.IsTrueIn text
  kind_mem : outline.kind ∈ kinds
  low_le : low ≤ outline.extent.start.offset
  start_lt : outline.extent.start.offset < outline.extent.stop.offset
  le_high : outline.extent.stop.offset ≤ high

/-- All outlines lie in a stretch of the text and are compatible with each other. -/
structure Arranged (text : List Char) (kinds : List Kind) (low high : Nat)
    (outlines : List Outline) : Prop where
  liesIn : ∀ outline ∈ outlines, outline.LiesIn text kinds low high
  compatible : outlines.Pairwise Outline.Compatible

theorem Outline.LiesIn.widen {text : List Char} {kinds wider : List Kind}
    {low high lower higher : Nat} {outline : Outline} (lies : outline.LiesIn text kinds low high)
    (kindsSubset : kinds ⊆ wider) (below : lower ≤ low) (above : high ≤ higher) :
    outline.LiesIn text wider lower higher where
  start_isTrue := lies.start_isTrue
  stop_isTrue := lies.stop_isTrue
  kind_mem := kindsSubset lies.kind_mem
  low_le := Nat.le_trans below lies.low_le
  start_lt := lies.start_lt
  le_high := Nat.le_trans lies.le_high above

namespace Arranged

variable {text : List Char} {kinds : List Kind} {low middle high : Nat}
variable {outlines first second : List Outline}

theorem nil : Arranged text kinds low high [] where
  liesIn _ member := absurd member List.not_mem_nil
  compatible := List.Pairwise.nil

theorem singleton {outline : Outline} (lies : outline.LiesIn text kinds low high) :
    Arranged text kinds low high [outline] where
  liesIn other member := by
    rw [List.mem_singleton] at member
    subst member
    exact lies
  compatible := List.pairwise_singleton _ _

theorem widen {wider : List Kind} {lower higher : Nat}
    (arranged : Arranged text kinds low high outlines)
    (kindsSubset : kinds ⊆ wider) (below : lower ≤ low) (above : high ≤ higher) :
    Arranged text wider lower higher outlines where
  liesIn outline member := (arranged.liesIn outline member).widen kindsSubset below above
  compatible := arranged.compatible

/-- What lies behind earlier outlines is arranged together with them. -/
theorem append (before : Arranged text kinds low middle first)
    (behind : Arranged text kinds middle high second) (upTo : low ≤ middle)
    (onward : middle ≤ high) : Arranged text kinds low high (first ++ second) where
  liesIn outline member := by
    rcases List.mem_append.mp member with inFirst | inSecond
    · exact (before.liesIn outline inFirst).widen (List.Subset.refl _) (Nat.le_refl _) onward
    · exact (behind.liesIn outline inSecond).widen (List.Subset.refl _) upTo (Nat.le_refl _)
  compatible := by
    refine List.pairwise_append.mpr ⟨before.compatible, behind.compatible, ?_⟩
    intro earlier inFirst later inSecond
    left
    exact Nat.le_trans (before.liesIn earlier inFirst).le_high (behind.liesIn later inSecond).low_le

private theorem encloses {outer inner : Outline} (lies : inner.LiesIn text kinds low high)
    (before : outer.extent.start.offset ≤ low) (behind : high ≤ outer.extent.stop.offset)
    (holds : ∀ kind ∈ kinds, outer.kind.holds kind = true) : outer.Encloses inner :=
  ⟨holds _ lies.kind_mem, Nat.le_trans before lies.low_le, Nat.le_trans lies.le_high behind⟩

/-- An outline may be reported before what it holds. -/
theorem cons (outer : Outline) {lower higher : Nat} (inside : Arranged text kinds low high outlines)
    (lies : outer.LiesIn text [outer.kind] lower higher)
    (before : outer.extent.start.offset ≤ low) (behind : high ≤ outer.extent.stop.offset)
    (holds : ∀ kind ∈ kinds, outer.kind.holds kind = true) :
    Arranged text (outer.kind :: kinds) lower higher (outer :: outlines) where
  liesIn outline member := by
    rcases List.mem_cons.mp member with rfl | isInside
    · exact lies.widen (by simp) (Nat.le_refl _) (Nat.le_refl _)
    · exact (inside.liesIn outline isInside).widen (List.subset_cons_self _ _)
        (Nat.le_trans lies.low_le before) (Nat.le_trans behind lies.le_high)
  compatible := by
    refine List.pairwise_cons.mpr ⟨?_, inside.compatible⟩
    intro inner isInside
    right
    left
    exact encloses (inside.liesIn inner isInside) before behind holds

/-- An outline may also be reported after what it holds. -/
theorem concat (outer : Outline) {lower higher : Nat}
    (inside : Arranged text kinds low high outlines)
    (lies : outer.LiesIn text [outer.kind] lower higher)
    (before : outer.extent.start.offset ≤ low) (behind : high ≤ outer.extent.stop.offset)
    (holds : ∀ kind ∈ kinds, outer.kind.holds kind = true) :
    Arranged text (outer.kind :: kinds) lower higher (outlines ++ [outer]) where
  liesIn outline member := by
    rcases List.mem_append.mp member with isInside | isOuter
    · exact (inside.liesIn outline isInside).widen (List.subset_cons_self _ _)
        (Nat.le_trans lies.low_le before) (Nat.le_trans behind lies.le_high)
    · rw [List.mem_singleton] at isOuter
      subst isOuter
      exact lies.widen (by simp) (Nat.le_refl _) (Nat.le_refl _)
  compatible := by
    refine List.pairwise_append.mpr ⟨inside.compatible, List.pairwise_singleton _ _, ?_⟩
    intro inner isInside last isOuter
    rw [List.mem_singleton] at isOuter
    subst isOuter
    right
    right
    exact encloses (inside.liesIn inner isInside) before behind holds

end Arranged

/-! ### Unsafe blocks -/

namespace Finding

variable {text : List Char} {cursor : Cursor}

theorem afterUnsafe_arranged (stands : cursor.StandsIn text) :
    Arranged text [.unsafeBlock] cursor.place.offset
      (cursor.skip (afterUnsafe cursor).length).place.offset
      (outlines (afterUnsafe cursor).found) := by
  unfold afterUnsafe
  dsimp only
  split
  · exact Arranged.nil
  · rename_i c inner remaining
    split
    · have inside : (cursor.skip (Trivia.length cursor.rest)).rest ≠ [] := by
        rw [Cursor.skip_rest, remaining]
        exact List.cons_ne_nil c inner
      apply Arranged.singleton
      constructor
      · exact (stands.skip _).isTrueIn
      · exact (stands.skip _).isTrueIn
      · exact List.mem_singleton_self _
      · exact Cursor.offset_le_skip cursor _
      · exact Cursor.offset_skip_lt cursor (by omega) inside
      · exact Nat.le_refl _
    · exact Arranged.nil

theorem inBody_arranged (token : Token) (stands : cursor.StandsIn text) :
    Arranged text [.unsafeBlock] cursor.place.offset
      (cursor.skip (inBody token cursor).length).place.offset
      (outlines (inBody token cursor).found) := by
  unfold inBody
  split
  · exact Arranged.nil
  · split
    · exact afterUnsafe_arranged stands
    · exact Arranged.nil

theorem unsafeIn_arranged (stands : cursor.StandsIn text) :
    Arranged text [.unsafeBlock] cursor.place.offset cursor.toEnd.place.offset
      (outlines (unsafeIn cursor)) := by
  induction cursor using Cursor.significant_induction with
  | atEnd cursor atEnd =>
      rw [unsafeIn_of_none atEnd]
      exact Arranged.nil
  | onward cursor token length next ih =>
      rw [unsafeIn_of_some next, outlines_append]
      have first := inBody_arranged token (stands.skip length)
      have later := ih (inBody token (cursor.skip length)).length (stands.skip _)
      rw [Cursor.skip_skip] at first
      exact (first.widen (List.Subset.refl _) (Cursor.offset_le_skip cursor length)
        (Nat.le_refl _)).append
        (later.widen (List.Subset.refl _) (Nat.le_refl _) (Cursor.offset_toEnd_skip_le cursor _))
        (Cursor.offset_le_skip cursor _) (Cursor.offset_skip_le_toEnd cursor _)

/-! ### What a token leads to -/

/-- The cursor stands in the text, behind a token that starts at the given place. -/
structure Behind (text : List Char) (start : Position) (cursor : Cursor) : Prop where
  stands : cursor.StandsIn text
  start_isTrue : start.IsTrueIn text
  start_lt : start.offset < cursor.place.offset

theorem Behind.skip {start : Position} (behind : Behind text start cursor) (count : Nat) :
    Behind text start (cursor.skip count) where
  stands := behind.stands.skip count
  start_isTrue := behind.start_isTrue
  start_lt := Nat.lt_of_lt_of_le behind.start_lt (Cursor.offset_le_skip cursor count)

theorem behind_significant {token : Token} {length : Nat} (stands : cursor.StandsIn text)
    (next : cursor.significant? = some (token, length)) :
    Behind text token.start (cursor.skip length) := by
  obtain ⟨trivia, before, start, inside⟩ := Cursor.significant?_start next
  refine ⟨stands.skip length, ?_, ?_⟩
  · rw [start]
    exact (stands.skip trivia).isTrueIn
  · rw [start]
    exact Cursor.offset_skip_lt cursor before inside

/-- What a visit behind a token found is arranged between the start of the token and
the end of the visit, and nothing of it ends before the token does. -/
structure Led (text : List Char) (kinds : List Kind) (start : Position) (cursor : Cursor)
    (visit : Visit) : Prop where
  arranged : Arranged text kinds start.offset (cursor.skip visit.length).place.offset
    (outlines visit.found)
  place_le : ∀ outline ∈ outlines visit.found, cursor.place.offset ≤ outline.extent.stop.offset

variable {kinds : List Kind} {start : Position} {visit : Visit}

theorem Led.of_bare (bare : outlines visit.found = []) : Led text kinds start cursor visit where
  arranged := by
    rw [bare]
    exact Arranged.nil
  place_le outline member := by
    rw [bare] at member
    exact absurd member List.not_mem_nil

/-- A visit that finds one outline, from the token to the end of the visit. -/
theorem Led.of_single {kind : Kind} (behind : Behind text start cursor)
    (single : outlines visit.found = [⟨kind, ⟨start, (cursor.skip visit.length).place⟩⟩])
    (kindMember : kind ∈ kinds) : Led text kinds start cursor visit where
  arranged := by
    rw [single]
    exact Arranged.singleton
      ⟨behind.start_isTrue, (behind.stands.skip _).isTrueIn, kindMember, Nat.le_refl _,
        Nat.lt_of_lt_of_le behind.start_lt (Cursor.offset_le_skip cursor _), Nat.le_refl _⟩
  place_le outline member := by
    rw [single, List.mem_singleton] at member
    subst member
    exact Cursor.offset_le_skip cursor _

/-- A visit that finds what lies behind the token only. -/
theorem Led.of_arranged {low high : Nat} (behind : Behind text start cursor)
    (arranged : Arranged text kinds low high (outlines visit.found))
    (below : cursor.place.offset ≤ low)
    (above : high ≤ (cursor.skip visit.length).place.offset) :
    Led text kinds start cursor visit where
  arranged := arranged.widen (List.Subset.refl _)
    (Nat.le_trans (Nat.le_of_lt behind.start_lt) below) above
  place_le outline member := by
    have lies := arranged.liesIn outline member
    exact Nat.le_trans below (Nat.le_trans lies.low_le (Nat.le_of_lt lies.start_lt))

private theorem outer_liesIn (kind : Kind) (length : Nat) (behind : Behind text start cursor) :
    Outline.LiesIn text [kind] start.offset (cursor.skip length).place.offset
      ⟨kind, ⟨start, (cursor.skip length).place⟩⟩ where
  start_isTrue := behind.start_isTrue
  stop_isTrue := (behind.stands.skip length).isTrueIn
  kind_mem := List.mem_singleton_self _
  low_le := Nat.le_refl _
  start_lt := Nat.lt_of_lt_of_le behind.start_lt (Cursor.offset_le_skip cursor length)
  le_high := Nat.le_refl _

/-- The body of a visit is read again in a window that ends with the visit. -/
private theorem body_arranged {text : List Char} {cursor : Cursor} {skipped length : Nat}
    (stands : cursor.StandsIn text) (reaches : skipped ≤ length) :
    Arranged text [.unsafeBlock] (cursor.skip skipped).place.offset
      (cursor.skip length).place.offset
      (outlines (unsafeIn ((cursor.skip skipped).window (length - skipped)))) := by
  have inside := unsafeIn_arranged ((stands.skip skipped).window (length - skipped))
  rw [Cursor.toEnd_window_place, Cursor.skip_skip, Nat.add_sub_cancel' reaches] at inside
  exact inside

/-- A visit that finds the unsafe blocks of a body and then what has that body. -/
theorem Led.of_body {kind : Kind} {skipped length : Nat} (behind : Behind text start cursor)
    (reaches : skipped ≤ length) (visitLength : visit.length = length)
    (holds : kind.holds .unsafeBlock = true)
    (found : outlines visit.found =
      outlines (unsafeIn ((cursor.skip skipped).window (length - skipped))) ++
        [⟨kind, ⟨start, (cursor.skip length).place⟩⟩]) :
    Led text [kind, .unsafeBlock] start cursor visit where
  arranged := by
    rw [found, visitLength]
    refine (body_arranged behind.stands reaches).concat
      ⟨kind, ⟨start, (cursor.skip length).place⟩⟩ (outer_liesIn kind length behind) ?_ ?_ ?_
    · exact Nat.le_trans (Nat.le_of_lt behind.start_lt) (Cursor.offset_le_skip cursor skipped)
    · exact Nat.le_refl _
    · intro other member
      rw [List.mem_singleton] at member
      subst member
      exact holds
  place_le outline member := by
    rw [found] at member
    rcases List.mem_append.mp member with isInside | isOuter
    · have lies := (body_arranged behind.stands reaches).liesIn outline isInside
      exact Nat.le_trans (Cursor.offset_le_skip cursor skipped)
        (Nat.le_trans lies.low_le (Nat.le_of_lt lies.start_lt))
    · rw [List.mem_singleton] at isOuter
      subst isOuter
      exact Cursor.offset_le_skip cursor length

theorem Led.widen {wider : List Kind} (led : Led text kinds start cursor visit)
    (subset : kinds ⊆ wider) : Led text wider start cursor visit where
  arranged := led.arranged.widen subset (Nat.le_refl _) (Nat.le_refl _)
  place_le := led.place_le

theorem fullLength_ge (head : Head) (text : List Char) : head.length ≤ head.fullLength text :=
  Nat.le_add_right _ _

theorem afterFunction_led (owner : Owner) (behind : Behind text start cursor) :
    Led text [.function, .unsafeBlock] start cursor (afterFunction owner start cursor) := by
  unfold afterFunction
  by_cases pointer : isPointerType cursor.rest
  · rw [if_pos pointer]
    exact Led.of_bare rfl
  · rw [if_neg pointer]
    dsimp only
    by_cases unnamed : (Signature.functionParts
        ((Head.read signatureGroups cursor.rest).signature cursor.rest)).name.isEmpty
    · rw [if_pos unnamed]
      apply Led.of_bare
      split <;> rfl
    · rw [if_neg unnamed]
      refine Led.of_body behind (fullLength_ge _ _) rfl rfl ?_
      split <;> simp [ofFunction, outline?]

theorem amongItems_led (owner : Owner) (token : Token) (behind : Behind text token.start cursor) :
    Led text [.function, .unsafeBlock] token.start cursor (amongItems owner token cursor) := by
  unfold amongItems
  split
  · exact Led.of_bare rfl
  · exact Led.of_bare rfl
  · exact Led.of_bare rfl
  · split
    · exact afterFunction_led owner behind
    · exact Led.of_bare rfl

theorem items_arranged (owner : Owner) (stands : cursor.StandsIn text) :
    Arranged text [.function, .unsafeBlock] cursor.place.offset
      (cursor.skip (items owner cursor).length).place.offset
      (outlines (items owner cursor).found) := by
  induction cursor using Cursor.significant_induction with
  | atEnd cursor atEnd =>
      rw [items_of_none atEnd]
      exact Arranged.nil
  | onward cursor token length next ih =>
      by_cases closes : token.tag = .closeBrace
      · rw [items_of_close next closes]
        exact Arranged.nil
      · rw [items_of_some next closes]
        dsimp only
        have first := (amongItems_led owner token (behind_significant stands next)).arranged
        have later := ih (amongItems owner token (cursor.skip length)).length (stands.skip _)
        rw [Cursor.skip_skip] at first later
        rw [outlines_append]
        exact (first.widen (List.Subset.refl _) (Cursor.offset_le_token next)
          (Nat.le_refl _)).append later
          (Cursor.offset_le_skip cursor _) (Cursor.offset_skip_le cursor (Nat.le_add_right _ _))

theorem afterStruct_led (behind : Behind text start cursor) :
    Led text Kind.all start cursor (afterStruct start cursor) := by
  by_cases unnamed : (Signature.leadingName (Head.read [.paren, .angle] cursor.rest).kept).isEmpty
  · apply Led.of_bare
    simp [afterStruct, unnamed]
  · refine Led.of_single behind ?_ (Kind.mem_all .struct)
    simp [afterStruct, unnamed, outline?]

theorem afterEnum_led (behind : Behind text start cursor) :
    Led text Kind.all start cursor (afterEnum start cursor) := by
  unfold afterEnum
  dsimp only
  by_cases unnamed : (Signature.leadingName (Head.read [.angle] cursor.rest).kept).isEmpty
  · rw [if_pos unnamed]
    exact Led.of_bare rfl
  · rw [if_neg unnamed]
    generalize (if (Head.read [.angle] cursor.rest).ending = .brace then
      VariantList.read (cursor.rest.drop (Head.read [.angle] cursor.rest).length)
      else ⟨[], 0, true⟩ : VariantList) = body
    refine Led.of_single behind ?_ (Kind.mem_all .enum)
    dsimp only
    rw [outlines_append]
    split <;> rfl

theorem afterTrait_led (behind : Behind text start cursor) :
    Led text Kind.all start cursor (afterTrait start cursor) := by
  unfold afterTrait
  dsimp only
  split
  · exact Led.of_bare rfl
  · split
    · exact Led.of_single behind rfl (Kind.mem_all .trait)
    · rename_i bodyLength hasBody
      generalize headAt : Head.read [.angle, .paren] cursor.rest = head at hasBody ⊢
      generalize String.ofList (Signature.leadingName head.kept) = name
      have whole : head.fullLength cursor.rest = head.length + bodyLength := by
        simp [Head.fullLength, hasBody]
      have body := (behind.stands.skip head.length).window bodyLength
      have inside := items_arranged ⟨none, some name⟩ body
      have reaches : (((cursor.skip head.length).window bodyLength).skip
          (items ⟨none, some name⟩ ((cursor.skip head.length).window bodyLength)).length).place.offset
            ≤ (cursor.skip (head.fullLength cursor.rest)).place.offset := by
        have ends := Cursor.toEnd_window_place (cursor.skip head.length) bodyLength
        rw [Cursor.skip_skip, ← whole] at ends
        rw [← ends]
        exact Cursor.offset_skip_le_toEnd _ _
      have arranged := inside.cons
        ⟨.trait, ⟨start, (cursor.skip (head.fullLength cursor.rest)).place⟩⟩
        (outer_liesIn .trait (head.fullLength cursor.rest) behind)
        (Nat.le_trans (Nat.le_of_lt behind.start_lt) (Cursor.offset_le_skip cursor head.length))
        reaches Kind.trait_holds
      constructor
      · simpa [outline?] using
          arranged.widen (fun kind _ => Kind.mem_all kind) (Nat.le_refl _) (Nat.le_refl _)
      · intro outline member
        simp only [outlines_append, outlines_cons, outline?, Option.toList_some,
          List.cons_append, List.nil_append, Option.toList_none, outlines_nil, List.append_nil,
          List.mem_cons] at member
        rcases member with rfl | isInside
        · exact Cursor.offset_le_skip cursor _
        · have lies := inside.liesIn outline isInside
          exact Nat.le_trans (Cursor.offset_le_skip cursor head.length)
            (Nat.le_trans lies.low_le (Nat.le_of_lt lies.start_lt))

theorem afterImplementation_led (behind : Behind text start cursor) :
    Led text Kind.all start cursor (afterImplementation start cursor) := by
  unfold afterImplementation
  dsimp only
  split
  · exact Led.of_bare rfl
  · exact Led.of_bare rfl
  · split
    · exact Led.of_bare rfl
    · rename_i resolved _
      generalize Head.read signatureGroups cursor.rest = head
      have inside := items_arranged
        ⟨some (String.ofList resolved.typeName), resolved.traitName?.map String.ofList⟩
        (behind.stands.skip head.length)
      rw [Cursor.skip_skip] at inside
      refine Led.of_arranged behind ?_ (Cursor.offset_le_skip cursor head.length) (Nat.le_refl _)
      simpa [outline?] using
        inside.widen (fun kind _ => Kind.mem_all kind) (Nat.le_refl _) (Nat.le_refl _)

theorem afterTestMark_led (behind : Behind text start cursor) :
    Led text Kind.all start cursor (afterTestMark start cursor) := by
  unfold afterTestMark
  split
  · exact Led.of_bare rfl
  · rename_i name read _
    dsimp only
    generalize Head.read signatureGroups (cursor.skip read).rest = head
    have led : Led text [.test, .unsafeBlock] start cursor
        ⟨unsafeIn (((cursor.skip read).skip head.length).window
            (head.fullLength (cursor.skip read).rest - head.length)) ++
          [.test (String.ofList name)
            ⟨start, ((cursor.skip read).skip (head.fullLength (cursor.skip read).rest)).place⟩],
          read + head.fullLength (cursor.skip read).rest⟩ := by
      refine Led.of_body behind
        (Nat.add_le_add_left (fullLength_ge head (cursor.skip read).rest) read) rfl rfl ?_
      simp [outline?, Nat.add_sub_add_left]
    exact led.widen (fun kind _ => Kind.mem_all kind)

theorem afterHash_led (config : Config) (behind : Behind text start cursor) :
    Led text Kind.all start cursor (afterHash config start cursor) := by
  unfold afterHash
  split
  · exact Led.of_bare rfl
  · rename_i mark _
    split
    · exact Led.of_bare rfl
    · split
      · obtain ⟨arranged, ends⟩ := afterTestMark_led (behind.skip mark.length)
        rw [Cursor.skip_skip] at arranged
        exact ⟨arranged, fun outline member =>
          Nat.le_trans (Cursor.offset_le_skip cursor _) (ends outline member)⟩
      · exact Led.of_bare rfl

theorem afterKeyword_led (keyword : Keyword) (behind : Behind text start cursor) :
    Led text Kind.all start cursor (afterKeyword keyword start cursor) := by
  cases keyword with
  | function =>
      exact (afterFunction_led .none behind).widen (fun kind _ => Kind.mem_all kind)
  | struct => exact afterStruct_led behind
  | enum => exact afterEnum_led behind
  | trait => exact afterTrait_led behind
  | implementation => exact afterImplementation_led behind
  | unsafeMark =>
      have arranged := afterUnsafe_arranged behind.stands
      exact Led.of_arranged behind
        (arranged.widen (fun kind _ => Kind.mem_all kind) (Nat.le_refl _) (Nat.le_refl _))
        (Nat.le_refl _) (Nat.le_refl _)
  | macroRules => exact Led.of_bare rfl

theorem inFile_led (config : Config) (inDefinition : Bool) (token : Token)
    (behind : Behind text token.start cursor) :
    Led text Kind.all token.start cursor (inFile config inDefinition token cursor) := by
  unfold inFile
  split
  · exact Led.of_bare rfl
  · exact afterHash_led config behind
  · split
    · exact afterKeyword_led _ behind
    · exact Led.of_bare rfl

/-- Everything found from a cursor on is arranged between there and the end. -/
theorem stream_arranged (config : Config) (inDefinition : Bool) (stands : cursor.StandsIn text) :
    Arranged text Kind.all cursor.place.offset cursor.toEnd.place.offset
      (outlines (stream config inDefinition cursor)) := by
  induction cursor using Cursor.significant_induction generalizing inDefinition with
  | atEnd cursor atEnd =>
      rw [stream_of_none atEnd]
      exact Arranged.nil
  | onward cursor token length next ih =>
      rw [stream_of_some next, outlines_append]
      have first := (inFile_led config inDefinition token (behind_significant stands next)).arranged
      have later := ih (inFile config inDefinition token (cursor.skip length)).length
        (token.keyword? == some .macroRules) (stands.skip _)
      rw [Cursor.skip_skip] at first
      exact (first.widen (List.Subset.refl _) (Cursor.offset_le_token next) (Nat.le_refl _)).append
        (later.widen (List.Subset.refl _) (Nat.le_refl _) (Cursor.offset_toEnd_skip_le cursor _))
        (Cursor.offset_le_skip cursor _) (Cursor.offset_skip_le_toEnd cursor _)

/-- The findings of a text are arranged in it. -/
theorem ofText_arranged (config : Config) (text : List Char) :
    Arranged text Kind.all 0 (Text.byteLength text) (outlines (ofText config text)) := by
  have arranged := stream_arranged config false (Cursor.ofText_standsIn text)
  rw [Cursor.ofText_toEnd_offset] at arranged
  exact arranged

end Finding
end Survey
