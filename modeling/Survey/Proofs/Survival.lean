import Survey.Proofs.Arrangement
import Survey.Proofs.CutVisits

set_option autoImplicit false

/-!
# Findings that survive a cut

When the end of a text is cut off, whatever was found to end before the cut is still
found. Kind by kind, the completed findings come first and in their order; what has
lost its end comes after them.
-/

namespace Survey
namespace Cursor

variable {cursor : Cursor} {more : List Char}

theorem toEnd_skip {count : Nat} (inside : count ≤ cursor.rest.length) :
    (cursor.skip count).toEnd = cursor.toEnd := by
  unfold toEnd
  rw [skip_skip, skip_rest, List.length_drop, Nat.add_sub_cancel' inside]

theorem offset_extend_skip_le {count : Nat} (inside : count ≤ cursor.rest.length) :
    ((cursor.extend more).skip count).place.offset ≤ cursor.toEnd.place.offset := by
  rw [extend_skip inside, extend_place]
  exact offset_skip_le_toEnd cursor count

theorem offset_lt_extend_skip {count : Nat} (filled : more ≠ [])
    (crosses : cursor.rest.length < count) :
    cursor.toEnd.place.offset < ((cursor.extend more).skip count).place.offset := by
  have longer := List.length_pos_iff.mpr filled
  have atCut : ((cursor.extend more).skip cursor.rest.length).place = cursor.toEnd.place := by
    rw [extend_skip (Nat.le_refl _)]
    rfl
  rw [← atCut]
  have onward := offset_skip_lt (cursor.extend more) crosses
  apply onward
  rw [skip_rest, extend_rest, List.drop_left]
  exact filled

/-- A window that reaches behind the cut is the remaining text with the first characters
from behind the cut. -/
theorem extend_window_of_lt {first count : Nat} (filled : more ≠ [])
    (inside : first ≤ cursor.rest.length) (crosses : cursor.rest.length < first + count) :
    ∃ further, further ≠ [] ∧
      ((cursor.extend more).skip first).window count = (cursor.skip first).extend further := by
  refine ⟨more.take (first + count - cursor.rest.length), ?_, ?_⟩
  · rw [Ne, List.take_eq_nil_iff]
    rintro (none | empty)
    · omega
    · exact filled empty
  · rw [extend_skip inside]
    unfold window extend
    dsimp only
    rw [List.take_append, skip_rest, List.length_drop, List.take_of_length_le]
    · congr 3
      omega
    · rw [List.length_drop]
      omega

theorem window_of_le {count : Nat} (reaches : cursor.rest.length ≤ count) :
    cursor.window count = cursor := by
  unfold window
  rw [List.take_of_length_le reaches]

end Cursor

/-- A head before the cut whose body reaches behind it has the rest of the cut text as
its body. -/
theorem Head.bodyLength?_of_crossing {head : Head} {text more : List Char}
    (inside : head.length ≤ text.length) (crosses : text.length < head.fullLength (text ++ more)) :
    head.bodyLength? text = some (text.length - head.length) ∧
      ∃ count, head.bodyLength? (text ++ more) = some count ∧
        text.length < head.length + count := by
  unfold fullLength at crosses
  unfold bodyLength? at *
  split at crosses
  · rw [Option.getD_some, List.drop_append_of_le_length inside] at crosses
    have bodyCrosses : (text.drop head.length).length <
        Delimiter.brace.closeLength (text.drop head.length ++ more) := by
      rw [List.length_drop]
      omega
    rw [List.drop_append_of_le_length inside, Delimiter.closeLength_of_lt bodyCrosses,
      List.length_drop]
    exact ⟨rfl, _, rfl, crosses⟩
  · exact absurd crosses (Nat.not_lt.mpr inside)
  · exact absurd crosses (Nat.not_lt.mpr inside)

namespace Cursor

/-- The body behind the head at the cursor. -/
def bodyBehind (groups : List Delimiter) (cursor : Cursor) : Cursor :=
  let head := Head.read groups cursor.rest
  (cursor.skip head.length).window (head.fullLength cursor.rest - head.length)

theorem bodyBehind_of_crossing {groups : List Delimiter} {cursor : Cursor} {more : List Char}
    (filled : more ≠ [])
    (inside : (Head.read groups (cursor.rest ++ more)).length ≤ cursor.rest.length)
    (crosses : cursor.rest.length <
      (Head.read groups (cursor.rest ++ more)).fullLength (cursor.rest ++ more)) :
    ∃ further, further ≠ [] ∧
      bodyBehind groups (cursor.extend more) =
        (cursor.skip (Head.read groups (cursor.rest ++ more)).length).extend further ∧
      bodyBehind groups cursor =
        cursor.skip (Head.read groups (cursor.rest ++ more)).length := by
  unfold bodyBehind
  dsimp only
  rw [extend_rest, Head.read_of_le inside]
  generalize Head.read groups (cursor.rest ++ more) = head at *
  obtain ⟨cutBody, -⟩ := Head.bodyLength?_of_crossing inside crosses
  have reaches : cursor.rest.length <
      head.length + (head.fullLength (cursor.rest ++ more) - head.length) := by
    omega
  obtain ⟨further, furtherFilled, extended⟩ := extend_window_of_lt filled inside reaches
  refine ⟨further, furtherFilled, extended, ?_⟩
  apply window_of_le
  unfold Head.fullLength
  rw [cutBody, Option.getD_some, skip_rest, List.length_drop]
  omega

end Cursor

namespace Finding

/-- Is the finding one of a kind? -/
def isOf (kind : Kind) (finding : Finding) : Bool :=
  finding.outline?.any fun outline => decide (outline.kind = kind)

/-- Does the finding end by an offset? -/
def endsBy (limit : Nat) (finding : Finding) : Bool :=
  finding.outline?.any fun outline => decide (outline.extent.stop.offset ≤ limit)

/-- The findings of a kind that end by an offset. -/
def completed (kind : Kind) (limit : Nat) (found : List Finding) : List Finding :=
  found.filter fun finding => finding.isOf kind && finding.endsBy limit

/-- Kind by kind, the completed findings come first among those of the cut text. -/
def Survives (limit : Nat) (full cut : List Finding) : Prop :=
  ∀ kind, completed kind limit full <+: cut.filter (isOf kind)

/-- Nothing ends by the offset. -/
def Late (limit : Nat) (found : List Finding) : Prop :=
  ∀ outline ∈ outlines found, limit < outline.extent.stop.offset

variable {limit : Nat} {full cut first later cutFirst cutLater : List Finding} {kind : Kind}

theorem mem_outlines_of_isOf {finding : Finding} (member : finding ∈ full)
    (isOf : finding.isOf kind = true) :
    ∃ outline ∈ outlines full, finding.outline? = some outline ∧ outline.kind = kind := by
  unfold Finding.isOf at isOf
  cases outlined : finding.outline? with
  | none => rw [outlined] at isOf; cases isOf
  | some outline =>
      rw [outlined] at isOf
      exact ⟨outline, List.mem_filterMap.mpr ⟨finding, member, outlined⟩, rfl,
        of_decide_eq_true isOf⟩

@[simp] theorem completed_append (kind : Kind) (limit : Nat) (first second : List Finding) :
    completed kind limit (first ++ second) =
      completed kind limit first ++ completed kind limit second :=
  List.filter_append first second

theorem completed_of_late (late : Late limit full) : completed kind limit full = [] := by
  unfold completed
  rw [List.filter_eq_nil_iff]
  intro finding member both
  rw [Bool.and_eq_true] at both
  obtain ⟨outline, outlined, is, -⟩ := mem_outlines_of_isOf member both.1
  have ends := both.2
  unfold endsBy at ends
  rw [is] at ends
  exact absurd (of_decide_eq_true ends) (Nat.not_le.mpr (late outline outlined))

theorem completed_of_early
    (early : ∀ outline ∈ outlines full, outline.extent.stop.offset ≤ limit) :
    completed kind limit full = full.filter (isOf kind) := by
  unfold completed
  apply List.filter_congr
  intro finding member
  cases isOf : finding.isOf kind with
  | false => rfl
  | true =>
      obtain ⟨outline, outlined, is, -⟩ := mem_outlines_of_isOf member isOf
      unfold endsBy
      rw [is]
      exact decide_eq_true (early outline outlined)

theorem isOf_of_isNotice {finding : Finding} (notice : finding.isNotice = true) :
    finding.isOf kind = false := by
  cases finding with
  | unsafeAtEnd | signatureAtEnd | enumAtEnd | traitBody | implementationAtEnd
  | targetUnresolved | implementationBody => rfl
  | _ => cases notice

theorem filter_isOf_records (found : List Finding) :
    (records found).filter (isOf kind) = found.filter (isOf kind) := by
  unfold records
  rw [List.filter_filter]
  apply List.filter_congr
  intro finding _
  cases notice : finding.isNotice with
  | false => exact Bool.and_true _
  | true => rw [isOf_of_isNotice notice]; rfl

theorem Late.append (before : Late limit first) (behind : Late limit later) :
    Late limit (first ++ later) := by
  intro outline member
  rw [outlines_append, List.mem_append] at member
  exact member.elim (before outline) (behind outline)

theorem Late.mono {higher : Nat} (late : Late higher full) (below : limit ≤ higher) :
    Late limit full :=
  fun outline member => Nat.lt_of_le_of_lt below (late outline member)

theorem late_of_arranged {text : List Char} {kinds : List Kind} {low high : Nat}
    (arranged : Arranged text kinds low high (outlines full)) : Late low full := by
  intro outline member
  have lies := arranged.liesIn outline member
  exact Nat.lt_of_le_of_lt lies.low_le lies.start_lt

theorem late_of_bare (bare : outlines full = []) : Late limit full := by
  intro outline member
  rw [bare] at member
  cases member

theorem late_singleton {finding : Finding} {outline : Outline}
    (is : finding.outline? = some outline) (late : limit < outline.extent.stop.offset) :
    Late limit [finding] := by
  intro other member
  rw [outlines_cons, is] at member
  rw [List.mem_singleton.mp member]
  exact late

namespace Survives

theorem of_late (late : Late limit full) : Survives limit full cut := by
  intro kind
  rw [completed_of_late late]
  exact List.nil_prefix

/-- What was settled before the cut comes before what survives of the later findings. -/
theorem append_settled (same : records first = records cutFirst)
    (early : ∀ outline ∈ outlines first, outline.extent.stop.offset ≤ limit)
    (survives : Survives limit later cutLater) :
    Survives limit (first ++ later) (cutFirst ++ cutLater) := by
  intro kind
  rw [completed_append, completed_of_early early, List.filter_append, ← filter_isOf_records first,
    ← filter_isOf_records cutFirst, same]
  exact (List.prefix_append_right_inj _).mpr (survives kind)

/-- Behind what survives the cut, anything may follow in the place of late findings. -/
theorem append_late (survives : Survives limit first cutFirst) (late : Late limit later) :
    Survives limit (first ++ later) (cutFirst ++ cutLater) := by
  intro kind
  rw [completed_append, completed_of_late late, List.append_nil, List.filter_append]
  exact (survives kind).trans (List.prefix_append _ _)

/-- Notices do not matter. -/
theorem append_bare (bare : outlines first = []) (cutBare : outlines cutFirst = [])
    (survives : Survives limit later cutLater) :
    Survives limit (first ++ later) (cutFirst ++ cutLater) := by
  intro kind
  have cutNone : cutFirst.filter (isOf kind) = [] := by
    rw [List.filter_eq_nil_iff]
    intro finding member isOf
    obtain ⟨outline, outlined, -⟩ := mem_outlines_of_isOf member isOf
    rw [cutBare] at outlined
    cases outlined
  rw [completed_append, completed_of_late (late_of_bare bare), List.filter_append, cutNone]
  exact survives kind

end Survives

/-! ### Reading token by token -/

section Visits

variable {text more : List Char} {cursor : Cursor} {token : Token} {start : Position}

/-- How a visit compares with the same visit in the cut text, of which the cursor has
the rest: it ends before the cut and was settled there, it stepped over the keyword of a
function pointer whose parenthesis is cut off, or it ends behind the cut. -/
inductive Withstands (cursor : Cursor) (full cut : Visit) : Prop where
  | settled (inside : full.length ≤ cursor.rest.length) (agrees : full.Agrees cut)
  | pointer (skipped : full = .skipped 0) (blank : ∀ c ∈ cursor.rest, Text.isBlank c = true)
  | crossing (crosses : cursor.rest.length < full.length)
      (survives : Survives cursor.toEnd.place.offset full.found cut.found)

/-- A loop that finds what lies before it survives a cut, if its next visit withstands
the cut and the loop survives from there on. -/
theorem Survives.of_withstands {full cut : Visit} (loop : Cursor → List Finding)
    (filled : more ≠ []) (stands : (cursor.extend more).StandsIn text)
    (withstands : Withstands cursor full cut)
    (stops : ∀ outline ∈ outlines full.found,
      outline.extent.stop.offset ≤ ((cursor.extend more).skip full.length).place.offset)
    (ahead : ∀ behind : Cursor, behind.StandsIn text → Late behind.place.offset (loop behind))
    (beyond : cursor.EndsBeyond more → Late cursor.toEnd.place.offset (loop (cursor.extend more)))
    (onward : full.length ≤ cursor.rest.length →
      Survives (cursor.skip full.length).toEnd.place.offset
        (loop ((cursor.skip full.length).extend more)) (loop (cursor.skip full.length))) :
    Survives cursor.toEnd.place.offset
      (full.found ++ loop ((cursor.extend more).skip full.length))
      (cut.found ++ loop (cursor.skip cut.length)) := by
  cases withstands with
  | settled inside agrees =>
      apply append_settled agrees.records_eq
      · intro outline member
        exact Nat.le_trans (stops outline member) (Cursor.offset_extend_skip_le inside)
      · rw [← agrees.length_eq, Cursor.extend_skip inside, ← Cursor.toEnd_skip inside]
        exact onward inside
  | pointer skipped blank =>
      apply of_late
      rw [skipped]
      exact beyond (Cursor.endsBeyond_of_blank blank)
  | crossing crosses survives =>
      apply append_late survives
      exact (ahead _ (stands.skip _)).mono
        (Nat.le_of_lt (Cursor.offset_lt_extend_skip filled crosses))

theorem Withstands.of_cases {full cut : Visit}
    (settles : full.length ≤ cursor.rest.length → full.Agrees cut ∨
      (full = .skipped 0 ∧ ∀ c ∈ cursor.rest, Text.isBlank c = true))
    (survives : cursor.rest.length < full.length →
      Survives cursor.toEnd.place.offset full.found cut.found) :
    Withstands cursor full cut := by
  by_cases inside : full.length ≤ cursor.rest.length
  · rcases settles inside with agrees | ⟨skipped, blank⟩
    · exact .settled inside agrees
    · exact .pointer skipped blank
  · have crosses := Nat.not_le.mp inside
    exact .crossing crosses (survives crosses)

/-- When all findings of a visit end with it, none is left by a cut inside the visit. -/
theorem Survives.of_stops {full cut : Visit} (filled : more ≠ [])
    (stops : ∀ outline ∈ outlines full.found,
      outline.extent.stop = ((cursor.extend more).skip full.length).place)
    (crosses : cursor.rest.length < full.length) :
    Survives cursor.toEnd.place.offset full.found cut.found := by
  apply of_late
  intro outline member
  rw [stops outline member]
  exact Cursor.offset_lt_extend_skip filled crosses

theorem afterUnsafe_stops : ∀ outline ∈ outlines (afterUnsafe cursor).found,
    outline.extent.stop = (cursor.skip (afterUnsafe cursor).length).place := by
  intro outline member
  unfold afterUnsafe at member ⊢
  dsimp only at member ⊢
  split at member
  · cases member
  · split at member
    · rename_i brace
      rw [List.mem_singleton.mp member, if_pos brace]
    · cases member

theorem inBody_stops : ∀ outline ∈ outlines (inBody token cursor).found,
    outline.extent.stop = (cursor.skip (inBody token cursor).length).place := by
  unfold inBody
  split
  · intro outline member
    cases member
  · split
    · exact afterUnsafe_stops
    · intro outline member
      cases member

theorem inBody_withstands (filled : more ≠ []) :
    Withstands cursor (inBody token (cursor.extend more)) (inBody token cursor) := by
  apply Withstands.of_cases
  · exact fun inside => .inl (inBody_settled inside)
  · exact Survives.of_stops filled inBody_stops

theorem unsafeIn_late (filled : more ≠ []) (stands : (cursor.extend more).StandsIn text)
    (beyond : cursor.EndsBeyond more) :
    Late cursor.toEnd.place.offset (unsafeIn (cursor.extend more)) := by
  cases next : (cursor.extend more).significant? with
  | none =>
      rw [unsafeIn_of_none next]
      exact late_of_bare rfl
  | some pair =>
      obtain ⟨token, length⟩ := pair
      have past := Nat.le_of_lt (Cursor.offset_lt_extend_skip filled (beyond token length next))
      rw [unsafeIn_of_some next]
      apply Late.append
      · exact (late_of_arranged (inBody_arranged token (stands.skip length))).mono past
      · apply (late_of_arranged (unsafeIn_arranged (stands.skip _))).mono
        exact Nat.le_trans past (Cursor.offset_skip_le _ (Nat.le_add_right _ _))

theorem unsafeIn_survives (filled : more ≠ []) (stands : (cursor.extend more).StandsIn text) :
    Survives cursor.toEnd.place.offset (unsafeIn (cursor.extend more)) (unsafeIn cursor) := by
  induction cursor using Cursor.cut_induction more with
  | beyond cursor beyond => exact .of_late (unsafeIn_late filled stands beyond)
  | onward cursor token length inside fullNext cutNext ih =>
      have behind := stands.skip length
      rw [Cursor.extend_skip inside] at behind
      rw [unsafeIn_of_some fullNext, unsafeIn_of_some cutNext, ← Cursor.toEnd_skip inside,
        ← Cursor.skip_skip, ← Cursor.skip_skip, Cursor.extend_skip inside]
      apply Survives.of_withstands unsafeIn filled behind (inBody_withstands filled)
      · intro outline member
        exact ((inBody_arranged token behind).liesIn outline member).le_high
      · exact fun _ stands => late_of_arranged (unsafeIn_arranged stands)
      · exact unsafeIn_late filled behind
      · intro visitLe
        rw [Cursor.skip_skip]
        apply ih
        rw [← Cursor.skip_skip, ← Cursor.extend_skip visitLe]
        exact behind.skip _

/-! ### Functions -/

theorem bodyBehind_standsIn (groups : List Delimiter) (stands : cursor.StandsIn text) :
    (cursor.bodyBehind groups).StandsIn text :=
  (stands.skip _).window _

theorem body_late {groups : List Delimiter} (filled : more ≠ [])
    (stands : (cursor.extend more).StandsIn text)
    (beyond : cursor.rest.length < (Head.read groups (cursor.rest ++ more)).length) :
    Late cursor.toEnd.place.offset (unsafeIn ((cursor.extend more).bodyBehind groups)) :=
  (late_of_arranged (unsafeIn_arranged (bodyBehind_standsIn groups stands))).mono
    (Nat.le_of_lt (Cursor.offset_lt_extend_skip filled beyond))

/-- What is unsafe in a body survives a cut, whatever stands behind the body. -/
theorem body_survives {groups : List Delimiter} {outer cutOuter : List Finding}
    (filled : more ≠ []) (stands : (cursor.extend more).StandsIn text)
    (crosses : cursor.rest.length <
      (Head.read groups (cursor.rest ++ more)).fullLength (cursor.rest ++ more))
    (late : Late cursor.toEnd.place.offset outer) :
    Survives cursor.toEnd.place.offset
      (unsafeIn ((cursor.extend more).bodyBehind groups) ++ outer)
      (unsafeIn (cursor.bodyBehind groups) ++ cutOuter) := by
  by_cases inside : (Head.read groups (cursor.rest ++ more)).length ≤ cursor.rest.length
  · obtain ⟨further, furtherFilled, full, cut⟩ :=
      Cursor.bodyBehind_of_crossing filled inside crosses
    have bodyStands := bodyBehind_standsIn groups stands
    rw [full] at bodyStands ⊢
    rw [cut, ← Cursor.toEnd_skip inside]
    apply Survives.append_late (unsafeIn_survives furtherFilled bodyStands)
    rw [Cursor.toEnd_skip inside]
    exact late
  · exact .of_late ((body_late filled stands (Nat.not_le.mp inside)).append late)

theorem afterFunction_crossing {owner : Owner} (filled : more ≠ [])
    (stands : (cursor.extend more).StandsIn text)
    (crosses : cursor.rest.length < (afterFunction owner start (cursor.extend more)).length) :
    Survives cursor.toEnd.place.offset (afterFunction owner start (cursor.extend more)).found
      (afterFunction owner start cursor).found := by
  have pointer : ¬ isPointerType (cursor.rest ++ more) = true := by
    intro isPointer
    have skipped : afterFunction owner start (cursor.extend more) = .skipped 0 :=
      afterFunction_of_pointer isPointer
    rw [skipped] at crosses
    exact absurd crosses (Nat.not_lt_zero _)
  have cutPointer : ¬ isPointerType cursor.rest = true := fun cut =>
    pointer (isPointerType_of_cut cut)
  unfold afterFunction at *
  rw [Cursor.extend_rest, if_neg pointer] at crosses ⊢
  rw [if_neg cutPointer]
  dsimp only at crosses ⊢
  have outerLate := Cursor.offset_lt_extend_skip filled crosses
  -- Either the cut falls in the body, and both texts read one signature, or it falls in the head,
  -- and whatever the whole text finds here ends behind the cut.
  by_cases inside :
      (Head.read signatureGroups (cursor.rest ++ more)).length ≤ cursor.rest.length
  · have sameSignature : (Head.read signatureGroups cursor.rest).signature cursor.rest =
        (Head.read signatureGroups (cursor.rest ++ more)).signature (cursor.rest ++ more) := by
      rw [Head.read_of_le inside]
      exact Head.signature_of_le inside
    rw [sameSignature]
    apply Survives.append_bare (by split <;> rfl) (by split <;> rfl)
    by_cases unnamed : (Signature.functionParts ((Head.read signatureGroups
        (cursor.rest ++ more)).signature (cursor.rest ++ more))).name.isEmpty = true
    · rw [if_pos unnamed]
      exact .of_late (late_of_bare rfl)
    · rw [if_neg unnamed, if_neg unnamed]
      exact body_survives filled stands crosses (late_singleton rfl outerLate)
  · apply Survives.of_late
    apply Late.append
    · exact late_of_bare (by split <;> rfl)
    · split
      · exact late_of_bare rfl
      · exact (body_late filled stands (Nat.not_le.mp inside)).append
          (late_singleton rfl outerLate)

/-! ### Items -/

theorem amongItems_withstands {owner : Owner} (filled : more ≠ [])
    (stands : (cursor.extend more).StandsIn text) :
    Withstands cursor (amongItems owner token (cursor.extend more))
      (amongItems owner token cursor) := by
  apply Withstands.of_cases
  · intro inside
    exact (amongItems_settled inside).imp_left Visit.agrees_of_eq
  · intro crosses
    unfold amongItems at *
    split at crosses
    · exact .of_late (late_of_bare rfl)
    · exact .of_late (late_of_bare rfl)
    · exact .of_late (late_of_bare rfl)
    · by_cases function : token.keyword? = some .function
      · rw [if_pos function] at crosses ⊢
        rw [if_pos function]
        exact afterFunction_crossing filled stands crosses
      · rw [if_neg function]
        exact .of_late (late_of_bare rfl)

theorem items_late {owner : Owner} (filled : more ≠ [])
    (stands : (cursor.extend more).StandsIn text) (beyond : cursor.EndsBeyond more) :
    Late cursor.toEnd.place.offset (items owner (cursor.extend more)).found := by
  cases next : (cursor.extend more).significant? with
  | none =>
      rw [items_of_none next]
      exact late_of_bare rfl
  | some pair =>
      obtain ⟨token, length⟩ := pair
      have past := Cursor.offset_lt_extend_skip filled (beyond token length next)
      by_cases closes : token.tag = .closeBrace
      · rw [items_of_close next closes]
        exact late_of_bare rfl
      · rw [items_of_some next closes]
        apply Late.append
        · intro outline member
          exact Nat.lt_of_lt_of_le past
            ((amongItems_led owner token (behind_significant stands next)).place_le outline member)
        · apply (late_of_arranged (items_arranged owner (stands.skip _))).mono
          exact Nat.le_trans (Nat.le_of_lt past)
            (Cursor.offset_skip_le _ (Nat.le_add_right _ _))

theorem items_survives {owner : Owner} (filled : more ≠ [])
    (stands : (cursor.extend more).StandsIn text) :
    Survives cursor.toEnd.place.offset (items owner (cursor.extend more)).found
      (items owner cursor).found := by
  induction cursor using Cursor.cut_induction more with
  | beyond cursor beyond => exact .of_late (items_late filled stands beyond)
  | onward cursor token length inside fullNext cutNext ih =>
      by_cases closes : token.tag = .closeBrace
      · rw [items_of_close fullNext closes]
        exact .of_late (late_of_bare rfl)
      have behind := behind_significant stands fullNext
      rw [Cursor.extend_skip inside] at behind
      rw [items_of_some fullNext closes, items_of_some cutNext closes, ← Cursor.toEnd_skip inside]
      dsimp only
      rw [← Cursor.skip_skip, ← Cursor.skip_skip, Cursor.extend_skip inside]
      apply Survives.of_withstands (fun cursor => (items owner cursor).found) filled behind.stands
        (amongItems_withstands filled behind.stands)
      · intro outline member
        exact ((amongItems_led owner token behind).arranged.liesIn outline member).le_high
      · exact fun _ stands => late_of_arranged (items_arranged owner stands)
      · exact items_late filled behind.stands
      · intro visitLe
        rw [Cursor.skip_skip]
        apply ih
        rw [← Cursor.skip_skip, ← Cursor.extend_skip visitLe]
        exact behind.stands.skip _

/-! ### Declarations -/

theorem afterStruct_stops : ∀ outline ∈ outlines (afterStruct start cursor).found,
    outline.extent.stop = (cursor.skip (afterStruct start cursor).length).place := by
  intro outline member
  unfold afterStruct at member ⊢
  dsimp only at member ⊢
  split at member
  · cases member
  · rw [List.mem_singleton.mp member]

theorem afterEnum_stops : ∀ outline ∈ outlines (afterEnum start cursor).found,
    outline.extent.stop = (cursor.skip (afterEnum start cursor).length).place := by
  intro outline member
  unfold afterEnum at member ⊢
  dsimp only at member ⊢
  split at member
  · cases member
  · rename_i named
    rw [if_neg named]
    generalize (if (Head.read [.angle] cursor.rest).ending = .brace then
      VariantList.read (cursor.rest.drop (Head.read [.angle] cursor.rest).length)
      else ⟨[], 0, true⟩ : VariantList) = body at member ⊢
    rw [outlines_append, List.mem_append] at member
    rcases member with isNotice | isEnum
    · split at isNotice <;> cases isNotice
    · rw [List.mem_singleton.mp isEnum]

/-- Before findings of other kinds, one that has lost its end does not matter. -/
theorem Survives.cons_late {limit : Nat} {finding cutFinding : Finding} {outline cutOutline : Outline}
    {kinds : List Kind} {full cut : List Finding} (survives : Survives limit full cut)
    (is : finding.outline? = some outline) (cutIs : cutFinding.outline? = some cutOutline)
    (sameKind : outline.kind = cutOutline.kind) (late : limit < outline.extent.stop.offset)
    (others : ∀ other ∈ outlines full, other.kind ∈ kinds) (differs : outline.kind ∉ kinds) :
    Survives limit (finding :: full) (cutFinding :: cut) := by
  intro kind
  have lost : completed kind limit [finding] = [] := completed_of_late (late_singleton is late)
  rw [← List.singleton_append, completed_append, lost, List.nil_append]
  by_cases same : cutOutline.kind = kind
  · have none : completed kind limit full = [] := by
      unfold completed
      rw [List.filter_eq_nil_iff]
      intro other member both
      rw [Bool.and_eq_true] at both
      obtain ⟨otherOutline, outlined, -, otherKind⟩ := mem_outlines_of_isOf member both.1
      apply differs
      rw [sameKind, same, ← otherKind]
      exact others otherOutline outlined
    rw [none]
    exact List.nil_prefix
  · rw [List.filter_cons_of_neg]
    · exact survives kind
    · unfold isOf
      rw [cutIs]
      simpa using same

theorem afterTrait_of_unnamed (start : Position) {name : String}
    (hasName : String.ofList (Signature.leadingName
      (Head.read [.angle, .paren] cursor.rest).kept) = name) (unnamed : name.isEmpty = true) :
    (afterTrait start cursor).found = [] := by
  unfold afterTrait
  dsimp only
  rw [hasName, if_pos unnamed]
  rfl

theorem afterTrait_of_body (start : Position) {name : String} {count : Nat}
    (hasName : String.ofList (Signature.leadingName
      (Head.read [.angle, .paren] cursor.rest).kept) = name) (named : ¬ name.isEmpty = true)
    (hasBody : (Head.read [.angle, .paren] cursor.rest).bodyLength? cursor.rest = some count) :
    ∃ functions, (afterTrait start cursor).found =
      .trait name ⟨start, (cursor.skip (afterTrait start cursor).length).place⟩ ::
        ((items ⟨none, some name⟩ (cursor.bodyBehind [.angle, .paren])).found ++
          [.traitBody name start.line functions]) := by
  have window : cursor.bodyBehind [.angle, .paren] =
      (cursor.skip (Head.read [.angle, .paren] cursor.rest).length).window count := by
    unfold Cursor.bodyBehind Head.fullLength
    dsimp only
    rw [hasBody, Option.getD_some, Nat.add_sub_cancel_left]
  rw [afterTrait_length, window]
  unfold afterTrait
  dsimp only
  rw [hasName, if_neg named, hasBody]
  exact ⟨_, rfl⟩

theorem afterTrait_of_bodiless (start : Position) {name : String}
    (hasName : String.ofList (Signature.leadingName
      (Head.read [.angle, .paren] cursor.rest).kept) = name) (named : ¬ name.isEmpty = true)
    (noBody : (Head.read [.angle, .paren] cursor.rest).bodyLength? cursor.rest = none) :
    (afterTrait start cursor).found =
      [.trait name ⟨start, (cursor.skip (afterTrait start cursor).length).place⟩] := by
  rw [afterTrait_length]
  unfold afterTrait
  dsimp only
  rw [hasName, if_neg named, noBody]

theorem afterTrait_crossing (filled : more ≠ []) (stands : (cursor.extend more).StandsIn text)
    (crosses : cursor.rest.length < (afterTrait start (cursor.extend more)).length) :
    Survives cursor.toEnd.place.offset (afterTrait start (cursor.extend more)).found
      (afterTrait start cursor).found := by
  have outerLate := Cursor.offset_lt_extend_skip filled crosses
  have bodyStands := bodyBehind_standsIn [.angle, .paren] stands
  rw [afterTrait_length] at crosses
  obtain ⟨name, hasName⟩ : ∃ name, String.ofList (Signature.leadingName
      (Head.read [.angle, .paren] (cursor.extend more).rest).kept) = name := ⟨_, rfl⟩
  by_cases unnamed : name.isEmpty = true
  · rw [afterTrait_of_unnamed start hasName unnamed]
    exact .of_late (late_of_bare rfl)
  by_cases inside :
      (Head.read [.angle, .paren] (cursor.extend more).rest).length ≤ cursor.rest.length
  · obtain ⟨cutBody, count, fullBody, -⟩ := Head.bodyLength?_of_crossing inside crosses
    obtain ⟨further, furtherFilled, full, cut⟩ :=
      Cursor.bodyBehind_of_crossing filled inside crosses
    obtain ⟨functions, fullFound⟩ := afterTrait_of_body start hasName unnamed fullBody
    have sameHead : Head.read [.angle, .paren] cursor.rest =
        Head.read [.angle, .paren] (cursor.extend more).rest := Head.read_of_le inside
    rw [← sameHead] at hasName cutBody
    obtain ⟨cutFunctions, cutFound⟩ := afterTrait_of_body start hasName unnamed cutBody
    rw [full] at bodyStands fullFound
    rw [cut] at cutFound
    rw [fullFound, cutFound]
    -- The cut text still finds the trait, in front of its items and ending where the text ends. No
    -- item of the body is of its kind, so it stands before no completed finding.
    have kinds := (items_arranged ⟨none, some name⟩ bodyStands).liesIn
    refine Survives.cons_late ?_ rfl rfl rfl outerLate
      (fun other member => (kinds other ?_).kind_mem)
      (show Kind.trait ∉ [Kind.function, Kind.unsafeBlock] by decide)
    · rw [← Cursor.toEnd_skip inside]
      exact .append_late (items_survives furtherFilled bodyStands) (late_of_bare rfl)
    · rw [outlines_append] at member
      exact (List.mem_append.mp member).resolve_right List.not_mem_nil
  · apply Survives.of_late
    have inner : Late cursor.toEnd.place.offset
        (items ⟨none, some name⟩ ((cursor.extend more).bodyBehind [.angle, .paren])).found :=
      (late_of_arranged (items_arranged _ bodyStands)).mono
        (Nat.le_of_lt (Cursor.offset_lt_extend_skip filled (Nat.not_le.mp inside)))
    cases body : (Head.read [.angle, .paren] (cursor.extend more).rest).bodyLength?
        (cursor.extend more).rest with
    | none =>
        rw [afterTrait_of_bodiless start hasName unnamed body]
        exact late_singleton rfl outerLate
    | some count =>
        obtain ⟨functions, found⟩ := afterTrait_of_body start hasName unnamed body
        rw [found, ← List.singleton_append]
        exact (late_singleton rfl outerLate).append (inner.append (late_of_bare rfl))

theorem afterImplementation_of_resolved (start : Position) {head : Head}
    {resolved : Signature.Target} (read : Head.read signatureGroups cursor.rest = head)
    (brace : head.ending = .brace)
    (isResolved : Signature.target? (head.signature cursor.rest) = some resolved) :
    ∃ methods, (afterImplementation start cursor).found =
      [.target (String.ofList resolved.typeName) (resolved.traitName?.map String.ofList)] ++
        ((items ⟨some (String.ofList resolved.typeName), resolved.traitName?.map String.ofList⟩
            (cursor.skip head.length)).found ++
          [.implementationBody (String.ofList resolved.typeName) start.line methods]) := by
  unfold afterImplementation
  dsimp only
  rw [read, brace]
  dsimp only
  rw [isResolved]
  exact ⟨_, rfl⟩

theorem afterImplementation_of_unresolved (start : Position) {head : Head}
    (read : Head.read signatureGroups cursor.rest = head)
    (unresolved : head.ending = .brace → Signature.target? (head.signature cursor.rest) = none) :
    outlines (afterImplementation start cursor).found = [] := by
  unfold afterImplementation
  dsimp only
  rw [read]
  split
  · rfl
  · rfl
  · rename_i brace
    rw [unresolved brace]
    rfl

theorem afterImplementation_survives (filled : more ≠ [])
    (stands : (cursor.extend more).StandsIn text) :
    Survives cursor.toEnd.place.offset (afterImplementation start (cursor.extend more)).found
      (afterImplementation start cursor).found := by
  obtain ⟨head, read⟩ : ∃ head, Head.read signatureGroups (cursor.extend more).rest = head :=
    ⟨_, rfl⟩
  by_cases brace : head.ending = .brace
  · cases isResolved : Signature.target? (head.signature (cursor.extend more).rest) with
    | none =>
        have bare := afterImplementation_of_unresolved start read (fun _ => isResolved)
        exact .of_late (late_of_bare bare)
    | some resolved =>
        obtain ⟨methods, found⟩ := afterImplementation_of_resolved start read brace isResolved
        have bodyStands := stands.skip head.length
        rw [found]
        by_cases inside : head.length ≤ cursor.rest.length
        · have cutRead : Head.read signatureGroups cursor.rest = head := by
            rw [← read] at inside ⊢
            exact Head.read_of_le inside
          rw [Cursor.extend_rest, ← Head.signature_of_le inside] at isResolved
          obtain ⟨cutMethods, cutFound⟩ :=
            afterImplementation_of_resolved start cutRead brace isResolved
          rw [Cursor.extend_skip inside] at bodyStands ⊢
          rw [cutFound, ← Cursor.toEnd_skip inside]
          exact .append_bare rfl rfl
            (.append_late (items_survives filled bodyStands) (late_of_bare rfl))
        · apply Survives.of_late
          have inner := (late_of_arranged (items_arranged ⟨some (String.ofList resolved.typeName),
            resolved.traitName?.map String.ofList⟩ bodyStands)).mono
              (Nat.le_of_lt (Cursor.offset_lt_extend_skip filled (Nat.not_le.mp inside)))
          exact (late_of_bare rfl).append (inner.append (late_of_bare rfl))
  · have bare := afterImplementation_of_unresolved start read (fun isBrace => absurd isBrace brace)
    exact .of_late (late_of_bare bare)

/-! ### Tests and attributes -/

theorem afterTestMark_of_none {read : Nat} (missing : markedName cursor = ⟨none, read⟩) :
    afterTestMark start cursor = .skipped read := by
  unfold afterTestMark
  rw [missing]

theorem afterTestMark_of_some (start : Position) {name : List Char} {read : Nat}
    (found : markedName cursor = ⟨some name, read⟩) :
    afterTestMark start cursor =
      ⟨unsafeIn ((cursor.skip read).bodyBehind signatureGroups) ++
        [.test (String.ofList name)
          ⟨start, (cursor.skip (afterTestMark start cursor).length).place⟩],
        read + (Head.read signatureGroups (cursor.skip read).rest).fullLength
          (cursor.skip read).rest⟩ := by
  unfold afterTestMark
  rw [found]
  dsimp only
  rw [← Cursor.skip_skip]
  rfl

theorem afterTestMark_crossing (filled : more ≠ []) (stands : (cursor.extend more).StandsIn text)
    (crosses : cursor.rest.length < (afterTestMark start (cursor.extend more)).length) :
    Survives cursor.toEnd.place.offset (afterTestMark start (cursor.extend more)).found
      (afterTestMark start cursor).found := by
  have outerLate := Cursor.offset_lt_extend_skip filled crosses
  cases found : markedName (cursor.extend more) with
  | mk name? read =>
      cases name? with
      | none =>
          rw [afterTestMark_of_none found]
          exact .of_late (late_of_bare rfl)
      | some name =>
          have length := congrArg Visit.length (afterTestMark_of_some start found)
          have fullFound := congrArg Visit.found (afterTestMark_of_some start found)
          dsimp only at length fullFound
          by_cases inside : read ≤ cursor.rest.length
          · have cutFound : markedName cursor = ⟨some name, read⟩ := by
              rw [markedName_of_le (by rw [found]; exact inside), found]
            rw [fullFound, congrArg Visit.found (afterTestMark_of_some start cutFound),
              ← Cursor.toEnd_skip inside, Cursor.extend_skip inside]
            rw [← Cursor.toEnd_skip inside] at outerLate
            have behind := stands.skip read
            rw [Cursor.extend_skip inside] at behind length
            refine body_survives filled behind ?_ (late_singleton rfl outerLate)
            rw [length, Cursor.extend_rest, Cursor.skip_rest] at crosses
            rw [Cursor.skip_rest, List.length_drop]
            omega
          · rw [fullFound]
            apply Survives.of_late
            apply Late.append _ (late_singleton rfl outerLate)
            apply (late_of_arranged (unsafeIn_arranged
              (bodyBehind_standsIn signatureGroups (stands.skip read)))).mono
            exact Nat.le_trans
              (Nat.le_of_lt (Cursor.offset_lt_extend_skip filled (Nat.not_le.mp inside)))
              (Cursor.offset_le_skip _ _)

theorem afterHash_crossing {config : Config} (filled : more ≠ [])
    (behind : Behind text start (cursor.extend more))
    (crosses : cursor.rest.length < (afterHash config start (cursor.extend more)).length) :
    Survives cursor.toEnd.place.offset (afterHash config start (cursor.extend more)).found
      (afterHash config start cursor).found := by
  unfold afterHash at *
  rw [Cursor.extend_rest] at *
  split at crosses
  · exact .of_late (late_of_bare rfl)
  · rename_i mark found
    by_cases module : config.isTestModule mark.text
    · rw [if_pos module]
      exact .of_late (late_of_bare rfl)
    rw [if_neg module] at crosses ⊢
    by_cases test : config.isTest mark.text
    · rw [if_pos test] at crosses ⊢
      dsimp only at crosses ⊢
      by_cases inside : mark.length ≤ cursor.rest.length
      · rw [Attribute.read?_of_le found inside]
        dsimp only
        rw [if_neg module, if_pos test]
        dsimp only
        have further := behind.stands.skip mark.length
        rw [Cursor.extend_skip inside] at crosses further ⊢
        rw [← Cursor.toEnd_skip inside]
        apply afterTestMark_crossing filled further
        rw [Cursor.skip_rest, List.length_drop]
        omega
      · apply Survives.of_late
        intro outline member
        exact Nat.lt_of_lt_of_le
          (Cursor.offset_lt_extend_skip filled (Nat.not_le.mp inside))
          ((afterTestMark_led (behind.skip mark.length)).place_le outline member)
    · rw [if_neg test]
      exact .of_late (late_of_bare rfl)

/-! ### Files -/

theorem afterKeyword_crossing {keyword : Keyword} (filled : more ≠ [])
    (stands : (cursor.extend more).StandsIn text)
    (crosses : cursor.rest.length < (afterKeyword keyword start (cursor.extend more)).length) :
    Survives cursor.toEnd.place.offset (afterKeyword keyword start (cursor.extend more)).found
      (afterKeyword keyword start cursor).found := by
  cases keyword with
  | function => exact afterFunction_crossing filled stands crosses
  | struct => exact .of_stops filled afterStruct_stops crosses
  | enum => exact .of_stops filled afterEnum_stops crosses
  | trait => exact afterTrait_crossing filled stands crosses
  | implementation => exact afterImplementation_survives filled stands
  | unsafeMark => exact .of_stops filled afterUnsafe_stops crosses
  | macroRules => exact .of_late (late_of_bare rfl)

theorem inFile_withstands {config : Config} {inDefinition : Bool} (filled : more ≠ [])
    (behind : Behind text token.start (cursor.extend more)) :
    Withstands cursor (inFile config inDefinition token (cursor.extend more))
      (inFile config inDefinition token cursor) := by
  apply Withstands.of_cases inFile_settled
  intro crosses
  unfold inFile at *
  split at crosses
  · exact .of_late (late_of_bare rfl)
  · exact afterHash_crossing filled behind crosses
  · cases keyword : token.keyword? with
    | none => exact .of_late (late_of_bare rfl)
    | some known =>
        rw [keyword] at crosses
        exact afterKeyword_crossing filled behind.stands crosses

theorem stream_late {config : Config} {inDefinition : Bool} (filled : more ≠ [])
    (stands : (cursor.extend more).StandsIn text) (beyond : cursor.EndsBeyond more) :
    Late cursor.toEnd.place.offset (stream config inDefinition (cursor.extend more)) := by
  cases next : (cursor.extend more).significant? with
  | none =>
      rw [stream_of_none next]
      exact late_of_bare rfl
  | some pair =>
      obtain ⟨token, length⟩ := pair
      have past := Cursor.offset_lt_extend_skip filled (beyond token length next)
      rw [stream_of_some next]
      apply Late.append
      · intro outline member
        exact Nat.lt_of_lt_of_le past ((inFile_led config inDefinition token
          (behind_significant stands next)).place_le outline member)
      · apply (late_of_arranged (stream_arranged config _ (stands.skip _))).mono
        exact Nat.le_trans (Nat.le_of_lt past)
          (Cursor.offset_skip_le _ (Nat.le_add_right _ _))

theorem stream_survives {config : Config} {inDefinition : Bool} (filled : more ≠ [])
    (stands : (cursor.extend more).StandsIn text) :
    Survives cursor.toEnd.place.offset (stream config inDefinition (cursor.extend more))
      (stream config inDefinition cursor) := by
  induction cursor using Cursor.cut_induction more generalizing inDefinition with
  | beyond cursor beyond => exact .of_late (stream_late filled stands beyond)
  | onward cursor token length inside fullNext cutNext ih =>
      have behind := behind_significant stands fullNext
      rw [Cursor.extend_skip inside] at behind
      rw [stream_of_some fullNext, stream_of_some cutNext, ← Cursor.toEnd_skip inside,
        ← Cursor.skip_skip, ← Cursor.skip_skip, Cursor.extend_skip inside]
      apply Survives.of_withstands (stream config _) filled behind.stands
        (inFile_withstands filled behind)
      · intro outline member
        exact ((inFile_led config inDefinition token behind).arranged.liesIn
          outline member).le_high
      · exact fun _ stands => late_of_arranged (stream_arranged config _ stands)
      · exact stream_late filled behind.stands
      · intro visitLe
        rw [Cursor.skip_skip]
        apply ih
        rw [← Cursor.skip_skip, ← Cursor.extend_skip visitLe]
        exact behind.stands.skip _

/-- Whatever ends before the cut is found in the cut text too. -/
theorem ofText_survives (config : Config) (first second : List Char) :
    Survives (Text.byteLength first) (ofText config (first ++ second)) (ofText config first) := by
  by_cases filled : second = []
  · have early : ∀ outline ∈ outlines (ofText config first),
        outline.extent.stop.offset ≤ Text.byteLength first :=
      fun outline member => ((ofText_arranged config first).liesIn outline member).le_high
    rw [filled, List.append_nil]
    intro kind
    exact ⟨[], by rw [completed_of_early early, List.append_nil]⟩
  · have stands : ((Cursor.ofText first).extend second).StandsIn (first ++ second) :=
      Cursor.ofText_standsIn (first ++ second)
    rw [← Cursor.ofText_toEnd_offset]
    exact stream_survives filled stands

end Visits
end Finding
end Survey
