import Survey.Proofs.AuditTotals
import Mathlib.Data.Finset.Union
import Mathlib.Order.Interval.Finset.Nat

set_option autoImplicit false

/-!
# The audit of any blocks

Blocks may come in any order and may overlap, nest, touch, be empty or be repeated. Joining
them in order of their start keeps the set of their bytes, and the set of their lines as long
as the blocks are of one text: then no block that touches another starts on a later line than
the other ends. Joined blocks lie apart, so their bytes add up, and a line is counted for the
first of the joined blocks that touches it. So the audit counts the union of the blocks.
-/

namespace Survey
namespace Audit

/-- The bytes in at least one span. -/
def coveredOffsets (spans : List Span) : Finset Nat :=
  spans.toFinset.biUnion fun span => Finset.Ico span.start.offset span.stop.offset

/-- The lines that at least one span touches. -/
def touchedLines (spans : List Span) : Finset Nat :=
  spans.toFinset.biUnion fun span => Finset.Icc span.start.line span.stop.line

/-- The places where spans start or end. -/
def ends (spans : List Span) : List Position := spans.flatMap fun span => [span.start, span.stop]

/-- The spans may be spans of one text: of two of their ends, the one on the later line comes
later. -/
def OneText (spans : List Span) : Prop :=
  ∀ first ∈ ends spans, ∀ second ∈ ends spans,
    first.offset ≤ second.offset → first.line ≤ second.line

instance (spans : List Span) : Decidable (OneText spans) :=
  inferInstanceAs (Decidable (∀ first ∈ ends spans, ∀ second ∈ ends spans,
    first.offset ≤ second.offset → first.line ≤ second.line))

variable {current next span : Span} {spans rest others : List Span}

theorem mem_coveredOffsets {offset : Nat} :
    offset ∈ coveredOffsets spans ↔
      ∃ span ∈ spans, span.start.offset ≤ offset ∧ offset < span.stop.offset := by
  simp [coveredOffsets]

theorem mem_touchedLines {line : Nat} :
    line ∈ touchedLines spans ↔
      ∃ span ∈ spans, span.start.line ≤ line ∧ line ≤ span.stop.line := by
  simp [touchedLines]

theorem coveredOffsets_cons (span : Span) (rest : List Span) :
    coveredOffsets (span :: rest) =
      Finset.Ico span.start.offset span.stop.offset ∪ coveredOffsets rest := by
  ext offset
  simp [coveredOffsets]

theorem touchedLines_cons (span : Span) (rest : List Span) :
    touchedLines (span :: rest) =
      Finset.Icc span.start.line span.stop.line ∪ touchedLines rest := by
  ext line
  simp [touchedLines]

theorem mem_ends {place : Position} :
    place ∈ ends spans ↔ ∃ span ∈ spans, place = span.start ∨ place = span.stop := by
  simp [ends]

theorem start_mem_ends (member : span ∈ spans) : span.start ∈ ends spans :=
  mem_ends.mpr ⟨span, member, .inl rfl⟩

theorem stop_mem_ends (member : span ∈ spans) : span.stop ∈ ends spans :=
  mem_ends.mpr ⟨span, member, .inr rfl⟩

theorem OneText.of_subset (oneText : OneText spans) (subset : ends others ⊆ ends spans) :
    OneText others :=
  fun first firstMember second secondMember =>
    oneText first (subset firstMember) second (subset secondMember)

/-! ### Joining -/

theorem extend_start (current next : Span) : (extend current next).start = current.start := by
  unfold extend
  split <;> rfl

theorem extend_stop_offset (current next : Span) :
    (extend current next).stop.offset = max current.stop.offset next.stop.offset := by
  by_cases further : current.stop.offset < next.stop.offset
  · rw [extend_of_lt further, Nat.max_eq_right (Nat.le_of_lt further)]
  · have covered := Nat.not_lt.mp further
    rw [extend_of_le covered, Nat.max_eq_left covered]

theorem ends_extend_subset (current next : Span) (rest : List Span) :
    ends (extend current next :: rest) ⊆ ends (current :: next :: rest) := by
  intro place member
  obtain ⟨span, spanMember, isEnd⟩ := mem_ends.mp member
  rcases List.mem_cons.mp spanMember with rfl | inRest
  · rw [extend_start] at isEnd
    rcases isEnd with rfl | rfl
    · exact start_mem_ends List.mem_cons_self
    · rcases extend_stop current next with same | same <;> rw [same]
      · exact stop_mem_ends List.mem_cons_self
      · exact stop_mem_ends (List.mem_cons_of_mem _ List.mem_cons_self)
  · exact mem_ends.mpr ⟨span, by simp [inRest], isEnd⟩

/-- In one text a span that is lengthened ends on the later of both last lines. -/
theorem extend_stop_line (oneText : OneText (current :: next :: rest)) :
    (extend current next).stop.line = max current.stop.line next.stop.line := by
  have currentEnd : current.stop ∈ ends (current :: next :: rest) :=
    stop_mem_ends List.mem_cons_self
  have nextEnd : next.stop ∈ ends (current :: next :: rest) :=
    stop_mem_ends (List.mem_cons_of_mem _ List.mem_cons_self)
  by_cases further : current.stop.offset < next.stop.offset
  · have later := oneText _ currentEnd _ nextEnd (Nat.le_of_lt further)
    rw [extend_of_lt further, Nat.max_eq_right later]
  · have covered := Nat.not_lt.mp further
    have later := oneText _ nextEnd _ currentEnd covered
    rw [extend_of_le covered, Nat.max_eq_left later]

theorem coveredOffsets_extend (ordered : current.start.offset ≤ next.start.offset)
    (touches : next.start.offset ≤ current.stop.offset) :
    coveredOffsets (extend current next :: rest) = coveredOffsets (current :: next :: rest) := by
  rw [coveredOffsets_cons, coveredOffsets_cons, coveredOffsets_cons, ← Finset.union_assoc,
    extend_start, extend_stop_offset]
  congr 1
  ext offset
  simp only [Finset.mem_Ico, Finset.mem_union]
  omega

theorem touchedLines_extend (oneText : OneText (current :: next :: rest))
    (ordered : current.start.offset ≤ next.start.offset)
    (touches : next.start.offset ≤ current.stop.offset) :
    touchedLines (extend current next :: rest) = touchedLines (current :: next :: rest) := by
  have nextStart : next.start ∈ ends (current :: next :: rest) :=
    start_mem_ends (List.mem_cons_of_mem _ List.mem_cons_self)
  have startLines := oneText _ (start_mem_ends List.mem_cons_self) _ nextStart ordered
  have reached := oneText _ nextStart _ (stop_mem_ends List.mem_cons_self) touches
  rw [touchedLines_cons, touchedLines_cons, touchedLines_cons, ← Finset.union_assoc,
    extend_start, extend_stop_line oneText]
  congr 1
  ext line
  simp only [Finset.mem_Icc, Finset.mem_union]
  omega

/-- The spans come in order of their start. -/
def Sorted (spans : List Span) : Prop :=
  spans.Pairwise fun first second => first.start.offset ≤ second.start.offset

theorem Sorted.extend (sorted : Sorted (current :: next :: rest)) :
    Sorted (extend current next :: rest) := by
  obtain ⟨currentFirst, later⟩ := List.pairwise_cons.mp sorted
  refine List.pairwise_cons.mpr ⟨?_, (List.pairwise_cons.mp later).2⟩
  intro span member
  rw [extend_start]
  exact currentFirst span (List.mem_cons_of_mem _ member)

theorem ends_join_subset (current : Span) (rest : List Span) :
    ends (join current rest) ⊆ ends (current :: rest) := by
  induction rest generalizing current with
  | nil => exact List.Subset.refl _
  | cons next rest ih =>
      unfold join
      split
      · exact List.Subset.trans (ih (extend current next)) (ends_extend_subset current next rest)
      · intro place member
        obtain ⟨span, spanMember, isEnd⟩ := mem_ends.mp member
        rcases List.mem_cons.mp spanMember with rfl | joined
        · exact mem_ends.mpr ⟨span, List.mem_cons_self, isEnd⟩
        · obtain ⟨original, originalMember, originalEnd⟩ :=
            mem_ends.mp (ih next (mem_ends.mpr ⟨span, joined, isEnd⟩))
          exact mem_ends.mpr ⟨original, List.mem_cons_of_mem _ originalMember, originalEnd⟩

/-- Joining keeps the bytes and the lines, and leaves spans that lie one behind the other. -/
structure Joins (spans joined : List Span) : Prop where
  coveredOffsets_eq : coveredOffsets joined = coveredOffsets spans
  touchedLines_eq : touchedLines joined = touchedLines spans
  precedes : joined.Pairwise Span.Precedes
  ends_subset : ends joined ⊆ ends spans

theorem start_le_of_mem_join (sorted : Sorted (current :: rest))
    (member : span ∈ join current rest) : current.start.offset ≤ span.start.offset := by
  induction rest generalizing current with
  | nil => rw [List.mem_singleton.mp member]
  | cons next rest ih =>
      obtain ⟨currentFirst, later⟩ := List.pairwise_cons.mp sorted
      unfold join at member
      split at member
      · have joined := ih sorted.extend member
        rwa [extend_start] at joined
      · rcases List.mem_cons.mp member with rfl | joined
        · exact Nat.le_refl _
        · exact Nat.le_trans (currentFirst next List.mem_cons_self) (ih later joined)

theorem join_joins (sorted : Sorted (current :: rest)) (oneText : OneText (current :: rest)) :
    Joins (current :: rest) (join current rest) := by
  induction rest generalizing current with
  | nil => exact ⟨rfl, rfl, List.pairwise_singleton _ _, List.Subset.refl _⟩
  | cons next rest ih =>
      obtain ⟨currentFirst, later⟩ := List.pairwise_cons.mp sorted
      have ordered := currentFirst next List.mem_cons_self
      have subset := ends_join_subset current (next :: rest)
      unfold join at subset ⊢
      by_cases touches : next.start.offset ≤ current.stop.offset
      · rw [if_pos touches] at subset ⊢
        have joins := ih sorted.extend (oneText.of_subset (ends_extend_subset current next rest))
        exact ⟨joins.coveredOffsets_eq.trans (coveredOffsets_extend ordered touches),
          joins.touchedLines_eq.trans (touchedLines_extend oneText ordered touches),
          joins.precedes, subset⟩
      · rw [if_neg touches] at subset ⊢
        have laterEnds : ends (next :: rest) ⊆ ends (current :: next :: rest) := by
          intro place member
          exact List.mem_append_right _ member
        have joins := ih later (oneText.of_subset laterEnds)
        refine ⟨?_, ?_, List.pairwise_cons.mpr ⟨?_, joins.precedes⟩, subset⟩
        · rw [coveredOffsets_cons, joins.coveredOffsets_eq, ← coveredOffsets_cons]
        · rw [touchedLines_cons, joins.touchedLines_eq, ← touchedLines_cons]
        · intro span member
          have behind := start_le_of_mem_join later member
          unfold Span.Precedes
          omega

/-! ### Sorting -/

theorem mergeSort_sorted (spans : List Span) : Sorted (spans.mergeSort startsBefore) := by
  have transitive : ∀ first second third : Span, startsBefore first second = true →
      startsBefore second third = true → startsBefore first third = true := by
    intro first second third
    simp only [startsBefore, decide_eq_true_eq]
    omega
  have total : ∀ first second : Span,
      (startsBefore first second || startsBefore second first) = true := by
    intro first second
    simp only [startsBefore, Bool.or_eq_true, decide_eq_true_eq]
    omega
  apply (List.pairwise_mergeSort transitive total spans).imp
  intro first second before
  exact of_decide_eq_true before

theorem coveredOffsets_perm (perm : spans.Perm others) :
    coveredOffsets spans = coveredOffsets others := by
  unfold coveredOffsets
  rw [List.toFinset_eq_of_perm _ _ perm]

theorem touchedLines_perm (perm : spans.Perm others) :
    touchedLines spans = touchedLines others := by
  unfold touchedLines
  rw [List.toFinset_eq_of_perm _ _ perm]

theorem ends_subset_of_perm (perm : spans.Perm others) : ends spans ⊆ ends others := by
  intro place member
  obtain ⟨span, spanMember, isEnd⟩ := mem_ends.mp member
  exact mem_ends.mpr ⟨span, perm.mem_iff.mp spanMember, isEnd⟩

theorem merged_joins (oneText : OneText spans) : Joins spans (merged spans) := by
  have perm := List.mergeSort_perm spans startsBefore
  have sorted := mergeSort_sorted spans
  unfold merged
  split
  · rename_i empty
    rw [empty] at perm
    obtain rfl := List.nil_perm.mp perm
    exact ⟨rfl, rfl, List.Pairwise.nil, List.Subset.refl _⟩
  · rename_i first rest split
    rw [split] at perm sorted
    have subset := ends_subset_of_perm perm
    have joins := join_joins sorted (oneText.of_subset subset)
    exact ⟨joins.coveredOffsets_eq.trans (coveredOffsets_perm perm),
      joins.touchedLines_eq.trans (touchedLines_perm perm), joins.precedes,
      List.Subset.trans joins.ends_subset subset⟩

/-! ### Counting -/

/-- The bytes of spans that lie one behind the other add up. -/
theorem card_coveredOffsets (precedes : spans.Pairwise Span.Precedes) :
    (coveredOffsets spans).card = totalLength spans := by
  induction spans with
  | nil => rfl
  | cons span rest ih =>
      obtain ⟨first, later⟩ := List.pairwise_cons.mp precedes
      have apart : Disjoint (Finset.Ico span.start.offset span.stop.offset)
          (coveredOffsets rest) := by
        rw [Finset.disjoint_left]
        intro offset inside covered
        obtain ⟨other, otherMember, reaches, -⟩ := mem_coveredOffsets.mp covered
        have behind : span.stop.offset ≤ other.start.offset := first other otherMember
        have before := (Finset.mem_Ico.mp inside).2
        omega
      rw [coveredOffsets_cons, Finset.card_union_of_disjoint apart, Nat.card_Ico, ih later]
      rfl

/-- The lines among some spans behind a given line. -/
def linesBehind (lastLine : Nat) (spans : List Span) : Finset Nat :=
  (touchedLines spans).filter (lastLine < ·)

/-- When later spans start on no earlier line, the lines that the first span adds are counted
before those that only later ones touch. -/
theorem card_linesBehind_cons (lastLine : Nat)
    (starts : ∀ later ∈ rest, span.start.line ≤ later.start.line) :
    (linesBehind lastLine (span :: rest)).card =
      span.stop.line + 1 - max span.start.line (lastLine + 1) +
        (linesBehind (max lastLine span.stop.line) rest).card := by
  have apart : Disjoint (Finset.Icc (max span.start.line (lastLine + 1)) span.stop.line)
      (linesBehind (max lastLine span.stop.line) rest) := by
    rw [Finset.disjoint_left]
    intro line inside behind
    have upTo := (Finset.mem_Icc.mp inside).2
    have past := (Finset.mem_filter.mp behind).2
    omega
  have split : linesBehind lastLine (span :: rest) =
      Finset.Icc (max span.start.line (lastLine + 1)) span.stop.line ∪
        linesBehind (max lastLine span.stop.line) rest := by
    ext line
    unfold linesBehind
    rw [touchedLines_cons]
    simp only [Finset.mem_filter, Finset.mem_union, Finset.mem_Icc]
    by_cases touched : line ∈ touchedLines rest
    · obtain ⟨later, laterMember, reaches, -⟩ := mem_touchedLines.mp touched
      have start := starts later laterMember
      simp only [touched, or_true, true_and]
      omega
    · simp only [touched, or_false, false_and]
      omega
  rw [split, Finset.card_union_of_disjoint apart, Nat.card_Icc]

/-- A span adds its bytes, and its lines behind the last line. -/
theorem Tally.count_eq {tally : Tally} (sound : tally.Sound) (span : Span)
    (bytes : tally.bytes + span.length < Counter.limit)
    (lastLine : tally.lastLine + 1 < Counter.limit)
    (stopLine : span.stop.line + 1 < Counter.limit) :
    tally.count span = .ok ⟨tally.bytes + span.length,
      tally.lines + (span.stop.line + 1 - max span.start.line (tally.lastLine + 1)),
      max tally.lastLine span.stop.line⟩ := by
  unfold Tally.Sound at sound
  unfold Tally.count
  rw [Counter.add_of_lt bytes, Counter.add_of_lt lastLine]
  by_cases touches : max span.start.line (tally.lastLine + 1) ≤ span.stop.line
  · have touched : span.stop.line - max span.start.line (tally.lastLine + 1) + 1 =
        span.stop.line + 1 - max span.start.line (tally.lastLine + 1) := by omega
    have small : span.stop.line - max span.start.line (tally.lastLine + 1) + 1 <
        Counter.limit := by omega
    have lines : tally.lines + (span.stop.line + 1 - max span.start.line (tally.lastLine + 1)) <
        Counter.limit := by omega
    simp only [bind, Except.bind, if_pos touches, Counter.add_of_lt small, touched,
      Counter.add_of_lt lines]
    rfl
  · have none : span.stop.line + 1 - max span.start.line (tally.lastLine + 1) = 0 := by omega
    simp only [bind, Except.bind, if_neg touches, none]
    rfl

/-- Counting spans that lie one behind the other in one text never fails. It adds their bytes,
and their lines behind the last line. -/
theorem foldlM_count (tally : Tally) (limit : Nat) (sound : tally.Sound)
    (oneText : OneText spans) (precedes : spans.Pairwise Span.Precedes)
    (bytes : tally.bytes + totalLength spans < Counter.limit)
    (fits : limit + 1 < Counter.limit) (lastLine : tally.lastLine ≤ limit)
    (stopLines : ∀ span ∈ spans, span.stop.line ≤ limit) :
    ∃ last, spans.foldlM Tally.count tally = .ok ⟨tally.bytes + totalLength spans,
      tally.lines + (linesBehind tally.lastLine spans).card, last⟩ := by
  induction spans generalizing tally with
  | nil => exact ⟨tally.lastLine, rfl⟩
  | cons span rest ih =>
      obtain ⟨first, later⟩ := List.pairwise_cons.mp precedes
      have stopLine := stopLines span List.mem_cons_self
      rw [totalLength_cons] at bytes
      -- No later span starts on an earlier line, so what this one adds lies before what they add.
      have starts : ∀ other ∈ rest, span.start.line ≤ other.start.line := by
        intro other member
        have behind : span.stop.offset ≤ other.start.offset := first other member
        exact oneText _ (start_mem_ends List.mem_cons_self) _
          (start_mem_ends (List.mem_cons_of_mem _ member)) (Nat.le_trans span.ordered behind)
      have counted := Tally.count_eq sound span (by omega) (by omega) (by omega)
      have laterEnds : ends rest ⊆ ends (span :: rest) := by
        intro place member
        exact List.mem_append_right _ member
      have nextSound : Tally.Sound ⟨tally.bytes + span.length,
          tally.lines + (span.stop.line + 1 - max span.start.line (tally.lastLine + 1)),
          max tally.lastLine span.stop.line⟩ := by
        unfold Tally.Sound at sound ⊢
        dsimp only
        omega
      obtain ⟨last, countedAll⟩ := ih _ nextSound (oneText.of_subset laterEnds) later
        (by dsimp only; omega) (by dsimp only; omega)
        (fun other member => stopLines other (List.mem_cons_of_mem _ member))
      refine ⟨last, ?_⟩
      rw [List.foldlM_cons, counted]
      refine countedAll.trans ?_
      rw [card_linesBehind_cons tally.lastLine starts, totalLength_cons]
      dsimp only
      rw [Nat.add_assoc, Nat.add_assoc]

/-- The ends of the spans have offsets and lines as counters hold them, and a line is left
behind the last one. -/
def Counted (spans : List Span) : Prop :=
  ∀ place ∈ ends spans, place.offset < 2 ^ 32 ∧ 1 ≤ place.line ∧ place.line ≤ 2 ^ 32 - 2

instance (spans : List Span) : Decidable (Counted spans) :=
  inferInstanceAs (Decidable (∀ place ∈ ends spans,
    place.offset < 2 ^ 32 ∧ 1 ≤ place.line ∧ place.line ≤ 2 ^ 32 - 2))

end Audit

open Audit in
theorem Inventory.audit_eq (inventory : Inventory) (counted : Counted inventory.unsafeBlocks)
    (oneText : OneText inventory.unsafeBlocks) :
    inventory.audit = .ok ⟨inventory.unsafeBlocks.length,
      (coveredOffsets inventory.unsafeBlocks).card, (touchedLines inventory.unsafeBlocks).card,
      inventory.length⟩ := by
  have joins := merged_joins oneText
  have limit : Counter.limit = 2 ^ 32 := rfl
  have bounded : ∀ place ∈ ends (merged inventory.unsafeBlocks),
      place.offset < 2 ^ 32 ∧ 1 ≤ place.line ∧ place.line ≤ 2 ^ 32 - 2 :=
    fun place member => counted place (joins.ends_subset member)
  have total : 0 + totalLength (merged inventory.unsafeBlocks) ≤ 2 ^ 32 - 1 := by
    apply totalLength_le (Nat.zero_le _) joins.precedes (fun _ _ => Nat.zero_le _)
    intro block member
    have below := (bounded block.stop (stop_mem_ends member)).1
    omega
  have behindStart : linesBehind 0 (merged inventory.unsafeBlocks) =
      touchedLines inventory.unsafeBlocks := by
    rw [← joins.touchedLines_eq]
    apply Finset.filter_true_of_mem
    intro line touched
    obtain ⟨block, member, reaches, -⟩ := mem_touchedLines.mp touched
    have positive := (bounded block.start (start_mem_ends member)).2.1
    omega
  obtain ⟨last, countedAll⟩ := foldlM_count ⟨0, 0, 0⟩ (2 ^ 32 - 2)
    (Nat.le_refl 0) (oneText.of_subset joins.ends_subset) joins.precedes
    (by dsimp only; omega) (by omega) (Nat.zero_le _)
    (fun block member => (bounded block.stop (stop_mem_ends member)).2.2)
  unfold Inventory.audit
  rw [countedAll]
  dsimp only [bind, Except.bind, pure, Except.pure]
  rw [Nat.zero_add, Nat.zero_add, behindStart, ← card_coveredOffsets joins.precedes,
    joins.coveredOffsets_eq]

open Audit in
/-- The audit of blocks of one text never fails, whatever their order and however they overlap:
it counts the blocks, the bytes that lie in at least one of them and the lines that at least
one of them touches. So it is the same for the blocks in any other order. -/
theorem Inventory.audit_counts_union (inventory : Inventory)
    (counted : Counted inventory.unsafeBlocks) (oneText : OneText inventory.unsafeBlocks) :
    inventory.audit = .ok
        { blocks := inventory.unsafeBlocks.length
          unsafeBytes := (coveredOffsets inventory.unsafeBlocks).card
          unsafeLines := (touchedLines inventory.unsafeBlocks).card
          totalBytes := inventory.length } ∧
      ∀ blocks, blocks.Perm inventory.unsafeBlocks →
        { inventory with unsafeBlocks := blocks }.audit = inventory.audit := by
  refine ⟨audit_eq inventory counted oneText, ?_⟩
  intro blocks perm
  have subset := ends_subset_of_perm perm
  have reordered := audit_eq { inventory with unsafeBlocks := blocks }
    (fun place member => counted place (subset member)) (oneText.of_subset subset)
  rw [reordered, audit_eq inventory counted oneText]
  dsimp only
  rw [perm.length_eq, coveredOffsets_perm perm, touchedLines_perm perm]

open Audit in
/-- Of the blocks the first comes last, one lies in another, two touch, one is empty and one is
given twice; the third line is shared by three of them. -/
theorem Inventory.audit_counts_union_tangled :
    let blocks : List Span :=
      [⟨⟨7, 1, 60⟩, ⟨9, 2, 80⟩, by decide⟩, ⟨⟨2, 5, 10⟩, ⟨3, 4, 30⟩, by decide⟩,
        ⟨⟨2, 9, 14⟩, ⟨3, 1, 26⟩, by decide⟩, ⟨⟨3, 4, 30⟩, ⟨3, 8, 34⟩, by decide⟩,
        ⟨⟨5, 1, 50⟩, ⟨5, 1, 50⟩, by decide⟩, ⟨⟨7, 1, 60⟩, ⟨9, 2, 80⟩, by decide⟩]
    let inventory : Inventory := { Inventory.empty with unsafeBlocks := blocks, length := 100 }
    Counted blocks ∧ OneText blocks ∧ inventory.audit = .ok ⟨6, 44, 6, 100⟩ ∧
      { inventory with unsafeBlocks := blocks.reverse }.audit = .ok ⟨6, 44, 6, 100⟩ := by
  intro blocks inventory
  have counted : Counted inventory.unsafeBlocks := by
    decide
  have oneText : OneText inventory.unsafeBlocks := by
    decide
  have bytes : (coveredOffsets inventory.unsafeBlocks).card = 44 := by
    decide +kernel
  have lines : (touchedLines inventory.unsafeBlocks).card = 6 := by
    decide +kernel
  obtain ⟨audited, reordered⟩ := Inventory.audit_counts_union inventory counted oneText
  rw [bytes, lines] at audited
  exact ⟨counted, oneText, audited, (reordered _ (List.reverse_perm _)).trans audited⟩

end Survey
