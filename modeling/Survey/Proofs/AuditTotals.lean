import Survey.Inventory.Basic
import Mathlib.Algebra.Ring.Nat
import Mathlib.Data.List.Basic

set_option autoImplicit false

/-!
# The audit of blocks in order

When the blocks come one behind the other, sorting leaves them alone and joining only
closes gaps of no width, so the audit counts every byte of every block once. No sum on
the way leaves the counters as long as the text itself is counted by them.
-/

namespace Survey

/-- The first span ends before the second starts, or where it starts. -/
def Span.Precedes (first second : Span) : Prop := first.stop.offset ≤ second.start.offset

namespace Audit

/-- The bytes of some spans, each span counted for itself. -/
def totalLength (spans : List Span) : Nat := (spans.map Span.length).sum

@[simp] theorem totalLength_nil : totalLength [] = 0 := rfl

@[simp] theorem totalLength_cons (span : Span) (rest : List Span) :
    totalLength (span :: rest) = span.length + totalLength rest := rfl

/-! ### Joining -/

variable {current next : Span} {rest : List Span}

theorem extend_of_lt (further : current.stop.offset < next.stop.offset) :
    extend current next =
      ⟨current.start, next.stop, Nat.le_trans current.ordered (Nat.le_of_lt further)⟩ :=
  dif_pos further

theorem extend_of_le (covered : next.stop.offset ≤ current.stop.offset) :
    extend current next = current :=
  dif_neg (Nat.not_lt.mpr covered)

/-- Where one span ends and the next one starts, nothing lies between. -/
theorem length_extend (precedes : current.Precedes next)
    (touches : next.start.offset ≤ current.stop.offset) :
    (extend current next).length = current.length + next.length := by
  have currentOrdered := current.ordered
  have nextOrdered := next.ordered
  unfold Span.Precedes at precedes
  by_cases further : current.stop.offset < next.stop.offset
  · rw [extend_of_lt further]
    unfold Span.length
    dsimp only
    omega
  · rw [extend_of_le (Nat.not_lt.mp further)]
    unfold Span.length
    omega

theorem extend_stop (current next : Span) :
    (extend current next).stop = current.stop ∨ (extend current next).stop = next.stop := by
  by_cases further : current.stop.offset < next.stop.offset
  · rw [extend_of_lt further]
    exact Or.inr rfl
  · rw [extend_of_le (Nat.not_lt.mp further)]
    exact Or.inl rfl

theorem extend_precedes {later : Span} (currentBefore : current.Precedes later)
    (nextBefore : next.Precedes later) : (extend current next).Precedes later := by
  unfold Span.Precedes at *
  rcases extend_stop current next with same | same <;> rw [same] <;> assumption

theorem totalLength_join (ordered : (current :: rest).Pairwise Span.Precedes) :
    totalLength (join current rest) = totalLength (current :: rest) := by
  induction rest generalizing current with
  | nil => rfl
  | cons next rest ih =>
      rw [List.pairwise_cons, List.pairwise_cons] at ordered
      obtain ⟨currentBefore, nextBefore, restOrdered⟩ := ordered
      unfold join
      by_cases touches : next.start.offset ≤ current.stop.offset
      · have extended : (extend current next :: rest).Pairwise Span.Precedes := by
          refine List.pairwise_cons.mpr ⟨?_, restOrdered⟩
          intro later member
          exact extend_precedes (currentBefore later (List.mem_cons_of_mem _ member))
            (nextBefore later member)
        rw [if_pos touches, ih extended, totalLength_cons, totalLength_cons, totalLength_cons,
          length_extend (currentBefore next List.mem_cons_self) touches, Nat.add_assoc]
      · rw [if_neg touches, totalLength_cons, totalLength_cons,
          ih (List.pairwise_cons.mpr ⟨nextBefore, restOrdered⟩)]

/-- A joined span ends where one of the spans does. -/
theorem stop_of_mem_join {span : Span} (member : span ∈ join current rest) :
    ∃ original ∈ current :: rest, span.stop = original.stop := by
  induction rest generalizing current with
  | nil => exact ⟨span, member, rfl⟩
  | cons next rest ih =>
      unfold join at member
      split at member
      · obtain ⟨original, originalMember, same⟩ := ih member
        rcases List.mem_cons.mp originalMember with rfl | inRest
        · rcases extend_stop current next with ends | ends
          · exact ⟨current, List.mem_cons_self, same.trans ends⟩
          · exact ⟨next, by simp, same.trans ends⟩
        · exact ⟨original, by simp [inRest], same⟩
      · rcases List.mem_cons.mp member with rfl | inRest
        · exact ⟨span, List.mem_cons_self, rfl⟩
        · obtain ⟨original, originalMember, same⟩ := ih inRest
          exact ⟨original, List.mem_cons_of_mem _ originalMember, same⟩

variable {blocks : List Span}

/-- Blocks one behind the other are sorted as they are. -/
theorem mergeSort_of_ordered (ordered : blocks.Pairwise Span.Precedes) :
    blocks.mergeSort startsBefore = blocks := by
  apply List.mergeSort_of_pairwise
  apply ordered.imp
  intro first second precedes
  have firstOrdered := first.ordered
  unfold Span.Precedes at precedes
  unfold startsBefore
  rw [decide_eq_true_iff]
  omega

theorem totalLength_merged (ordered : blocks.Pairwise Span.Precedes) :
    totalLength (merged blocks) = totalLength blocks := by
  unfold merged
  rw [mergeSort_of_ordered ordered]
  cases blocks with
  | nil => rfl
  | cons first rest => exact totalLength_join ordered

theorem stop_of_mem_merged (ordered : blocks.Pairwise Span.Precedes) {span : Span}
    (member : span ∈ merged blocks) : ∃ original ∈ blocks, span.stop = original.stop := by
  unfold merged at member
  rw [mergeSort_of_ordered ordered] at member
  cases blocks with
  | nil => exact absurd member List.not_mem_nil
  | cons first rest => exact stop_of_mem_join member

/-- Spans one behind the other have no more bytes than the text that they lie in. -/
theorem totalLength_le {low high : Nat} (bounded : low ≤ high)
    (ordered : blocks.Pairwise Span.Precedes) (above : ∀ block ∈ blocks, low ≤ block.start.offset)
    (below : ∀ block ∈ blocks, block.stop.offset ≤ high) :
    low + totalLength blocks ≤ high := by
  induction blocks generalizing low with
  | nil => exact bounded
  | cons first rest ih =>
      obtain ⟨firstBefore, restOrdered⟩ := List.pairwise_cons.mp ordered
      have starts := above first List.mem_cons_self
      have ends := below first List.mem_cons_self
      have later := ih ends restOrdered firstBefore
        (fun block member => below block (List.mem_cons_of_mem _ member))
      have firstOrdered := first.ordered
      rw [totalLength_cons]
      unfold Span.length
      omega

/-! ### Counting -/

/-- No line is counted twice, and so no more lines than there are before the last. -/
def Tally.Sound (tally : Tally) : Prop := tally.lines ≤ tally.lastLine

theorem Tally.count_ok {tally : Tally} (sound : tally.Sound) (span : Span)
    (bytes : tally.bytes + span.length < Counter.limit)
    (lastLine : tally.lastLine + 1 < Counter.limit)
    (stopLine : span.stop.line + 1 < Counter.limit) :
    ∃ next, tally.count span = .ok next ∧ next.Sound ∧
      next.bytes = tally.bytes + span.length ∧
      next.lastLine = max tally.lastLine span.stop.line := by
  unfold Tally.Sound at sound
  unfold Tally.count
  rw [Counter.add_of_lt bytes, Counter.add_of_lt lastLine]
  by_cases touches : max span.start.line (tally.lastLine + 1) ≤ span.stop.line
  · have touched : span.stop.line - max span.start.line (tally.lastLine + 1) + 1 <
        Counter.limit := by omega
    have lines : tally.lines + (span.stop.line - max span.start.line (tally.lastLine + 1) + 1) <
        Counter.limit := by omega
    refine ⟨⟨tally.bytes + span.length,
      tally.lines + (span.stop.line - max span.start.line (tally.lastLine + 1) + 1),
      max tally.lastLine span.stop.line⟩, ?_, ?_, rfl, rfl⟩
    · simp only [bind, Except.bind, if_pos touches, Counter.add_of_lt touched,
        Counter.add_of_lt lines]
      rfl
    · unfold Tally.Sound
      dsimp only
      omega
  · refine ⟨⟨tally.bytes + span.length, tally.lines, max tally.lastLine span.stop.line⟩,
      ?_, ?_, rfl, rfl⟩
    · simp only [bind, Except.bind, if_neg touches]
      rfl
    · exact Nat.le_trans sound (Nat.le_max_left _ _)

/-- Counting spans of a text that is counted itself never fails and adds their bytes
up. -/
theorem count_all_ok {tally : Tally} {spans : List Span} {lines : Nat} (sound : tally.Sound)
    (bytes : tally.bytes + totalLength spans < Counter.limit)
    (fits : lines + 1 < Counter.limit) (lastLine : tally.lastLine ≤ lines)
    (stopLines : ∀ span ∈ spans, span.stop.line ≤ lines) :
    ∃ final, spans.foldlM Tally.count tally = .ok final ∧ final.Sound ∧
      final.bytes = tally.bytes + totalLength spans ∧ final.lastLine ≤ lines := by
  induction spans generalizing tally with
  | nil => exact ⟨tally, rfl, sound, rfl, lastLine⟩
  | cons span rest ih =>
      rw [totalLength_cons] at bytes
      have stopLine := stopLines span List.mem_cons_self
      obtain ⟨next, counted, nextSound, nextBytes, nextLine⟩ :=
        Tally.count_ok sound span (by omega) (by omega) (by omega)
      obtain ⟨final, countedAll, finalSound, finalBytes, finalLine⟩ :=
        ih nextSound (by omega) (by omega)
          (fun later member => stopLines later (List.mem_cons_of_mem _ member))
      refine ⟨final, ?_, finalSound, ?_, finalLine⟩
      · rw [List.foldlM_cons, counted]
        exact countedAll
      · rw [finalBytes, nextBytes, totalLength_cons, Nat.add_assoc]

end Audit

/-- The audit of blocks one behind the other in a text of `length` bytes counts each
of their bytes once, and no more than the text has. -/
theorem Inventory.audit_of_ordered {inventory : Inventory}
    (ordered : inventory.unsafeBlocks.Pairwise Span.Precedes)
    (offsets : ∀ block ∈ inventory.unsafeBlocks, block.stop.offset ≤ inventory.length)
    (lines : ∀ block ∈ inventory.unsafeBlocks, block.stop.line ≤ inventory.length + 1)
    (small : inventory.length + 2 < Counter.limit) :
    ∃ audit, inventory.audit = .ok audit ∧
      audit.unsafeBytes = Audit.totalLength inventory.unsafeBlocks ∧
      audit.unsafeBytes ≤ audit.totalBytes ∧ audit.totalBytes = inventory.length ∧
      audit.unsafeLines ≤ inventory.length + 1 := by
  have total := Audit.totalLength_merged ordered
  have within := Audit.totalLength_le (Nat.zero_le inventory.length) ordered
    (fun block _ => Nat.zero_le _) offsets
  have stopLines : ∀ span ∈ Audit.merged inventory.unsafeBlocks,
      span.stop.line ≤ inventory.length + 1 := by
    intro span member
    obtain ⟨block, blockMember, same⟩ := Audit.stop_of_mem_merged ordered member
    rw [same]
    exact lines block blockMember
  have start : (⟨0, 0, 0⟩ : Audit.Tally).Sound := Nat.le_refl 0
  obtain ⟨tally, counted, sound, bytes, lastLine⟩ :=
    Audit.count_all_ok start (by rw [total]; dsimp only; omega) (by omega) (Nat.zero_le _) stopLines
  have unsafeBytes : tally.bytes = Audit.totalLength inventory.unsafeBlocks := by
    rw [bytes, total, Nat.zero_add]
  refine ⟨⟨inventory.unsafeBlocks.length, tally.bytes, tally.lines, inventory.length⟩, ?_,
    unsafeBytes, ?_, rfl, Nat.le_trans sound lastLine⟩
  · unfold Inventory.audit
    rw [counted]
    rfl
  · dsimp only
    omega

end Survey
