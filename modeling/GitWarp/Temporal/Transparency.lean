import GitWarp.Temporal.Checkpoints

/-!
# Checkpoints that do not show

A temporal query answers from a checkpoint what it answers without one, for every
node, predicate and threshold, whatever the patches of the history do, exactly
when the checkpoint closes its tick.
-/
namespace GitWarp

open Js Lib KeyCodec List

/-- Two queries answer alike on every node, predicate and threshold. -/
def TemporalQuery.SameAnswers (query other : TemporalQuery) : Prop :=
  ∀ (nodeId : JsString) (predicate : NodeSnapshot → Bool) (since : Int),
    query.always nodeId predicate since = other.always nodeId predicate since ∧
      query.eventually nodeId predicate since = other.eventually nodeId predicate since

/-- The state of a checkpoint of the covered patches, however it was reduced or stored. -/
def CheckpointOf (history : List (WriterLog (PatchEntry JsData))) (s : WarpState JsData) : Prop :=
  ∃ t, reducePatches (coveredOf history) .empty = .ok t ∧ s.Equiv t

def headersOf (history : List (WriterLog (PatchEntry JsData))) : List (WriterLog PatchHeader) :=
  history.map (WriterLog.map PatchEntry.header)

/-! ### Answers and what is shown -/

theorem TemporalQuery.answers_of_shown (query other : TemporalQuery)
    (valid : ∀ entry ∈ query.allPatches, entry.WellFormed)
    (validOther : ∀ entry ∈ other.allPatches, entry.WellFormed) (nodeId) (predicate) (since)
    (same : ∀ snapshot, query.Shown nodeId since snapshot ↔ other.Shown nodeId since snapshot) :
    query.always nodeId predicate since = other.always nodeId predicate since ∧
      query.eventually nodeId predicate since = other.eventually nodeId predicate since := by
  constructor
  · obtain ⟨answer, left, means⟩ := query.always_iff valid nodeId predicate since
    obtain ⟨answer', right, means'⟩ := other.always_iff validOther nodeId predicate since
    simp only [same] at means
    rw [left, right, Bool.eq_iff_iff.mpr (means.trans means'.symm)]
  · obtain ⟨answer, left, means⟩ := query.eventually_iff valid nodeId predicate since
    obtain ⟨answer', right, means'⟩ := other.eventually_iff validOther nodeId predicate since
    simp only [same] at means
    rw [left, right, Bool.eq_iff_iff.mpr (means.trans means'.symm)]

section Queries

variable (localeCompare : JsString → JsString → Int)
  (history : List (WriterLog (PatchEntry JsData))) (nodeId : JsString) (since : Int)
  (snapshot : NodeSnapshot)

theorem shown_without : (temporal localeCompare history none).Shown nodeId since snapshot ↔
    ShownFrom nodeId since (sortPatchesCausally localeCompare (allOf history)) .empty snapshot := by
  have start : (temporal localeCompare history none).resolveStart since = emptyStart := by
    simp only [TemporalQuery.resolveStart, temporal, Option.map_none, tryCheckpointStart, ite_self]
  simp only [TemporalQuery.Shown, start]
  simp [emptyStart, temporal]

theorem shown_unused (s) (unused : ¬ (0 < since ∧ (maxObservedLamportInState s : Int) ≤ since)) :
    (temporal localeCompare history (some s)).Shown nodeId since snapshot ↔
      ShownFrom nodeId since (sortPatchesCausally localeCompare (allOf history)) .empty
        snapshot := by
  have start : (temporal localeCompare history (some s)).resolveStart since = emptyStart := by
    simp only [TemporalQuery.resolveStart, temporal, Option.map_some, tryCheckpointStart]
    by_cases positive : 0 < since
    · rw [if_pos positive, if_neg fun below => unused ⟨positive, below⟩]
    · rw [if_neg positive]
  simp only [TemporalQuery.Shown, start]
  simp [emptyStart, temporal]

theorem shown_used (stands : maxObservedLamportInState s = tick) (positive : 0 < since)
    (reached : (tick : Int) ≤ since) :
    (temporal localeCompare history (some s)).Shown nodeId since snapshot ↔
      ((tick : Int) = since ∧ extractNodeSnapshot s nodeId = snapshot ∧ snapshot.alive = true) ∨
        ShownFrom nodeId since
          ((sortPatchesCausally localeCompare (allOf history)).drop
            ((sortPatchesCausally localeCompare (allOf history)).findIdx fun e =>
              (tick : Int) < e.patch.lamport)) s snapshot := by
  have start : (temporal localeCompare history (some s)).resolveStart since =
      ⟨s, (sortPatchesCausally localeCompare (allOf history)).findIdx fun e =>
        (tick : Int) < e.patch.lamport, some tick⟩ := by
    simp only [TemporalQuery.resolveStart, temporal, Option.map_some, tryCheckpointStart, stands]
    rw [if_pos positive, if_pos reached]
  simp only [TemporalQuery.Shown, start, Option.map_some, Option.some.injEq]
  rfl

end Queries

/-! ### Closed ticks -/

section Closed

variable (localeCompare : JsString → JsString → Int)
  (history : List (WriterLog (PatchEntry JsData)))
  (valid : ∀ entry ∈ allOf history, entry.WellFormed) (consistent : Consistent (allOf history))

include valid in
theorem sorted_wellFormed : ∀ entry ∈ sortPatchesCausally localeCompare (allOf history),
    entry.WellFormed := by
  intro entry mem
  rw [sortPatchesCausally, mem_insertionSort] at mem
  exact valid entry mem

include valid in
theorem represents_of_checkpoint (checkpoint : CheckpointOf history s) :
    Represents s (historyFacts (coveredOf history)) ∧
      maxObservedLamportInState s = boundaryTick (coveredOf (headersOf history)) := by
  obtain ⟨t, reduced, same⟩ := checkpoint
  have represents := (represents_history reduced).of_equiv same
  refine ⟨represents, ?_⟩
  rw [headersOf, coveredOf_map]
  apply maxObserved_of_represents _ _ s represents
  exact fun entry mem => valid entry ((mem_allOf_iff history).mpr (Or.inl mem))

theorem perm_covered (closed : ClosedTick (headersOf history)) :
    ((sortPatchesCausally localeCompare (allOf history)).take
      ((sortPatchesCausally localeCompare (allOf history)).findIdx fun e =>
        (boundaryTick (coveredOf (headersOf history)) : Int) < e.patch.lamport)).Perm
      (coveredOf history) := by
  -- in a closed history the patches up to the tick are the covered ones
  let tick : Int := boundaryTick (coveredOf (headersOf history))
  let sorted := sortPatchesCausally localeCompare (allOf history)
  have split := split_at_tick sorted (pairwise_sortPatchesCausally localeCompare _) tick
  -- both are the patches up to the tick, filtered from permutations of one list
  have first : (sorted.filter fun e => e.patch.lamport ≤ tick) =
      sorted.take (sorted.findIdx fun e => tick < e.patch.lamport) := by
    conv_lhs => rw [← take_append_drop (sorted.findIdx fun e => tick < e.patch.lamport) sorted]
    rw [filter_append, filter_eq_self.mpr fun e mem => by simpa using split.1 e mem,
      filter_eq_nil_iff.mpr fun e mem => by simpa using split.2 e mem, append_nil]
  have covered : ((coveredOf history ++ laterOf history).filter fun e => e.patch.lamport ≤ tick) =
      coveredOf history := by
    rw [filter_append, filter_eq_self.mpr, filter_eq_nil_iff.mpr, append_nil]
    · intro e mem
      have above := closed.later e.header (by
        rw [headersOf, laterOf_map]
        exact mem_map_of_mem mem)
      have lamport : e.header.lamport = e.patch.lamport := rfl
      simp only [decide_eq_true_eq, not_le]
      omega
    · intro e mem
      have below := lamport_le_boundaryTick (coveredOf (headersOf history)) (by
        rw [headersOf, coveredOf_map]
        exact mem_map_of_mem mem)
      exact decide_eq_true below
  have perm : sorted.Perm (coveredOf history ++ laterOf history) :=
    (perm_insertionSort _ _).trans (perm_allOf history).symm
  have filtered := perm.filter fun e => decide (e.patch.lamport ≤ tick)
  rw [first, covered] at filtered
  exact filtered

theorem shownFrom_boundary (entries u) (reduced : reducePatches entries .empty = .ok u)
    (sorted : entries.Pairwise fun a b => a.patch.lamport ≤ b.patch.lamport)
    (below : ∀ entry ∈ entries, entry.patch.lamport ≤ tick)
    (one : (entries.filter fun e => e.patch.lamport = tick).length = 1) :
    ShownFrom nodeId tick entries .empty snapshot ↔
      extractNodeSnapshot u nodeId = snapshot ∧ snapshot.alive = true := by
  -- at the tick of exactly one patch, replaying up to it shows the state after it
  constructor
  · rintro ⟨before, entry, after, t, rfl, late, stepped, found, alive⟩
    have here : entry.patch.lamport = tick := by
      have := below entry (by simp)
      omega
    -- a later patch would have the same tick
    have last : after = [] := by
      cases after with
      | nil => rfl
      | cons next rest =>
        have order := (pairwise_cons.mp (pairwise_append.mp sorted).2.1).1 next
          mem_cons_self
        have bound := below next (by simp)
        have same : next.patch.lamport = tick := by omega
        simp only [filter_append, filter_cons, here, same, decide_true, if_true,
          length_append, length_cons] at one
        omega
    subst last
    rw [reduced] at stepped
    cases stepped
    exact ⟨found, alive⟩
  · rintro ⟨found, alive⟩
    rcases eq_nil_or_concat entries with rfl | ⟨before, entry, rfl⟩
    · simp at one
    · rw [concat_eq_append] at *
      refine ⟨before, entry, [], u, rfl, ?_, reduced, found, alive⟩
      -- the patch of this tick is the last one or stands before it
      obtain ⟨e, mem⟩ := exists_mem_of_length_pos (Nat.lt_of_lt_of_eq Nat.zero_lt_one one.symm)
      rw [mem_filter, decide_eq_true_eq] at mem
      rcases mem_append.mp mem.1 with earlier | same
      · have order := (pairwise_append.mp sorted).2.2 e earlier entry mem_cons_self
        omega
      · rw [mem_singleton] at same
        subst same
        omega

include valid consistent in
theorem shown_of_closed (closed : ClosedTick (headersOf history)) (s)
    (checkpoint : CheckpointOf history s) (snapshot) :
    (temporal localeCompare history (some s)).Shown nodeId since snapshot ↔
      (temporal localeCompare history none).Shown nodeId since snapshot := by
  obtain ⟨represents, stands⟩ := represents_of_checkpoint history valid checkpoint
  rw [shown_without]
  by_cases used : 0 < since ∧ (maxObservedLamportInState s : Int) ≤ since
  · obtain ⟨positive, reached⟩ := used
    rw [stands] at reached
    rw [shown_used localeCompare history nodeId since snapshot stands positive reached]
    have covered := perm_covered localeCompare history closed
    generalize idx : (sortPatchesCausally localeCompare (allOf history)).findIdx (fun e =>
        (boundaryTick (coveredOf (headersOf history)) : Int) < e.patch.lamport) = startIdx at *
    have sorted := pairwise_sortPatchesCausally localeCompare (allOf history)
    have split := split_at_tick _ sorted (boundaryTick (coveredOf (headersOf history)))
    rw [idx] at split
    have wellFormed := sorted_wellFormed localeCompare history valid
    have whole := take_append_drop startIdx (sortPatchesCausally localeCompare (allOf history))
    have facts : historyFacts ((sortPatchesCausally localeCompare (allOf history)).take startIdx) =
        historyFacts (coveredOf history) :=
      historyFacts_congr _ _ fun entry => covered.mem_iff
    -- the replay without the checkpoint first passes through the covered patches
    obtain ⟨u, reduced, right⟩ := reduces_history
      fun entry mem => wellFormed entry (mem_of_mem_take mem)
    conv_rhs => rw [← whole]
    rw [shownFrom_append_iff nodeId since .empty u reduced]
    have validWhole : ∀ entry ∈ (sortPatchesCausally localeCompare (allOf history)).take startIdx ++
          (sortPatchesCausally localeCompare (allOf history)).drop startIdx, entry.WellFormed := by
      rw [whole]
      exact wellFormed
    have consistentWhole : Consistent
        ((sortPatchesCausally localeCompare (allOf history)).take startIdx ++
          (sortPatchesCausally localeCompare (allOf history)).drop startIdx) := by
      rw [whole]
      intro a memberA b memberB
      rw [sortPatchesCausally, mem_insertionSort] at memberA memberB
      exact consistent a memberA b memberB
    rw [← facts] at represents
    apply or_congr
    · by_cases boundary : (boundaryTick (coveredOf (headersOf history)) : Int) = since
      · -- a positive tick is the tick of one covered patch
        have one := closed.boundary.resolve_left (by omega)
        rw [headersOf, coveredOf_map, filter_map, length_map, ← coveredOf_map] at one
        have count : (((sortPatchesCausally localeCompare (allOf history)).take startIdx).filter
            fun e => e.patch.lamport = since).length = 1 := by
          rw [(covered.filter _).length_eq, ← boundary]
          exact one
        rw [shownFrom_boundary _ u reduced (sorted.sublist (take_sublist _ _))
          (boundary ▸ split.1) count]
        have left := represents
        have distinct : OneWritePerEvent
            (historyFacts ((sortPatchesCausally localeCompare (allOf history)).take startIdx)) := by
          apply Consistent.oneWritePerEvent
          exact fun a memberA b memberB => consistentWhole a (mem_append_left _ memberA) b
            (mem_append_left _ memberB)
        rw [extractNodeSnapshot_of_equiv (left.equiv distinct right)
          (left.keyed (historyFacts_addressed _)) (right.keyed (historyFacts_addressed _))]
        simp only [boundary, true_and]
      · have early : ∀ entry ∈ (sortPatchesCausally localeCompare (allOf history)).take startIdx,
            entry.patch.lamport < since := by
          intro entry mem
          have := split.1 entry mem
          omega
        simp only [boundary, false_and, not_shownFrom_early nodeId since _ _ early]
    · constructor
      · exact ShownFrom.of_represents nodeId since validWhole consistentWhole represents right
      · exact ShownFrom.of_represents nodeId since validWhole consistentWhole right represents
  · rw [shown_unused localeCompare history nodeId since snapshot s used]

end Closed

end GitWarp
