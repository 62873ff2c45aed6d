import GitWarp.History.CommitStore
import GitWarp.Reducer.GarbageCollection

/-!
# Coordinates and resumed materialization

A coordinate names the patches behind the tips of a frontier, up to an optional
lamport ceiling. From a base without a ceiling the suffix of each writer starts
after its base tip; with one it is every patch above the ceiling. A patch at or
below the ceiling that the base does not reach is in neither part.
-/
namespace GitWarp

open Js Lib List

variable {V : Type}

structure Coordinate where
  frontier : OrdMap JsString JsString
  ceiling : Option Nat

def patchWithinCeiling (ceiling : Option Nat) (entry : PatchEntry V) : Bool :=
  match ceiling with
  | none => true
  | some ceiling => decide (entry.patch.lamport ≤ ceiling)

def patchAfterBaseCeiling (ceiling : Option Nat) (entry : PatchEntry V) : Bool :=
  match ceiling with
  | none => true
  | some ceiling => decide (entry.patch.lamport > ceiling)

def patchInCoordinateSuffix (ceiling baseCeiling : Option Nat) (entry : PatchEntry V) : Bool :=
  patchWithinCeiling ceiling entry && patchAfterBaseCeiling baseCeiling entry

/-- A base with a ceiling gives no sha to stop at. -/
def coordinateStopAtSha (writerId : JsString) (base : Coordinate) : Option JsString :=
  match base.ceiling with
  | some _ => none
  | none =>
    match base.frontier.get writerId with
    | some baseTipSha => if baseTipSha = [] then none else some baseTipSha
    | none => none

def ceilingPrecedes (candidate target : Option Nat) : Bool :=
  match target with
  | none => true
  | some target =>
    match candidate with
    | none => false
    | some candidate => decide (candidate ≤ target)

variable (store : CommitStore V)

namespace CommitStore

/-- The patches of a coordinate, writer by writer. -/
def streamForFrontier (store : CommitStore V) (c : Coordinate) : List (PatchEntry V) :=
  c.frontier.entries.flatMap fun entry =>
    (store.loadPatchChainFromSha entry.2 none).filter (patchWithinCeiling c.ceiling)

def streamWriterCoordinateSuffix (store : CommitStore V) (writerId tipSha : JsString)
    (ceiling : Option Nat) (base : Coordinate) : List (PatchEntry V) :=
  (store.loadPatchChainFromSha tipSha (coordinateStopAtSha writerId base)).filter
    (patchInCoordinateSuffix ceiling base.ceiling)

/-- The patches to apply on top of a base. -/
def streamForFrontierSinceCoordinate (store : CommitStore V) (target base : Coordinate) :
    List (PatchEntry V) :=
  target.frontier.entries.flatMap fun entry =>
    store.streamWriterCoordinateSuffix entry.1 entry.2 target.ceiling base

def frontierEntryPrecedes (store : CommitStore V) (targetFrontier : OrdMap JsString JsString)
    (writerId candidateTip : JsString) : Bool :=
  match targetFrontier.get writerId with
  | none => false
  | some targetTip =>
    decide (candidateTip = targetTip) || store.isAncestor candidateTip targetTip

/-- The test by which a stored coordinate is taken as a predecessor. -/
def coordinatePrecedes (store : CommitStore V) (candidate target : Coordinate) : Bool :=
  ceilingPrecedes candidate.ceiling target.ceiling &&
    candidate.frontier.entries.all fun entry =>
      store.frontierEntryPrecedes target.frontier entry.1 entry.2

/-- The patches of the target at or below the ceiling of the base that the base frontier
does not reach. -/
def betweenFilters (store : CommitStore V) (target base : Coordinate) : List (PatchEntry V) :=
  (store.streamForFrontier target).filter fun entry =>
    !patchAfterBaseCeiling base.ceiling entry &&
      !((store.streamForFrontier { base with ceiling := none }).map PatchEntry.sha).contains entry.sha

/-! ### Members of the streams -/

theorem mem_streamForFrontier :
    entry ∈ store.streamForFrontier c ↔
      (∃ w tip, c.frontier.get w = some tip ∧ entry ∈ store.chain tip) ∧
        patchWithinCeiling c.ceiling entry = true := by
  simp only [streamForFrontier, mem_flatMap, mem_filter, Prod.exists, OrdMap.mem_entries_iff]
  constructor
  · rintro ⟨w, tip, found, member, within⟩
    exact ⟨⟨w, tip, found, member⟩, within⟩
  · rintro ⟨⟨w, tip, found, member⟩, within⟩
    exact ⟨w, tip, found, member, within⟩

theorem mem_suffix :
    entry ∈ store.streamForFrontierSinceCoordinate target base ↔
      ∃ w tip, target.frontier.get w = some tip ∧
        entry ∈ store.loadPatchChainFromSha tip (coordinateStopAtSha w base) ∧
        patchWithinCeiling target.ceiling entry = true ∧
        patchAfterBaseCeiling base.ceiling entry = true := by
  simp only [streamForFrontierSinceCoordinate, streamWriterCoordinateSuffix, mem_flatMap,
    mem_filter, Prod.exists, OrdMap.mem_entries_iff, patchInCoordinateSuffix,
    Bool.and_eq_true]

theorem consistent_streams (target) : Consistent (store.streamForFrontier target) := by
  intro a left b right same
  obtain ⟨⟨w, tip, -, inA⟩, -⟩ := store.mem_streamForFrontier.mp left
  obtain ⟨⟨w', tip', -, inB⟩, -⟩ := store.mem_streamForFrontier.mp right
  exact store.eq_of_sha inA inB same

theorem Valid.stream {store : CommitStore V} (valid : store.Valid) (entry)
    (mem : entry ∈ store.streamForFrontier target) : entry.WellFormed := by
  obtain ⟨⟨w, tip, -, inside⟩, -⟩ := store.mem_streamForFrontier.mp mem
  exact valid.load inside

/-! ### An accepted base -/

theorem precedes_tip (accepted : store.coordinatePrecedes base target = true)
    (found : base.frontier.get w = some baseTip) :
    ∃ tip, target.frontier.get w = some tip ∧
      (baseTip = tip ∨ store.isAncestor baseTip tip = true) := by
  simp only [coordinatePrecedes, Bool.and_eq_true, all_eq_true] at accepted
  have precedes := accepted.2 (w, baseTip) ((base.frontier.mem_entries_iff _).mpr found)
  unfold frontierEntryPrecedes at precedes
  split at precedes
  · cases precedes
  next tip here =>
    simp only [Bool.or_eq_true, decide_eq_true_eq] at precedes
    exact ⟨tip, here, precedes⟩

theorem withinCeiling_of_precedes {entry : PatchEntry V}
    (precedes : ceilingPrecedes base target = true) (within : patchWithinCeiling base entry = true) :
    patchWithinCeiling target entry = true := by
  cases target with
  | none => rfl
  | some high =>
    cases base with
    | none => cases precedes
    | some low =>
      simp only [ceilingPrecedes, patchWithinCeiling, decide_eq_true_eq] at *
      omega

section

variable (accepted : store.coordinatePrecedes base target = true)
include accepted

theorem stream_subset_of_precedes (mem : entry ∈ store.streamForFrontier base) :
    entry ∈ store.streamForFrontier target := by
  obtain ⟨⟨w, baseTip, found, inside⟩, within⟩ := store.mem_streamForFrontier.mp mem
  obtain ⟨tip, here, behind⟩ := store.precedes_tip accepted found
  have lower : ceilingPrecedes base.ceiling target.ceiling = true := by
    simp only [coordinatePrecedes, Bool.and_eq_true] at accepted
    exact accepted.1
  rw [mem_streamForFrontier]
  exact ⟨⟨w, tip, here, store.chain_subset_of_isAncestor behind inside⟩,
    withinCeiling_of_precedes lower within⟩

/-- Without a ceiling the base and the suffix meet at each base tip. -/
theorem mem_base_or_suffix (open_ : base.ceiling = none)
    (mem : entry ∈ store.streamForFrontier target) :
    entry ∈ store.streamForFrontier base ∨
      entry ∈ store.streamForFrontierSinceCoordinate target base := by
  obtain ⟨⟨w, tip, here, inside⟩, within⟩ := store.mem_streamForFrontier.mp mem
  have suffix : entry ∈ store.loadPatchChainFromSha tip (coordinateStopAtSha w base) →
      entry ∈ store.streamForFrontierSinceCoordinate target base := by
    intro later
    rw [mem_suffix]
    exact ⟨w, tip, here, later, within, by simp [patchAfterBaseCeiling, open_]⟩
  cases found : base.frontier.get w with
  | none =>
    right
    apply suffix
    simpa [coordinateStopAtSha, open_, found, chain] using inside
  | some baseTip =>
    obtain ⟨tip', here', behind⟩ := store.precedes_tip accepted found
    rw [here, Option.some.injEq] at here'
    subst here'
    have inBase : entry ∈ store.chain baseTip → entry ∈ store.streamForFrontier base := by
      intro before
      rw [mem_streamForFrontier]
      exact ⟨⟨w, baseTip, found, before⟩, by simp [patchWithinCeiling, open_]⟩
    by_cases same : baseTip = tip
    · exact Or.inl (inBase (same ▸ inside))
    · have strict := behind.resolve_left same
      have named : baseTip ≠ [] := by
        rintro rfl
        simp [isAncestor] at strict
      have stop : coordinateStopAtSha w base = some baseTip := by
        simp [coordinateStopAtSha, open_, found, named]
      rw [store.chain_split named (store.mem_chain_of_isAncestor same strict), mem_append] at inside
      rcases inside with before | later
      · exact Or.inl (inBase before)
      · exact Or.inr (suffix (stop ▸ later))

/-- The patches of the target are those of the base, those of the suffix, and those that
fall between the two filters. -/
theorem mem_target_iff (entry) :
    entry ∈ store.streamForFrontier target ↔
      entry ∈ store.streamForFrontier base ++ store.streamForFrontierSinceCoordinate target base ∨
        entry ∈ store.betweenFilters target base := by
  rw [mem_append]
  constructor
  · intro mem
    cases ceiling : base.ceiling with
    | none => exact Or.inl (store.mem_base_or_suffix accepted ceiling mem)
    | some low =>
      obtain ⟨⟨w, tip, here, inside⟩, within⟩ := store.mem_streamForFrontier.mp mem
      by_cases above : patchAfterBaseCeiling base.ceiling entry = true
      · -- above the ceiling: the whole chain is read again
        refine Or.inl (Or.inr (store.mem_suffix.mpr ⟨w, tip, here, ?_, within, above⟩))
        simpa [coordinateStopAtSha, ceiling, chain] using inside
      · by_cases reached : entry.sha ∈
            (store.streamForFrontier { base with ceiling := none }).map PatchEntry.sha
        · -- at or below it and behind a base tip: part of the base
          left
          left
          obtain ⟨other, listed, same⟩ := mem_map.mp reached
          obtain ⟨⟨w', baseTip, found, before⟩, -⟩ := store.mem_streamForFrontier.mp listed
          have one : other = entry := store.eq_of_sha before inside same
          rw [mem_streamForFrontier]
          refine ⟨⟨w', baseTip, found, one ▸ before⟩, ?_⟩
          simpa [ceiling, patchAfterBaseCeiling, patchWithinCeiling] using above
        · right
          simp only [betweenFilters, mem_filter, Bool.and_eq_true, Bool.not_eq_true',
            contains_eq_mem, decide_eq_false_iff_not]
          exact ⟨mem, Bool.eq_false_of_not_eq_true above, reached⟩
  · rintro ((inBase | later) | lost)
    · exact store.stream_subset_of_precedes accepted inBase
    · obtain ⟨w, tip, here, inside, within, -⟩ := store.mem_suffix.mp later
      rw [mem_streamForFrontier]
      exact ⟨⟨w, tip, here, store.load_subset_chain inside⟩, within⟩
    · exact (mem_filter.mp lost).1

end

/-! ### Resuming and replaying -/

/-- The patch of a writer that adds one node at lamport one. -/
def firstPatch (writer node : String) : PatchLike Nat :=
  ⟨lit writer, 1, [.decoded { OpLike.bare (lit "NodeAdd") 0 with
    node := some (lit node), dot := some (.raw ⟨some (lit writer), some (.int 1)⟩) }], .absent⟩

/-- Writers `a` and `b` have one commit each, at the same lamport. -/
def twoRoots : CommitStore Nat where
  commits := [(lit "bbbb", ⟨none, firstPatch "b" "y"⟩), (lit "aaaa", ⟨none, firstPatch "a" "x"⟩)]
  nodup := by decide
  closed := by simp [ParentsStored]

/-- Writer `a` alone, up to a ceiling. -/
def onlyA (ceiling : Option Nat) : Coordinate := ⟨.ofList [(lit "a", lit "aaaa")], ceiling⟩

def bothWriters : Coordinate := ⟨.ofList [(lit "a", lit "aaaa"), (lit "b", lit "bbbb")], none⟩

theorem twoRoots_valid : twoRoots.Valid := by
  intro commit mem
  simp only [twoRoots, mem_cons, not_mem_nil, or_false] at mem
  rcases mem with rfl | rfl
  · exact ⟨by decide, by
      simp only [firstPatch, mem_singleton, forall_eq]
      exact ⟨_, rfl⟩, by decide, by decide, by decide, ⟨_, rfl⟩⟩
  · exact ⟨by decide, by
      simp only [firstPatch, mem_singleton, forall_eq]
      exact ⟨_, rfl⟩, by decide, by decide, by decide, ⟨_, rfl⟩⟩

end CommitStore
end GitWarp
