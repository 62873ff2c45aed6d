import GitWarp.Provenance.ProvenanceController
import GitWarp.State.PlainObject

/-!
# Temporal queries

`always` and `eventually` replay the patches in causal order and test a predicate on a
node after each of them. A checkpoint's state stands for all patches up to its tick, and
at its own tick it is tested once.
-/
namespace GitWarp

open Js Lib KeyCodec List

/-! ### Snapshots -/

/-- `exists` is named `alive` here. -/
structure NodeSnapshot where
  id : JsString
  alive : Bool
  props : PlainObject

/-- The value inside an inline envelope; other values pass through. -/
def unwrapValue : JsData → JsData
  | .object entries =>
    match assocGet entries (lit "type") with
    | some (.string type) =>
      if type = lit "inline" then (assocGet entries (lit "value")).getD .undefined
      else .object entries
    | _ => .object entries
  | value => value

/-- The assignments that a node's registers make to its property object. -/
def nodeEntries (s : WarpState JsData) (nodeId : JsString) : List (JsString × JsData) :=
  ((nodePropertiesFromState s).filter fun entry => entry.node = nodeId).map fun entry =>
    (entry.key, unwrapValue entry.value)

def extractNodeSnapshot (s : WarpState JsData) (nodeId : JsString) : NodeSnapshot :=
  let alive := s.nodeAlive.contains nodeId
  ⟨nodeId, alive, if alive then PlainObject.fill (nodeEntries s nodeId) else .empty⟩

/-! ### Replays -/

structure Checkpoint where
  state : WarpState JsData
  maxLamport : Nat

/-- Where a replay starts, and the tick of the checkpoint it starts from. -/
structure ReplayStart where
  state : WarpState JsData
  startIdx : Nat
  checkpointMaxLamport : Option Nat

def emptyStart : ReplayStart := ⟨.empty, 0, none⟩

/-- `_tryCheckpointStart`; where every patch is covered, `findIdx` is the length. -/
def tryCheckpointStart (ck : Option Checkpoint) (allPatches : List (PatchEntry JsData))
    (since : Int) : ReplayStart :=
  match ck with
  | none => emptyStart
  | some ck =>
    if (ck.maxLamport : Int) ≤ since then
      ⟨ck.state, allPatches.findIdx fun entry => (ck.maxLamport : Int) < entry.patch.lamport,
        some ck.maxLamport⟩
    else emptyStart

/-- What the check at the checkpoint's own tick says. -/
structure AlwaysBoundary where
  nodeEverExisted : Bool
  shouldReturn : Bool
  returnValue : Bool

section Operators

variable (nodeId : JsString) (predicate : NodeSnapshot → Bool) (since : Int)

def evaluateAlwaysCheckpointBoundary (s : WarpState JsData) (checkpointMaxLamport : Option Nat) :
    AlwaysBoundary :=
  if checkpointMaxLamport.map (fun tick : Nat => (tick : Int)) ≠ some since then ⟨false, false, false⟩
  else
    let snapshot := extractNodeSnapshot s nodeId
    if !snapshot.alive then ⟨false, false, false⟩
    else if !predicate snapshot then ⟨true, true, false⟩
    else ⟨true, false, false⟩

def evaluateEventuallyCheckpointBoundary (s : WarpState JsData)
    (checkpointMaxLamport : Option Nat) : Bool :=
  if checkpointMaxLamport.map (fun tick : Nat => (tick : Int)) ≠ some since then false
  else
    let snapshot := extractNodeSnapshot s nodeId
    snapshot.alive && predicate snapshot

/-- `_replayAlways`; `seen` tells whether the node has existed so far. -/
def replayAlways (seen : Bool) : List (PatchEntry JsData) → WarpState JsData → Except Failure Bool
  | [], _ => .ok seen
  | entry :: rest, s => do
    let next ← applyFast s entry
    if entry.patch.lamport < since then replayAlways seen rest next
    else
      let snapshot := extractNodeSnapshot next nodeId
      if snapshot.alive then
        if !predicate snapshot then .ok false else replayAlways true rest next
      else replayAlways seen rest next

/-- `_replayEventually`. -/
def replayEventually : List (PatchEntry JsData) → WarpState JsData → Except Failure Bool
  | [], _ => .ok false
  | entry :: rest, s => do
    let next ← applyFast s entry
    if entry.patch.lamport < since then replayEventually rest next
    else
      let snapshot := extractNodeSnapshot next nodeId
      if snapshot.alive && predicate snapshot then .ok true else replayEventually rest next

end Operators

/-- The patches in causal order, and the checkpoint loader where one is given. -/
structure TemporalQuery where
  allPatches : List (PatchEntry JsData)
  loadCheckpoint : Option (Option Checkpoint)

namespace TemporalQuery

/-- `_resolveStart`: a checkpoint is only asked for where `since` is positive. -/
def resolveStart (query : TemporalQuery) (since : Int) : ReplayStart :=
  match query.loadCheckpoint with
  | some ck => if 0 < since then tryCheckpointStart ck query.allPatches since else emptyStart
  | none => emptyStart

def always (query : TemporalQuery) (nodeId : JsString) (predicate : NodeSnapshot → Bool)
    (since : Int) : Except Failure Bool :=
  let start := query.resolveStart since
  let boundary := evaluateAlwaysCheckpointBoundary nodeId predicate since start.state
    start.checkpointMaxLamport
  if boundary.shouldReturn then .ok boundary.returnValue
  else replayAlways nodeId predicate since boundary.nodeEverExisted
    (query.allPatches.drop start.startIdx) start.state

def eventually (query : TemporalQuery) (nodeId : JsString) (predicate : NodeSnapshot → Bool)
    (since : Int) : Except Failure Bool :=
  let start := query.resolveStart since
  if evaluateEventuallyCheckpointBoundary nodeId predicate since start.state
      start.checkpointMaxLamport then .ok true
  else replayEventually nodeId predicate since (query.allPatches.drop start.startIdx) start.state

end TemporalQuery

/-! ### The query interface of a host -/

/-- `maxObservedLamportInState`. -/
def maxObservedLamportInState (s : WarpState JsData) : Nat :=
  s.observedFrontier.entries.values.foldl max 0

/-- The patches of one writer, split where a checkpoint ends. -/
structure WriterLog (A : Type) where
  covered : List A
  later : List A

def allOf {A : Type} (logs : List (WriterLog A)) : List A :=
  logs.flatMap fun log => log.covered ++ log.later

def coveredOf {A : Type} (logs : List (WriterLog A)) : List A := logs.flatMap WriterLog.covered

def laterOf {A : Type} (logs : List (WriterLog A)) : List A := logs.flatMap WriterLog.later

/-- `temporal` of a host that has the state of a checkpoint. -/
def temporal (localeCompare : JsString → JsString → Int)
    (logs : List (WriterLog (PatchEntry JsData))) (loaded : Option (WarpState JsData)) :
    TemporalQuery where
  allPatches := sortPatchesCausally localeCompare (allOf logs)
  loadCheckpoint := some (loaded.map fun s => ⟨s, maxObservedLamportInState s⟩)

/-! ### What a replay is shown -/

/-- The snapshots of an existing node that a replay from `s` takes. -/
def ShownFrom (nodeId : JsString) (since : Int) (entries : List (PatchEntry JsData))
    (s : WarpState JsData) (snapshot : NodeSnapshot) : Prop :=
  ∃ before entry after t, entries = before ++ entry :: after ∧ since ≤ entry.patch.lamport ∧
    reducePatches (before ++ [entry]) s = .ok t ∧
    extractNodeSnapshot t nodeId = snapshot ∧ snapshot.alive = true

/-- The snapshots a query is shown: the checkpoint's, at its own tick, and the replay's. -/
def TemporalQuery.Shown (query : TemporalQuery) (nodeId : JsString) (since : Int)
    (snapshot : NodeSnapshot) : Prop :=
  let start := query.resolveStart since
  (start.checkpointMaxLamport.map (fun tick : Nat => (tick : Int)) = some since ∧
      extractNodeSnapshot start.state nodeId = snapshot ∧ snapshot.alive = true) ∨
    ShownFrom nodeId since (query.allPatches.drop start.startIdx) start.state snapshot

section Replays

variable (nodeId : JsString) (predicate : NodeSnapshot → Bool) (since : Int)

theorem not_shownFrom_nil (s snapshot) : ¬ ShownFrom nodeId since [] s snapshot := by
  rintro ⟨before, entry, after, t, split, -⟩
  exact absurd split.symm (append_ne_nil_of_right_ne_nil before (cons_ne_nil _ _))

/-- The first patch is shown or skipped; the others are shown from the next state. -/
theorem shownFrom_cons_iff {next} (applied : applyFast s entry = .ok next) (snapshot) :
    ShownFrom nodeId since (entry :: rest) s snapshot ↔
      (since ≤ entry.patch.lamport ∧ extractNodeSnapshot next nodeId = snapshot ∧
        snapshot.alive = true) ∨ ShownFrom nodeId since rest next snapshot := by
  constructor
  · rintro ⟨before, shown, after, t, split, late, reduced, found, alive⟩
    cases before with
    | nil =>
      obtain ⟨rfl, -⟩ := split
      simp only [nil_append, reducePatches, applied, bind, Except.bind, Except.ok.injEq] at reduced
      subst reduced
      exact Or.inl ⟨late, found, alive⟩
    | cons head before =>
      rw [cons_append, List.cons.injEq] at split
      obtain ⟨rfl, split⟩ := split
      simp only [cons_append, reducePatches, applied, bind, Except.bind] at reduced
      exact Or.inr ⟨before, shown, after, t, split, late, reduced, found, alive⟩
  · rintro (⟨late, found, alive⟩ | ⟨before, shown, after, t, split, late, reduced, found, alive⟩)
    · exact ⟨[], entry, rest, next, rfl, late, by simp [reducePatches, applied, bind, Except.bind],
        found, alive⟩
    · exact ⟨entry :: before, shown, after, t, by rw [split, cons_append], late,
        by simp only [cons_append, reducePatches, applied, bind, Except.bind]; exact reduced,
        found, alive⟩

theorem exists_passing_iff (here) (Later : NodeSnapshot → Prop) :
    (∃ snapshot, ((here = snapshot ∧ snapshot.alive = true) ∨ Later snapshot) ∧
      predicate snapshot = true) ↔
      (here.alive && predicate here) = true ∨
        ∃ snapshot, Later snapshot ∧ predicate snapshot = true := by
  simp only [or_and_right, exists_or, and_assoc, exists_eq_left', Bool.and_eq_true]

theorem exists_shown_iff (here) (Later : NodeSnapshot → Prop) :
    (∃ snapshot, (here = snapshot ∧ snapshot.alive = true) ∨ Later snapshot) ↔
      here.alive = true ∨ ∃ snapshot, Later snapshot := by
  simp only [exists_or, exists_eq_left']

theorem all_passing_iff (here) (Later : NodeSnapshot → Prop) :
    (∀ snapshot, (here = snapshot ∧ snapshot.alive = true) ∨ Later snapshot →
      predicate snapshot = true) ↔
      (here.alive = true → predicate here = true) ∧
        ∀ snapshot, Later snapshot → predicate snapshot = true := by
  simp only [or_imp, forall_and, and_imp, forall_eq']

theorem replayEventually_iff (s) (valid : ∀ entry ∈ entries, entry.WellFormed) :
    ∃ answer, replayEventually nodeId predicate since entries s = .ok answer ∧
      (answer = true ↔ ∃ snapshot, ShownFrom nodeId since entries s snapshot ∧
        predicate snapshot = true) := by
  -- `eventually` asks for one shown snapshot that passes
  induction entries generalizing s with
  | nil =>
    refine ⟨false, rfl, ?_⟩
    simp [not_shownFrom_nil]
  | cons entry rest ih =>
    obtain ⟨effect, known⟩ := (valid entry mem_cons_self).effect_ok
    have applied := applyFast_ok known s
    obtain ⟨later, replayed, means⟩ := ih (effect.apply s) (forall_mem_cons.mp valid).2
    simp only [replayEventually, applied, bind, Except.bind,
      shownFrom_cons_iff nodeId since applied]
    by_cases early : entry.patch.lamport < since
    · -- a patch below the threshold is applied and not shown
      have skipped : ¬ since ≤ entry.patch.lamport := by omega
      refine ⟨later, by rw [if_pos early, replayed], ?_⟩
      simp only [skipped, false_and, false_or, means]
    · have late : since ≤ entry.patch.lamport := by omega
      simp only [if_neg early, late, true_and, exists_passing_iff]
      split
      next passes => exact ⟨true, rfl, by simp only [passes, true_or]⟩
      next fails => exact ⟨later, replayed, by rw [means, or_iff_right fails]⟩

theorem replayAlways_iff (seen) (entries s) (valid : ∀ entry ∈ entries, entry.WellFormed) :
    ∃ answer, replayAlways nodeId predicate since seen entries s = .ok answer ∧
      (answer = true ↔ (seen = true ∨ ∃ snapshot, ShownFrom nodeId since entries s snapshot) ∧
        ∀ snapshot, ShownFrom nodeId since entries s snapshot → predicate snapshot = true) := by
  -- `always` asks that a snapshot is shown, now or earlier, and that each shown one passes
  induction entries generalizing s seen with
  | nil =>
    refine ⟨seen, rfl, ?_⟩
    simp [not_shownFrom_nil]
  | cons entry rest ih =>
    obtain ⟨effect, known⟩ := (valid entry mem_cons_self).effect_ok
    have applied := applyFast_ok known s
    have replays := fun seen => ih seen (effect.apply s) (forall_mem_cons.mp valid).2
    simp only [replayAlways, applied, bind, Except.bind, shownFrom_cons_iff nodeId since applied]
    by_cases early : entry.patch.lamport < since
    · obtain ⟨later, replayed, means⟩ := replays seen
      have skipped : ¬ since ≤ entry.patch.lamport := by omega
      refine ⟨later, by rw [if_pos early, replayed], ?_⟩
      simp only [skipped, false_and, false_or, means]
    · have late : since ≤ entry.patch.lamport := by omega
      simp only [if_neg early, late, true_and, exists_shown_iff, all_passing_iff]
      cases (extractNodeSnapshot (effect.apply s) nodeId).alive with
      | false =>
        -- the node does not exist here, so nothing is shown
        obtain ⟨later, replayed, means⟩ := replays seen
        exact ⟨later, by simpa using replayed, by simp [means]⟩
      | true =>
        obtain ⟨later, replayed, means⟩ := replays true
        cases predicate (extractNodeSnapshot (effect.apply s) nodeId) with
        | false => exact ⟨false, by simp, by simp⟩
        | true => exact ⟨later, by simpa using replayed, by simp [means]⟩

end Replays

namespace TemporalQuery

variable (query : TemporalQuery) (valid : ∀ entry ∈ query.allPatches, entry.WellFormed)
  (nodeId : JsString) (predicate : NodeSnapshot → Bool) (since : Int)

include valid

theorem eventually_iff : ∃ answer, query.eventually nodeId predicate since = .ok answer ∧
    (answer = true ↔ ∃ snapshot, query.Shown nodeId since snapshot ∧
      predicate snapshot = true) := by
  obtain ⟨later, replayed, means⟩ := replayEventually_iff nodeId predicate since (query.resolveStart since).state
    fun entry mem => valid entry (mem_of_mem_drop mem)
  simp only [eventually, Shown, evaluateEventuallyCheckpointBoundary]
  by_cases boundary : (query.resolveStart since).checkpointMaxLamport.map
      (fun tick : Nat => (tick : Int)) = some since
  · simp only [boundary, ne_eq, not_true_eq_false, if_false, true_and, exists_passing_iff]
    split
    next passes => exact ⟨true, rfl, by simp only [passes, true_or]⟩
    next fails => exact ⟨later, replayed, by rw [means, or_iff_right fails]⟩
  · simp only [boundary, ne_eq, not_false_eq_true, if_true, false_and, false_or]
    exact ⟨later, replayed, means⟩

theorem always_iff : ∃ answer, query.always nodeId predicate since = .ok answer ∧
    (answer = true ↔ (∃ snapshot, query.Shown nodeId since snapshot) ∧
      ∀ snapshot, query.Shown nodeId since snapshot → predicate snapshot = true) := by
  have replays := fun seen => replayAlways_iff nodeId predicate since seen
    (query.allPatches.drop (query.resolveStart since).startIdx) (query.resolveStart since).state
    fun entry mem => valid entry (mem_of_mem_drop mem)
  simp only [always, Shown, evaluateAlwaysCheckpointBoundary]
  by_cases boundary : (query.resolveStart since).checkpointMaxLamport.map
      (fun tick : Nat => (tick : Int)) = some since
  · simp only [boundary, ne_eq, not_true_eq_false, if_false, true_and, exists_shown_iff,
      all_passing_iff]
    cases (extractNodeSnapshot (query.resolveStart since).state nodeId).alive with
    | false =>
      obtain ⟨later, replayed, means⟩ := replays false
      exact ⟨later, by simpa using replayed, by simp [means]⟩
    | true =>
      obtain ⟨later, replayed, means⟩ := replays true
      cases predicate (extractNodeSnapshot (query.resolveStart since).state nodeId) with
      | false => exact ⟨false, by simp, by simp⟩
      | true => exact ⟨later, by simpa using replayed, by simp [means]⟩
  · obtain ⟨later, replayed, means⟩ := replays false
    simp only [boundary, ne_eq, not_false_eq_true, if_true, false_and, false_or]
    exact ⟨later, by simpa using replayed, by simpa using means⟩

end TemporalQuery

end GitWarp
