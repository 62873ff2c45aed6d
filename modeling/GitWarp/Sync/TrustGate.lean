import GitWarp.Sync.Applying

/-!
# The sync trust gate

Before a response is applied, the gate asks a trust evaluator about the writers
of its entries. It takes those writers from the entries' own labels; the reducer
reads the writer inside each patch. The gate therefore speaks for a patch
exactly when the writer inside it is also the label of some entry.
-/
namespace GitWarp

open Js Lib List

variable {V : Type}

/-! ### The gate -/

inductive TrustMode
  | enforce | logOnly | off
  deriving DecidableEq

/-- `evaluateWriters`: the trusted writers, as far as the evaluation does not fail. -/
abbrev TrustEvaluator := List JsString → Except Failure (List JsString)

structure TrustGateResult where
  allowed : Bool
  untrustedWriters : List JsString
  verdict : JsString
  deriving DecidableEq

structure SyncTrustGate where
  evaluator : Option TrustEvaluator
  mode : TrustMode

namespace SyncTrustGate

/-- `_decide`. -/
def decideUntrusted (gate : SyncTrustGate) (untrusted : List JsString) : TrustGateResult :=
  if untrusted = [] then ⟨true, [], lit "pass"⟩
  else if gate.mode = .enforce then ⟨false, untrusted, lit "rejected"⟩
  else ⟨true, untrusted, lit "warn_allowed"⟩

/-- `_handleError`. -/
def handleError (gate : SyncTrustGate) (writerIds : List JsString) : TrustGateResult :=
  if gate.mode = .enforce then ⟨false, writerIds, lit "error_rejected"⟩
  else ⟨true, [], lit "error_allowed"⟩

def evaluate (gate : SyncTrustGate) (writerIds : List JsString) : TrustGateResult :=
  match gate.mode, gate.evaluator with
  | .off, _ => ⟨true, [], lit "trust_disabled"⟩
  | _, none => ⟨true, [], lit "trust_disabled"⟩
  | _, some evaluateWriters =>
    if writerIds = [] then ⟨true, [], lit "no_writers"⟩
    else
      match evaluateWriters writerIds with
      | .ok trusted => gate.decideUntrusted (writerIds.filter fun id => !trusted.contains id)
      | .error _ => gate.handleError writerIds

/-- The labels of the entries; an empty label is left out. -/
def extractWritersFromPatches (patches : List (SyncPatchEntry V)) : List JsString :=
  (patches.foldl (fun writers item =>
    if item.writerId = [] then writers else writers.add item.writerId) OrdSet.empty).toList

end SyncTrustGate

open SyncTrustGate

/-! ### Applying a response through the gate -/

/-- `_evaluateWriters`. -/
def evaluateWriters (patches : List (SyncPatchEntry V)) (trustGate : Option SyncTrustGate) :
    Except Failure (List JsString) :=
  let writersApplied := extractWritersFromPatches patches
  match trustGate with
  | none => .ok writersApplied
  | some gate =>
    if writersApplied = [] ∨ (gate.evaluate writersApplied).allowed = true then .ok writersApplied
    else .error ⟨.syncError, lit "E_SYNC_UNTRUSTED_WRITER",
      lit "Sync rejected: untrusted writer(s)"⟩

structure GatedSyncResult (V : Type) where
  result : ApplySyncResult V
  writersApplied : List JsString
  skippedWriters : List SkippedWriterEntry

/-- `_applySyncResponseWithGate`, before the host caches the result. -/
def applySyncResponseWithGate (response : SyncResponse V) (trustGate : Option SyncTrustGate)
    (cachedState : Option (WarpState V)) (lastFrontier : Option Frontier) :
    Except Failure (GatedSyncResult V) :=
  match cachedState with
  | none => .error ⟨.queryError, lit "E_NO_STATE",
      lit "No live reading basis is available for this operation. Open a worldline with " ++
        lit "graph.query.worldline(), choose a pinned coordinate, or use a checkpoint-backed " ++
        lit "reading before requesting this operation. See docs/READINGS_AND_OPTICS.md."⟩
  | some state => do
    let writersApplied ← evaluateWriters response.patches trustGate
    let result ← applySyncResponse response state (lastFrontier.getD .empty)
    pure ⟨result, writersApplied, response.skippedWriters⟩

/-! ### What the gate has judged -/

/-- The evaluator was asked about the writer, with the others of the response, and trusts it. -/
def SyncTrustGate.Judged (gate : SyncTrustGate) (response : SyncResponse V) (writer : JsString) :
    Prop :=
  ∃ ask trusted, gate.evaluator = some ask ∧
    ask (extractWritersFromPatches response.patches) = .ok trusted ∧
    writer ∈ extractWritersFromPatches response.patches ∧ writer ∈ trusted

theorem mem_extractWriters_iff {patches : List (SyncPatchEntry V)} :
    w ∈ extractWritersFromPatches patches ↔ w ≠ [] ∧ ∃ item ∈ patches, item.writerId = w := by
  -- over the loop, with what the set already holds
  have loop : ∀ start : OrdSet JsString,
      w ∈ patches.foldl (fun writers item =>
        if item.writerId = [] then writers else writers.add item.writerId) start ↔
        w ∈ start ∨ w ≠ [] ∧ ∃ item ∈ patches, item.writerId = w := by
    induction patches with
    | nil => simp
    | cons item rest ih =>
      intro start
      rw [foldl_cons, ih]
      by_cases unnamed : item.writerId = []
      · rw [if_pos unnamed]
        grind
      · rw [if_neg unnamed, OrdSet.mem_add]
        grind
  rw [extractWritersFromPatches, OrdSet.mem_toList, loop OrdSet.empty]
  simp

theorem evaluate_enforce_allowed {gate : SyncTrustGate} (enforced : gate.mode = .enforce)
    (present : gate.evaluator = some ask) (writerIds) (asked : writerIds ≠ [])
    (allowed : (gate.evaluate writerIds).allowed = true) :
    ∃ trusted, ask writerIds = .ok trusted ∧ ∀ w ∈ writerIds, w ∈ trusted := by
  simp only [evaluate, enforced, present, asked, if_false] at allowed
  cases answer : ask writerIds with
  | error e => simp [answer, handleError, enforced] at allowed
  | ok trusted =>
    simp only [answer, decideUntrusted, enforced] at allowed
    split at allowed
    next none_left =>
      simp only [filter_eq_nil_iff, Bool.not_eq_true', Bool.not_eq_false,
        contains_iff_mem] at none_left
      exact ⟨trusted, rfl, none_left⟩
    · simp at allowed

/-! ### Applied patches name their writers -/

theorem applySyncPatch_named {next} {entry : PatchEntry V}
    (applied : applySyncPatch state entry = .ok next) : entry.patch.writer ≠ [] := by
  intro unnamed
  simp only [applySyncPatch, bind_eq_ok] at applied
  obtain ⟨patch, normalized, -⟩ := applied
  simp [normalizePatch, bind_eq_ok, unnamed] at normalized

theorem applyWriterPatches_named (state next)
    (applied : applyWriterPatches entries state = .ok next) :
    ∀ entry ∈ entries, entry.patch.writer ≠ [] := by
  induction entries generalizing state with
  | nil => simp
  | cons entry rest ih =>
    simp only [applyWriterPatches, bind_eq_ok] at applied
    obtain ⟨middle, first, others⟩ := applied
    intro other mem
    rcases mem_cons.mp mem with rfl | later
    · exact applySyncPatch_named first
    · exact ih middle others other later

theorem applyGroups_named (groups) (start result : ApplySyncResult V)
    (applied : applyGroups groups start = .ok result) :
    ∀ entry ∈ groups.flatMap Prod.snd, entry.patch.writer ≠ [] := by
  induction groups generalizing start with
  | nil => simp
  | cons group rest ih =>
    obtain ⟨writerId, entries⟩ := group
    simp only [applyGroups, bind_eq_ok] at applied
    obtain ⟨middle, first, others⟩ := applied
    intro entry mem
    rcases mem_append.mp (flatMap_cons ▸ mem) with own | later
    · exact applyWriterPatches_named start.state middle first entry own
    · exact ih _ others entry later

theorem applySyncResponse_named (frontier) {result : ApplySyncResult V}
    (applied : applySyncResponse response state frontier = .ok result) :
    ∀ item ∈ response.patches, item.entry.patch.writer ≠ [] := by
  intro item mem
  apply applyGroups_named _ _ result applied item.entry
  rw [mem_groups]
  exact mem_map_of_mem mem

/-! ### The writers of applied patches -/

/-- In a response that an enforcing gate let through, the writers inside the patches have all
been judged trusted exactly when each of them labels some entry too. -/
theorem gate_covers_applied_iff (gate : SyncTrustGate) (enforced : gate.mode = .enforce)
    (response : SyncResponse V) (cachedState : Option (WarpState V))
    (lastFrontier : Option Frontier) (applied : GatedSyncResult V)
    (accepted : applySyncResponseWithGate response (some gate) cachedState lastFrontier =
      .ok applied) :
    (∀ item ∈ response.patches, gate.Judged response item.entry.patch.writer) ↔
      ∀ item ∈ response.patches, gate.evaluator.isSome = true ∧
        ∃ other ∈ response.patches, other.writerId = item.entry.patch.writer := by
  cases cachedState with
  | none => simp [applySyncResponseWithGate] at accepted
  | some state =>
    simp only [applySyncResponseWithGate, bind_eq_ok] at accepted
    obtain ⟨writersApplied, gated, result, reduced, -⟩ := accepted
    have named := applySyncResponse_named _ reduced
    constructor
    · intro judged item member
      obtain ⟨ask, trusted, present, -, asked, -⟩ := judged item member
      exact ⟨by rw [present]; rfl, (mem_extractWriters_iff.mp asked).2⟩
    · intro labelled item member
      obtain ⟨present, other, listed, same⟩ := labelled item member
      obtain ⟨ask, installed⟩ := Option.isSome_iff_exists.mp present
      have asked : item.entry.patch.writer ∈ extractWritersFromPatches response.patches :=
        mem_extractWriters_iff.mpr ⟨named item member, other, listed, same⟩
      -- somebody was asked about, so the gate has run and has not rejected
      have some_asked := ne_nil_of_mem asked
      have allowed : (gate.evaluate (extractWritersFromPatches response.patches)).allowed = true := by
        simp only [evaluateWriters, some_asked, false_or] at gated
        split at gated
        next passed => exact passed
        · cases gated
      obtain ⟨trusted, answer, all_trusted⟩ :=
        evaluate_enforce_allowed enforced installed _ some_asked allowed
      exact ⟨ask, trusted, installed, answer, asked, all_trusted _ asked⟩

def aliceGate : SyncTrustGate := ⟨some fun _ => .ok [lit "alice"], .enforce⟩

/-- A response of one patch: its label, and the writer inside it. -/
def labelledResponse (label inner : JsString) : SyncResponse Nat :=
  ⟨.empty, [⟨label, ⟨⟨inner, 1, [], .absent⟩, lit "abcd"⟩⟩], [], none, false⟩

theorem gate_covers_applied_sample :
    (∀ item ∈ (labelledResponse (lit "alice") (lit "alice")).patches,
      aliceGate.Judged (labelledResponse (lit "alice") (lit "alice")) item.entry.patch.writer) ↔
    ∀ item ∈ (labelledResponse (lit "alice") (lit "alice")).patches,
      aliceGate.evaluator.isSome = true ∧
        ∃ other ∈ (labelledResponse (lit "alice") (lit "alice")).patches,
          other.writerId = item.entry.patch.writer :=
  gate_covers_applied_iff aliceGate rfl _ (some .empty) none _ rfl

/-- A patch of another writer passes under a trusted label. -/
theorem gate_misses_inner_writer :
    (∃ applied, applySyncResponseWithGate (labelledResponse (lit "alice") (lit "mallory"))
      (some aliceGate) (some .empty) none = .ok applied ∧ applied.result.applied = 1) ∧
    ¬ ∀ item ∈ (labelledResponse (lit "alice") (lit "mallory")).patches,
      aliceGate.Judged (labelledResponse (lit "alice") (lit "mallory"))
        item.entry.patch.writer := by
  constructor
  · exact ⟨_, rfl, rfl⟩
  · intro covered
    obtain ⟨ask, trusted, -, -, asked, -⟩ := covered _ mem_cons_self
    exact absurd asked (by decide)

end GitWarp
