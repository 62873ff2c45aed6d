import GitWarp.Reducer.Addressing
import GitWarp.Reducer.NetDiff

/-!
# Receipts

A receipt says of every operation of a patch whether it was applied, lost against
another write, or had no effect. The outcome is computed before the operation
mutates the state, by code of its own. A removal is judged by the live elements
that it finds and an edge addition by its dot alone, so what an operation reported
as redundant leaves alone depends on the dots that the state has seen.
-/
namespace GitWarp

open Js Lib KeyCodec List

variable {V : Type}

/-! ### Outcomes -/

inductive OpOutcomeResult
  | applied (target : JsString)
  | superseded (target : JsString) (winner : EventId)
  | redundant (target : JsString)
  deriving DecidableEq

namespace OpOutcomeResult

def target : OpOutcomeResult → JsString
  | .applied target | .superseded target _ | .redundant target => target

def result : OpOutcomeResult → JsString
  | .applied _ => lit "applied"
  | .superseded _ _ => lit "superseded"
  | .redundant _ => lit "redundant"

/-- Only a superseded write comes with a reason. -/
def reason : OpOutcomeResult → Option JsString
  | .superseded _ winner =>
    some (lit "LWW: writer " ++ winner.writerId ++ lit " at lamport " ++
      numberText winner.lamport ++ lit " wins")
  | _ => none

end OpOutcomeResult

namespace ReceiptBuilder

/-- Some target dot is known to the walk and not yet tombstoned. -/
def hasEffectiveRemoval (orset : ORSet) (targetDots : OrdSet JsString) : Bool :=
  let dotToElement := DiffCalculator.buildDotToElement orset targetDots
  targetDots.toList.any fun d => !orset.isTombstoned d && (dotToElement.get d).isSome

/-- `nodeAddOutcome` and `edgeAddOutcome`. -/
def addOutcome (orset : ORSet) (element : JsString) (dot : Dot) : OpOutcomeResult :=
  if orset.hasDot element dot.encode then .redundant element else .applied element

/-- `nodeRemoveOutcome` and `edgeRemoveOutcome`. -/
def removeOutcome (orset : ORSet) (target : JsString) (observedDots : List JsString) :
    OpOutcomeResult :=
  if hasEffectiveRemoval orset (OrdSet.ofList observedDots) then .applied target
  else .redundant target

def orWildcard (named : Bool) (target : JsString) : JsString := if named then target else lit "*"

def propOutcomeForKey (s : WarpState V) (key : JsString) (eventId : EventId) : OpOutcomeResult :=
  match s.prop.get key with
  | none => .applied key
  | some current =>
    let cmp := compareEventIds eventId current.eventId
    if 0 < cmp then .applied key
    else if cmp < 0 then .superseded key current.eventId
    else .redundant key

end ReceiptBuilder

open ReceiptBuilder

def Op.outcome (op : Op V) (s : WarpState V) (eventId : EventId) : OpOutcomeResult :=
  match op with
  | .nodeAdd node dot => addOutcome s.nodeAlive node dot
  | .nodeRemove node observedDots =>
    removeOutcome s.nodeAlive (orWildcard (decide (node ≠ [])) node) observedDots
  | .edgeAdd src dst label dot => addOutcome s.edgeAlive (encodeEdgeKey src dst label) dot
  | .edgeRemove src dst label observedDots =>
    removeOutcome s.edgeAlive (orWildcard (decide (src ≠ [] ∧ dst ≠ [] ∧ label ≠ []))
      (encodeEdgeKey src dst label)) observedDots
  | .nodePropSet node key _ => propOutcomeForKey s (encodePropKey node key) eventId
  | .edgePropSet src dst label key _ =>
    propOutcomeForKey s (encodeEdgePropKey src dst label key) eventId
  | .blobValue _ oid => .applied (orWildcard (decide (oid ≠ [])) oid)

def Op.receiptName : Op V → JsString
  | .nodeAdd _ _ => lit "NodeAdd"
  | .nodeRemove _ _ => lit "NodeTombstone"
  | .edgeAdd _ _ _ _ => lit "EdgeAdd"
  | .edgeRemove _ _ _ _ => lit "EdgeTombstone"
  | .nodePropSet _ _ _ => lit "NodePropSet"
  | .edgePropSet _ _ _ _ _ => lit "EdgePropSet"
  | .blobValue _ _ => lit "BlobValue"

/-! ### Receipts of a patch -/

/-- One entry of a receipt. -/
structure OpOutcome where
  op : JsString
  target : JsString
  result : JsString
  reason : Option JsString
  deriving DecidableEq

/-- What a data commit reports, also to the audit services. -/
structure TickReceipt (O : Type) where
  patchSha : JsString
  writer : JsString
  lamport : Int
  ops : List O
  deriving DecidableEq

def receiptError (message : JsString) : Failure := ⟨.warpError, lit "E_VALIDATION", message⟩

/-- The names and the results of operations are valid by their types. -/
def assertOpsArray : Nat → List OpOutcome → Except Failure Unit
  | _, [] => .ok ()
  | i, entry :: rest =>
    if entry.target = [] then
      .error (receiptError (lit "ops[" ++ numberText i ++ lit "].target must be a non-empty string"))
    else assertOpsArray (i + 1) rest

def createTickReceipt (patchSha writer : JsString) (lamport : Int) (ops : List OpOutcome) :
    Except Failure (TickReceipt OpOutcome) := do
  if patchSha = [] then .error (receiptError (lit "patchSha must be a non-empty string")) else .ok ()
  if writer = [] then .error (receiptError (lit "writer must be a non-empty string")) else .ok ()
  if lamport < 0 then .error (receiptError (lit "lamport must be a non-negative integer")) else .ok ()
  assertOpsArray 0 ops
  pure ⟨patchSha, writer, lamport, ops⟩

def Op.outcomeEntry (op : Op V) (s : WarpState V) (eventId : EventId) : OpOutcome :=
  let outcome := op.outcome s eventId
  ⟨op.receiptName, outcome.target, outcome.result, outcome.reason⟩

/-- The operation loop of `applyWithReceipt`, from index `i` on; outcomes are taken before
the mutation. -/
def applyOpsWithReceipt (entry : PatchEntry V) : Nat → List (PatchOp V) → WarpState V →
    Except Failure (WarpState V × List OpOutcome)
  | _, [], s => .ok (s, [])
  | i, rawOp :: rest, s => do
    assertKnownReducerOp rawOp
    match ← normalizeRawOp rawOp with
    | none => applyOpsWithReceipt entry (i + 1) rest s
    | some canonOp =>
      let eventId ← EventId.create entry.patch.lamport entry.patch.writer entry.sha i
      let later ← applyOpsWithReceipt entry (i + 1) rest (canonOp.op.mutate s eventId)
      pure (later.1, canonOp.op.outcomeEntry s eventId :: later.2)

def applyWithReceipt (s : WarpState V) (entry : PatchEntry V) :
    Except Failure (WarpState V × TickReceipt OpOutcome) := do
  let mutated ← applyOpsWithReceipt entry 0 entry.patch.ops s
  let folded ← mutated.1.foldPatch entry.patch
  let receipt ← createTickReceipt entry.sha entry.patch.writer entry.patch.lamport mutated.2
  pure (folded, receipt)

/-! ### What a removal finds -/

variable (orset : ORSet) (targetDots : OrdSet JsString)

namespace DiffCalculator

/-- The target dots in the order in which the walk meets them, once for each element that
they tag. -/
def occurrences (orset : ORSet) (targetDots : OrdSet JsString) : List JsString :=
  ((orset.entries.entries.flatMap fun entry =>
    entry.2.toList.map fun d => (entry.1, d)).map Prod.snd).filter targetDots.has

theorem matchPairs_known_iff (pairs m) (remaining d) :
    ((matchPairs targetDots pairs m remaining).get d).isSome = true ↔ (m.get d).isSome = true ∨
        d ∈ ((pairs.map Prod.snd).filter targetDots.has).take remaining := by
  induction pairs generalizing m remaining with
  | nil => simp [matchPairs]
  | cons pair rest ih =>
    obtain ⟨element, first⟩ := pair
    unfold matchPairs
    cases remaining with
    | zero => simp
    | succ remaining =>
      simp only [Nat.add_one_ne_zero, if_false, Nat.add_sub_cancel, map_cons]
      by_cases target : targetDots.has first = true
      · -- a target takes one of the remaining places, whether or not it was met before
        rw [if_pos target, ih, filter_cons_of_pos target, take_succ_cons, mem_cons, OrdMap.get_set]
        by_cases same : first = d
        · simp [same]
        · simp [same, Ne.symm same]
      · rw [if_neg target, ih, filter_cons_of_neg target]

theorem buildDotToElement_known_iff (d) :
    ((buildDotToElement orset targetDots).get d).isSome = true ↔
      d ∈ (occurrences orset targetDots).take targetDots.size := by
  rw [buildDotToElement, matchEntries_eq_matchPairs, matchPairs_known_iff]
  simp [occurrences]

theorem mem_occurrences :
    d ∈ occurrences orset targetDots ↔ d ∈ targetDots ∧ ∃ x, d ∈ orset.dotsOf x := by
  rw [occurrences, mem_filter, and_comm]
  apply and_congr
  · simp
  · constructor
    · intro listed
      obtain ⟨⟨x, d'⟩, member, rfl⟩ := mem_map.mp listed
      exact ⟨x, (mem_entryPairs orset).mp member⟩
    · rintro ⟨x, tagged⟩
      exact mem_map.mpr ⟨(x, d), (mem_entryPairs orset).mpr tagged, rfl⟩

end DiffCalculator

open DiffCalculator

theorem hasEffectiveRemoval_iff :
    hasEffectiveRemoval orset targetDots = true ↔
      ∃ d ∈ (occurrences orset targetDots).take targetDots.size, d ∉ orset.tombstones := by
  simp only [hasEffectiveRemoval, any_eq_true, Bool.and_eq_true, Bool.not_eq_true',
    buildDotToElement_known_iff]
  constructor
  · rintro ⟨d, -, untouched, met⟩
    refine ⟨d, met, ?_⟩
    rw [← ORSet.isTombstoned_iff, untouched]
    exact Bool.false_ne_true
  · rintro ⟨d, met, untouched⟩
    have target := ((mem_occurrences orset targetDots).mp (mem_of_mem_take met)).1
    refine ⟨d, target, ?_, met⟩
    rw [Bool.eq_false_iff, Ne, ORSet.isTombstoned_iff]
    exact untouched

theorem ORSet.add_known (known : orset.hasDot element dot.encode = true) :
    orset.Equiv (orset.add element dot) := by
  rw [ORSet.hasDot_iff] at known
  refine (ORSet.equiv_iff _).mpr ⟨fun x d => ?_, fun d => by rw [ORSet.tombstones_add]⟩
  rw [ORSet.mem_dotsOf_add]
  constructor
  · exact Or.inl
  · rintro (old | ⟨rfl, rfl⟩)
    · exact old
    · exact known

theorem ORSet.remove_equiv_iff (observed) :
    orset.Equiv (orset.remove observed) ↔ ∀ d ∈ observed, d ∈ orset.tombstones := by
  rw [ORSet.equiv_iff]
  constructor
  · rintro ⟨-, same⟩ d mem
    exact (same d).mpr ((ORSet.mem_tombstones_remove orset).mpr (Or.inr mem))
  · intro inside
    refine ⟨fun x d => by rw [ORSet.dotsOf_remove], fun d => ?_⟩
    rw [ORSet.mem_tombstones_remove]
    exact ⟨Or.inl, fun either => either.elim id (inside d)⟩

/-! ### Soundness -/

/-- A removal takes a dot away from an element that had it. -/
def ORSet.LosesDot (before after : ORSet) : Prop := ∃ x d, d ∈ before.getDots x ∧ d ∉ after.getDots x

/-- What an outcome promises about the state after the operation. -/
structure Op.OutcomeSound (op : Op V) (s : WarpState V) (eventId : EventId) : Prop where
  /-- Neither a redundant nor a superseded operation changes anything. -/
  unchanged : (∀ target, op.outcome s eventId ≠ .applied target) → s.Equiv (op.mutate s eventId)
  /-- A removal that was applied kills a live dot, and a write is what the register holds. -/
  applied : ∀ target, op.outcome s eventId = .applied target →
    match op with
    | .nodeRemove _ _ => s.nodeAlive.LosesDot (op.mutate s eventId).nodeAlive
    | .edgeRemove _ _ _ _ => s.edgeAlive.LosesDot (op.mutate s eventId).edgeAlive
    | .nodePropSet node key value =>
      (op.mutate s eventId).prop.get (encodePropKey node key) = some ⟨eventId, value⟩
    | .edgePropSet src dst label key value =>
      (op.mutate s eventId).prop.get (encodeEdgePropKey src dst label key) = some ⟨eventId, value⟩
    | _ => True

/-- A removal only meets dots that are dead already, or its walk reaches a live one. -/
def ORSet.RemovalJudged (orset : ORSet) (observed : OrdSet JsString) : Prop :=
  (∀ d ∈ observed, d ∈ orset.tombstones) ∨
    ∃ d ∈ (occurrences orset observed).take observed.size, d ∉ orset.tombstones

/-- When an operation finds all that it acts on: a removal is judged by what its walk meets,
and an edge that already has the dot was born no earlier than this event. -/
def Op.Judged (s : WarpState V) (eventId : EventId) : Op V → Prop
  | .nodeRemove _ observedDots => s.nodeAlive.RemovalJudged (OrdSet.ofList observedDots)
  | .edgeRemove _ _ _ observedDots => s.edgeAlive.RemovalJudged (OrdSet.ofList observedDots)
  | .edgeAdd src dst label dot =>
    dot.encode ∈ s.edgeAlive.dotsOf (encodeEdgeKey src dst label) →
      ∃ born ∈ s.edgeBirthEvent.get (encodeEdgeKey src dst label), eventId ≤ born
  | _ => True

theorem removeOutcome_applied {target answer}
    (applied : removeOutcome orset target observedDots = .applied answer) :
    orset.LosesDot (orset.remove (OrdSet.ofList observedDots)) := by
  unfold removeOutcome at applied
  split at applied
  next effective =>
    obtain ⟨d, met, untouched⟩ := (hasEffectiveRemoval_iff _ _).mp effective
    obtain ⟨target, x, tagged⟩ := (mem_occurrences _ _).mp (mem_of_mem_take met)
    refine ⟨x, d, (ORSet.mem_getDots _).mpr ⟨tagged, untouched⟩, ?_⟩
    rw [ORSet.mem_getDots, ORSet.mem_tombstones_remove]
    exact fun alive => alive.2 (Or.inr target)
  next => cases applied

theorem removeOutcome_unchanged_iff (target) (observedDots) :
    ((∀ answer, removeOutcome orset target observedDots ≠ .applied answer) →
        orset.Equiv (orset.remove (OrdSet.ofList observedDots))) ↔
      orset.RemovalJudged (OrdSet.ofList observedDots) := by
  have effective := hasEffectiveRemoval_iff orset (OrdSet.ofList observedDots)
  unfold removeOutcome ORSet.RemovalJudged
  rw [ORSet.remove_equiv_iff, ← effective]
  by_cases found : hasEffectiveRemoval orset (OrdSet.ofList observedDots) = true
  · simp [found]
  · simp [found]

theorem WarpState.mutatePropLWW_kept (s : WarpState V) (found : s.prop.get key = some current)
    (older : eventId ≤ current.eventId) : s.Equiv (s.mutatePropLWW key eventId value) := by
  obtain ⟨nodes, edges, frontier, births⟩ := s.mutatePropLWW_frame key eventId value
  have same := WarpState.Equiv.refl s
  constructor
  · rw [nodes]
    exact same.nodeAlive
  · rw [edges]
    exact same.edgeAlive
  · intro k
    rw [WarpState.get_mutatePropLWW]
    split
    next at_key =>
      subst at_key
      simp [found, later, older]
    · rfl
  · rw [frontier]
    exact same.observedFrontier
  · rw [births]
    exact same.edgeBirthEvent

theorem propOutcome_unchanged {value : V}
    (lost : ∀ target, propOutcomeForKey s key eventId ≠ .applied target) :
    s.Equiv (s.mutatePropLWW key eventId value) := by
  unfold propOutcomeForKey at lost
  cases found : s.prop.get key with
  | none =>
    rw [found] at lost
    exact absurd rfl (lost key)
  | some current =>
    rw [found] at lost
    apply s.mutatePropLWW_kept found
    -- a later event would have been applied
    rw [← not_lt, ← compareEventIds_pos_iff]
    intro newer
    exact lost key (if_pos newer)

theorem propOutcome_applied {value : V} {target}
    (won : propOutcomeForKey s key eventId = .applied target) :
    (s.mutatePropLWW key eventId value).prop.get key = some ⟨eventId, value⟩ := by
  rw [WarpState.get_mutatePropLWW, if_pos rfl]
  unfold propOutcomeForKey at won
  cases found : s.prop.get key with
  | none => simp [later]
  | some current =>
    rw [found] at won
    have newer : current.eventId < eventId := by
      rw [← compareEventIds_pos_iff]
      by_contra older
      dsimp only at won
      rw [if_neg older] at won
      split at won <;> cases won
    simp [later, not_le.mpr newer]

theorem addOutcome_unapplied_iff (element dot) :
    (∀ target, addOutcome orset element dot ≠ .applied target) ↔
      orset.hasDot element dot.encode = true := by
  unfold addOutcome
  by_cases known : orset.hasDot element dot.encode = true
  · simp [known]
  · simp [known]

/-- The outcome of an operation is sound exactly when the operation is judged by all that it
acts on. -/
theorem outcome_sound_iff (op : Op V) (s : WarpState V) (eventId : EventId) :
    op.OutcomeSound s eventId ↔ op.Judged s eventId := by
  have same := WarpState.Equiv.refl s
  cases op with
  | nodeAdd node dot =>
    constructor
    · exact fun _ => trivial
    · refine fun _ => ⟨fun unapplied => ?_, fun _ _ => trivial⟩
      have known := (addOutcome_unapplied_iff s.nodeAlive node dot).mp unapplied
      exact { same with nodeAlive := s.nodeAlive.add_known known }
  | nodeRemove node observedDots =>
    have judged := removeOutcome_unchanged_iff s.nodeAlive
      (orWildcard (decide (node ≠ [])) node) observedDots
    constructor
    · exact fun sound => judged.mp fun unapplied => (sound.unchanged unapplied).nodeAlive
    · refine fun tells => ⟨fun unapplied => ?_, fun target applied => ?_⟩
      · exact { same with nodeAlive := judged.mpr tells unapplied }
      · exact removeOutcome_applied s.nodeAlive applied
  | edgeAdd src dst label dot =>
    have unapplied_iff := addOutcome_unapplied_iff s.edgeAlive (encodeEdgeKey src dst label) dot
    have birth : ∀ k, (Op.mutate (.edgeAdd src dst label dot) s eventId).edgeBirthEvent.get k =
        if encodeEdgeKey src dst label = k then
          later id (s.edgeBirthEvent.get k) (some eventId) else s.edgeBirthEvent.get k :=
      fun k => WarpState.get_bumpBirthEvent
    rw [ORSet.hasDot_iff] at unapplied_iff
    constructor
    · intro sound known
      have kept := (sound.unchanged (unapplied_iff.mpr known)).edgeBirthEvent
        (encodeEdgeKey src dst label)
      rw [birth, if_pos rfl] at kept
      cases found : s.edgeBirthEvent.get (encodeEdgeKey src dst label) with
      | none => simp [found, later] at kept
      | some born =>
        refine ⟨born, rfl, ?_⟩
        by_contra newer
        simp only [found, later, id, newer, if_false, Option.some.injEq] at kept
        exact newer (le_of_eq kept.symm)
    · refine fun judged => ⟨fun unapplied => ?_, fun _ _ => trivial⟩
      have known := unapplied_iff.mp unapplied
      obtain ⟨born, found, older⟩ := judged known
      refine { same with edgeAlive := ?_, edgeBirthEvent := fun k => ?_ }
      · exact s.edgeAlive.add_known ((ORSet.hasDot_iff _).mpr known)
      · rw [birth]
        split
        next at_edge =>
          rw [← at_edge, Option.mem_def.mp found]
          simp [later, older]
        · rfl
  | edgeRemove src dst label observedDots =>
    have judged := removeOutcome_unchanged_iff s.edgeAlive
      (orWildcard (decide (src ≠ [] ∧ dst ≠ [] ∧ label ≠ [])) (encodeEdgeKey src dst label))
      observedDots
    constructor
    · exact fun sound => judged.mp fun unapplied => (sound.unchanged unapplied).edgeAlive
    · refine fun tells => ⟨fun unapplied => ?_, fun target applied => ?_⟩
      · exact { same with edgeAlive := judged.mpr tells unapplied }
      · exact removeOutcome_applied s.edgeAlive applied
  | nodePropSet node key value | edgePropSet src dst label key value =>
    refine iff_of_true ⟨fun lost => ?_, fun target won => ?_⟩ trivial
    · exact propOutcome_unchanged lost
    · exact propOutcome_applied won
  | blobValue node oid => exact iff_of_true ⟨fun _ => same, fun _ _ => trivial⟩ trivial

/-- A removal of a dot that the state has not seen yet is reported redundant and recorded. -/
theorem unseen_removal_recorded :
    Reachable (.empty : WarpState Unit) ∧ ∃ eventId : EventId,
      ¬ (Op.nodeRemove (lit "n") [lit "b:1"] : Op Unit).OutcomeSound .empty eventId := by
  let eventId : EventId := ⟨1, lit "a", lit "aaaa", 0, by decide, by decide, by decide⟩
  have reported : (Op.nodeRemove (lit "n") [lit "b:1"] : Op Unit).outcome .empty eventId =
      .redundant (lit "n") := by decide
  refine ⟨⟨[], by simp, rfl⟩, eventId, fun sound => ?_⟩
  have kept := (sound.unchanged fun target => by simp [reported]).nodeAlive
  exact absurd ((kept.2 (lit "b:1")).mpr (by decide)) (by decide)

end GitWarp
