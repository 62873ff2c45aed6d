import GitWarp.History.Coordinate
import GitWarp.Index.Showing
import GitWarp.Sync.SyncProtocol

/-!
# Reading from a checkpoint and its tail

An optic answers for one node without materializing the graph: it combines the
index of the checkpoint with those patches of the tail that bear on its question.
Where the tail needs more than the index has, the read fails.
-/
namespace GitWarp

open Js Lib KeyCodec List

variable {V : Type}

/-! ### The source -/

/-- What the checkpoint head offers: the frontier it was taken at and its index. -/
structure CheckpointTailIndexBasis (V : Type) where
  frontier : Frontier
  tree : IndexTree V

structure CheckpointTailOpticSource (V : Type) where
  store : CommitStore V
  refs : Frontier
  checkpoint : Option (CheckpointTailIndexBasis V)
  maxTailPatches : Nat

def noBoundedBasis : Failure :=
  ⟨.queryError, lit "E_OPTIC_NO_BOUNDED_BASIS",
    lit "No bounded checkpoint-tail optic basis is available."⟩

def tailBudgetExceeded : Failure :=
  ⟨.queryError, lit "E_OPTIC_TAIL_BUDGET_EXCEEDED",
    lit "Checkpoint-tail optic read exceeded its tail scan budget."⟩

def backfillRejected (writerId : JsString) (relation : String) : Failure :=
  ⟨.forkError, lit "E_FORK_BACKFILL_REJECTED",
    lit "Backfill rejected for writer " ++ writerId ++ lit ": incoming patch is " ++
      lit relation ++ lit " checkpoint frontier"⟩

def writerDiverged (writerId : JsString) : Failure :=
  ⟨.forkError, lit "E_FORK_WRITER_DIVERGED", lit "Writer fork detected for " ++ writerId ++
      lit ": incoming patch does not extend checkpoint head"⟩

namespace CheckpointTailOpticSource

def loadBasis (source : CheckpointTailOpticSource V) :
    Except Failure (CheckpointTailIndexBasis V) :=
  source.checkpoint.elim (.error noBoundedBasis) .ok

def discoverWriters (source : CheckpointTailOpticSource V) : List JsString := source.refs.keys

/-- `_loadWriterPatches`: a writer without a ref has none. -/
def loadWriterPatches (source : CheckpointTailOpticSource V) (writerId : JsString)
    (stopAtSha : Option JsString) : List (PatchEntry V) :=
  match source.refs.get writerId with
  | none => []
  | some tipSha => source.store.loadPatchChainFromSha tipSha stopAtSha

def validatePatchAgainstCheckpoint (source : CheckpointTailOpticSource V)
    (writerId incomingSha : JsString) (frontier : Frontier) : Except Failure Unit :=
  match frontier.get writerId with
  | none => .ok ()
  | some ckHead =>
    if ckHead = [] then .ok ()
    else if incomingSha = ckHead then .error (backfillRejected writerId "same")
    else if source.store.isAncestor ckHead incomingSha then .ok ()
    else if source.store.isAncestor incomingSha ckHead then
      .error (backfillRejected writerId "behind")
    else .error (writerDiverged writerId)

/-! ### Scanning the tail -/

structure TailWitnessScan (V : Type) where
  entries : List (PatchEntry V)
  scanned : Nat

def collectIncludedTailEntries (includeEntry : PatchEntry V → Except Failure Bool) :
    List (PatchEntry V) → Except Failure (List (PatchEntry V))
  | [] => .ok []
  | entry :: rest => do
    let included ← includeEntry entry
    let others ← collectIncludedTailEntries includeEntry rest
    pure (if included then entry :: others else others)

/-- `_validateWriterTail`: the last patch stands for the whole tail. -/
def validateWriterTail (source : CheckpointTailOpticSource V) (writerId : JsString)
    (writerTail : List (PatchEntry V)) (frontier : Frontier) : Except Failure Unit :=
  writerTail.getLast?.elim (.ok ()) fun lastEntry =>
    source.validatePatchAgainstCheckpoint writerId lastEntry.sha frontier

def scanWriterTail (source : CheckpointTailOpticSource V) (frontier : Frontier)
    (includeEntry : PatchEntry V → Except Failure Bool) (scan : TailWitnessScan V)
    (writerId : JsString) : Except Failure (TailWitnessScan V) := do
  let writerTail := source.loadWriterPatches writerId (frontier.get writerId)
  let scanned := scan.scanned + writerTail.length
  if scanned > source.maxTailPatches then .error tailBudgetExceeded
  else
    source.validateWriterTail writerId writerTail frontier
    let included ← collectIncludedTailEntries includeEntry writerTail
    pure ⟨scan.entries ++ included, scanned⟩

/-- The loop of `collect` over the sorted writers. -/
def scanWriters (source : CheckpointTailOpticSource V) (frontier : Frontier)
    (includeEntry : PatchEntry V → Except Failure Bool) :
    List JsString → TailWitnessScan V → Except Failure (TailWitnessScan V)
  | [], scan => .ok scan
  | writerId :: rest, scan => do
    let next ← source.scanWriterTail frontier includeEntry scan writerId
    source.scanWriters frontier includeEntry rest next

/-- `collect`. -/
def collectTail (source : CheckpointTailOpticSource V) (frontier : Frontier)
    (includeEntry : PatchEntry V → Except Failure Bool) :
    Except Failure (List (PatchEntry V)) :=
  (source.scanWriters frontier includeEntry (sortBy id source.discoverWriters) ⟨[], 0⟩).map
    TailWitnessScan.entries

end CheckpointTailOpticSource

/-! ### Facts of the tail -/

/-- The `some` loops of the fact reducer: normalizes until an operation passes the test. -/
def someOp (test : Op V → Bool) : List (PatchOp V) → Except Failure Bool
  | [] => .ok false
  | rawOp :: rest => do
    let normalized ← normalizeRawOp rawOp
    if normalized.any fun canonOp => test canonOp.op then pure true else someOp test rest

def isNodeAddOf (nodeId : JsString) : Op V → Bool
  | .nodeAdd node _ => decide (node = nodeId)
  | _ => false

def isNodeRemoveOf (nodeId : JsString) : Op V → Bool
  | .nodeRemove node _ => decide (node = nodeId)
  | _ => false

def isPropertyOf (nodeId propertyKey : JsString) : Op V → Bool
  | .nodePropSet node key _ => decide (node = nodeId ∧ key = propertyKey)
  | _ => false

def includesNodeLiveness (nodeId : JsString) (entry : PatchEntry V) : Except Failure Bool :=
  someOp (fun op => isNodeAddOf nodeId op || isNodeRemoveOf nodeId op) entry.patch.ops

def includesProperty (nodeId propertyKey : JsString) (entry : PatchEntry V) :
    Except Failure Bool :=
  someOp (isPropertyOf nodeId propertyKey) entry.patch.ops

/-- `_reduceNodeLivenessOp`: the index cannot tell what a remove in the tail has observed. -/
def reduceNodeLivenessOp (nodeId : JsString) (currentAlive : Bool) (op : Op V) :
    Except Failure Bool :=
  if isNodeAddOf nodeId op then .ok true
  else if isNodeRemoveOf nodeId op then .error noBoundedBasis
  else .ok currentAlive

/-- `_reduceNodeLivenessEntry`, over the operations of an entry. -/
def reduceNodeLivenessOps (nodeId : JsString) : Bool → List (PatchOp V) → Except Failure Bool
  | alive, [] => .ok alive
  | alive, rawOp :: rest => do
    let normalized ← normalizeRawOp rawOp
    let next ← normalized.elim (.ok alive) fun canonOp =>
      reduceNodeLivenessOp nodeId alive canonOp.op
    reduceNodeLivenessOps nodeId next rest

def reduceNodeLiveness (nodeId : JsString) :
    Bool → List (PatchEntry V) → Except Failure Bool
  | alive, [] => .ok alive
  | alive, entry :: rest => do
    let next ← reduceNodeLivenessOps nodeId alive entry.patch.ops
    reduceNodeLiveness nodeId next rest

section

-- strings, numbers, booleans, null and byte arrays
variable (isScalar : V → Bool)

/-- `_addTailPropertyOperationRegister`. -/
def addTailPropertyOperationRegister (nodeId propertyKey : JsString) (entry : PatchEntry V)
    (opIndex : Nat) (current : Option (LWWRegister V)) :
    Op V → Except Failure (Option (LWWRegister V))
  | .nodePropSet node key value =>
    if node = nodeId ∧ key = propertyKey then do
      let eventId ← EventId.create entry.patch.lamport entry.patch.writer entry.sha opIndex
      if isScalar value then pure (lwwMax current (some ⟨eventId, value⟩))
      else .error noBoundedBasis
    else .ok current
  | _ => .ok current

/-- `_addTailPropertyEntryRegister`, over the operations of an entry from an index on. -/
def addTailPropertyOps (nodeId propertyKey : JsString) (entry : PatchEntry V) :
    Nat → List (PatchOp V) → Option (LWWRegister V) → Except Failure (Option (LWWRegister V))
  | _, [], current => .ok current
  | opIndex, rawOp :: rest, current => do
    let normalized ← normalizeRawOp rawOp
    let next ← normalized.elim (.ok current) fun canonOp =>
      addTailPropertyOperationRegister isScalar nodeId propertyKey entry opIndex current canonOp.op
    addTailPropertyOps nodeId propertyKey entry (opIndex + 1) rest next

def tailPropertyRegister (nodeId propertyKey : JsString) :
    List (PatchEntry V) → Option (LWWRegister V) → Except Failure (Option (LWWRegister V))
  | [], current => .ok current
  | entry :: rest, current => do
    let next ← addTailPropertyOps isScalar nodeId propertyKey entry 0 entry.patch.ops current
    tailPropertyRegister nodeId propertyKey rest next

def reduceProperty (baseValue : Option V) (tailEntries : List (PatchEntry V))
    (nodeId propertyKey : JsString) : Except Failure (Option V) := do
  let register ← tailPropertyRegister isScalar nodeId propertyKey tailEntries none
  pure (register.elim baseValue fun register => some register.value)

end

/-! ### Reads of a node -/

namespace CheckpointTailOpticSource

/-- `_readNodeResult`: is the node alive? -/
def readNode (source : CheckpointTailOpticSource V) (nodeId : JsString) : Except Failure Bool := do
  let basis ← source.loadBasis
  let tail ← source.collectTail basis.frontier (includesNodeLiveness nodeId)
  reduceNodeLiveness nodeId (basis.tree.isAlive nodeId) tail

/-- `_readNodePropertyResult`. -/
def readNodeProperty (isScalar : V → Bool) (source : CheckpointTailOpticSource V)
    (nodeId propertyKey : JsString) : Except Failure (Option V) := do
  let basis ← source.loadBasis
  let bag ← basis.tree.getNodeProps nodeId
  let tail ← source.collectTail basis.frontier (includesProperty nodeId propertyKey)
  reduceProperty isScalar (bag.bind fun bag => bag.get propertyKey) tail nodeId propertyKey

/-! ### What the scan collects -/

/-- The patches behind the refs, up to the frontier of the basis. -/
def InTail (source : CheckpointTailOpticSource V) (frontier : Frontier)
    (entry : PatchEntry V) : Prop :=
  ∃ w tip, source.refs.get w = some tip ∧
    entry ∈ source.store.loadPatchChainFromSha tip (frontier.get w)

theorem mem_collectIncludedTailEntries (entries found)
    (collected : collectIncludedTailEntries includeEntry entries = .ok found) (entry) :
    entry ∈ found ↔ entry ∈ entries ∧ includeEntry entry = .ok true := by
  induction entries generalizing found with
  | nil =>
    cases collected
    simp
  | cons first rest ih =>
    simp only [collectIncludedTailEntries, bind_eq_ok] at collected
    obtain ⟨included, decided, others, later, whole⟩ := collected
    cases whole
    cases included with
    | true =>
      rw [if_pos rfl, mem_cons, mem_cons, ih others later]
      constructor
      · rintro (rfl | ⟨listed, kept⟩)
        · exact ⟨Or.inl rfl, decided⟩
        · exact ⟨Or.inr listed, kept⟩
      · rintro ⟨rfl | listed, kept⟩
        · exact Or.inl rfl
        · exact Or.inr ⟨listed, kept⟩
    | false =>
      rw [if_neg (by simp), ih others later, mem_cons]
      constructor
      · exact fun ⟨listed, kept⟩ => ⟨Or.inr listed, kept⟩
      · rintro ⟨rfl | listed, kept⟩
        · rw [decided] at kept
          cases kept
        · exact ⟨listed, kept⟩

theorem mem_scanWriters {frontier} (source : CheckpointTailOpticSource V) (writers scan scan')
    (scanned : source.scanWriters frontier includeEntry writers scan = .ok scan') (entry) :
    entry ∈ scan'.entries ↔ entry ∈ scan.entries ∨
      (∃ w ∈ writers, entry ∈ source.loadWriterPatches w (frontier.get w)) ∧
        includeEntry entry = .ok true := by
  induction writers generalizing scan with
  | nil =>
    cases scanned
    simp
  | cons w rest ih =>
    simp only [scanWriters, bind_eq_ok] at scanned
    obtain ⟨next, first, later⟩ := scanned
    rw [scanWriterTail] at first
    split at first
    · cases first
    · rw [check_then_eq_ok] at first
      obtain ⟨-, first⟩ := first
      obtain ⟨included, collected, whole⟩ := bind_eq_ok.mp first
      cases whole
      rw [ih _ later, mem_append, mem_collectIncludedTailEntries _ included collected]
      simp only [mem_cons, exists_eq_or_imp]
      tauto

theorem mem_collectTail {tail} {frontier} (source : CheckpointTailOpticSource V)
    (collected : source.collectTail frontier includeEntry = .ok tail) :
    entry ∈ tail ↔ source.InTail frontier entry ∧ includeEntry entry = .ok true := by
  rw [collectTail] at collected
  cases scanned : source.scanWriters frontier includeEntry (sortBy id source.discoverWriters)
    ⟨[], 0⟩ with
  | error e =>
    rw [scanned] at collected
    cases collected
  | ok scan =>
    rw [scanned] at collected
    cases collected
    rw [mem_scanWriters source _ _ scan scanned]
    simp only [not_mem_nil, false_or, mem_sortBy, discoverWriters, InTail]
    apply and_congr_left
    intro _
    constructor
    · rintro ⟨w, -, mem⟩
      rw [loadWriterPatches] at mem
      cases found : source.refs.get w with
      | none => simp [found] at mem
      | some tip =>
        rw [found] at mem
        exact ⟨w, tip, found, mem⟩
    · rintro ⟨w, tip, found, mem⟩
      refine ⟨w, (OrdMap.mem_keys_iff _ _).mpr (by simp [found]), ?_⟩
      rw [loadWriterPatches, found]
      exact mem

/-! ### The checkpoint and the history -/

/-- The checkpoint head was taken of `base`, at a prefix of the history that reduces to `full`. -/
structure Describes (source : CheckpointTailOpticSource V) (basis : CheckpointTailIndexBasis V)
    (base full : WarpState V) : Prop where
  head : source.checkpoint = some basis
  precedes : source.store.coordinatePrecedes ⟨basis.frontier, none⟩ ⟨source.refs, none⟩ = true
  reduced : reducePatches (source.store.streamForFrontier ⟨basis.frontier, none⟩) .empty = .ok base
  built : IndexTree.build base = .ok basis.tree
  whole : reducePatches (source.store.streamForFrontier ⟨source.refs, none⟩) .empty = .ok full

/-- An event of a patch in the tail. -/
def TailEvent (source : CheckpointTailOpticSource V) (frontier : Frontier)
    (event : Event V) : Prop :=
  ∃ entry, source.InTail frontier entry ∧ ∃ effect, entry.effect = .ok effect ∧
    event ∈ effect.events

namespace Describes

variable {source : CheckpointTailOpticSource V} {basis : CheckpointTailIndexBasis V}
  {base full : WarpState V} (describes : source.Describes basis base full)
include describes

theorem mem_history :
    entry ∈ source.store.streamForFrontier ⟨source.refs, none⟩ ↔
      entry ∈ source.store.streamForFrontier ⟨basis.frontier, none⟩ ∨
        source.InTail basis.frontier entry := by
  -- the history is the prefix of the checkpoint and the tail
  constructor
  · intro mem
    rcases source.store.mem_base_or_suffix describes.precedes rfl mem with
      before | later
    · exact Or.inl before
    · right
      obtain ⟨w, tip, found, inside, -⟩ := source.store.mem_suffix.mp later
      refine ⟨w, tip, found, ?_⟩
      cases reached : basis.frontier.get w with
      | none => simpa [coordinateStopAtSha, reached] using inside
      | some baseTip =>
        by_cases named : baseTip = []
        · -- no chain leads through the empty sha
          obtain ⟨tip', found', behind⟩ :=
            source.store.precedes_tip describes.precedes reached
          rw [found, Option.some.injEq] at found'
          subst found'
          have empty_ : tip = [] := by
            rcases behind with same | ancestor
            · rw [← same, named]
            · simp [CommitStore.isAncestor, named] at ancestor
          simp [CommitStore.loadPatchChainFromSha, empty_] at inside
        · simpa [coordinateStopAtSha, reached, named] using inside
  · rintro (before | ⟨w, tip, found, inside⟩)
    · exact source.store.stream_subset_of_precedes describes.precedes before
    · rw [CommitStore.mem_streamForFrontier]
      exact ⟨⟨w, tip, found, source.store.load_subset_chain inside⟩, rfl⟩

theorem base_represents :
    Represents base (historyFacts (source.store.streamForFrontier ⟨basis.frontier, none⟩)) :=
  represents_history describes.reduced

theorem full_represents :
    Represents full (historyFacts (source.store.streamForFrontier ⟨source.refs, none⟩)) :=
  represents_history describes.whole

theorem base_keyed : base.Keyed := keyed_of_reduced _ describes.reduced

theorem full_keyed : full.Keyed := keyed_of_reduced _ describes.whole

theorem reflects : basis.tree.Reflects base :=
  IndexTree.build_reflects describes.base_keyed basis.tree describes.built

theorem mem_facts (unseen : ∀ w n, f ≠ .seen w n) :
    f ∈ historyFacts (source.store.streamForFrontier ⟨source.refs, none⟩) ↔
      f ∈ historyFacts (source.store.streamForFrontier ⟨basis.frontier, none⟩) ∨
        ∃ event, source.TailEvent basis.frontier event ∧ f ∈ event.2.op.facts event.1 := by
  constructor
  · rintro ⟨entry, member, effect, known, fact⟩
    rcases describes.mem_history.mp member with before | later
    · exact Or.inl ⟨entry, before, effect, known, fact⟩
    · right
      rcases fact with ⟨event, listed, inside⟩ | ⟨w, seen⟩ | ⟨tick, -, seen⟩
      · exact ⟨event, ⟨entry, later, effect, known, listed⟩, inside⟩
      · exact absurd seen (unseen _ _)
      · exact absurd seen (unseen _ _)
  · rintro (⟨entry, member, effect, known, fact⟩ | ⟨event, happened, inside⟩)
    · exact ⟨entry, describes.mem_history.mpr (Or.inl member), effect, known, fact⟩
    · obtain ⟨entry, later, effect, known, listed⟩ := happened
      exact ⟨entry, describes.mem_history.mpr (Or.inr later), effect, known,
        Or.inl ⟨event, listed, inside⟩⟩

theorem effect_of_tail (later : source.InTail basis.frontier entry) :
    ∃ effect, entry.effect = .ok effect :=
  effects_of_reduced _ _ _ describes.whole entry (describes.mem_history.mpr (Or.inr later))

end Describes
end CheckpointTailOpticSource
end GitWarp
