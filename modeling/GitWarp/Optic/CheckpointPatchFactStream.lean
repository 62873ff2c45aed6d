import GitWarp.Lib.Generated
import GitWarp.Lib.Merge
import GitWarp.Optic.CheckpointTail

/-!
# Streams of patch facts

The patches between a checkpoint and a frontier are lowered to facts. One stream
loads every patch, sorts the facts and yields them. The other opens a cursor for
each writer, with a lease of a memory pool, and always yields the least fact that
a cursor stands at.
-/
namespace GitWarp

open Js Lib KeyCodec

variable {V : Type}

/-! ### Facts -/

inductive AdjacencyDirection
  | outgoing
  | incoming
  deriving DecidableEq

def AdjacencyDirection.text : AdjacencyDirection → JsString
  | outgoing => lit "outgoing"
  | incoming => lit "incoming"

inductive CheckpointBasisFact (V : Type)
  | nodeLiveness (nodeId : JsString) (alive : Bool) (eventId : EventId)
  | nodeProperty (nodeId key : JsString) (value : V) (eventId : EventId)
  | adjacency (direction : AdjacencyDirection) (src dst label : JsString) (alive : Bool)
      (eventId : EventId)
  | edge (src dst label : JsString) (alive : Bool) (eventId : EventId)
  | provenance (target patchSha writerId : JsString) (lamport : Nat)
  | contentAnchor (owner contentHandle : JsString) (eventId : EventId)
  deriving DecidableEq

/-- `text.padStart(width, '0')`. -/
def padZeros (width : Nat) (text : JsString) : JsString :=
  List.replicate (width - text.length) (digitUnit '0') ++ text

def eventSortKey (eventId : EventId) : JsString :=
  join Dot.colon [padZeros 12 (numberText eventId.lamport), eventId.writerId, eventId.patchSha,
    padZeros 8 (numberText eventId.opIndex)]

def CheckpointBasisFact.sortKey : CheckpointBasisFact V → JsString
  | .nodeLiveness nodeId _ eventId => join Dot.colon [nodeId, eventSortKey eventId]
  | .nodeProperty nodeId key _ eventId => join Dot.colon [nodeId, key, eventSortKey eventId]
  | .adjacency direction src dst label _ eventId =>
    join Dot.colon [direction.text, src, dst, label, eventSortKey eventId]
  | .edge src dst label _ eventId => join Dot.colon [src, dst, label, eventSortKey eventId]
  | .provenance target patchSha writerId lamport =>
    join Dot.colon [target, numberText lamport, writerId, patchSha]
  | .contentAnchor owner contentHandle eventId =>
    join Dot.colon [owner, contentHandle, eventSortKey eventId]

structure FactWithEvent (V : Type) where
  fact : CheckpointBasisFact V
  eventId : EventId
  deriving DecidableEq

/-- `compareFactEvents`. -/
def factKey (f : FactWithEvent V) : EventId ×ₗ JsString := toLex (f.eventId, f.fact.sortKey)

def sortedOperationFacts (facts : List (FactWithEvent V)) : List (FactWithEvent V) :=
  sortBy factKey facts

/-! ### Lowering a patch -/

def streamObstructed : Failure :=
  ⟨.queryError, lit "E_CHECKPOINT_PATCH_FACT_STREAM",
    lit "Checkpoint patch fact stream is obstructed."⟩

/-- The checks of `StorageHandle`. -/
def isHandleToken (token : JsString) : Bool :=
  decide (token ≠ [] ∧ token.length ≤ 4096 ∧ ∀ u ∈ token, u.val ≠ 0 ∧ u.val ≠ 10 ∧ u.val ≠ 13)

def edgeTarget (src dst label : JsString) : JsString :=
  src ++ lit "->" ++ dst ++ lit ":" ++ label

def factsWithProvenance (facts : List (CheckpointBasisFact V)) (target : JsString)
    (eventId : EventId) : List (FactWithEvent V) :=
  facts.map (⟨·, eventId⟩) ++
    [⟨.provenance target eventId.patchSha eventId.writerId eventId.lamport, eventId⟩]

def edgeFacts (src dst label : JsString) (alive : Bool) (eventId : EventId) :
    List (FactWithEvent V) :=
  factsWithProvenance [.adjacency .outgoing src dst label alive eventId,
    .adjacency .incoming src dst label alive eventId, .edge src dst label alive eventId]
    (edgeTarget src dst label) eventId

section

variable (isPropValue : V → Bool)

/-- `factsForOperation`. A write of an edge property yields the edge as alive. -/
def factsForOperation (eventId : EventId) : Op V → Except Failure (List (FactWithEvent V))
  | .nodeAdd node _ => .ok (factsWithProvenance [.nodeLiveness node true eventId] node eventId)
  | .nodeRemove node _ => .ok (factsWithProvenance [.nodeLiveness node false eventId] node eventId)
  | .nodePropSet node key value =>
    if isPropValue value then
      .ok (factsWithProvenance [.nodeProperty node key value eventId] (node ++ lit ":" ++ key)
        eventId)
    else .error streamObstructed
  | .edgeAdd src dst label _ => .ok (edgeFacts src dst label true eventId)
  | .edgeRemove src dst label _ => .ok (edgeFacts src dst label false eventId)
  | .edgePropSet src dst label _ _ =>
    .ok (factsWithProvenance [.edge src dst label true eventId] (edgeTarget src dst label) eventId)
  | .blobValue node oid =>
    if isHandleToken oid then
      .ok (factsWithProvenance [.contentAnchor node oid eventId] node eventId)
    else .error ⟨.warpError, lit "E_STORAGE_HANDLE", lit "StorageHandle token has an invalid shape"⟩

/-- The event and the facts of an operation; one that is passed through is not supported. -/
def operationFacts (entry : PatchEntry V) (opIndex : Nat) (rawOp : PatchOp V) :
    Except Failure (List (FactWithEvent V)) := do
  let eventId ← EventId.create entry.patch.lamport entry.patch.writer entry.sha opIndex
  match ← normalizeRawOp rawOp with
  | none => .error streamObstructed
  | some canonOp => factsForOperation isPropValue eventId canonOp.op

/-- `lowerOperation`: whatever fails, the stream reports itself as obstructed. -/
def lowerOperation (entry : PatchEntry V) (opIndex : Nat) (rawOp : PatchOp V) :
    Except Failure (List (FactWithEvent V)) :=
  match operationFacts isPropValue entry opIndex rawOp with
  | .ok facts => .ok facts
  | .error _ => .error streamObstructed

/-- The loop of `lowerEntryFacts` from an operation on. -/
def lowerOps (entry : PatchEntry V) :
    Nat → List (PatchOp V) → Generated Failure (FactWithEvent V)
  | _, [] => .ofList []
  | opIndex, rawOp :: rest =>
    match lowerOperation isPropValue entry opIndex rawOp with
    | .error e => .fail e
    | .ok facts => .yieldAll (sortedOperationFacts facts) (lowerOps entry (opIndex + 1) rest)

def lowerEntryFacts (entry : PatchEntry V) : Generated Failure (FactWithEvent V) :=
  lowerOps isPropValue entry 0 entry.patch.ops

/-- The loop of `lowerEntriesToFacts`, before the sort. -/
def lowerEntries : List (PatchEntry V) → Except Failure (List (FactWithEvent V))
  | [] => .ok []
  | entry :: rest => do
    let facts ← (lowerEntryFacts isPropValue entry).collect
    let others ← lowerEntries rest
    pure (facts ++ others)

def lowerEntriesToFacts (entries : List (PatchEntry V)) :
    Except Failure (List (FactWithEvent V)) :=
  (lowerEntries isPropValue entries).map (sortBy factKey)

end

/-! ### Loading the patches of a writer -/

/-- The frontier of the previous checkpoint, and the frontier to read up to. -/
structure FactStreamReadOptions where
  previousCheckpoint : Frontier
  targetFrontier : Frontier

def validateFrontier (frontier : Frontier) : Except Failure Unit :=
  if frontier.entries.any fun entry => entry.1.isEmpty || entry.2.isEmpty then
    .error streamObstructed
  else .ok ()

def FactStreamReadOptions.validate (options : FactStreamReadOptions) : Except Failure Unit := do
  validateFrontier options.previousCheckpoint
  validateFrontier options.targetFrontier

def sortedWriterIds (frontier : Frontier) : List JsString := sortBy id frontier.keys

namespace CheckpointTailOpticSource

variable (source : CheckpointTailOpticSource V) (options : FactStreamReadOptions)

/-- `_validateCoverage`: the last patch must extend the checkpoint. -/
def validateCoverage (writerId : JsString) (entries : List (PatchEntry V)) : Except Failure Unit :=
  match source.validateWriterTail writerId entries options.previousCheckpoint with
  | .ok () => .ok ()
  | .error _ => .error streamObstructed

/-- `_loadWriterEntries`. -/
def loadWriterEntries (writerId : JsString) : Except Failure (List (PatchEntry V)) :=
  match options.targetFrontier.get writerId with
  | none => .ok []
  | some targetTip =>
    if options.previousCheckpoint.get writerId = some targetTip then .ok []
    else do
      let entries := source.store.loadPatchChainFromSha targetTip
        (options.previousCheckpoint.get writerId)
      source.validateCoverage options writerId entries
      pure entries

/-- The loop of `_collectEntries`. -/
def collectEntries : List JsString → Except Failure (List (PatchEntry V))
  | [] => .ok []
  | writerId :: rest => do
    let writerEntries ← source.loadWriterEntries options writerId
    let others ← collectEntries rest
    pure (writerEntries ++ others)

/-! ### The stream that sorts everything -/

variable (isPropValue : V → Bool)

def sortedFacts : Except Failure (List (FactWithEvent V)) := do
  options.validate
  let entries ← source.collectEntries options (sortedWriterIds options.targetFrontier)
  lowerEntriesToFacts isPropValue entries

def stream : Generated Failure (CheckpointBasisFact V) :=
  match source.sortedFacts options isPropValue with
  | .error e => .fail e
  | .ok facts => .ofList (facts.map FactWithEvent.fact)

/-- `_streamWriterFacts`, but for its leases. -/
def streamWriterFacts (writerId : JsString) : Generated Failure (FactWithEvent V) :=
  match source.loadWriterEntries options writerId with
  | .error e => .fail e
  | .ok entries => .concat (entries.map (lowerEntryFacts isPropValue))

end CheckpointTailOpticSource

/-! ### Cursors -/

structure WarpMemoryPool where
  limit : Nat
  leased : Nat

def memoryBudgetExceeded : Failure :=
  ⟨.memoryBudgetError, lit "E_MEMORY_BUDGET_EXCEEDED",
    lit "Memory budget exceeded for git-warp-owned resident data"⟩

namespace WarpMemoryPool

/-- A lease of one. -/
def acquire (pool : WarpMemoryPool) : Except Failure WarpMemoryPool :=
  if pool.leased + 1 ≤ pool.limit then .ok { pool with leased := pool.leased + 1 }
  else .error memoryBudgetExceeded

def release (pool : WarpMemoryPool) : WarpMemoryPool := { pool with leased := pool.leased - 1 }

end WarpMemoryPool

/-- A fact that has been taken from the generator of a writer, and what the generator has left. -/
structure FactStreamCursor (V : Type) where
  writerId : JsString
  current : FactWithEvent V
  left : Generated Failure (FactWithEvent V)

/-- `compareCursor`. -/
def cursorKey (c : FactStreamCursor V) : (EventId ×ₗ JsString) ×ₗ JsString :=
  toLex (factKey c.current, c.writerId)

/-- `readNextFactCursor`: a fact is given out under a lease. -/
def readNextFactCursor (pool : WarpMemoryPool) (writerId : JsString)
    (generator : Generated Failure (FactWithEvent V)) :
    Except Failure (Option (FactStreamCursor V) × WarpMemoryPool) :=
  match generator.items with
  | [] => generator.failure.elim (.ok (none, pool)) .error
  | fact :: rest => do
    let leased ← pool.acquire
    pure (some ⟨writerId, fact, ⟨rest, generator.failure⟩⟩, leased)

/-- The loop of `selectFactCursorIndex`, which has selected one of the cursors before `index`. -/
def selectFrom (selectedIndex : Nat) (selected : FactStreamCursor V) :
    Nat → List (FactStreamCursor V) → Nat
  | _, [] => selectedIndex
  | index, candidate :: rest =>
    if cursorKey candidate < cursorKey selected then selectFrom index candidate (index + 1) rest
    else selectFrom selectedIndex selected (index + 1) rest

/-- `none` is `-1`. -/
def selectFactCursorIndex : List (FactStreamCursor V) → Option Nat
  | [] => none
  | first :: rest => some (selectFrom 0 first 1 rest)

/-- What the cursors have still to give: a bound for the loop. -/
def factsLeft (cursors : List (FactStreamCursor V)) : Nat :=
  (cursors.map fun c => c.left.items.length + 1).sum

/-- The loop of `streamBounded`. The lease of a fact ends when its generator goes on. -/
def boundedLoop : Nat → List (FactStreamCursor V) → WarpMemoryPool →
    Generated Failure (CheckpointBasisFact V)
  | 0, _, _ => .ofList []
  | fuel + 1, cursors, pool =>
    match selectFactCursorIndex cursors with
    | none => .ofList []
    | some selectedIndex =>
      match cursors[selectedIndex]? with
      | none => .fail streamObstructed
      | some selected =>
        .yieldAll [selected.current.fact]
          (match readNextFactCursor pool.release selected.writerId selected.left with
          | .error e => .fail e
          | .ok (none, rest) => boundedLoop fuel (cursors.eraseIdx selectedIndex) rest
          | .ok (some next, rest) => boundedLoop fuel (cursors.set selectedIndex next) rest)

namespace CheckpointTailOpticSource

variable (source : CheckpointTailOpticSource V) (options : FactStreamReadOptions)
  (isPropValue : V → Bool)

/-- The loop of `_openWriterCursors`. -/
def openWriterCursors : List JsString → WarpMemoryPool →
    Except Failure (List (FactStreamCursor V) × WarpMemoryPool)
  | [], pool => .ok ([], pool)
  | writerId :: rest, pool => do
    let (cursor, leased) ← readNextFactCursor pool writerId
      (source.streamWriterFacts options isPropValue writerId)
    let (cursors, after) ← openWriterCursors rest leased
    pure (cursor.toList ++ cursors, after)

def streamBounded (pool : WarpMemoryPool) : Generated Failure (CheckpointBasisFact V) :=
  match (do
    options.validate
    source.openWriterCursors options isPropValue (sortedWriterIds options.targetFrontier) pool :
      Except Failure (List (FactStreamCursor V) × WarpMemoryPool)) with
  | .error e => .fail e
  | .ok (cursors, opened) => boundedLoop (factsLeft cursors) cursors opened

end CheckpointTailOpticSource
end GitWarp
