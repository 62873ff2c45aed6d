import GitWarp.History.CommitStore

/-!
# The sync protocol

A requester sends its frontier as a plain object; the responder compares it with
its own, loads what the requester lacks along the commit chains and answers
with patches; the requester regroups them by writer, applies them and moves its
frontier. A writer whose chains have diverged is left out of the answer.
-/
namespace GitWarp

open Js Lib

variable {V : Type}

abbrev Frontier := OrdMap JsString JsString

/-! ### Delta -/

/-- A range of patches, `fromSha` exclusive and `toSha` inclusive. -/
structure WriterRange where
  fromSha : Option JsString
  toSha : JsString
  deriving DecidableEq

structure SyncDelta where
  needFromRemote : OrdMap JsString WriterRange
  needFromLocal : OrdMap JsString WriterRange
  newWritersForLocal : List JsString
  newWritersForRemote : List JsString

/-- One loop of `computeSyncDelta`: the range that a side with frontier `mine` needs of each
entry of the other side. -/
def neededRanges (mine : Frontier) : List (JsString × JsString) → OrdMap JsString WriterRange →
    OrdMap JsString WriterRange
  | [], need => need
  | (writerId, theirSha) :: rest, need =>
    match mine.get writerId with
    | none => neededRanges mine rest (need.set writerId ⟨none, theirSha⟩)
    | some mySha =>
      if mySha ≠ theirSha then neededRanges mine rest (need.set writerId ⟨some mySha, theirSha⟩)
      else neededRanges mine rest need

def newWriters (mine theirs : Frontier) : List JsString :=
  theirs.keys.filter fun writerId => !mine.has writerId

def computeSyncDelta (localFrontier remoteFrontier : Frontier) : SyncDelta where
  needFromRemote := neededRanges localFrontier remoteFrontier.entries .empty
  needFromLocal := neededRanges remoteFrontier localFrontier.entries .empty
  newWritersForLocal := newWriters localFrontier remoteFrontier
  newWritersForRemote := newWriters remoteFrontier localFrontier

/-! ### Frontiers as plain objects -/

/-- `obj[writerId] = sha` on an object literal: assigning a string to `__proto__` has no effect. -/
def assignProperty (obj : Frontier) (writerId sha : JsString) : Frontier :=
  if writerId = protoKey then obj else obj.set writerId sha

def frontierToObject (frontier : Frontier) : Frontier :=
  frontier.entries.foldl (fun obj entry => assignProperty obj entry.1 entry.2) .empty

def objectToFrontier (obj : Frontier) : Frontier := .ofList obj.entries

/-- `validateWriterId`: at most 64 of `[A-Za-z0-9._-]`, and no two dots in a row. -/
def isValidWriterId (id : JsString) : Bool :=
  decide (id ≠ [] ∧ id.length ≤ 64) && !includes (lit "..") id &&
    id.all fun u => (lit "ABCDEFGHIJKLMNOPQRSTUVWXYZabcdefghijklmnopqrstuvwxyz0123456789._-").contains u

/-! ### Loading patches -/

/-- What the responder reads from. A history adapter may offer its own ancestry check. -/
structure Persistence (V : Type) where
  store : CommitStore V
  hasIsAncestor : Bool

def CommitStore.has (store : CommitStore V) (sha : JsString) : Bool :=
  decide (sha ∈ store.commits.map Prod.fst)

/-- `merge-base --is-ancestor`: exit code one is an answer, an unknown commit is an error. -/
def Persistence.isAncestor (p : Persistence V) (potentialAncestor descendant : JsString) :
    Except Failure Bool :=
  if p.store.has potentialAncestor && p.store.has descendant then
    .ok (p.store.isAncestor potentialAncestor descendant)
  else .error ⟨.gitError, lit "128", lit "fatal: Not a valid commit name"⟩

/-- The loop of `loadPatchRange` with the commit where it ends. -/
def loadRangeLoop (fromSha : Option JsString) :
    List (JsString × Commit V) → Option JsString → List (PatchEntry V) × Option JsString
  | _, none => ([], none)
  | [], some cur => ([], if some cur = fromSha then some cur else none)
  | (sha, commit) :: older, some cur =>
    if some cur = fromSha then ([], some cur)
    else if sha = cur then
      let before := loadRangeLoop fromSha older commit.parent
      (before.1 ++ [⟨commit.patch, sha⟩], before.2)
    else loadRangeLoop fromSha older (some cur)

/-- The value of a sha that counts as given. -/
def givenSha (sha : Option JsString) : Option JsString := sha.filter fun text => decide (text ≠ [])

def syncDivergence (writerId fromSha toSha : JsString) : Failure :=
  ⟨.syncError, lit "E_SYNC_DIVERGENCE", lit "Divergence detected: " ++ toSha ++
    lit " does not descend from " ++ fromSha ++ lit " for writer " ++ writerId⟩

def loadPatchRange (store : CommitStore V) (writerId : JsString) (fromSha : Option JsString)
    (toSha : JsString) : Except Failure (List (PatchEntry V)) :=
  let walked := loadRangeLoop fromSha store.commits (some toSha)
  match givenSha fromSha, walked.2 with
  | some fromSha, none => .error (syncDivergence writerId fromSha toSha)
  | _, _ => .ok walked.1

/-! ### Requests and responses -/

structure SyncPageRequest where
  maxPatches : Option Nat
  cursorOffset : Nat

/-- `normalizeSyncPageRequest(undefined)`. -/
def SyncPageRequest.unbounded : SyncPageRequest := ⟨none, 0⟩

structure SyncRequest where
  frontier : Frontier
  page : SyncPageRequest

structure SyncPatchEntry (V : Type) where
  writerId : JsString
  entry : PatchEntry V

structure SkippedWriterEntry where
  writerId : JsString
  reason : JsString
  localSha : JsString
  remoteSha : Option JsString
  deriving DecidableEq

structure SyncResponse (V : Type) where
  frontier : Frontier
  patches : List (SyncPatchEntry V)
  skippedWriters : List SkippedWriterEntry
  cursor : Option JsString
  hasMore : Bool

/-- The request of a frontier without a page budget. -/
def createSyncRequest (frontier : Frontier) : SyncRequest :=
  ⟨frontierToObject frontier, .unbounded⟩

/-- The variables of the loop in `processSyncRequest`. -/
structure SyncProgress (V : Type) where
  patches : List (SyncPatchEntry V)
  skippedWriters : List SkippedWriterEntry
  seenPatches : Nat
  hasMore : Bool
  cursor : Option JsString

def SyncProgress.start : SyncProgress V := ⟨[], [], 0, false, none⟩

def appendPatchForPage (page : SyncPageRequest) (progress : SyncProgress V)
    (item : SyncPatchEntry V) : SyncProgress V :=
  if progress.seenPatches < page.cursorOffset then
    { progress with seenPatches := progress.seenPatches + 1, hasMore := false, cursor := none }
  else if page.maxPatches.any fun budget => decide (budget ≤ progress.patches.length) then
    { progress with hasMore := true, cursor := some (numberText progress.seenPatches) }
  else
    { progress with
      patches := progress.patches ++ [item]
      seenPatches := progress.seenPatches + 1
      hasMore := false
      cursor := none }

/-- The loop over the patches of one writer; it stops when the page is full. -/
def appendPatches (page : SyncPageRequest) (writerId : JsString) :
    List (PatchEntry V) → SyncProgress V → SyncProgress V
  | [], progress => progress
  | entry :: rest, progress =>
    let next := appendPatchForPage page progress ⟨writerId, entry⟩
    if next.hasMore then next else appendPatches page writerId rest next

def isSyncDivergence (e : Failure) : Bool :=
  (decide (e.kind = .syncError) && decide (e.code = lit "E_SYNC_DIVERGENCE")) ||
    includes (lit "Divergence detected") e.message

/-- The `try` block of one writer; `none` is a failed ancestry check. -/
def loadWriterPatches (p : Persistence V) (writerId : JsString) (range : WriterRange) :
    Except Failure (Option (List (PatchEntry V))) :=
  let load := some <$> loadPatchRange p.store writerId range.fromSha range.toSha
  match givenSha range.fromSha, p.hasIsAncestor with
  | some fromSha, true => do
    let isAnc ← p.isAncestor fromSha range.toSha
    if isAnc then load else pure none
  | _, _ => load

def skippedWriter (writerId : JsString) (range : WriterRange) (remoteSha : Option JsString) :
    SkippedWriterEntry :=
  ⟨writerId, lit "E_SYNC_DIVERGENCE", range.toSha, remoteSha⟩

def processWriter (p : Persistence V) (page : SyncPageRequest) (writerId : JsString)
    (range : WriterRange) (progress : SyncProgress V) : Except Failure (SyncProgress V) :=
  match loadWriterPatches p writerId range with
  | .ok (some entries) => .ok (appendPatches page writerId entries progress)
  | .ok none => .ok { progress with
      skippedWriters := progress.skippedWriters ++ [skippedWriter writerId range range.fromSha] }
  | .error e =>
    if isSyncDivergence e then
      .ok { progress with
        skippedWriters :=
          progress.skippedWriters ++ [skippedWriter writerId range (some (range.fromSha.getD []))] }
    else .error e

def processRanges (p : Persistence V) (page : SyncPageRequest) :
    List (JsString × WriterRange) → SyncProgress V → Except Failure (SyncProgress V)
  | [], progress => .ok progress
  | (writerId, range) :: rest, progress =>
    if progress.hasMore then .ok progress
    else do
      let next ← processWriter p page writerId range progress
      processRanges p page rest next

/-- `collate` sorts the writers by `localeCompare`. -/
def processSyncRequest (collate : List (JsString × WriterRange) → List (JsString × WriterRange))
    (request : SyncRequest) (localFrontier : Frontier) (p : Persistence V) :
    Except Failure (SyncResponse V) := do
  let delta := computeSyncDelta (objectToFrontier request.frontier) localFrontier
  let progress ← processRanges p request.page (collate delta.needFromRemote.entries) .start
  pure
    { frontier := frontierToObject localFrontier
      patches := progress.patches
      skippedWriters := progress.skippedWriters
      cursor := if progress.hasMore then progress.cursor else none
      hasMore := progress.hasMore }

/-! ### Applying a response -/

/-- `isKnownRawOp`: the six wire types. -/
def isKnownRawOp : PatchOp V → Bool
  | .runtime canonical =>
    match canonical.op with
    | .nodePropSet .. | .edgePropSet .. => false
    | _ => true
  | .propSet _ _ => true
  | .decoded raw =>
    match OpType.ofName raw.type with
    | none | some .nodePropSet | some .edgePropSet => false
    | _ => true

def PatchOp.typeName : PatchOp V → JsString
  | .runtime canonical =>
    match canonical.op with
    | .nodeAdd .. => lit "NodeAdd"
    | .nodeRemove .. => lit "NodeRemove"
    | .edgeAdd .. => lit "EdgeAdd"
    | .edgeRemove .. => lit "EdgeRemove"
    | .nodePropSet .. => lit "NodePropSet"
    | .edgePropSet .. => lit "EdgePropSet"
    | .blobValue .. => lit "BlobValue"
  | .propSet _ _ => lit "PropSet"
  | .decoded raw => raw.type

/-- Rebuilds the patch, with its context as a version vector. -/
def normalizePatch (patch : PatchLike V) : Except Failure (PatchLike V) := do
  let context ← patch.context.toVersionVector
  if patch.writer = [] then
    .error ⟨.patchError, lit "E_PATCH_WRITER", lit "Patch writer must be a non-empty string"⟩
  else if patch.lamport < 0 then
    .error ⟨.patchError, lit "E_PATCH_LAMPORT", lit "Patch lamport must be a non-negative integer"⟩
  else pure { patch with context := .vector context }

def assertKnownRawOps (sha : JsString) : List (PatchOp V) → Except Failure Unit
  | [] => .ok ()
  | op :: rest =>
    if isKnownRawOp op then assertKnownRawOps sha rest
    else .error ⟨.schemaUnsupportedError, lit "E_SCHEMA_UNSUPPORTED",
      lit "Patch " ++ sha ++ lit " contains unknown op type: " ++ op.typeName⟩

def applySyncPatch (state : WarpState V) (entry : PatchEntry V) : Except Failure (WarpState V) := do
  let patch ← normalizePatch entry.patch
  assertKnownRawOps entry.sha patch.ops
  applyFast state ⟨patch, entry.sha⟩

def applyWriterPatches : List (PatchEntry V) → WarpState V → Except Failure (WarpState V)
  | [], state => .ok state
  | entry :: rest, state => do
    let next ← applySyncPatch state entry
    applyWriterPatches rest next

def groupByWriter (patches : List (SyncPatchEntry V)) : OrdMap JsString (List (PatchEntry V)) :=
  patches.foldl (fun groups item =>
    groups.set item.writerId ((groups.get item.writerId).getD [] ++ [item.entry])) .empty

structure ApplySyncResult (V : Type) where
  state : WarpState V
  frontier : Frontier
  applied : Nat

/-- The loop over the writers of the response. -/
def applyGroups : List (JsString × List (PatchEntry V)) → ApplySyncResult V →
    Except Failure (ApplySyncResult V)
  | [], result => .ok result
  | (writerId, writerPatches) :: rest, result => do
    let state ← applyWriterPatches writerPatches result.state
    let frontier := match writerPatches.getLast? with
      | some last => result.frontier.set writerId last.sha
      | none => result.frontier
    applyGroups rest ⟨state, frontier, result.applied + writerPatches.length⟩

def applySyncResponse (response : SyncResponse V) (state : WarpState V) (frontier : Frontier) :
    Except Failure (ApplySyncResult V) :=
  applyGroups (groupByWriter response.patches).entries ⟨state, frontier, 0⟩

end GitWarp
