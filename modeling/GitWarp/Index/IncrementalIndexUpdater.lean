import GitWarp.Index.IndexTree
import GitWarp.Reducer.ExactDiff

/-!
# Updating the index by a diff

`applyDiff` brings an index tree from one state to the next by the diff of the
reduction between them: nodes first, then the edges of removed nodes, added and
removed edges, the edges of nodes that the index knew before, and properties.
-/
namespace GitWarp

open Js Lib KeyCodec

variable {V : Type}

namespace IndexTree

/-! ### Nodes -/

/-- Sets the alive bit, under the number of old if the node has one. -/
def handleNodeAdd (t : IndexTree V) (nodeId : JsString) : Except Failure (IndexTree V) :=
  (t.allocate nodeId ⟨.indexError, lit "E_SHARD_ID_OVERFLOW",
    lit "Shard " ++ shardText (computeShardKey nodeId) ++ lit " exceeded 2^24 local IDs"⟩).map
    fun result => { result.2 with alive := result.2.alive.add result.1 }

def handleNodeAdds : List JsString → IndexTree V → Except Failure (IndexTree V)
  | [], t => .ok t
  | nodeId :: rest, t => do
    let added ← t.handleNodeAdd nodeId
    handleNodeAdds rest added

/-- Clears the alive bit; the number stays. -/
def handleNodeRemove (t : IndexTree V) (nodeId : JsString) : IndexTree V :=
  match t.nodeToGlobal.get nodeId with
  | none => t
  | some globalId => { t with alive := t.alive.delete globalId }

/-- Takes the dead number out of the bitmap of each peer whose node is known. -/
def removePeerReferences (t : IndexTree V) (bucket : Bucket) (deadGid : Nat) (peers : List Nat)
    (peerData : EdgeBitmaps) : EdgeBitmaps :=
  peers.foldl (fun data peerGid =>
    match t.nodeOf peerGid, data.get (bucket, peerGid) with
    | some _, some bitmap => data.set (bucket, peerGid) (bitmap.delete deadGid)
    | _, _ => data) peerData

/-- Empties the bitmaps of the dead number in the first store and removes it from its peers
in the second. -/
def purgeDirection (t : IndexTree V) (deadGid : Nat) (primary peer : EdgeBitmaps) :
    EdgeBitmaps × EdgeBitmaps :=
  let buckets := (primary.keys.filter fun key => key.2 = deadGid).map Prod.fst
  buckets.foldl (fun stores bucket =>
    let peers := (stores.1.members (bucket, deadGid)).toList
    (stores.1.set (bucket, deadGid) .empty,
      t.removePeerReferences bucket deadGid peers stores.2)) (primary, peer)

def purgeNodeEdges (t : IndexTree V) (deadNodeId : JsString) : IndexTree V :=
  match t.nodeToGlobal.get deadNodeId with
  | none => t
  | some deadGid =>
    let out := t.purgeDirection deadGid t.fwd t.rev
    let back := t.purgeDirection deadGid out.2 out.1
    { t with fwd := back.2, rev := back.1 }

/-! ### Edges -/

/-- `_ensureLabel`: a new label gets the number after the greatest one. -/
def ensureLabel (t : IndexTree V) (label : JsString) : IndexTree V :=
  if t.labels.has label then t
  else { t with labels := t.labels.set label ((t.labels.values.map (· + 1)).foldl max 0) }

def handleEdgeAdd (t : IndexTree V) (edge : EdgeParts) : IndexTree V :=
  match t.nodeToGlobal.get edge.src, t.nodeToGlobal.get edge.dst, t.labels.get edge.label with
  | some fromGid, some toGid, some labelId => t.addToBitmaps fromGid toGid labelId
  | _, _, _ => t

/-- `_recomputeAllBucket`: the union of the bitmaps of all labels. -/
def recomputeAllBucket (labels : OrdMap JsString Nat) (owner : Nat) (data : EdgeBitmaps) :
    EdgeBitmaps :=
  data.set (.all, owner) (labels.values.foldl
    (fun merged labelId => merged.addAll (data.members (.label labelId, owner)).toList) .empty)

def handleEdgeRemove (t : IndexTree V) (edge : EdgeParts) : IndexTree V :=
  match t.nodeToGlobal.get edge.src, t.nodeToGlobal.get edge.dst, t.labels.get edge.label with
  | some fromGid, some toGid, some labelId =>
    { t with
      fwd := recomputeAllBucket t.labels fromGid (t.fwd.removeAt (.label labelId, fromGid) toGid)
      rev := recomputeAllBucket t.labels toGid (t.rev.removeAt (.label labelId, toGid) fromGid) }
  | _, _, _ => t

/-- Adds an edge of the state, with its label, if both endpoints are alive. -/
def addVisibleEdge (s : WarpState V) (t : IndexTree V) (edge : EdgeParts) : IndexTree V :=
  if s.nodeAlive.contains edge.src && s.nodeAlive.contains edge.dst then
    (t.ensureLabel edge.label).handleEdgeAdd edge
  else t

/-- The alive edges at the nodes that were added again. -/
def collectReaddedEdgeKeys (s : WarpState V) (readded : List JsString) : List JsString :=
  (OrdSet.ofList (readded.flatMap fun nodeId => s.edgeAlive.elements.filter fun edgeKey =>
    (decodeEdgeKey edgeKey).src = nodeId ∨ (decodeEdgeKey edgeKey).dst = nodeId)).toList

/-- The edges at re-added nodes that the diff does not add by itself. -/
def restoreEdges (s : WarpState V) (diff : PatchDiff V) (readded : List JsString)
    (t : IndexTree V) : IndexTree V :=
  let diffEdges := OrdSet.ofList (diff.edgesAdded.map PatchDiff.edgeKey)
  (collectReaddedEdgeKeys s readded).foldl (fun t edgeKey =>
    if diffEdges.has (PatchDiff.edgeKey (decodeEdgeKey edgeKey)) then t
    else addVisibleEdge s t (decodeEdgeKey edgeKey)) t

/-! ### The update -/

def PatchDiff.isEmpty (diff : PatchDiff V) : Bool :=
  diff.nodesAdded.isEmpty && diff.nodesRemoved.isEmpty && diff.edgesAdded.isEmpty &&
    diff.edgesRemoved.isEmpty && diff.propsChanged.isEmpty

/-- `_handleProps`: an entry of an edge is stored under the encoded edge. -/
def handleProps (props : List (PropDiffEntry V)) (t : IndexTree V) : IndexTree V :=
  props.foldl (fun t prop => t.addProperty prop.nodeId prop.key prop.value) t

/-- `applyDiff`, over `computeDirtyShards`: the tree with its dirty shards replaced. -/
def applyDiff (t : IndexTree V) (diff : PatchDiff V) (s : WarpState V) :
    Except Failure (IndexTree V) :=
  if PatchDiff.isEmpty diff then .ok t
  else do
    let readded := diff.nodesAdded.filter t.nodeToGlobal.has
    let added ← handleNodeAdds diff.nodesAdded t
    let removed := diff.nodesRemoved.foldl handleNodeRemove added
    let purged := diff.nodesRemoved.foldl purgeNodeEdges removed
    let linked := diff.edgesAdded.foldl (addVisibleEdge s) purged
    let unlinked := diff.edgesRemoved.foldl handleEdgeRemove linked
    pure (handleProps diff.propsChanged (restoreEdges s diff readded unlinked))

end IndexTree
end GitWarp
