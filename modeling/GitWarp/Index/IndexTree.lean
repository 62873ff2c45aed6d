import GitWarp.Lib.SetFamily
import GitWarp.State.StateSerializer
import GitWarp.Trie.RouteKey

/-!
# The index of a graph

The index gives every node a number, keeps the numbers of the alive nodes, and
for every label and node the numbers of its neighbours in both directions, next
to the properties of nodes. Its files hold the parts of the shards; the model
keeps them together. Bitmaps are sets of numbers.
-/
namespace GitWarp

open Js Lib KeyCodec

variable {V : Type}

/-! ### Shards -/

/-- The value of a hexadecimal digit of either case. -/
def hexValue (u : CodeUnit) : Option Nat :=
  if 48 ≤ u.val ∧ u.val ≤ 57 then some (u.val - 48)
  else if 97 ≤ u.val ∧ u.val ≤ 102 then some (u.val - 87)
  else if 65 ≤ u.val ∧ u.val ≤ 70 then some (u.val - 55)
  else none

/-- `HEX_RE`: exactly forty or sixty-four hexadecimal digits. -/
def isHexSha (id : JsString) : Bool :=
  decide (id.length = 40 ∨ id.length = 64) && id.all fun u => (hexValue u).isSome

def fnv1aBytes (bytes : Bytes) : Nat :=
  bytes.foldl (fun hash byte => (hash ^^^ byte.toNat) * 0x01000193 % 2 ^ 32) 0x811c9dc5

/-- The shard as a byte; the source writes it with two hexadecimal digits. -/
def computeShardKey (id : JsString) : Fin 256 :=
  if isHexSha id then Fin.ofNat 256 ((id.take 2).foldl (fun n u => 16 * n + (hexValue u).getD 0) 0)
  else Fin.ofNat 256 (fnv1aBytes (textEncode id))

def hexDigit (n : Nat) : CodeUnit := digitUnit (Nat.digitChar n)

def shardText (k : Fin 256) : JsString := [hexDigit (k.val / 16), hexDigit (k.val % 16)]

/-! ### The tree -/

/-- The bitmaps of an owner: one of each label and one of all labels. -/
inductive Bucket
  | all
  | label (id : Nat)
  deriving DecidableEq

abbrev EdgeBitmaps := OrdMap (Bucket × Nat) (OrdSet Nat)

structure IndexTree (V : Type) where
  nodeToGlobal : OrdMap JsString Nat
  nextLocalId : Fin 256 → Nat
  alive : OrdSet Nat
  labels : OrdMap JsString Nat
  fwd : EdgeBitmaps
  rev : EdgeBitmaps
  props : OrdMap JsString (OrdMap JsString V)

namespace IndexTree

def empty : IndexTree V := ⟨.empty, fun _ => 0, .empty, .empty, .empty, .empty, .empty⟩

def maxLocalId : Nat := 2 ^ 24

/-- The number of a node, with a new one for a node that has none. -/
def allocate (t : IndexTree V) (nodeId : JsString) (overflow : Failure) :
    Except Failure (Nat × IndexTree V) :=
  match t.nodeToGlobal.get nodeId with
  | some existing => .ok (existing, t)
  | none =>
    let shard := computeShardKey nodeId
    let next := t.nextLocalId shard
    if maxLocalId ≤ next then .error overflow
    else
      let globalId := shard.val * maxLocalId + next
      .ok (globalId, { t with
        nodeToGlobal := t.nodeToGlobal.set nodeId globalId
        nextLocalId := Function.update t.nextLocalId shard (next + 1) })

/-- The four bitmaps of an edge, once its numbers are known. -/
def addToBitmaps (t : IndexTree V) (fromGid toGid labelId : Nat) : IndexTree V :=
  { t with
    fwd := (t.fwd.addAt (.all, fromGid) toGid).addAt (.label labelId, fromGid) toGid
    rev := (t.rev.addAt (.all, toGid) fromGid).addAt (.label labelId, toGid) fromGid }

def addProperty (t : IndexTree V) (nodeId key : JsString) (value : V) : IndexTree V :=
  { t with props := t.props.set nodeId (((t.props.get nodeId).getD .empty).set key value) }

/-! ### Building from a state -/

def registerNode (t : IndexTree V) (nodeId : JsString) : Except Failure (IndexTree V) :=
  (t.allocate nodeId ⟨.indexError, lit "E_SHARD_ID_OVERFLOW",
    lit "Shard '" ++ shardText (computeShardKey nodeId) ++
      lit "' exceeded max local ID (16777216)"⟩).map Prod.snd

def markAlive (t : IndexTree V) (nodeId : JsString) : IndexTree V :=
  match t.nodeToGlobal.get nodeId with
  | none => t
  | some globalId => { t with alive := t.alive.add globalId }

def registerNodes : List JsString → IndexTree V → Except Failure (IndexTree V)
  | [], t => .ok t
  | nodeId :: rest, t => do
    let registered ← t.registerNode nodeId
    registerNodes rest (registered.markAlive nodeId)

/-- Labels are numbered from zero in the order of their registration. -/
def registerLabel (t : IndexTree V) (label : JsString) : IndexTree V :=
  if t.labels.has label then t else { t with labels := t.labels.set label t.labels.size }

def addEdge (t : IndexTree V) (edge : EdgeParts) : IndexTree V :=
  match t.nodeToGlobal.get edge.src, t.nodeToGlobal.get edge.dst, t.labels.get edge.label with
  | some fromGlobal, some toGlobal, some labelId => t.addToBitmaps fromGlobal toGlobal labelId
  | _, _, _ => t

/-- `_populateVisibleData`: alive nodes, then the labels and edges that are visible, then the
properties of alive nodes. -/
def build (s : WarpState V) : Except Failure (IndexTree V) := do
  let edges := sortBy edgeOrder (visibleEdges s)
  let registered ← registerNodes (sortBy id s.nodeAlive.elements) .empty
  let uniqueLabels := sortBy id (OrdSet.ofList (edges.map EdgeParts.label)).toList
  let labelled := uniqueLabels.foldl registerLabel registered
  let linked := edges.foldl addEdge labelled
  pure ((visibleProps s).foldl (fun t prop => t.addProperty prop.node prop.key prop.value) linked)

/-! ### Reading -/

/-- `getNodeId`. -/
def nodeOf (t : IndexTree V) (globalId : Nat) : Option JsString :=
  (t.nodeToGlobal.entries.find? fun entry => entry.2 = globalId).map Prod.fst

/-- The label of a number, the empty text where there is none. -/
def labelOf (t : IndexTree V) (labelId : Nat) : JsString :=
  ((t.labels.entries.find? fun entry => entry.2 = labelId).map Prod.fst).getD []

def isAlive (t : IndexTree V) (nodeId : JsString) : Bool :=
  match t.nodeToGlobal.get nodeId with
  | none => false
  | some globalId => t.alive.has globalId

structure NeighborEdge where
  neighborId : JsString
  label : JsString
  deriving DecidableEq

def expandBitmap (t : IndexTree V) (label : JsString) (bitmap : OrdSet Nat) : List NeighborEdge :=
  (bitmap.toList.filterMap t.nodeOf).map fun neighborId => ⟨neighborId, label⟩

inductive Direction
  | out
  | incoming
  | both
  deriving DecidableEq

/-- The bitmaps of every label of an owner. -/
def resolveAllLabels (t : IndexTree V) (store : EdgeBitmaps) (globalId : Nat) : List NeighborEdge :=
  store.entries.flatMap fun entry =>
    match entry.1 with
    | (.label labelId, owner) =>
      if owner = globalId then t.expandBitmap (t.labelOf labelId) entry.2 else []
    | (.all, _) => []

def resolveFilteredEdges (t : IndexTree V) (store : EdgeBitmaps) (globalId : Nat)
    (filterLabelIds : List Nat) : List NeighborEdge :=
  filterLabelIds.flatMap fun labelId =>
    match store.get (.label labelId, globalId) with
    | none => []
    | some bitmap => t.expandBitmap (t.labelOf labelId) bitmap

/-- `getEdges` over one of the two stores. -/
def getEdges (t : IndexTree V) (store : EdgeBitmaps) (nodeId : JsString)
    (filterLabelIds : Option (List Nat)) : List NeighborEdge :=
  match t.nodeToGlobal.get nodeId with
  | none => []
  | some globalId =>
    match filterLabelIds with
    | none => t.resolveAllLabels store globalId
    | some ids => t.resolveFilteredEdges store globalId ids

def neighborOrder (e : NeighborEdge) : JsString ×ₗ JsString := toLex (e.neighborId, e.label)

/-- Keeps the first of each run of equal edges. -/
def dedupSorted : List NeighborEdge → List NeighborEdge
  | [] => []
  | [e] => [e]
  | e :: next :: rest =>
    if next = e then dedupSorted (e :: rest) else e :: dedupSorted (next :: rest)

/-- `getNeighbors` of the provider over the index. -/
def getNeighbors (t : IndexTree V) (nodeId : JsString) (direction : Direction)
    (labels : Option (OrdSet JsString)) : List NeighborEdge :=
  let labelIds := labels.map fun labels => labels.toList.filterMap t.labels.get
  if labelIds = some [] then []
  else
    match direction with
    | .out => sortBy neighborOrder (t.getEdges t.fwd nodeId labelIds)
    | .incoming => sortBy neighborOrder (t.getEdges t.rev nodeId labelIds)
    | .both => dedupSorted (sortBy neighborOrder
        (t.getEdges t.fwd nodeId labelIds ++ t.getEdges t.rev nodeId labelIds))

def malformedPropertyShard (shard : Fin 256) (reason : String) : Failure :=
  ⟨.indexError, lit "E_INDEX_SHARD_MALFORMED",
    lit "PropertyIndexReader: invalid shard 'props_" ++ shardText shard ++ lit ".cbor' (" ++
      lit reason ++ lit ")"⟩

/-- `isValidNodeId` and `isValidPropertyKey`. -/
def isIndexableName (text : JsString) : Bool := decide (text ≠ [] ∧ fieldSeparator ∉ text)

/-- The reader decodes the whole shard of a node: one entry that it does not accept fails
every node of the shard. -/
def decodePropertyShard (shard : Fin 256) :
    List (JsString × OrdMap JsString V) → Except Failure Unit
  | [] => .ok ()
  | (nodeId, bag) :: rest => do
    if !isIndexableName nodeId then .error (malformedPropertyShard shard "invalid node entry")
    else if !bag.keys.all isIndexableName then
      .error (malformedPropertyShard shard "legacy property bag must be an object")
    else decodePropertyShard shard rest

def getNodeProps (t : IndexTree V) (nodeId : JsString) :
    Except Failure (Option (OrdMap JsString V)) := do
  let shard := computeShardKey nodeId
  decodePropertyShard shard (t.props.entries.filter fun entry => computeShardKey entry.1 = shard)
  pure (t.props.get nodeId)

end IndexTree
end GitWarp
