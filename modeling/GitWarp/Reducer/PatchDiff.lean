import GitWarp.Lib.NetChange
import GitWarp.Reducer.JoinReducer

/-!
# Diff tracking

The reducer's diff mode: each operation takes a snapshot before it mutates the
state and reports what became alive, what stopped being alive and which property
values changed; the reports of a patch form its diff, and the diffs of successive
patches are merged by cancelling elements listed on both sides.
-/
namespace GitWarp

open Js Lib KeyCodec

/-- What the diff needs of property values: the value read where there is none, and
strict equality. Strictly equal values are the same value. -/
class StrictEq (V : Type) where
  undefined : V
  strictEq : V → V → Bool
  eq_of_strictEq : ∀ a b, strictEq a b = true → a = b

variable {V : Type} [StrictEq V]

structure PropDiffEntry (V : Type) where
  nodeId : JsString
  key : JsString
  value : V
  prevValue : V

structure PatchDiff (V : Type) where
  nodesAdded : List JsString
  nodesRemoved : List JsString
  edgesAdded : List EdgeParts
  edgesRemoved : List EdgeParts
  propsChanged : List (PropDiffEntry V)

namespace PatchDiff

def empty : PatchDiff V := ⟨[], [], [], [], []⟩

/-- `requireNonEmptyString`. -/
def requireNonEmptyString (field : String) (value : JsString) : Except Failure Unit :=
  if value = [] then
    .error ⟨.patchError, lit "E_PATCH_DIFF_FIELD", lit field ++ lit " must be a non-empty string"⟩
  else .ok ()

def requireEdge (e : EdgeParts) : Except Failure Unit := do
  requireNonEmptyString "from" e.src
  requireNonEmptyString "to" e.dst
  requireNonEmptyString "label" e.label

def requireProp (e : PropDiffEntry V) : Except Failure Unit := do
  requireNonEmptyString "nodeId" e.nodeId
  requireNonEmptyString "key" e.key

def requireAll {A : Type} (check : A → Except Failure Unit) : List A → Except Failure Unit
  | [] => .ok ()
  | a :: rest => do
    check a
    requireAll check rest

/-- The constructor: every field of every entry must be non-empty. -/
def create (fields : PatchDiff V) : Except Failure (PatchDiff V) := do
  requireAll (requireNonEmptyString "nodeId") fields.nodesAdded
  requireAll (requireNonEmptyString "nodeId") fields.nodesRemoved
  requireAll requireEdge fields.edgesAdded
  requireAll requireEdge fields.edgesRemoved
  requireAll requireProp fields.propsChanged
  pure fields

def edgeKey (e : EdgeParts) : JsString := encodeEdgeKey e.src e.dst e.label

/-- The key under which `deduplicateProps` keeps one entry. -/
def propKey (e : PropDiffEntry V) : JsString := encodePropKey e.nodeId e.key

def deduplicateProps (allProps : List (PropDiffEntry V)) : List (PropDiffEntry V) :=
  (OrdMap.ofList (allProps.map fun entry => (propKey entry, entry))).values

def mergeDiffs (a b : PatchDiff V) : Except Failure (PatchDiff V) :=
  let allAdded := a.nodesAdded ++ b.nodesAdded
  let allRemoved := a.nodesRemoved ++ b.nodesRemoved
  let allEdgesAdded := a.edgesAdded ++ b.edgesAdded
  let allEdgesRemoved := a.edgesRemoved ++ b.edgesRemoved
  create
    { nodesAdded := cancel id allAdded allRemoved
      nodesRemoved := cancel id allRemoved allAdded
      edgesAdded := cancel edgeKey allEdgesAdded allEdgesRemoved
      edgesRemoved := cancel edgeKey allEdgesRemoved allEdgesAdded
      propsChanged := deduplicateProps (a.propsChanged ++ b.propsChanged) }

end PatchDiff

/-! ### Which elements carry the removed dots -/

namespace DiffCalculator

/-- The loop over one element's dots; it stops when no target remains. -/
def matchDots (targetDots : OrdSet JsString) (element : JsString) :
    List JsString → OrdMap JsString JsString → Nat → OrdMap JsString JsString × Nat
  | [], dotToElement, remaining => (dotToElement, remaining)
  | d :: rest, dotToElement, remaining =>
    if targetDots.has d then
      if remaining - 1 = 0 then (dotToElement.set d element, 0)
      else matchDots targetDots element rest (dotToElement.set d element) (remaining - 1)
    else matchDots targetDots element rest dotToElement remaining

/-- The loop over the entries. -/
def matchEntries (targetDots : OrdSet JsString) :
    List (JsString × OrdSet JsString) → OrdMap JsString JsString → Nat → OrdMap JsString JsString
  | [], dotToElement, _ => dotToElement
  | (element, dots) :: rest, dotToElement, remaining =>
    if remaining = 0 then dotToElement
    else
      let found := matchDots targetDots element dots.toList dotToElement remaining
      matchEntries targetDots rest found.1 found.2

def buildDotToElement (orset : ORSet) (targetDots : OrdSet JsString) : OrdMap JsString JsString :=
  matchEntries targetDots orset.entries.entries .empty targetDots.size

/-- The loop over the observed dots. -/
def aliveElements (orset : ORSet) (dotToElement : OrdMap JsString JsString) :
    List JsString → OrdSet JsString → OrdSet JsString
  | [], result => result
  | d :: rest, result =>
    match dotToElement.get d with
    | none => aliveElements orset dotToElement rest result
    | some element =>
      if !result.has element && orset.contains element then
        aliveElements orset dotToElement rest (result.add element)
      else aliveElements orset dotToElement rest result

def aliveElementsForDots (orset : ORSet) (observedDots : OrdSet JsString) : OrdSet JsString :=
  aliveElements orset (buildDotToElement orset observedDots) observedDots.toList .empty

/-- The elements that were alive and no longer are, as `collectNodeRemovals` and
`collectEdgeRemovals` push them. -/
def noLongerAlive (orset : ORSet) (aliveBefore : OrdSet JsString) : List JsString :=
  aliveBefore.toList.filter fun element => !orset.contains element

end DiffCalculator

/-! ### Snapshots and reports -/

inductive SnapshotBeforeOp (V : Type)
  | nothing
  | node (nodeWasAlive : Bool)
  | nodes (aliveBeforeNodes : OrdSet JsString)
  | edge (edgeWasAlive : Bool) (edgeKey : JsString)
  | edges (aliveBeforeEdges : OrdSet JsString)
  | prop (prevPropValue : V) (propKey : JsString)

/-- The register's value, or `undefined` where there is no register. -/
def WarpState.propValue (s : WarpState V) (encodedKey : JsString) : V :=
  match s.prop.get encodedKey with
  | some register => register.value
  | none => StrictEq.undefined

def Op.snapshot (op : Op V) (s : WarpState V) : SnapshotBeforeOp V :=
  match op with
  | .nodeAdd node _ => .node (s.nodeAlive.contains node)
  | .nodeRemove _ observedDots =>
    .nodes (DiffCalculator.aliveElementsForDots s.nodeAlive (OrdSet.ofList observedDots))
  | .edgeAdd src dst label _ =>
    .edge (s.edgeAlive.contains (encodeEdgeKey src dst label)) (encodeEdgeKey src dst label)
  | .edgeRemove _ _ _ observedDots =>
    .edges (DiffCalculator.aliveElementsForDots s.edgeAlive (OrdSet.ofList observedDots))
  | .nodePropSet node key _ => .prop (s.propValue (encodePropKey node key)) (encodePropKey node key)
  | .edgePropSet src dst label key _ =>
    .prop (s.propValue (encodeEdgePropKey src dst label key)) (encodeEdgePropKey src dst label key)
  | .blobValue _ _ => .nothing

/-- `accumulatePropDiff`. -/
def accumulatePropDiff (diff : PatchDiff V) (s : WarpState V) (nodeId key propKey : JsString)
    (prev : V) : PatchDiff V :=
  if StrictEq.strictEq (s.propValue propKey) prev then diff
  else { diff with
    propsChanged := diff.propsChanged ++ [⟨nodeId, key, s.propValue propKey, prev⟩] }

/-- The report of an operation, from its snapshot and the state after it. -/
def Op.accumulate (op : Op V) (diff : PatchDiff V) (s : WarpState V) :
    SnapshotBeforeOp V → PatchDiff V
  | .node nodeWasAlive =>
    match op with
    | .nodeAdd node _ =>
      if !nodeWasAlive && s.nodeAlive.contains node then
        { diff with nodesAdded := diff.nodesAdded ++ [node] }
      else diff
    | _ => diff
  | .nodes aliveBeforeNodes =>
    { diff with nodesRemoved :=
        diff.nodesRemoved ++ DiffCalculator.noLongerAlive s.nodeAlive aliveBeforeNodes }
  | .edge edgeWasAlive edgeKey =>
    match op with
    | .edgeAdd src dst label _ =>
      if !edgeWasAlive && s.edgeAlive.contains edgeKey then
        { diff with edgesAdded := diff.edgesAdded ++ [⟨src, dst, label⟩] }
      else diff
    | _ => diff
  | .edges aliveBeforeEdges =>
    { diff with edgesRemoved := diff.edgesRemoved ++
        (DiffCalculator.noLongerAlive s.edgeAlive aliveBeforeEdges).map decodeEdgeKey }
  | .prop prevPropValue propKey =>
    match op with
    | .nodePropSet node key _ => accumulatePropDiff diff s node key propKey prevPropValue
    | .edgePropSet src dst label key _ =>
      accumulatePropDiff diff s (encodeEdgeKey src dst label) key propKey prevPropValue
    | _ => diff
  | .nothing => diff

/-! ### The reducer in diff mode -/

/-- The operation loop of `applyWithDiff`. -/
def applyOpsWithDiff (entry : PatchEntry V) : Nat → List (PatchOp V) → WarpState V →
    PatchDiff V → Except Failure (WarpState V × PatchDiff V)
  | _, [], s, diff => .ok (s, diff)
  | i, rawOp :: rest, s, diff => do
    assertKnownReducerOp rawOp
    match ← normalizeRawOp rawOp with
    | none => applyOpsWithDiff entry (i + 1) rest s diff
    | some canonOp =>
      let eventId ← EventId.create entry.patch.lamport entry.patch.writer entry.sha i
      let before := canonOp.op.snapshot s
      let mutated := canonOp.op.mutate s eventId
      applyOpsWithDiff entry (i + 1) rest mutated (canonOp.op.accumulate diff mutated before)

def applyWithDiff (s : WarpState V) (entry : PatchEntry V) :
    Except Failure (WarpState V × PatchDiff V) := do
  let (mutated, diff) ← applyOpsWithDiff entry 0 entry.patch.ops s .empty
  let folded ← mutated.foldPatch entry.patch
  let diff ← PatchDiff.create diff
  pure (folded, diff)

/-- The loop of `reducePatches` with `trackDiff`. -/
def reduceWithDiffFrom : List (PatchEntry V) → WarpState V → PatchDiff V →
    Except Failure (WarpState V × PatchDiff V)
  | [], s, merged => .ok (s, merged)
  | entry :: rest, s, merged => do
    let (next, diff) ← applyWithDiff s entry
    let merged ← PatchDiff.mergeDiffs merged diff
    reduceWithDiffFrom rest next merged

def reducePatchesWithDiff (entries : List (PatchEntry V)) (s : WarpState V) :
    Except Failure (WarpState V × PatchDiff V) :=
  reduceWithDiffFrom entries s .empty

end GitWarp
