import GitWarp.Query.GraphTopology

/-!
# Levels, transitive reduction and transitive closure

The levels follow the topological order and raise each neighbour above the node. The reduction
drops the edges whose target is met again from the successors' successors. The closure sweeps
from every node in reach.
-/
namespace GitWarp

open Js Lib

namespace Query

open IndexTree (NeighborEdge Direction)

variable (graph : FiniteGraph) (params : TopoParams)

/-! ### Levels -/

structure LevelScan where
  levelMap : OrdMap JsString Nat
  maxLevel : Nat

def raiseNeighbor (currentLevel : Nat) (scan : LevelScan) (neighborId : JsString) : LevelScan :=
  let neighborLevel := (scan.levelMap.get neighborId).getD 0
  let candidate := currentLevel + 1
  if neighborLevel < candidate then
    ⟨scan.levelMap.set neighborId candidate,
      if scan.maxLevel < candidate then candidate else scan.maxLevel⟩
  else scan

def raiseFrom (scan : LevelScan) (nodeId : JsString) : LevelScan :=
  (params.successors graph nodeId).foldl
    (raiseNeighbor ((scan.levelMap.get nodeId).getD 0)) scan

/-- Every sorted node starts at level zero. -/
def groundLevels (sorted : List JsString) : OrdMap JsString Nat :=
  sorted.foldl (fun levelMap nodeId =>
    if levelMap.has nodeId then levelMap else levelMap.set nodeId 0) .empty

def levelsOf (sorted : List JsString) : LevelScan :=
  sorted.foldl (raiseFrom graph params) ⟨groundLevels sorted, 0⟩

def levels : Except Failure LevelScan := do
  let run ← topologicalSort graph params true
  pure (levelsOf graph params run.sorted)

/-! ### Transitive reduction -/

structure GraphEdge where
  src : JsString
  dst : JsString
  label : JsString
  deriving DecidableEq

/-- The key under which a redundant pair is noted. -/
def redundantKey (u v : JsString) : JsString := u ++ 0 :: v

structure ReductionScan where
  sweep : Sweep JsString
  redundant : OrdSet JsString

/-- A node of the frontier: noted when a direct edge leads to it too, then expanded. -/
def reduceNode (u : JsString) (directSet : OrdSet JsString) (scan : ReductionScan)
    (nodeId : JsString) : ReductionScan where
  redundant :=
    if nodeId ∈ directSet then scan.redundant.add (redundantKey u nodeId) else scan.redundant
  sweep := (params.successors graph nodeId).foldl Sweep.meet scan.sweep

/-- The loop over the frontiers. Each turn takes nodes of the graph. -/
def reduceLoop (u : JsString) (directSet : OrdSet JsString) :
    Nat → ReductionScan → OrdSet JsString
  | 0, scan => scan.redundant
  | turns + 1, scan =>
    if scan.sweep.pending = [] then scan.redundant
    else
      reduceLoop u directSet turns
        (scan.sweep.pending.foldl (reduceNode graph params u directSet)
          { scan with sweep := ⟨scan.sweep.visited, []⟩ })

/-- The first frontier: the successors of the successors. -/
def secondFrontier (u : JsString) : Sweep JsString :=
  (params.successors graph u).foldl
    (fun sweep successorId => (params.successors graph successorId).foldl Sweep.meet sweep)
    ⟨.empty, []⟩

def reduceFrom (redundant : OrdSet JsString) (u : JsString) : OrdSet JsString :=
  if (params.neighbors graph u).length ≤ 1 then redundant
  else
    reduceLoop graph params u (.ofList (params.successors graph u)) graph.nodes.length
      ⟨secondFrontier graph params u, redundant⟩

def redundantPairs (sorted : List JsString) : OrdSet JsString :=
  sorted.foldl (reduceFrom graph params) .empty

/-- The edges by source, target and label. -/
def GraphEdge.rank (edge : GraphEdge) : JsString ×ₗ JsString ×ₗ JsString :=
  toLex (edge.src, toLex (edge.dst, edge.label))

def edgesFrom (sorted : List JsString) : List GraphEdge :=
  sorted.flatMap fun nodeId =>
    (params.neighbors graph nodeId).map fun edge => ⟨nodeId, edge.neighborId, edge.label⟩

structure Reduction where
  edges : List GraphEdge
  removed : Nat
  deriving DecidableEq

def transitiveReduction : Except Failure Reduction := do
  let run ← topologicalSort graph params true
  let redundant := redundantPairs graph params run.sorted
  let listed := edgesFrom graph params run.sorted
  let kept := listed.filter fun edge => !redundant.has (redundantKey edge.src edge.dst)
  pure ⟨sortBy GraphEdge.rank kept,
    (listed.filter fun edge => redundant.has (redundantKey edge.src edge.dst)).length⟩

/-! ### Transitive closure -/

/-- The loop over the queue; it ends when enough nodes are visited. -/
def closureNodesLoop : Nat → Sweep JsString → OrdSet JsString
  | 0, sweep => sweep.visited
  | turns + 1, sweep =>
    if params.maxNodes ≤ sweep.visited.size then sweep.visited
    else
      match sweep.pending with
      | [] => sweep.visited
      | nodeId :: queue =>
        closureNodesLoop turns
          ((params.successors graph nodeId).foldl Sweep.meet ⟨sweep.visited, queue⟩)

/-- `_prepareTransitiveClosure`: the nodes in reach, in order. -/
def closureNodes : List JsString :=
  sortBy id (closureNodesLoop graph params graph.nodes.length
    ⟨params.starts, params.starts.toList⟩).toList

/-- The sweep from one node: with what it reaches, and the edges counted over all sweeps. -/
structure ClosureScan where
  sweep : Sweep JsString
  reachable : List JsString
  edgeCount : Nat

def maxEdgesExceeded (maxEdges : Nat) : Failure :=
  ⟨.traversalError, lit "E_MAX_EDGES_EXCEEDED",
    lit "Transitive closure exceeds maxEdges limit (" ++ numberText maxEdges ++ lit ")"⟩

def scanNeighbor (maxEdges : Nat) (scan : ClosureScan) (neighborId : JsString) :
    Except Failure ClosureScan :=
  if neighborId ∈ scan.sweep.visited then .ok scan
  else if maxEdges < scan.edgeCount + 1 then .error (maxEdgesExceeded maxEdges)
  else
    .ok ⟨scan.sweep.meet neighborId, scan.reachable ++ [neighborId], scan.edgeCount + 1⟩

def scanNode (maxEdges : Nat) (scan : ClosureScan) (nodeId : JsString) :
    Except Failure ClosureScan :=
  (params.successors graph nodeId).foldlM (scanNeighbor maxEdges) scan

/-- The loop over the frontiers. Each turn takes nodes of the graph. -/
def scanLoop (maxEdges : Nat) : Nat → ClosureScan → Except Failure ClosureScan
  | 0, scan => .ok scan
  | turns + 1, scan =>
    if scan.sweep.pending = [] then .ok scan
    else do
      let next ← scan.sweep.pending.foldlM (scanNode graph params maxEdges)
        { scan with sweep := ⟨scan.sweep.visited, []⟩ }
      scanLoop maxEdges turns next

/-- The pairs from one node after those from the nodes before. -/
def closureFrom (maxEdges : Nat) (sofar : List (JsString × JsString) × Nat)
    (fromNode : JsString) : Except Failure (List (JsString × JsString) × Nat) := do
  let scan ← scanLoop graph params maxEdges graph.nodes.length
    ⟨⟨.ofList [fromNode], [fromNode]⟩, [], sofar.2⟩
  pure (sofar.1 ++ (sortBy id scan.reachable).map fun toNode => (fromNode, toNode), scan.edgeCount)

def transitiveClosure (maxEdges : Nat) : Except Failure (List (JsString × JsString)) := do
  validateStarts graph params
  let pairs ← (closureNodes graph params).foldlM (closureFrom graph params maxEdges) ([], 0)
  pure pairs.1

end Query
end GitWarp
