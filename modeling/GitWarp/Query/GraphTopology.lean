import GitWarp.Query.GraphTraversal
import GitWarp.Query.MinHeap
import GitWarp.Lib.Reaching

/-!
# Topological sorting

The sort first sweeps over everything in reach of the starts and counts the edges that lead to
each node. Then it takes the least node that no edge leads to any more, and takes off the
counts for its edges. Nodes that are never taken are on a cycle or behind one.
-/
namespace GitWarp

open Js Lib

namespace Query

open IndexTree (NeighborEdge Direction)

/-- Lookups on a finite graph, which has the neighbours of its nodes. -/
structure FiniteGraph extends NeighborProvider where
  nodes : List JsString
  known : ∀ nodeId, hasNode nodeId = true → nodeId ∈ nodes
  closed : ∀ nodeId ∈ nodes, ∀ direction labels,
    ∀ edge ∈ getNeighbors nodeId direction labels, edge.neighborId ∈ nodes
  separable : ∀ nodeId ∈ nodes, (0 : CodeUnit) ∉ nodeId

theorem abc_known (nodeId) (listed : decide (nodeId ∈ [lit "a", lit "b", lit "c"]) = true) :
    nodeId ∈ [lit "a", lit "b", lit "c"] :=
  of_decide_eq_true listed

theorem abc_separable : ∀ nodeId ∈ [lit "a", lit "b", lit "c"], (0 : CodeUnit) ∉ nodeId := by
  decide

/-- What a topological algorithm is asked for. -/
structure TopoParams where
  start : List JsString
  direction : Direction
  labels : Option (OrdSet JsString)
  maxNodes : Nat

variable (graph : FiniteGraph) (params : TopoParams)

/-- The start nodes without repetitions. -/
def TopoParams.starts : OrdSet JsString := .ofList params.start

def TopoParams.neighbors (nodeId : JsString) : List NeighborEdge :=
  graph.getNeighbors nodeId params.direction params.labels

/-- The ids of the neighbours, once for each edge. -/
def TopoParams.successors (nodeId : JsString) : List JsString :=
  (params.neighbors graph nodeId).map NeighborEdge.neighborId

def validateStarts : Except Failure Unit :=
  params.starts.toList.forM fun nodeId => validateStart graph.toNeighborProvider nodeId

/-! ### Discovery -/

/-- The first phase: the queue, what is discovered, and the edges counted by target. -/
structure Discovery where
  queue : List JsString
  discovered : OrdSet JsString
  inDegree : OrdMap JsString Int

def degreeOf (inDegree : OrdMap JsString Int) (nodeId : JsString) : Int :=
  (inDegree.get nodeId).getD 0

def discoverNeighbor (d : Discovery) (neighborId : JsString) : Discovery :=
  let counted := d.inDegree.set neighborId (degreeOf d.inDegree neighborId + 1)
  if neighborId ∈ d.discovered then { d with inDegree := counted }
  else ⟨d.queue ++ [neighborId], d.discovered.add neighborId, counted⟩

/-- The loop over the queue. Each turn takes a node of the graph off it. -/
def discoverLoop : Nat → Discovery → Discovery
  | 0, d => d
  | turns + 1, d =>
    match d.queue with
    | [] => d
    | nodeId :: queue =>
      discoverLoop turns
        ((params.successors graph nodeId).foldl discoverNeighbor { d with queue := queue })

def discover : Discovery :=
  discoverLoop graph params graph.nodes.length
    ⟨params.starts.toList, params.starts, .empty⟩

/-- Starts that no edge leads to are counted with zero. -/
def withStarts (inDegree : OrdMap JsString Int) (starts : List JsString) :
    OrdMap JsString Int :=
  starts.foldl (fun inDegree nodeId =>
    if inDegree.has nodeId then inDegree else inDegree.set nodeId 0) inDegree

/-! ### Taking nodes in order -/

structure Kahn where
  inDegree : OrdMap JsString Int
  ready : MinHeap JsString

/-- The nodes that no edge leads to. -/
def readyAtFirst (inDegree : OrdMap JsString Int) (discovered : List JsString) :
    MinHeap JsString :=
  discovered.foldl (fun ready nodeId =>
    if degreeOf inDegree nodeId = 0 then ready.insert nodeId 0 else ready) .empty

def releaseNeighbor (kahn : Kahn) (neighborId : JsString) : Kahn :=
  let deg := degreeOf kahn.inDegree neighborId - 1
  { inDegree := kahn.inDegree.set neighborId deg
    ready := if deg = 0 then kahn.ready.insert neighborId 0 else kahn.ready }

/-- The loop over the ready nodes, for the number of nodes that may still be taken. -/
def kahnLoop : Nat → Kahn → List JsString → Kahn × List JsString
  | 0, kahn, sorted => (kahn, sorted)
  | budget + 1, kahn, sorted =>
    match kahn.ready.extractMin with
    | none => (kahn, sorted)
    | some (nodeId, ready) =>
      kahnLoop budget
        ((params.successors graph nodeId).foldl releaseNeighbor { kahn with ready := ready })
        (sorted ++ [nodeId])

structure TopoRun where
  sorted : List JsString
  hasCycle : Bool
  deriving DecidableEq

/-- The state in which the loop over the ready nodes ends. -/
def kahnEnd : Kahn × List JsString :=
  let found := discover graph params
  let inDegree := withStarts found.inDegree params.starts.toList
  kahnLoop graph params params.maxNodes
    ⟨inDegree, readyAtFirst inDegree found.discovered.toList⟩ []

/-- The sort has stopped at its limit with nodes left to take. -/
def stoppedByLimit : Bool :=
  let (kahn, sorted) := kahnEnd graph params
  decide (params.maxNodes ≤ sorted.length) && !kahn.ready.isEmpty

def computeTopoHasCycle : Bool :=
  !stoppedByLimit graph params &&
    decide ((kahnEnd graph params).2.length < (discover graph params).discovered.size)

def graphHasCycles : Failure :=
  ⟨.traversalError, lit "ERR_GRAPH_HAS_CYCLES", lit "Graph contains a cycle"⟩

def topologicalSort (throwOnCycle : Bool) : Except Failure TopoRun := do
  validateStarts graph params
  let hasCycle := computeTopoHasCycle graph params
  if hasCycle && throwOnCycle then .error graphHasCycles
  else pure ⟨(kahnEnd graph params).2, hasCycle⟩

end Query
end GitWarp
