import GitWarp.Query.GraphPathFinding
import GitWarp.Query.MinHeap

/-!
# Finding cheapest paths

A search keeps for each node the least cost found so far and the node before it, and a queue
of nodes by priority. `weightedShortestPath` takes the cost as priority, `aStarSearch` adds an
estimate of the rest, and `bidirectionalAStar` searches from both ends until no open node can
improve on the best meeting.
-/
namespace GitWarp

open Js Lib

namespace Query

open IndexTree (NeighborEdge Direction)

/-- The weight of an edge, by its ends and its label. -/
abbrev WeightFn : Type := JsString → JsString → JsString → Rat

/-- The ways to give weights. -/
structure WeightChoice where
  weightFn : Option WeightFn
  nodeWeightFn : Option (JsString → Rat)

def weightConflict : Failure :=
  ⟨.traversalError, lit "E_WEIGHT_FN_CONFLICT",
    lit "Cannot provide both weightFn and nodeWeightFn — they are mutually exclusive"⟩

def resolveWeightFn (weights : WeightChoice) : Except Failure WeightFn :=
  match weights.weightFn, weights.nodeWeightFn with
  | some _, some _ => .error weightConflict
  | _, some nodeWeightFn => .ok fun _ target _ => nodeWeightFn target
  | some weightFn, none => .ok weightFn
  | none, none => .ok fun _ _ _ => 1

def noPath (start goal : JsString) : Failure :=
  ⟨.traversalError, lit "NO_PATH", lit "No path from " ++ start ++ lit " to " ++ goal⟩

/-! ### One search -/

/-- The state of a search from one end. -/
structure SearchSide where
  visited : OrdSet JsString
  gScore : OrdMap JsString Rat
  predMap : OrdMap JsString JsString
  heap : MinHeap JsString

def shouldUpdatePredecessor (predMap : OrdMap JsString JsString)
    (nodeId candidatePred : JsString) : Bool :=
  match predMap.get nodeId with
  | none => true
  | some current => decide (candidatePred < current)

namespace SearchSide

def start (nodeId : JsString) (priority : Rat) : SearchSide :=
  ⟨.empty, OrdMap.empty.set nodeId 0, .empty, MinHeap.empty.insert nodeId priority⟩

/-- The score of a node that has one. -/
def scoreOf (side : SearchSide) (nodeId : JsString) : Rat := (side.gScore.get nodeId).getD 0

/-- A cheaper way to a node, or an equally cheap one from a lesser predecessor. -/
def improves (side : SearchSide) (nodeId candidatePred : JsString) (tentG : Rat) : Bool :=
  match side.gScore.get nodeId with
  | none => true
  | some bestG =>
    decide (tentG < bestG) ||
      (decide (tentG = bestG) && shouldUpdatePredecessor side.predMap nodeId candidatePred)

def record (side : SearchSide) (nodeId pred : JsString) (tentG priority : Rat) : SearchSide :=
  { side with
    gScore := side.gScore.set nodeId tentG
    predMap := side.predMap.set nodeId pred
    heap := side.heap.insert nodeId priority }

/-- The head of the queue is taken and marked. -/
def visit (side : SearchSide) (current : JsString) (rest : MinHeap JsString) : SearchSide :=
  { side with visited := side.visited.add current, heap := rest }

end SearchSide

/-- How a search weighs an edge from a node, and how it ranks a node with a score. -/
structure SearchRule where
  weightOf : JsString → NeighborEdge → Rat
  priorityOf : JsString → Rat → Rat

def relaxEdge (rule : SearchRule) (current : JsString) (side : SearchSide)
    (edge : NeighborEdge) : SearchSide :=
  if edge.neighborId ∈ side.visited then side
  else
    let tentG := side.scoreOf current + rule.weightOf current edge
    if side.improves edge.neighborId current tentG then
      side.record edge.neighborId current tentG (rule.priorityOf edge.neighborId tentG)
    else side

theorem relaxEdge_visited (rule) (current) (side edge) :
    (relaxEdge rule current side edge).visited = side.visited := by
  unfold relaxEdge
  split
  · rfl
  · simp only []
    split <;> rfl

theorem foldl_relaxEdge_visited (rule) (current) (edges : List NeighborEdge) (side) :
    (edges.foldl (relaxEdge rule current) side).visited = side.visited := by
  induction edges generalizing side with
  | nil => rfl
  | cons edge edges ih => rw [List.foldl_cons, ih, relaxEdge_visited]

theorem MinHeap.size_extractMin {T} [LinearOrder T] (queue rest : MinHeap T) {item}
    (popped : queue.extractMin = some (item, rest)) : rest.size < queue.size := by
  obtain ⟨priority, perm, -⟩ := queue.extractMin_spec popped
  have length := perm.length_eq
  rw [List.length_cons, length_entries, length_entries] at length
  omega

/-! ### Dijkstra and A* -/

structure WeightedPath where
  path : List JsString
  totalCost : Rat
  nodesExplored : Nat
  deriving DecidableEq

variable (provider : NeighborProvider) (params : TraversalParams) (goal : JsString)

/-- The loop that `weightedShortestPath` and `aStarSearch` share. -/
def bestFirstLoop (rule : SearchRule) (side : SearchSide) : Except Failure WeightedPath :=
  if params.maxNodes ≤ side.visited.size then .error (noPath params.start goal)
  else
    match _popped : side.heap.extractMin with
    | none => .error (noPath params.start goal)
    | some (current, rest) =>
      if current ∈ side.visited then bestFirstLoop rule { side with heap := rest }
      else
        let side := side.visit current rest
        if current = goal then
          .ok ⟨reconstructPath side.predMap params.start goal, side.scoreOf goal, side.visited.size⟩
        else
          bestFirstLoop rule
            ((neighborsOf provider params current).foldl (relaxEdge rule current) side)
  termination_by (params.maxNodes - side.visited.size, side.heap.size)
  decreasing_by
    · exact Prod.Lex.right _ (MinHeap.size_extractMin _ _ _popped)
    · rename_i before _ fresh _
      apply Prod.Lex.left
      rw [foldl_relaxEdge_visited]
      show params.maxNodes - (before.visited.add current).size < _
      rw [OrdSet.size_add _ _ fresh]
      omega

def weightedShortestPath (weights : WeightChoice) : Except Failure WeightedPath := do
  let weightFn ← resolveWeightFn weights
  validateStart provider params.start
  bestFirstLoop provider params goal
    ⟨fun current edge => weightFn current edge.neighborId edge.label, fun _ alt => alt⟩
    (.start params.start 0)

def aStarSearch (weights : WeightChoice) (heuristicFn : JsString → JsString → Rat) :
    Except Failure WeightedPath := do
  let weightFn ← resolveWeightFn weights
  validateStart provider params.start
  bestFirstLoop provider params goal
    ⟨fun current edge => weightFn current edge.neighborId edge.label,
      fun nodeId tentG => tentG + heuristicFn nodeId goal⟩
    (.start params.start (heuristicFn params.start goal))

/-! ### Both ends -/

/-- One side of a search from both ends, with the best meeting so far. -/
structure BiProgress where
  side : SearchSide
  mu : WithTop Rat
  meeting : Option JsString

namespace BiProgress

/-- A meeting is taken when it is cheaper, or as cheap at a lesser node. -/
def meetAt (progress : BiProgress) (nodeId : JsString) (total : Rat) : BiProgress :=
  if (total : WithTop Rat) < progress.mu ∨ (total : WithTop Rat) = progress.mu ∧
      progress.meeting.all fun meeting => decide (nodeId < meeting) then
    { progress with mu := total, meeting := some nodeId }
  else progress

end BiProgress

def relaxMeeting (rule : SearchRule) (other : SearchSide) (current : JsString)
    (progress : BiProgress) (edge : NeighborEdge) : BiProgress :=
  if edge.neighborId ∈ progress.side.visited then progress
  else
    let tentG := progress.side.scoreOf current + rule.weightOf current edge
    if progress.side.improves edge.neighborId current tentG then
      let recorded := { progress with
        side := progress.side.record edge.neighborId current tentG
          (rule.priorityOf edge.neighborId tentG) }
      match other.gScore.get edge.neighborId with
      | none => recorded
      | some otherG => recorded.meetAt edge.neighborId (tentG + otherG)
    else progress

/-- `_biAStarExpand`, for the head of the queue and the rest of it. -/
def expandHead (rule : SearchRule) (neighbors : JsString → List NeighborEdge)
    (other : SearchSide) (progress : BiProgress) (current : JsString)
    (rest : MinHeap JsString) : Nat × BiProgress :=
  if current ∈ progress.side.visited then
    (0, { progress with side := { progress.side with heap := rest } })
  else
    let visited := { progress with side := progress.side.visit current rest }
    let met :=
      if current ∈ other.visited then
        visited.meetAt current (visited.side.scoreOf current + other.scoreOf current)
      else visited
    (1, (neighbors current).foldl (relaxMeeting rule other current) met)

structure BiState where
  fwd : SearchSide
  bwd : SearchSide
  mu : WithTop Rat
  meeting : Option JsString
  explored : Nat

/-- What the searches from both ends are asked for. -/
structure BiParams where
  start : JsString
  goal : JsString
  labels : Option (OrdSet JsString)
  forwardHeuristic : JsString → JsString → Rat
  backwardHeuristic : JsString → JsString → Rat
  maxNodes : Nat

structure BiQuery extends BiParams where
  weightFn : WeightFn

variable (query : BiQuery)

def BiQuery.outgoing (nodeId : JsString) : List NeighborEdge :=
  provider.getNeighbors nodeId .out query.labels

def BiQuery.incoming (nodeId : JsString) : List NeighborEdge :=
  provider.getNeighbors nodeId .incoming query.labels

def BiQuery.forward : SearchRule :=
  ⟨fun current edge => query.weightFn current edge.neighborId edge.label,
    fun nodeId tentG => tentG + query.forwardHeuristic nodeId query.goal⟩

/-- Backwards, an edge is weighed in its own direction. -/
def BiQuery.backward : SearchRule :=
  ⟨fun current edge => query.weightFn edge.neighborId current edge.label,
    fun nodeId tentG => tentG + query.backwardHeuristic nodeId query.start⟩

namespace BiState

def expandForward (state : BiState) (current : JsString) (rest : MinHeap JsString) : BiState :=
  let (explored, progress) := expandHead query.forward (query.outgoing provider) state.bwd
    ⟨state.fwd, state.mu, state.meeting⟩ current rest
  ⟨progress.side, state.bwd, progress.mu, progress.meeting, state.explored + explored⟩

def expandBackward (state : BiState) (current : JsString) (rest : MinHeap JsString) : BiState :=
  let (explored, progress) := expandHead query.backward (query.incoming provider) state.fwd
    ⟨state.bwd, state.mu, state.meeting⟩ current rest
  ⟨state.fwd, progress.side, progress.mu, progress.meeting, state.explored + explored⟩

/-- The least priority on either side. -/
def leastPriority (state : BiState) : WithTop Rat :=
  min state.fwd.heap.peekPriority state.bwd.heap.peekPriority

end BiState

theorem expandHead_cases :
    expandHead rule neighbors other progress current rest =
        (0, { progress with side := { progress.side with heap := rest } }) ∨
      (expandHead rule neighbors other progress current rest).1 = 1 := by
  unfold expandHead
  split
  · exact Or.inl rfl
  · exact Or.inr rfl

/-- The loop of the search from both ends, up to the state in which it stops. -/
def biLoop (state : BiState) : BiState :=
  if query.maxNodes ≤ state.explored then state
  else if state.mu ≤ state.leastPriority then state
  else if state.fwd.heap.peekPriority ≤ state.bwd.heap.peekPriority then
    match _popped : state.fwd.heap.extractMin with
    | none => state
    | some (current, rest) => biLoop (state.expandForward provider query current rest)
  else
    match _popped : state.bwd.heap.extractMin with
    | none => state
    | some (current, rest) => biLoop (state.expandBackward provider query current rest)
  termination_by (query.maxNodes - state.explored, state.fwd.heap.size + state.bwd.heap.size)
  decreasing_by
    · unfold BiState.expandForward
      rcases expandHead_cases with same | one
      · rw [same]
        apply Prod.Lex.right
        have smaller := MinHeap.size_extractMin _ _ _popped
        exact Nat.add_lt_add_right smaller _
      · apply Prod.Lex.left
        show query.maxNodes - (state.explored + _) < _
        rw [one]
        omega
    · unfold BiState.expandBackward
      rcases expandHead_cases with same | one
      · rw [same]
        apply Prod.Lex.right
        have smaller := MinHeap.size_extractMin _ _ _popped
        exact Nat.add_lt_add_left smaller _
      · apply Prod.Lex.left
        show query.maxNodes - (state.explored + _) < _
        rw [one]
        omega

/-- The second half of `reconstructBiPath`: the nodes after a node on the way to the goal. -/
def followLoop (next : OrdMap JsString JsString) (goal : JsString) :
    Nat → JsString → List JsString
  | 0, _ => []
  | turns + 1, current =>
    if current = goal then []
    else
      match next.get current with
      | none => []
      | some after => after :: followLoop next goal turns after

def reconstructBiPath (fwdPrev bwdNext : OrdMap JsString JsString)
    (start goal meeting : JsString) : List JsString :=
  reconstructPath fwdPrev start meeting ++ followLoop bwdNext goal bwdNext.size meeting

def BiQuery.initial : BiState where
  fwd := .start query.start (query.forwardHeuristic query.start query.goal)
  bwd := .start query.goal (query.backwardHeuristic query.goal query.start)
  mu := ⊤
  meeting := none
  explored := 0

def searchBothEnds : Except Failure WeightedPath := do
  validateStart provider query.start
  if query.start = query.goal then pure ⟨[query.start], 0, 1⟩
  else
    let state := biLoop provider query query.initial
    match state.meeting with
    | none => .error (noPath query.start query.goal)
    | some meeting =>
      pure ⟨reconstructBiPath state.fwd.predMap state.bwd.predMap query.start query.goal meeting,
        state.mu.untopD 0, state.explored⟩

/-- `bidirectionalAStar`: the weights are resolved first. -/
def bidirectionalAStar (asked : BiParams) (weights : WeightChoice) :
    Except Failure WeightedPath := do
  let weightFn ← resolveWeightFn weights
  searchBothEnds provider { asked with weightFn := weightFn }

end Query
end GitWarp
