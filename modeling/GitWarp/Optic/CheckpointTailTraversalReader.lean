import GitWarp.Optic.Neighborhood

/-!
# Traversals over neighbourhood pages

A traversal works off a frontier of nodes, page by page, and stops with an open
frontier when it has listed enough edges, when one more node would be too many, or
when a page does not end the neighbourhood. The cursor of an open frontier holds
the frontier and all nodes that have been visited.
-/
namespace GitWarp

open Js Lib

variable {V : Type}

open IndexTree (Direction)

/-! ### Results -/

inductive TraversalOpticCompleteness
  | complete
  | frontierOpen
  | goalFound
  | goalNotFoundWithinBoundary
  deriving DecidableEq

structure TraversalOpticFrontierEntry where
  nodeId : JsString
  depth : Nat
  edgeCursor : Option JsString
  deriving DecidableEq

structure TraversalOpticEdge where
  fromNodeId : JsString
  toNodeId : JsString
  label : JsString
  depth : Nat
  expansionDirection : Side
  deriving DecidableEq

structure TraversalOpticCursor where
  frontier : List TraversalOpticFrontierEntry
  visitedNodeIds : List JsString
  deriving DecidableEq

/-- The constructor of a cursor sorts the ids. -/
def TraversalOpticCursor.create (frontier : List TraversalOpticFrontierEntry)
    (visitedNodeIds : List JsString) : TraversalOpticCursor :=
  ⟨frontier, sortBy id visitedNodeIds⟩

structure TraversalOpticReadResult where
  startNodeId : JsString
  direction : Direction
  maxDepth : Nat
  maxNodes : Nat
  maxEdges : Nat
  goalNodeId : Option JsString
  edges : List TraversalOpticEdge
  visitedNodeIds : List JsString
  frontier : List TraversalOpticFrontierEntry
  completeness : TraversalOpticCompleteness
  cursor : Option TraversalOpticCursor
  deriving DecidableEq

/-! ### Options -/

structure TraversalOpticReadOptions where
  strategy : Option JsString
  direction : Option Direction
  labels : Option (List JsString)
  maxDepth : Option Int
  maxNodes : Option Int
  maxEdges : Option Int
  goalNodeId : Option JsString
  cursor : Option TraversalOpticCursor

structure NormalizedTraversalOptions where
  startNodeId : JsString
  direction : Direction
  labels : List JsString
  maxDepth : Nat
  maxNodes : Nat
  maxEdges : Nat
  goalNodeId : Option JsString
  cursor : Option TraversalOpticCursor

def traversalOptionsError (message : String) : Failure :=
  ⟨.queryError, lit "E_OPTIC_TRAVERSAL_OPTIONS", lit message⟩

def traversalUnbounded : Failure :=
  ⟨.queryError, lit "E_OPTIC_TRAVERSAL_UNBOUNDED",
    lit "Traversal optic requires explicit bounded traversal limits."⟩

/-- `requirePositiveTraversalBound` and `requireTraversalDepth`: they differ in the least value and
in the message. -/
def requireTraversalBound (least : Int) (message : String) (value : Option Int) :
    Except Failure Nat :=
  match value with
  | none => .error traversalUnbounded
  | some value =>
    if value < least then .error (traversalOptionsError message) else .ok value.toNat

def requirePositiveTraversalBound : Option Int → Except Failure Nat :=
  requireTraversalBound 1 "Traversal optic limits must be positive integers."

def requireTraversalDepth : Option Int → Except Failure Nat :=
  requireTraversalBound 0 "Traversal optic depth must be a non-negative integer."

def normalizeTraversalOptions (startNodeId : JsString) (options : TraversalOpticReadOptions) :
    Except Failure NormalizedTraversalOptions := do
  let strategy := options.strategy.getD (lit "breadth-first")
  if strategy ≠ lit "breadth-first" then
    .error (traversalOptionsError "Traversal optic supports breadth-first strategy only.")
  else do
    let maxDepth ← requireTraversalDepth options.maxDepth
    let maxNodes ← requirePositiveTraversalBound options.maxNodes
    let maxEdges ← requirePositiveTraversalBound options.maxEdges
    pure ⟨startNodeId, options.direction.getD .out, normalizeLabels (options.labels.getD []),
      maxDepth, maxNodes, maxEdges, options.goalNodeId, options.cursor⟩

/-! ### A run -/

structure TraversalRunState where
  traversal : NormalizedTraversalOptions
  visited : OrdSet JsString
  frontier : List TraversalOpticFrontierEntry
  resultEdges : List TraversalOpticEdge

def createTraversalRunState (startNodeId : JsString) (options : TraversalOpticReadOptions) :
    Except Failure TraversalRunState := do
  let traversal ← normalizeTraversalOptions startNodeId options
  pure {
    traversal
    visited := .ofList ((traversal.cursor.map TraversalOpticCursor.visitedNodeIds).getD
      [startNodeId])
    frontier := (traversal.cursor.map TraversalOpticCursor.frontier).getD [⟨startNodeId, 0, none⟩]
    resultEdges := [] }

def traversalCursor (completeness : TraversalOpticCompleteness)
    (frontier : List TraversalOpticFrontierEntry) (visitedNodeIds : List JsString) :
    Option TraversalOpticCursor :=
  if completeness = .frontierOpen then some (.create frontier visitedNodeIds) else none

def traversalResult (traversal : NormalizedTraversalOptions) (edges : List TraversalOpticEdge)
    (visited : OrdSet JsString) (frontier : List TraversalOpticFrontierEntry)
    (completeness : TraversalOpticCompleteness) : TraversalOpticReadResult where
  startNodeId := traversal.startNodeId
  direction := traversal.direction
  maxDepth := traversal.maxDepth
  maxNodes := traversal.maxNodes
  maxEdges := traversal.maxEdges
  goalNodeId := traversal.goalNodeId
  edges := edges
  visitedNodeIds := sortBy id visited.toList
  frontier := frontier
  completeness := completeness
  cursor := traversalCursor completeness frontier visited.toList

def traversalStateResult (state : TraversalRunState)
    (completeness : TraversalOpticCompleteness) : TraversalOpticReadResult :=
  traversalResult state.traversal state.resultEdges state.visited state.frontier completeness

def openTraversalResult (state : TraversalRunState) : TraversalOpticReadResult :=
  traversalStateResult state .frontierOpen

def drainedFrontierCompleteness (state : TraversalRunState) : TraversalOpticCompleteness :=
  if state.traversal.goalNodeId = none then .complete else .goalNotFoundWithinBoundary

def isGoalAlreadyVisited (state : TraversalRunState) : Bool :=
  match state.traversal.goalNodeId with
  | none => false
  | some goal => state.visited.has goal

def goalAlreadyVisitedResult (state : TraversalRunState) : TraversalOpticReadResult :=
  traversalResult state.traversal state.resultEdges state.visited [] .goalFound

/-- What came of a step: the result of the read, or the state it goes on with. -/
inductive TraversalExpansion
  | result (result : TraversalOpticReadResult)
  | proceed (state : TraversalRunState)

def traversalEdge (currentNodeId : JsString) (edge : NeighborhoodOpticEdge) (depth : Nat) :
    TraversalOpticEdge :=
  match edge.direction with
  | .out => ⟨currentNodeId, edge.neighborId, edge.label, depth, .out⟩
  | .incoming => ⟨edge.neighborId, currentNodeId, edge.label, depth, .incoming⟩

def resumeCursorForEdge (neighborhood : NeighborhoodPage) (edgeIndex : Nat) :
    Except Failure (Option JsString) :=
  match neighborhood.resumeCursors[edgeIndex]? with
  | none =>
    .error (bitmapBasisInvalid "Traversal neighborhood page omitted an edge resume cursor.")
  | some cursor => .ok cursor

def maybeOpenForNodeLimit (state : TraversalRunState) (current : TraversalOpticFrontierEntry)
    (neighborId : JsString) (resumeCursor : Option JsString) : Option TraversalOpticReadResult :=
  if state.visited.has neighborId ∨ state.visited.size < state.traversal.maxNodes then none
  else some (openTraversalResult
    { state with frontier := ⟨current.nodeId, current.depth, resumeCursor⟩ :: state.frontier })

def addTraversalNeighbor (state : TraversalRunState) (neighborId : JsString) (depth : Nat) :
    TraversalExpansion :=
  if state.visited.has neighborId then .proceed state
  else
    let state := { state with visited := state.visited.add neighborId }
    if state.traversal.goalNodeId = some neighborId then
      .result (traversalStateResult state .goalFound)
    else if depth < state.traversal.maxDepth then
      .proceed { state with frontier := state.frontier ++ [⟨neighborId, depth, none⟩] }
    else .proceed state

def maybeOpenForNeighborhoodCursor (state : TraversalRunState)
    (current : TraversalOpticFrontierEntry) (cursor : Option JsString) :
    Option TraversalOpticReadResult :=
  match cursor with
  | none => none
  | some cursor => some (openTraversalResult
    { state with frontier := ⟨current.nodeId, current.depth, some cursor⟩ :: state.frontier })

/-- The loop of `processNeighborhoodRead` from an edge of the page on. -/
def processEdges (current : TraversalOpticFrontierEntry) (neighborhood : NeighborhoodPage) :
    Nat → List NeighborhoodOpticEdge → TraversalRunState → Except Failure TraversalExpansion
  | _, [], state =>
    match maybeOpenForNeighborhoodCursor state current neighborhood.cursor with
    | some result => .ok (.result result)
    | none => .ok (.proceed state)
  | edgeIndex, edge :: rest, state => do
    let resumeCursor ← resumeCursorForEdge neighborhood edgeIndex
    match maybeOpenForNodeLimit state current edge.neighborId resumeCursor with
    | some boundaryResult => pure (.result boundaryResult)
    | none =>
      -- the edge is listed before its node is looked at
      let listed := { state with
        resultEdges := state.resultEdges ++ [traversalEdge current.nodeId edge (current.depth + 1)] }
      match addTraversalNeighbor listed edge.neighborId (current.depth + 1) with
      | .result neighborResult => pure (.result neighborResult)
      | .proceed state => processEdges current neighborhood (edgeIndex + 1) rest state

def processNeighborhoodRead (state : TraversalRunState) (current : TraversalOpticFrontierEntry)
    (neighborhood : NeighborhoodPage) : Except Failure TraversalExpansion :=
  processEdges current neighborhood 0 neighborhood.edges state

namespace CheckpointTailTraversalReader

abbrev TraversalNeighborhoodRead :=
  JsString → NeighborhoodOpticReadOptions → Except Failure NeighborhoodPage

variable (readNeighborhood : TraversalNeighborhoodRead)

def readNeighborhoodForEntry (current : TraversalOpticFrontierEntry)
    (traversal : NormalizedTraversalOptions) (resultEdges : List TraversalOpticEdge) :
    Except Failure NeighborhoodPage :=
  let remainingEdgeBudget : Int := traversal.maxEdges - resultEdges.length
  readNeighborhood current.nodeId
    ⟨some traversal.direction, some traversal.labels, current.edgeCursor, some remainingEdgeBudget⟩

def expandFrontierEntry (state : TraversalRunState) (current : TraversalOpticFrontierEntry) :
    Except Failure TraversalExpansion :=
  if state.traversal.maxDepth ≤ current.depth then .ok (.proceed state)
  else do
    let neighborhood ← readNeighborhoodForEntry readNeighborhood current state.traversal
      state.resultEdges
    processNeighborhoodRead state current neighborhood

/-- Every round takes an entry off the frontier, and puts one on only for a new node. -/
def drainFrontier : Nat → TraversalRunState → Except Failure TraversalOpticReadResult
  | 0, state => .ok (traversalStateResult state (drainedFrontierCompleteness state))
  | fuel + 1, state =>
    match state.frontier with
    | [] => .ok (traversalStateResult state (drainedFrontierCompleteness state))
    | current :: rest =>
      if state.traversal.maxEdges ≤ state.resultEdges.length then .ok (openTraversalResult state)
      else do
        match ← expandFrontierEntry readNeighborhood { state with frontier := rest } current with
        | .result result => pure result
        | .proceed next => drainFrontier fuel next

def read (startNodeId : JsString) (options : TraversalOpticReadOptions) :
    Except Failure TraversalOpticReadResult := do
  let state ← createTraversalRunState startNodeId options
  if isGoalAlreadyVisited state then pure (goalAlreadyVisitedResult state)
  else drainFrontier readNeighborhood (state.frontier.length + state.traversal.maxNodes) state

/-- The edges of a read and of all reads that resume it with the cursor of the one before. -/
inductive Resumed (startNodeId : JsString) (options : TraversalOpticReadOptions) :
    Option TraversalOpticCursor → List TraversalOpticEdge → Prop
  | last (cursor : Option TraversalOpticCursor) (result : TraversalOpticReadResult)
      (ok : read readNeighborhood startNodeId { options with cursor } = .ok result)
      (ended : result.cursor = none) : Resumed startNodeId options cursor result.edges
  | more (cursor : Option TraversalOpticCursor) (result : TraversalOpticReadResult)
      (next : TraversalOpticCursor) (rest : List TraversalOpticEdge)
      (ok : read readNeighborhood startNodeId { options with cursor } = .ok result)
      (resumes : result.cursor = some next)
      (later : Resumed startNodeId options (some next) rest) :
      Resumed startNodeId options cursor (result.edges ++ rest)

end CheckpointTailTraversalReader

/-- The neighbourhood reads of a traversal where no operation of the tail concerns its nodes. -/
def IndexTree.traversalNeighborhood (t : IndexTree V) (checkpointSha : JsString) :
    CheckpointTailTraversalReader.TraversalNeighborhoodRead := fun nodeId options =>
  t.readCheckpointNeighborhoodPage
    ⟨checkpointSha, nodeId, options.direction.getD .out, normalizeLabels (options.labels.getD [])⟩
    options.cursor options.limit

end GitWarp
