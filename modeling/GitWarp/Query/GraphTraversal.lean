import GitWarp.Lib.Layers
import GitWarp.Index.IndexTree

/-!
# Breadth-first and depth-first traversal

Breadth-first traversal goes level by level and visits the nodes of a level in order;
depth-first traversal keeps a stack of nodes with their depths and pushes the neighbours
of a node last first. Both stop at a number of nodes, and neither goes beyond a depth.
-/
namespace GitWarp

open Js Lib

namespace Query

open IndexTree (NeighborEdge Direction)

/-- `NeighborProviderPort`: lookups on a graph. -/
structure NeighborProvider where
  hasNode : JsString → Bool
  getNeighbors : JsString → Direction → Option (OrdSet JsString) → List NeighborEdge

/-- What a traversal is asked for. -/
structure TraversalParams where
  start : JsString
  direction : Direction
  labels : Option (OrdSet JsString)
  maxNodes : Nat
  maxDepth : Int

def invalidStart (nodeId : JsString) : Failure :=
  ⟨.traversalError, lit "INVALID_START",
    lit "Start node '" ++ nodeId ++ lit "' does not exist in the graph"⟩

variable (provider : NeighborProvider) (params : TraversalParams)

def validateStart (nodeId : JsString) : Except Failure Unit :=
  if provider.hasNode nodeId then .ok () else .error (invalidStart nodeId)

/-- The neighbours of a node in the direction and under the labels of a traversal. -/
def neighborsOf (nodeId : JsString) : List NeighborEdge :=
  provider.getNeighbors nodeId params.direction params.labels

/-- A node with the depth at which a traversal has met it. -/
structure Entry where
  nodeId : JsString
  depth : Nat

/-! ### Breadth first -/

/-- The loop over one level: the nodes visited so far, the next level, and its nodes. -/
structure BfsLevel where
  visited : OrdSet JsString
  nextLevel : List Entry
  queued : OrdSet JsString

def queueNeighbor (depth : Nat) (level : BfsLevel) (edge : NeighborEdge) : BfsLevel :=
  if edge.neighborId ∈ level.visited ∨ edge.neighborId ∈ level.queued then level
  else
    { level with
      nextLevel := level.nextLevel ++ [⟨edge.neighborId, depth + 1⟩]
      queued := level.queued.add edge.neighborId }

/-- The body of the loop over a level; once enough nodes are visited it does nothing. -/
def visitEntry (level : BfsLevel) (entry : Entry) : BfsLevel :=
  if params.maxNodes ≤ level.visited.size ∨ entry.nodeId ∈ level.visited ∨
      params.maxDepth < entry.depth then level
  else
    let visited := { level with visited := level.visited.add entry.nodeId }
    if (entry.depth : Int) < params.maxDepth then
      (neighborsOf provider params entry.nodeId).foldl (queueNeighbor entry.depth) visited
    else visited

def visitLevel (visited : OrdSet JsString) (currentLevel : List Entry) : BfsLevel :=
  (sortBy Entry.nodeId currentLevel).foldl (visitEntry provider params) ⟨visited, [], .empty⟩

theorem foldl_queueNeighbor_visited (depth) (edges : List NeighborEdge) (level) :
    (edges.foldl (queueNeighbor depth) level).visited = level.visited := by
  induction edges generalizing level with
  | nil => rfl
  | cons edge edges ih =>
    rw [List.foldl_cons, ih]
    unfold queueNeighbor
    split <;> rfl

theorem visitEntry_cases :
    visitEntry provider params level entry = level ∨
      (visitEntry provider params level entry).visited = level.visited.add entry.nodeId ∧
        entry.nodeId ∉ level.visited := by
  unfold visitEntry
  split
  · exact Or.inl rfl
  next fresh =>
    right
    rw [not_or, not_or] at fresh
    refine ⟨?_, fresh.2.1⟩
    split
    · rw [foldl_queueNeighbor_visited]
    · rfl

theorem visitLevel_progress {entries : List Entry} (level) :
    entries.foldl (visitEntry provider params) level = level ∨
      level.visited.size < (entries.foldl (visitEntry provider params) level).visited.size := by
  induction entries generalizing level with
  | nil => exact Or.inl rfl
  | cons entry entries ih =>
    rw [List.foldl_cons]
    rcases visitEntry_cases provider params with same | ⟨visited, fresh⟩
    · rw [same]
      exact ih level
    · right
      have grown : level.visited.size < (visitEntry provider params level entry).visited.size := by
        rw [visited, OrdSet.size_add _ _ fresh]
        omega
      rcases ih (visitEntry provider params level entry) with same | more
      · rw [same]
        exact grown
      · omega

/-- The loop over the levels. -/
def bfsLoop (visited : OrdSet JsString) (currentLevel : List Entry) : OrdSet JsString :=
  if currentLevel = [] ∨ params.maxNodes ≤ visited.size then visited
  else
    let level := visitLevel provider params visited currentLevel
    bfsLoop level.visited level.nextLevel
  termination_by (params.maxNodes - visited.size, currentLevel.length)
  decreasing_by
    rename_i active
    rw [not_or] at active
    rcases visitLevel_progress provider params
      ⟨visited, [], .empty⟩ with same | more
    · have level : visitLevel provider params visited currentLevel = ⟨visited, [], .empty⟩ := same
      rw [level]
      exact Prod.Lex.right _ (List.length_pos_iff.mpr active.1)
    · apply Prod.Lex.left
      have more' : visited.size < (visitLevel provider params visited currentLevel).visited.size :=
        more
      omega

/-- `bfs`: the nodes in the order in which they are yielded. -/
def bfs : Except Failure (List JsString) := do
  validateStart provider params.start
  pure (bfsLoop provider params .empty [⟨params.start, 0⟩]).toList

/-! ### Depth first -/

/-- Entries are popped until one is neither visited nor too deep. -/
def popFresh (visited : OrdSet JsString) : List Entry → Option (Entry × List Entry)
  | [] => none
  | entry :: stack =>
    if entry.nodeId ∈ visited ∨ params.maxDepth < entry.depth then popFresh visited stack
    else some (entry, stack)

/-- The neighbours of a node that are not visited, on top of the stack with the first one
uppermost. -/
def pushNeighbors (visited : OrdSet JsString) (entry : Entry) (stack : List Entry) : List Entry :=
  if (entry.depth : Int) < params.maxDepth then
    ((neighborsOf provider params entry.nodeId).filter fun edge =>
      decide (edge.neighborId ∉ visited)).map (fun edge => ⟨edge.neighborId, entry.depth + 1⟩) ++
        stack
  else stack

/-- The loop over the stack, for the number of nodes that may still be visited. -/
def dfsLoop : Nat → OrdSet JsString → List Entry → OrdSet JsString
  | 0, visited, _ => visited
  | budget + 1, visited, stack =>
    match popFresh params visited stack with
    | none => visited
    | some (entry, rest) =>
      let visited := visited.add entry.nodeId
      dfsLoop budget visited (pushNeighbors provider params visited entry rest)

/-- `dfs`: the nodes in the order in which they are yielded. -/
def dfs : Except Failure (List JsString) := do
  validateStart provider params.start
  pure (dfsLoop provider params params.maxNodes .empty [⟨params.start, 0⟩]).toList

end Query
end GitWarp
