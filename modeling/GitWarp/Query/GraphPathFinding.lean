import GitWarp.Query.GraphTraversal
import GitWarp.Lib.Predecessors

/-!
# Finding paths

`shortestPath` goes from frontier to frontier and records for each node it meets the node it
came from; when it meets the goal it follows these records back. `isReachable` goes the same
way without records.
-/
namespace GitWarp

open Js Lib List

namespace Query

open IndexTree (NeighborEdge Direction)

/-- The loop of `reconstructPath`. Each turn follows an entry of the map, so as many turns as
the map has entries are enough on a map without cycles. -/
def reconstructLoop (predMap : OrdMap JsString JsString) (start : JsString) :
    Nat → JsString → List JsString → List JsString
  | 0, _, path => path
  | turns + 1, current, path =>
    if current = start then path
    else
      match predMap.get current with
      | none => path
      | some pred => reconstructLoop predMap start turns pred (pred :: path)

def reconstructPath (predMap : OrdMap JsString JsString) (start goal : JsString) :
    List JsString :=
  reconstructLoop predMap start predMap.size goal [goal]

theorem reconstructLoop_traced (traced : Traced predMap start path x) (turns)
    (enough : path.length ≤ turns + 1) (found) :
    reconstructLoop predMap start turns x (x :: found) = path ++ found := by
  induction traced generalizing turns found with
  | here =>
    cases turns with
    | zero => rfl
    | succ turns => exact if_pos rfl
  | step before entry other _ ih =>
    rw [length_append] at enough
    have one : 1 ≤ List.length (α := JsString) _ := length_pos_of_mem before.start_mem
    cases turns with
    | zero =>
      simp only [length_cons, length_nil] at enough
      omega
    | succ turns =>
      unfold reconstructLoop
      rw [if_neg other, entry]
      show reconstructLoop predMap start turns _ (_ :: _ :: found) = _
      rw [ih turns (by simp only [length_cons, length_nil] at enough; omega)]
      simp

theorem reconstructPath_traced (traced : Traced predMap start path goal) :
    reconstructPath predMap start goal = path := by
  unfold reconstructPath
  rw [reconstructLoop_traced traced _ traced.length_le, append_nil]

variable (provider : NeighborProvider) (params : TraversalParams) (goal : JsString)

/-! ### Shortest path by number of edges -/

/-- The loop over one frontier; once the goal is met it does nothing more. -/
structure PathRound where
  visited : OrdSet JsString
  parent : OrdMap JsString JsString
  nextFrontier : List Entry
  met : Bool

def meetNeighbor (entry : Entry) (round : PathRound) (edge : NeighborEdge) : PathRound :=
  if round.met = true ∨ edge.neighborId ∈ round.visited then round
  else
    { visited := round.visited.add edge.neighborId
      parent := round.parent.set edge.neighborId entry.nodeId
      nextFrontier :=
        -- at the goal the search returns before the push
        if edge.neighborId = goal then round.nextFrontier
        else round.nextFrontier ++ [⟨edge.neighborId, entry.depth + 1⟩]
      met := decide (edge.neighborId = goal) }

def expandEntry (round : PathRound) (entry : Entry) : PathRound :=
  if round.met = true ∨ params.maxDepth ≤ entry.depth then round
  else (neighborsOf provider params entry.nodeId).foldl (meetNeighbor goal entry) round

def pathRound (visited : OrdSet JsString) (parent : OrdMap JsString JsString)
    (frontier : List Entry) : PathRound :=
  (sortBy Entry.nodeId frontier).foldl (expandEntry provider params goal)
    ⟨visited, parent, [], false⟩

structure PathReport where
  found : Bool
  path : List JsString
  length : Int
  deriving DecidableEq

theorem pathRound_progress (visited parent frontier) :
    (pathRound provider params goal visited parent frontier).nextFrontier.length + visited.size ≤
      (pathRound provider params goal visited parent frontier).visited.size := by
  -- what a round pushes it has visited anew
  have meet : ∀ (entry : Entry) (edges : List NeighborEdge) (round : PathRound),
      round.nextFrontier.length + visited.size ≤ round.visited.size →
      (edges.foldl (meetNeighbor goal entry) round).nextFrontier.length + visited.size ≤
        (edges.foldl (meetNeighbor goal entry) round).visited.size := by
    intro entry edges
    induction edges with
    | nil => exact fun _ bound => bound
    | cons edge edges ih =>
      intro round bound
      apply ih
      unfold meetNeighbor
      split
      · exact bound
      next fresh =>
        rw [not_or] at fresh
        simp only [OrdSet.size_add _ _ fresh.2]
        split
        · omega
        · simp only [length_append, length_cons, length_nil]
          omega
  have expand : ∀ (entries : List Entry) (round : PathRound),
      round.nextFrontier.length + visited.size ≤ round.visited.size →
      (entries.foldl (expandEntry provider params goal) round).nextFrontier.length +
        visited.size ≤ (entries.foldl (expandEntry provider params goal) round).visited.size := by
    intro entries
    induction entries with
    | nil => exact fun _ bound => bound
    | cons entry entries ih =>
      intro round bound
      apply ih
      unfold expandEntry
      split
      · exact bound
      · exact meet entry _ round bound
  apply expand
  exact Nat.le_of_eq (Nat.zero_add _)

/-- The loop over the frontiers. -/
def shortestPathLoop (visited : OrdSet JsString) (parent : OrdMap JsString JsString)
    (frontier : List Entry) : PathReport :=
  if frontier = [] ∨ params.maxNodes ≤ visited.size then ⟨false, [], -1⟩
  else
    let round := pathRound provider params goal visited parent frontier
    if round.met then
      let path := reconstructPath round.parent params.start goal
      ⟨true, path, path.length - 1⟩
    else shortestPathLoop round.visited round.parent round.nextFrontier
  termination_by (params.maxNodes - visited.size, frontier.length)
  decreasing_by
    rename_i active unmet
    rw [not_or] at active
    have progress := pathRound_progress provider params goal visited parent frontier
    have some := List.length_pos_iff.mpr active.1
    by_cases more : visited.size <
        (pathRound provider params goal visited parent frontier).visited.size
    · apply Prod.Lex.left
      show params.maxNodes -
        (pathRound provider params goal visited parent frontier).visited.size < _
      omega
    · -- nothing was visited anew, so the next frontier is empty
      have same : (pathRound provider params goal visited parent frontier).visited.size =
          visited.size := by omega
      rw [same]
      apply Prod.Lex.right
      show (pathRound provider params goal visited parent frontier).nextFrontier.length < _
      omega

def shortestPath : Except Failure PathReport := do
  validateStart provider params.start
  if params.start = goal then pure ⟨true, [params.start], 0⟩
  else pure (shortestPathLoop provider params goal (.ofList [params.start]) .empty
    [⟨params.start, 0⟩])

/-! ### Reachability -/

structure ReachRound where
  visited : OrdSet JsString
  nextFrontier : List JsString
  met : Bool

def meetNode (round : ReachRound) (edge : NeighborEdge) : ReachRound :=
  if round.met then round
  else if edge.neighborId = goal then { round with met := true }
  else if edge.neighborId ∈ round.visited then round
  else
    { round with
      visited := round.visited.add edge.neighborId
      nextFrontier := round.nextFrontier ++ [edge.neighborId] }

def reachRound (visited : OrdSet JsString) (frontier : List JsString) : ReachRound :=
  frontier.foldl
    (fun round nodeId => (neighborsOf provider params nodeId).foldl (meetNode goal) round)
    ⟨visited, [], false⟩

def isReachableLoop (depth : Nat) (visited : OrdSet JsString) (frontier : List JsString) :
    Bool :=
  if frontier = [] ∨ params.maxDepth ≤ depth ∨ params.maxNodes ≤ visited.size then false
  else
    let round := reachRound provider params goal visited frontier
    if round.met then true
    else isReachableLoop (depth + 1) round.visited round.nextFrontier
  termination_by (params.maxDepth - depth).toNat
  decreasing_by
    rename_i active _
    rw [not_or, not_or] at active
    omega

def isReachable : Bool :=
  if params.start = goal then true
  else isReachableLoop provider params goal 0 (.ofList [params.start]) [params.start]

end Query
end GitWarp
