import GitWarp.Query.UnweightedTraversal

/-!
# What a depth-first traversal visits

Depth-first traversal marks a node where it meets it first, and does not go on from a node
that it meets at the depth limit. So it visits each node once and none beyond the limit; it
can miss nodes behind a node that it has met on a detour which uses up the depth.
-/
namespace GitWarp

open Js Lib List OrdSet

namespace Query

open IndexTree (NeighborEdge Direction)

variable {provider : NeighborProvider} {params : TraversalParams}

/-- A simple path from the start. -/
abbrev PathFromStart (provider : NeighborProvider) (params : TraversalParams)
    (path : List JsString) (x : JsString) : Prop :=
  SimplePath (Succeeds (successorIds provider params)) params.start path x

/-- The path uses up the depth. -/
def Exhausts (params : TraversalParams) (path : List JsString) : Prop :=
  (path.length : Int) = params.maxDepth + 1

/-- Visited, or on the stack and not too deep. -/
def Pending (params : TraversalParams) (visited : OrdSet JsString) (stack : List Entry)
    (y : JsString) : Prop :=
  y ∈ visited ∨ ∃ entry ∈ stack, entry.nodeId = y ∧ (entry.depth : Int) ≤ params.maxDepth

/-- An entry of the stack was pushed from the end of a simple path through visited nodes. -/
def PushedFrom (provider : NeighborProvider) (params : TraversalParams)
    (visited : OrdSet JsString) (entry : Entry) : Prop :=
  entry.nodeId = params.start ∧ entry.depth = 0 ∨ ∃ path x, PathFromStart provider params path x ∧
      entry.nodeId ∈ successorIds provider params x ∧ path.length = entry.depth ∧
      ∀ z ∈ path, z ∈ visited

structure Explored (provider : NeighborProvider) (params : TraversalParams)
    (visited : OrdSet JsString) (stack : List Entry) : Prop where
  within : ∀ x ∈ visited, ∃ k : Nat, (k : Int) ≤ params.maxDepth ∧
    Walk (Succeeds (successorIds provider params)) params.start k x
  pushed : ∀ entry ∈ stack, PushedFrom provider params visited entry
  settled : ∀ x ∈ visited, (∀ y ∈ successorIds provider params x, Pending params visited stack y) ∨
      ∃ path, PathFromStart provider params path x ∧ Exhausts params path ∧ ∀ z ∈ path, z ∈ visited
  begun : 0 ≤ params.maxDepth → Pending params visited stack params.start

theorem popFresh_spec :
    (popFresh params visited stack = none ∧
        ∀ entry ∈ stack, entry.nodeId ∈ visited ∨ params.maxDepth < entry.depth) ∨
      ∃ skipped entry rest, popFresh params visited stack = some (entry, rest) ∧
        stack = skipped ++ entry :: rest ∧ entry.nodeId ∉ visited ∧
        (entry.depth : Int) ≤ params.maxDepth ∧
        ∀ other ∈ skipped, other.nodeId ∈ visited ∨ params.maxDepth < other.depth := by
  induction stack with
  | nil => exact Or.inl ⟨rfl, by simp⟩
  | cons entry stack ih =>
    unfold popFresh
    split
    next skip =>
      rcases ih with ⟨none, all⟩ | ⟨skipped, found, rest, some, split, fresh, near, all⟩
      · exact Or.inl ⟨none, forall_mem_cons.mpr ⟨skip, all⟩⟩
      · refine Or.inr ⟨entry :: skipped, found, rest, some, ?_, fresh, near,
          forall_mem_cons.mpr ⟨skip, all⟩⟩
        rw [split]
        rfl
    next keep =>
      rw [not_or] at keep
      exact Or.inr ⟨[], entry, stack, rfl, rfl, keep.1, by omega, by simp⟩

theorem PushedFrom.path (pushed : PushedFrom provider params visited entry)
    (fresh : entry.nodeId ∉ visited) :
    ∃ path, PathFromStart provider params path entry.nodeId ∧ path.length = entry.depth + 1 ∧
      ∀ z ∈ path, z ∈ visited.add entry.nodeId := by
  rcases pushed with ⟨first, zero⟩ | ⟨path, x, simple, leads, length, through⟩
  · refine ⟨[params.start], by rw [first]; exact .here, by rw [zero]; rfl, ?_⟩
    intro z mem
    rw [mem_singleton.mp mem, ← first]
    exact (mem_add _ _).mpr (Or.inr rfl)
  · refine ⟨path ++ [entry.nodeId], .step simple leads fun on => fresh (through _ on), ?_, ?_⟩
    · rw [length_append, length]
      rfl
    · intro z mem
      rw [mem_add]
      rcases mem_append.mp mem with old | new
      · exact Or.inl (through z old)
      · exact Or.inr (mem_singleton.mp new)

/-- One turn of the loop: the popped entry is visited and its neighbours are pushed. -/
theorem Explored.visit (explored : Explored provider params visited (skipped ++ entry :: rest))
    (fresh : entry.nodeId ∉ visited) (near : (entry.depth : Int) ≤ params.maxDepth)
    (skip : ∀ other ∈ skipped, other.nodeId ∈ visited ∨ params.maxDepth < other.depth) :
    Explored provider params (visited.add entry.nodeId)
      (pushNeighbors provider params (visited.add entry.nodeId) entry rest) := by
  have grows : ∀ z, z ∈ visited → z ∈ visited.add entry.nodeId :=
    fun z old => (mem_add _ _).mpr (Or.inl old)
  have self : entry.nodeId ∈ visited.add entry.nodeId := (mem_add _ _).mpr (Or.inr rfl)
  obtain ⟨path, simple, length, through⟩ := (explored.pushed entry (by simp)).path fresh
  have kept : ∀ other ∈ rest,
      other ∈ pushNeighbors provider params (visited.add entry.nodeId) entry rest := by
    intro other member
    unfold pushNeighbors
    split
    · exact mem_append_right _ member
    · exact member
  -- what was pending still is: it was skipped because visited, is visited now, or is kept
  have pending : ∀ y, Pending params visited (skipped ++ entry :: rest) y →
      Pending params (visited.add entry.nodeId)
        (pushNeighbors provider params (visited.add entry.nodeId) entry rest) y := by
    rintro y (old | ⟨other, member, rfl, shallow⟩)
    · exact Or.inl (grows y old)
    · rcases mem_append.mp member with before | later
      · rcases skip other before with known | deep
        · exact Or.inl (grows _ known)
        · omega
      · rcases mem_cons.mp later with rfl | later
        · exact Or.inl self
        · exact Or.inr ⟨other, kept other later, rfl, shallow⟩
  constructor
  · intro x member
    rcases (mem_add _ _).mp member with old | rfl
    · exact explored.within x old
    · obtain ⟨n, steps, walk⟩ := simple.walk
      exact ⟨n, by omega, walk⟩
  · intro other member
    have old : other ∈ rest → PushedFrom provider params (visited.add entry.nodeId) other := by
      intro later
      rcases explored.pushed other (by simp [later]) with first | ⟨path', x, simple', leads, size,
        through'⟩
      · exact Or.inl first
      · exact Or.inr ⟨path', x, simple', leads, size, fun z on => grows z (through' z on)⟩
    unfold pushNeighbors at member
    split at member
    · rcases mem_append.mp member with new | later
      · -- a neighbour of the visited node, pushed from the path to it
        obtain ⟨edge, listed, rfl⟩ := mem_map.mp new
        have neighbor := (mem_filter.mp listed).1
        exact Or.inr ⟨path, entry.nodeId, simple, mem_map_of_mem neighbor, length, through⟩
      · exact old later
    · exact old member
  · intro x member
    rcases (mem_add _ _).mp member with known | rfl
    · rcases explored.settled x known with all | ⟨path', simple', exhausts, through'⟩
      · exact Or.inl fun y leads => pending y (all y leads)
      · exact Or.inr ⟨path', simple', exhausts, fun z on => grows z (through' z on)⟩
    · by_cases inner : (entry.depth : Int) < params.maxDepth
      · left
        intro y leads
        by_cases known : y ∈ visited.add entry.nodeId
        · exact Or.inl known
        · right
          obtain ⟨edge, listed, rfl⟩ := mem_map.mp leads
          refine ⟨⟨edge.neighborId, entry.depth + 1⟩, ?_, rfl, ?_⟩
          · unfold pushNeighbors
            rw [if_pos inner]
            apply mem_append_left
            exact mem_map.mpr ⟨edge, mem_filter.mpr ⟨listed, by simpa using known⟩, rfl⟩
          · show ((entry.depth + 1 : Nat) : Int) ≤ params.maxDepth
            omega
      · exact Or.inr ⟨path, simple, by unfold Exhausts; omega, through⟩
  · intro some
    exact pending _ (explored.begun some)

theorem dfsLoop_spec (visited stack) (explored : Explored provider params visited stack) :
    ∃ rest, Explored provider params (dfsLoop provider params budget visited stack) rest ∧
      ((dfsLoop provider params budget visited stack).size < visited.size + budget →
        ∀ entry ∈ rest, entry.nodeId ∈ dfsLoop provider params budget visited stack ∨
          params.maxDepth < entry.depth) := by
  -- the loop visits nodes within the depth limit only, and when it does not stop at the node
  -- limit nothing fresh is left on the stack
  induction budget generalizing visited stack with
  | zero =>
    refine ⟨stack, explored, fun less => ?_⟩
    have same : visited.size < visited.size + 0 := less
    omega
  | succ budget ih =>
    unfold dfsLoop
    rcases popFresh_spec with ⟨none, all⟩ |
      ⟨skipped, entry, rest, some, split, fresh, near, skip⟩
    · rw [none]
      exact ⟨stack, explored, fun _ => all⟩
    · rw [some]
      subst split
      obtain ⟨left, exploredAfter, finished⟩ := ih _ _ (explored.visit fresh near skip)
      refine ⟨left, exploredAfter, fun less => finished ?_⟩
      rw [size_add _ _ fresh]
      have less' : (dfsLoop provider params budget (visited.add entry.nodeId)
        (pushNeighbors provider params (visited.add entry.nodeId) entry rest)).size <
          visited.size + (budget + 1) := less
      omega

variable (provider params)

/-- An edge is open when the traversal cannot reach its source by a path which uses up the depth
and leaves out its target. -/
def OpenEdge (x y : JsString) : Prop :=
  y ∈ successorIds provider params x ∧
    ∀ path, PathFromStart provider params path x → Exhausts params path → y ∈ path

/-- Each node within the depth limit can be reached along open edges. -/
def DetourFree : Prop :=
  ∀ (k : Nat) (x : JsString), (k : Int) ≤ params.maxDepth → DistanceFromStart provider params k x →
    ∃ n, Walk (OpenEdge provider params) params.start n x

/-- The visited nodes of a depth-first traversal. -/
abbrev dfsVisited : OrdSet JsString :=
  dfsLoop provider params params.maxNodes .empty [⟨params.start, 0⟩]

variable {provider params}

theorem explored_start : Explored provider params .empty [⟨params.start, 0⟩] := by
  constructor
  · intro x mem
    exact absurd mem (not_mem_empty x)
  · intro entry mem
    rw [mem_singleton.mp mem]
    exact Or.inl ⟨rfl, rfl⟩
  · intro x mem
    exact absurd mem (not_mem_empty x)
  · intro some
    exact Or.inr ⟨⟨params.start, 0⟩, mem_singleton_self _, rfl, some⟩

theorem dfsVisited_within (x) (mem : x ∈ dfsVisited provider params) :
    x ∈ nodesWithin provider params := by
  obtain ⟨rest, explored, -⟩ := dfsLoop_spec .empty _ explored_start
  obtain ⟨k, near, walk⟩ := explored.within x mem
  obtain ⟨d, below, distance⟩ := exists_distance walk
  exact ((mem_layers _ _).1 x).mpr ⟨d, by omega, distance⟩

/-- Below the node limit, a depth-first traversal visits all that open edges lead to. -/
theorem dfsVisited_open (unreached : (dfsVisited provider params).size < params.maxNodes)
    (some : 0 ≤ params.maxDepth) (n x) (walk : Walk (OpenEdge provider params) params.start n x) :
    x ∈ dfsVisited provider params := by
  have start : Explored provider params .empty [⟨params.start, 0⟩] := explored_start
  obtain ⟨rest, explored, finished⟩ := dfsLoop_spec .empty _ start
  have all := finished (by
    show (dfsVisited provider params).size < 0 + params.maxNodes
    omega)
  have visited_of_pending : ∀ y, Pending params (dfsVisited provider params) rest y →
      y ∈ dfsVisited provider params := by
    rintro y (known | ⟨entry, member, rfl, shallow⟩)
    · exact known
    · rcases all entry member with known | deep
      · exact known
      · omega
  induction walk with
  | here => exact visited_of_pending _ (explored.begun some)
  | step _ last ih =>
    -- either the source is settled, or a path through visited nodes uses up the depth
    rcases explored.settled _ ih with pending | ⟨path, simple, exhausts, through⟩
    · exact visited_of_pending _ (pending _ last.1)
    · exact through _ (last.2 path simple exhausts)

end Query
end GitWarp
