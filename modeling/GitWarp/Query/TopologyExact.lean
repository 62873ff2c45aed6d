import GitWarp.Query.TransitiveClosure
import GitWarp.Query.TransitiveEdges

/-!
# Topology algorithms on finite graphs

When its limit does not stop it, the sort decides whether there is a cycle and finds the least
topological order, and levels and reduction rest on that order. The reduction is about pairs of
nodes: parallel edges with different labels are kept or dropped together. The closure leaves
out the pairs of a node with itself.
-/
namespace GitWarp

open Js Lib List
open Relation (TransGen)

namespace Query

open IndexTree (NeighborEdge Direction)

def TopoParams.Exist (params : TopoParams) (graph : FiniteGraph) : Prop :=
  ∀ nodeId ∈ params.start, graph.hasNode nodeId = true

variable {graph : FiniteGraph} {params : TopoParams}

theorem TopoParams.Exist.checked (exist : params.Exist graph) :
    validateStarts graph params = .ok () := by
  unfold validateStarts
  have starts : ∀ nodeId ∈ params.starts.toList, graph.hasNode nodeId = true :=
    fun nodeId mem => exist nodeId (OrdSet.mem_ofList.mp mem)
  generalize params.starts.toList = ids at starts
  induction ids with
  | nil => rfl
  | cons nodeId ids ih =>
    have one : validateStart graph.toNeighborProvider nodeId = .ok () := by
      unfold validateStart
      rw [if_pos (starts nodeId mem_cons_self)]
    have rest := ih (forall_mem_cons.mp starts).2
    show (validateStart graph.toNeighborProvider nodeId >>= fun _ =>
      ids.forM fun nodeId => validateStart graph.toNeighborProvider nodeId) = .ok ()
    rw [one]
    exact rest

/-- A sort with room for every node in reach is not stopped. -/
theorem not_stoppedByLimit (valid : params.Valid graph) (fits : params.Fits graph) :
    stoppedByLimit graph params = false := by
  obtain ⟨members, -⟩ := discover_spec valid
  obtain ⟨ok, stop⟩ := kahnEnd_spec valid
  obtain ⟨all, few, inside⟩ := fits
  unfold stoppedByLimit
  simp only [Bool.and_eq_false_iff, decide_eq_false_iff_not, not_le, Bool.not_eq_false']
  by_cases full : params.maxNodes ≤ (kahnEnd graph params).2.length
  · right
    -- every node is taken, so none is ready
    have sub : (kahnEnd graph params).2 ⊆ all :=
      fun x mem => inside x ((members x).mp (ok.subset x mem))
    have perm : (kahnEnd graph params).2.Perm all :=
      (subperm_of_subset ok.greedy.nodup sub).perm_of_length_le (by omega)
    obtain ⟨items, holds, -, ready⟩ := ok.ready
    apply (MinHeap.isEmpty_iff _).mpr
    apply holds.empty_iff.mpr
    apply eq_nil_iff_forall_not_mem.mpr
    intro x mem
    obtain ⟨listed, fresh, -⟩ := (ready x).mp mem
    exact fresh (perm.mem_iff.mpr (inside x ((members x).mp listed)))
  · left
    omega

/-! ### What each algorithm returns -/

variable (graph params)

/-- The sort decides whether there is a cycle, and finds the least topological order. -/
def SortExact : Prop :=
  ∀ throwOnCycle, stoppedByLimit graph params = false → (Cyclic graph params → throwOnCycle = true →
      topologicalSort graph params throwOnCycle = .error graphHasCycles) ∧
    (¬ (Cyclic graph params ∧ throwOnCycle = true) →
      ∃ run, topologicalSort graph params throwOnCycle = .ok run ∧
        (run.hasCycle = true ↔ Cyclic graph params) ∧
        (run.hasCycle = false → Topological (params.InReach graph) (params.Arc graph) run.sorted ∧
          ∀ other, Topological (params.InReach graph) (params.Arc graph) other →
            run.sorted = other ∨ List.Lex (· < ·) run.sorted other))

/-- Each node in reach has the length of the longest path to it for its level. -/
def LevelsExact : Prop :=
  stoppedByLimit graph params = false →
    (Cyclic graph params → levels graph params = .error graphHasCycles) ∧
    (¬ Cyclic graph params → ∃ scan, levels graph params = .ok scan ∧
      (∀ x, (scan.levelMap.get x).isSome = true ↔ params.InReach graph x) ∧
      ∀ x n, scan.levelMap.get x = some n → Longest (params.InReach graph) (params.Arc graph) n x)

/-- The pairs joined by the reduction are the least ones with the same reachability, and all
edges between them are kept. -/
def ReductionExact : Prop :=
  stoppedByLimit graph params = false →
    (Cyclic graph params → transitiveReduction graph params = .error graphHasCycles) ∧
    (¬ Cyclic graph params → ∃ reduction, transitiveReduction graph params = .ok reduction ∧
      (∀ x y, TransGen (Joins reduction.edges) x y ↔ TransGen (params.ReachedArc graph) x y) ∧
      (∀ q : JsString → JsString → Prop,
        (∀ x y, TransGen q x y ↔ TransGen (params.ReachedArc graph) x y) →
          ∀ x y, Joins reduction.edges x y → q x y) ∧
      ∀ edge : GraphEdge, edge ∈ reduction.edges ↔ Joins reduction.edges edge.src edge.dst ∧
        (⟨edge.dst, edge.label⟩ : NeighborEdge) ∈ params.neighbors graph edge.src)

/-- The closure is the sorted list of the pairs of different nodes in reach of which one leads to
the other. -/
def ClosureExact : Prop :=
  params.Fits graph → ∃ pairs : List (JsString × JsString), (∀ x y, (x, y) ∈ pairs ↔
      params.InReach graph x ∧ TransGen (params.Arc graph) x y ∧ x ≠ y) ∧
    (pairs.Pairwise fun one two => toLex one < toLex two) ∧
    ∀ maxEdges, transitiveClosure graph params maxEdges =
      if pairs.length ≤ maxEdges then .ok pairs else .error (maxEdgesExceeded maxEdges)

structure TopologyExact : Prop where
  sort : SortExact graph params
  levels : LevelsExact graph params
  reduction : ReductionExact graph params
  closure : ClosureExact graph params
  fits : params.Fits graph → stoppedByLimit graph params = false

variable {graph params}

section

variable (exist : params.Exist graph)
include exist

theorem sortExact : SortExact graph params := by
  intro throwOnCycle free
  have spec : ∀ throwOnCycle run, topologicalSort graph params throwOnCycle = .ok run → _ :=
    fun throwOnCycle run => topologicalSort_spec free
  have result : ∀ throwOnCycle, topologicalSort graph params throwOnCycle =
      if (computeTopoHasCycle graph params && throwOnCycle) = true then .error graphHasCycles
      else .ok ⟨(kahnEnd graph params).2, computeTopoHasCycle graph params⟩ := by
    intro throwOnCycle
    unfold topologicalSort
    rw [exist.checked]
    rfl
  -- without the throw the sort always returns, and its answer decides the throw
  have quiet : topologicalSort graph params false =
      .ok ⟨(kahnEnd graph params).2, computeTopoHasCycle graph params⟩ := by
    rw [result, Bool.and_false, if_neg Bool.false_ne_true]
  have decided : computeTopoHasCycle graph params = true ↔ Cyclic graph params :=
    (spec false _ quiet).1
  constructor
  · intro cyclic throws
    rw [result, decided.mpr cyclic, throws]
    rfl
  · intro allowed
    rw [result]
    have passes : ¬ (computeTopoHasCycle graph params && throwOnCycle) = true := by
      rw [Bool.and_eq_true, decided]
      exact allowed
    rw [if_neg passes]
    exact ⟨_, rfl, spec false _ quiet⟩

theorem acyclic_or_throws {body : TopoRun → Except Failure B}
    (free : stoppedByLimit graph params = false) :
    (Cyclic graph params → (topologicalSort graph params true >>= body) = .error graphHasCycles) ∧
      (¬ Cyclic graph params → ∃ run, topologicalSort graph params true = .ok run) := by
  obtain ⟨throws, returns⟩ := sortExact exist true free
  constructor
  · intro cyclic
    rw [throws cyclic rfl]
    rfl
  · intro acyclic
    obtain ⟨run, sorted, -⟩ := returns fun both => acyclic both.1
    exact ⟨run, sorted⟩

theorem levelsExact : LevelsExact graph params := by
  intro free
  obtain ⟨throws, returns⟩ := acyclic_or_throws exist free
  refine ⟨throws, fun acyclic => ?_⟩
  obtain ⟨run, sorted⟩ := returns acyclic
  have done : levels graph params = .ok (levelsOf graph params run.sorted) := by
    unfold levels
    rw [sorted]
    rfl
  exact ⟨_, done, levels_spec _ free done⟩

theorem reductionExact : ReductionExact graph params := by
  intro free
  have whole : transitiveReduction graph params = topologicalSort graph params true >>= _ := rfl
  obtain ⟨throws, returns⟩ := acyclic_or_throws exist free
  refine ⟨throws, fun acyclic => ?_⟩
  obtain ⟨run, sorted⟩ := returns acyclic
  obtain ⟨reduction, done⟩ : ∃ reduction, transitiveReduction graph params = .ok reduction := by
    rw [whole, sorted]
    exact ⟨_, rfl⟩
  obtain ⟨same, least, labels⟩ := transitiveReduction_spec free done
  refine ⟨reduction, done, same, least, fun edge => ?_⟩
  constructor
  · intro member
    exact ⟨⟨edge, member, rfl, rfl⟩, ((transitiveReduction_edges free done edge).mp member).2⟩
  · rintro ⟨joined, inside⟩
    exact labels edge.src edge.dst edge.label joined inside

theorem closureExact : ClosureExact graph params := by
  intro fits
  have valid := valid_of_validateStarts exist.checked
  exact ⟨closurePairs graph params, mem_closurePairs valid fits, pairwise_closurePairs,
    fun maxEdges => transitiveClosure_eq exist.checked⟩

end

/-- The topology algorithms are exact on every finite graph. -/
theorem topology_exact (graph : FiniteGraph) (params : TopoParams) (exist : params.Exist graph) :
    TopologyExact graph params :=
  ⟨sortExact exist, levelsExact exist, reductionExact exist, closureExact exist,
    not_stoppedByLimit (valid_of_validateStarts exist.checked)⟩

/-! ### Parallel edges and loops -/

/-- Two edges with different labels from `a` to `b`, and a loop at `c`. -/
def parallelNeighbors (nodeId : JsString) : List NeighborEdge :=
  if nodeId = lit "a" then [⟨lit "b", lit "x"⟩, ⟨lit "b", lit "y"⟩]
  else if nodeId = lit "c" then [⟨lit "c", lit "x"⟩]
  else []

def parallelGraph : FiniteGraph where
  hasNode nodeId := decide (nodeId ∈ [lit "a", lit "b", lit "c"])
  getNeighbors nodeId _ _ := parallelNeighbors nodeId
  nodes := [lit "a", lit "b", lit "c"]
  known := abc_known
  closed := by
    have all : ∀ nodeId ∈ [lit "a", lit "b", lit "c"], ∀ edge ∈ parallelNeighbors nodeId,
        edge.neighborId ∈ [lit "a", lit "b", lit "c"] := by decide
    exact fun nodeId member _ _ => all nodeId member
  separable := abc_separable

def parallelParams (start : JsString) : TopoParams :=
  ⟨[start], .out, none, 100⟩

theorem topology_exact_parallel : TopologyExact parallelGraph (parallelParams (lit "a")) := by
  apply topology_exact
  unfold TopoParams.Exist
  decide

/-- No edge can be left out without changing what is reachable. -/
def LeastEdges (edges : List GraphEdge) : Prop :=
  ∀ fewer ⊆ edges, (∀ x y, TransGen (Joins fewer) x y ↔ TransGen (Joins edges) x y) → edges ⊆ fewer

/-- The reduction keeps both edges from `a` to `b`, and the closure does not list the loop. -/
theorem parallel_kept :
    (∃ reduction, transitiveReduction parallelGraph (parallelParams (lit "a")) = .ok reduction ∧
      ¬ LeastEdges reduction.edges) ∧
    transitiveClosure parallelGraph (parallelParams (lit "c")) 100 = .ok [] ∧
    TransGen ((parallelParams (lit "c")).Arc parallelGraph) (lit "c") (lit "c") := by
  have run : transitiveReduction parallelGraph (parallelParams (lit "a")) = .ok
      ⟨[⟨lit "a", lit "b", lit "x"⟩, ⟨lit "a", lit "b", lit "y"⟩], 0⟩ := by
    decide +kernel
  refine ⟨⟨_, run, fun least => ?_⟩, by decide +kernel, .single (by decide)⟩
  have kept := least [⟨lit "a", lit "b", lit "x"⟩] (by decide) ?_
  · exact absurd (kept (mem_cons_of_mem _ mem_cons_self)) (by decide)
  · -- one of the two edges joins what both join
    have same : Joins [⟨lit "a", lit "b", lit "x"⟩] =
        Joins [⟨lit "a", lit "b", lit "x"⟩, ⟨lit "a", lit "b", lit "y"⟩] := by
      unfold Joins
      simp
    intro x y
    rw [same]

end Query
end GitWarp
