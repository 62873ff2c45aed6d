import GitWarp.Query.TopologicalSort

/-!
# The witness of a cycle

When the sort throws it names an edge: it takes the first node, in the order of
discovery, that has not been sorted and has an edge. The nodes that are not
sorted are those behind a cycle, and not every one of them is on one.
-/
namespace GitWarp

open Js Lib List
open Relation (TransGen ReflTransGen)

namespace Query

open IndexTree (NeighborEdge Direction)

structure CycleWitness where
  source : JsString
  target : JsString
  deriving DecidableEq

structure CycleContext where
  nodesInCycle : Nat
  cycleWitness : Option CycleWitness
  deriving DecidableEq

/-- The inner loop of `_findTopoCycleWitness`. -/
def unsortedNeighbor (inSorted : OrdSet JsString) (nodeId : JsString) :
    List JsString → Option CycleWitness
  | [] => none
  | neighborId :: rest =>
    if inSorted.has neighborId then unsortedNeighbor inSorted nodeId rest
    else some ⟨nodeId, neighborId⟩

variable (graph : FiniteGraph) (params : TopoParams)

def findTopoCycleWitness (inSorted : OrdSet JsString) : List JsString → Option CycleWitness
  | [] => none
  | nodeId :: rest =>
    if inSorted.has nodeId then findTopoCycleWitness inSorted rest
    else
      match unsortedNeighbor inSorted nodeId (params.successors graph nodeId) with
      | some witness => some witness
      | none => findTopoCycleWitness inSorted rest

/-- A witness without an id at its source is left out. -/
def cycleContext : CycleContext where
  nodesInCycle := (discover graph params).discovered.size - (kahnEnd graph params).2.length
  cycleWitness :=
    (findTopoCycleWitness graph params (.ofList (kahnEnd graph params).2)
      (discover graph params).discovered.toList).filter fun witness =>
        decide (0 < witness.source.length)

variable {graph params}

/-! ### The order of discovery -/

theorem discoverLoop_sweeps (d) (empty_ : (discoverLoop graph params turns d).queue = []) :
    Sweep.Sweeps (params.successors graph) ⟨d.discovered, d.queue⟩
      (discoverLoop graph params turns d).discovered.toList := by
  induction turns generalizing d with
  | zero =>
    rw [discoverLoop] at empty_ ⊢
    rw [empty_]
    exact .done _
  | succ turns ih =>
    rw [discoverLoop] at empty_ ⊢
    cases queue : d.queue with
    | nil => exact .done _
    | cons nodeId rest =>
      rw [queue] at empty_
      have later := ih _ empty_
      rw [(foldl_discoverNeighbor { d with queue := rest }).1]
        at later
      exact .take _ _ _ _ later

theorem discover_breadthFirst (valid : params.Valid graph) :
    BreadthFirst (params.successors graph) params.start
      (discover graph params).discovered.toList := by
  obtain ⟨-, -, empty_⟩ := discover_ends valid
  exact discoverLoop_sweeps _ empty_

/-! ### The nodes that are left -/

theorem unsorted_iff (valid : params.Valid graph) (free : stoppedByLimit graph params = false)
    (reached : params.InReach graph x) :
    x ∉ (kahnEnd graph params).2 ↔ Lib.Behind (params.InReach graph) (params.Arc graph) x := by
  -- when the sort throws, the nodes left are those behind a cycle
  obtain ⟨members, -⟩ := discover_spec valid
  obtain ⟨ok, -⟩ := kahnEnd_spec valid
  have distinct := (discover graph params).discovered.nodup
  have node : (· ∈ (discover graph params).discovered.toList) = params.InReach graph := by
    funext y
    exact propext (members y)
  have closed : ∀ y z, params.InReach graph y → params.Arc graph y z → params.InReach graph z :=
    fun y z there leads => there.step leads
  constructor
  · intro out
    obtain ⟨items, holds, taking⟩ := ok.taking distinct
    have none_ : items = [] := holds.empty_iff.mp (nothing_ready valid free)
    subst none_
    -- a node left that no node left leads to would be ready
    have there := fun y here => (members y).mp (taking.split.mem_iff.mpr (mem_append_right _ here))
    have left := taking.split.mem_iff.mp ((members x).mpr reached)
    exact behind_of_left _ (fun _ => id) there taking.back x ((mem_append.mp left).resolve_left out)
  · intro behind listed
    have greedy := ok.greedy
    rw [node] at greedy
    exact greedy.not_behind closed x listed behind

/-! ### The edge that is named -/

theorem unsortedNeighbor_eq (inSorted) (nodeId) (neighbors) (none_ : ∀ y ∈ neighbors, y ∉ inSorted) :
    unsortedNeighbor inSorted nodeId neighbors = neighbors.head?.map (⟨nodeId, ·⟩) := by
  cases neighbors with
  | nil => rfl
  | cons y rest =>
    have left := (OrdSet.has_eq_false_iff inSorted y).mpr (none_ y mem_cons_self)
    simp [unsortedNeighbor, left]

/-- The first node behind a cycle that has an edge. -/
structure FirstBehind (graph : FiniteGraph) (params : TopoParams) (order : List JsString)
    (x y : JsString) : Prop where
  behind : Lib.Behind (params.InReach graph) (params.Arc graph) x
  edge : (params.successors graph x).head? = some y
  first : ∃ before rest, order = before ++ x :: rest ∧
    ∀ z ∈ before, Lib.Behind (params.InReach graph) (params.Arc graph) z →
      params.successors graph z = []

theorem findTopoCycleWitness_spec (valid : params.Valid graph)
    (free : stoppedByLimit graph params = false) (order)
    (reached : ∀ x ∈ order, params.InReach graph x)
    (left : ∃ x ∈ order, Lib.Behind (params.InReach graph) (params.Arc graph) x ∧
      params.successors graph x ≠ []) :
    ∃ x y, findTopoCycleWitness graph params (.ofList (kahnEnd graph params).2) order =
        some ⟨x, y⟩ ∧ FirstBehind graph params order x y := by
  induction order with
  | nil =>
    obtain ⟨x, member, -⟩ := left
    cases member
  | cons nodeId rest ih =>
    have unsorted := unsorted_iff valid free (reached nodeId mem_cons_self)
    -- a node that is passed over is not the one that is sought
    have later : (Lib.Behind (params.InReach graph) (params.Arc graph) nodeId →
        params.successors graph nodeId = []) → ∃ x y,
        findTopoCycleWitness graph params (.ofList (kahnEnd graph params).2) rest = some ⟨x, y⟩ ∧
          FirstBehind graph params (nodeId :: rest) x y := by
      intro bare
      obtain ⟨x, y, found, firstBehind⟩ := ih
        (forall_mem_cons.mp reached).2 (by
          obtain ⟨x, member, behind, edges⟩ := left
          rcases mem_cons.mp member with rfl | inRest
          · exact absurd (bare behind) edges
          · exact ⟨x, inRest, behind, edges⟩)
      obtain ⟨before, after, split, none_⟩ := firstBehind.first
      refine ⟨x, y, found, firstBehind.behind, firstBehind.edge, nodeId :: before, after, ?_, ?_⟩
      · rw [split, cons_append]
      · intro z member behind
        rcases mem_cons.mp member with rfl | inBefore
        · exact bare behind
        · exact none_ z inBefore behind
    rw [findTopoCycleWitness]
    split
    next sorted =>
      rw [OrdSet.has_iff, OrdSet.mem_ofList] at sorted
      exact later fun behind => absurd sorted (unsorted.mpr behind)
    next left' =>
      rw [OrdSet.has_iff, OrdSet.mem_ofList] at left'
      have behind := unsorted.mp left'
      have neighbors : ∀ y ∈ params.successors graph nodeId,
          y ∉ OrdSet.ofList (kahnEnd graph params).2 := by
        intro y leads
        rw [OrdSet.mem_ofList]
        apply (unsorted_iff valid free ?_).mpr (behind.step leads)
        exact (reached nodeId mem_cons_self).step leads
      rw [unsortedNeighbor_eq _ _ _ neighbors]
      cases edges : params.successors graph nodeId with
      | nil => exact later fun _ => edges
      | cons y more =>
        exact ⟨nodeId, y, rfl, behind, by rw [edges]; rfl, [], rest, rfl, by simp⟩

theorem FirstBehind.unique (firstBehind : FirstBehind graph params order x y)
    (other : FirstBehind graph params order x' y') : x = x' ∧ y = y' := by
  obtain ⟨before, rest, split, none_⟩ := firstBehind.first
  obtain ⟨before', rest', split', none'⟩ := other.first
  have edges : params.successors graph x ≠ [] := by
    intro bare
    have edge := firstBehind.edge
    rw [bare] at edge
    cases edge
  have edges' : params.successors graph x' ≠ [] := by
    intro bare
    have edge := other.edge
    rw [bare] at edge
    cases edge
  -- neither of the two stands before the other
  have same : x = x' := by
    have both : before ++ x :: rest = before' ++ x' :: rest' := split.symm.trans split'
    rcases append_eq_append_iff.mp both with ⟨more, eq, tail⟩ | ⟨more, eq, tail⟩
    · cases more with
      | nil => exact (List.cons.inj tail).1
      | cons z more =>
        obtain ⟨rfl, -⟩ := List.cons.inj tail
        exact absurd (none' x (by rw [eq]; simp) firstBehind.behind) edges
    · cases more with
      | nil => exact (List.cons.inj tail).1.symm
      | cons z more =>
        obtain ⟨rfl, -⟩ := List.cons.inj tail
        exact absurd (none_ x' (by rw [eq]; simp) other.behind) edges'
  subst same
  have edge := firstBehind.edge
  rw [other.edge] at edge
  exact ⟨rfl, (Option.some.inj edge).symm⟩

/-! ### When the sort throws -/

theorem validateStarts_ne (checked : validateStarts graph params = .error graphHasCycles) :
    False := by
  unfold validateStarts at checked
  generalize params.starts.toList = starts at checked
  induction starts with
  | nil => cases checked
  | cons nodeId starts ih =>
    have checked' : (validateStart graph.toNeighborProvider nodeId >>= fun _ =>
        starts.forM fun nodeId => validateStart graph.toNeighborProvider nodeId) =
          .error graphHasCycles := checked
    unfold validateStart at checked'
    split at checked'
    next => exact ih checked'
    next =>
      -- a start that is missing fails with another code
      have failure : (Except.error (invalidStart nodeId) : Except Failure Unit) =
        .error graphHasCycles := checked'
      have code : lit "INVALID_START" = lit "ERR_GRAPH_HAS_CYCLES" :=
        congrArg Failure.code (Except.error.inj failure)
      exact absurd code (by decide)

theorem of_thrown (thrown : topologicalSort graph params true = .error graphHasCycles) :
    params.Valid graph ∧ stoppedByLimit graph params = false ∧ Cyclic graph params := by
  unfold topologicalSort at thrown
  cases checked : validateStarts graph params with
  | error e =>
    rw [checked] at thrown
    cases thrown
    exact (validateStarts_ne checked).elim
  | ok =>
    have valid := valid_of_validateStarts checked
    rw [checked] at thrown
    simp only [bind, Except.bind, Bool.and_true] at thrown
    split at thrown
    next found =>
      unfold computeTopoHasCycle at found
      rw [Bool.and_eq_true, Bool.not_eq_true', decide_eq_true_eq] at found
      rcases kahnEnd_cases valid found.1 with ⟨-, cyclic⟩ | ⟨same, -⟩
      · exact ⟨valid, found.1, cyclic⟩
      · omega
    next => cases thrown

/-- The edge that is named, if one is, is an edge of the graph on a directed cycle. -/
def GenuineWitness (graph : FiniteGraph) (params : TopoParams) (witness : Option CycleWitness) :
    Prop :=
  ∀ w, witness = some w → params.Arc graph w.source w.target ∧
    ReflTransGen (params.Arc graph) w.target w.source

/-- When the sort throws, the witness is genuine just if the first node behind a cycle that has an
edge, in breadth-first order, is reached from its first neighbour, or its id is empty. -/
theorem cycleWitness_genuine_iff (graph : FiniteGraph) (params : TopoParams)
    (thrown : topologicalSort graph params true = .error graphHasCycles) :
    GenuineWitness graph params (cycleContext graph params).cycleWitness ↔
      ∃ order x y, BreadthFirst (params.successors graph) params.start order ∧
        FirstBehind graph params order x y ∧
        (x = [] ∨ ReflTransGen (params.Arc graph) y x) := by
  obtain ⟨valid, free, c, reached, cycle⟩ := of_thrown thrown
  obtain ⟨members, -⟩ := discover_spec valid
  -- a node on a cycle is behind one and has an edge
  have left : ∃ x ∈ (discover graph params).discovered.toList,
      Lib.Behind (params.InReach graph) (params.Arc graph) x ∧ params.successors graph x ≠ [] := by
    obtain ⟨y, leads, -⟩ := TransGen.head'_iff.mp cycle
    refine ⟨c, (members c).mpr reached, ⟨c, reached, cycle, .refl⟩, fun bare => ?_⟩
    have edge : y ∈ params.successors graph c := leads
    rw [bare] at edge
    cases edge
  obtain ⟨x, y, found, first⟩ := findTopoCycleWitness_spec valid free _
    (fun x member => (members x).mp member) left
  have edge : params.Arc graph x y := mem_of_mem_head? first.edge
  have named : (cycleContext graph params).cycleWitness =
      if x = [] then none else some ⟨x, y⟩ := by
    rw [cycleContext, found, Option.filter_some]
    cases x <;> rfl
  have order := discover_breadthFirst valid
  rw [named]
  constructor
  · intro genuine
    refine ⟨_, x, y, order, first, ?_⟩
    by_cases bare : x = []
    · exact Or.inl bare
    · rw [if_neg bare] at genuine
      exact Or.inr (genuine _ rfl).2
  · rintro ⟨order', x', y', order', first', back⟩ w same
    obtain rfl := Sweep.Sweeps.unique order order'
    obtain ⟨rfl, rfl⟩ := first.unique first'
    split at same
    next => cases same
    next some_ =>
      cases same
      exact ⟨edge, back.resolve_left some_⟩

/-! ### A cycle with a way out -/

/-- The nodes `b` and `c` lead to each other, and `b` leads to `a` first. -/
def leavingNeighbors (nodeId : JsString) : List NeighborEdge :=
  if nodeId = lit "b" then [⟨lit "a", lit "x"⟩, ⟨lit "c", lit "x"⟩]
  else if nodeId = lit "c" then [⟨lit "b", lit "x"⟩]
  else []

def leavingGraph : FiniteGraph where
  hasNode nodeId := decide (nodeId ∈ [lit "a", lit "b", lit "c"])
  getNeighbors nodeId _ _ := leavingNeighbors nodeId
  nodes := [lit "a", lit "b", lit "c"]
  known := abc_known
  closed := by
    have all : ∀ nodeId ∈ [lit "a", lit "b", lit "c"], ∀ edge ∈ leavingNeighbors nodeId,
        edge.neighborId ∈ [lit "a", lit "b", lit "c"] := by decide
    exact fun nodeId member _ _ => all nodeId member
  separable := abc_separable

def leavingParams (start : JsString) : TopoParams := ⟨[start], .out, none, 100⟩

/-- The sort throws and names the edge that leaves the cycle. -/
theorem cycleWitness_leaves_cycle :
    topologicalSort leavingGraph (leavingParams (lit "b")) true = .error graphHasCycles ∧
    (cycleContext leavingGraph (leavingParams (lit "b"))).cycleWitness = some ⟨lit "b", lit "a"⟩ ∧
    ¬ GenuineWitness leavingGraph (leavingParams (lit "b"))
      (cycleContext leavingGraph (leavingParams (lit "b"))).cycleWitness := by
  have named : (cycleContext leavingGraph (leavingParams (lit "b"))).cycleWitness =
      some ⟨lit "b", lit "a"⟩ := by decide +kernel
  refine ⟨by decide +kernel, named, fun genuine => ?_⟩
  obtain ⟨-, back⟩ := genuine _ named
  -- no edge starts at the target
  rcases ReflTransGen.cases_head back with same | ⟨next, leads, -⟩
  · exact absurd same (by decide)
  · have bare : (leavingParams (lit "b")).successors leavingGraph (lit "a") = [] := by decide
    have edge : next ∈ (leavingParams (lit "b")).successors leavingGraph (lit "a") := leads
    cases edge

theorem cycleWitness_genuine_iff_leaving :
    GenuineWitness leavingGraph (leavingParams (lit "c"))
        (cycleContext leavingGraph (leavingParams (lit "c"))).cycleWitness ↔
      ∃ order x y, BreadthFirst ((leavingParams (lit "c")).successors leavingGraph) [lit "c"]
        order ∧ FirstBehind leavingGraph (leavingParams (lit "c")) order x y ∧
        (x = [] ∨ ReflTransGen ((leavingParams (lit "c")).Arc leavingGraph) y x) :=
  cycleWitness_genuine_iff leavingGraph (leavingParams (lit "c")) (by decide +kernel)

end Query
end GitWarp
