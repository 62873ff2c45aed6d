import GitWarp.Lib.HeaviestWalk
import GitWarp.Query.TopologyExact
import GitWarp.Query.WeightedPathFinding

/-!
# Longest paths

The costs are worked out along the topological order, node by node, so that the
cost of a node is final when its edges are looked at. The sort may stop at its
limit, and the nodes that it has left out then pass nothing on: what is returned
is the cost of the longest path through the nodes that were sorted.
-/
namespace GitWarp

open Js Lib List

variable {run : LongestRun} {nodeId : JsString} (before : List JsString) {sorted : List JsString}

namespace Query

open IndexTree (NeighborEdge Direction)

/-! ### The algorithm -/

structure LongestPath where
  path : List JsString
  totalCost : Rat
  deriving DecidableEq

/-- The best costs so far and the nodes before. -/
structure LongestRun where
  dist : OrdMap JsString Rat
  prev : OrdMap JsString JsString

/-- A longer way to the neighbour, or an equally long one from a lesser node; what has no cost yet
is at minus infinity. -/
def prefers (run : LongestRun) (neighborId nodeId : JsString) (alt : Rat) : Bool :=
  match run.dist.get neighborId with
  | none => true
  | some best =>
    decide (best < alt) ||
      (decide (alt = best) && shouldUpdatePredecessor run.prev neighborId nodeId)

def stretchEdge (weightFn : WeightFn) (nodeId : JsString) (run : LongestRun)
    (edge : NeighborEdge) : LongestRun :=
  let alt := (run.dist.get nodeId).getD 0 + weightFn nodeId edge.neighborId edge.label
  if prefers run edge.neighborId nodeId alt then
    ⟨run.dist.set edge.neighborId alt, run.prev.set edge.neighborId nodeId⟩
  else run

def stretchNode (graph : FiniteGraph) (params : TopoParams) (weightFn : WeightFn)
    (run : LongestRun) (nodeId : JsString) : LongestRun :=
  if run.dist.has nodeId then
    (params.neighbors graph nodeId).foldl (stretchEdge weightFn nodeId) run
  else run

def LongestRun.start (nodeId : JsString) : LongestRun :=
  ⟨OrdMap.empty.set nodeId 0, .empty⟩

structure LongestParams where
  start : JsString
  goal : JsString
  direction : Direction
  labels : Option (OrdSet JsString)
  maxNodes : Nat

def LongestParams.topo (params : LongestParams) : TopoParams :=
  ⟨[params.start], params.direction, params.labels, params.maxNodes⟩

def longestRun (graph : FiniteGraph) (params : LongestParams) (weightFn : WeightFn)
    (sorted : List JsString) : LongestRun :=
  sorted.foldl (stretchNode graph params.topo weightFn) (.start params.start)

def weightedLongestPath (graph : FiniteGraph) (params : LongestParams) (weights : WeightChoice) :
    Except Failure LongestPath := do
  let weightFn ← resolveWeightFn weights
  validateStart graph.toNeighborProvider params.start
  let topo ← topologicalSort graph params.topo true
  let run := longestRun graph params weightFn topo.sorted
  match run.dist.get params.goal with
  | none => .error (noPath params.start params.goal)
  | some totalCost => pure ⟨reconstructPath run.prev params.start params.goal, totalCost⟩

/-! ### The arcs that have been looked at -/

def WeighedArc (graph : FiniteGraph) (params : TopoParams) (weightFn : WeightFn)
    (x y : JsString) (w : Rat) : Prop :=
  ∃ edge ∈ params.neighbors graph x, edge.neighborId = y ∧ weightFn x y edge.label = w

variable {graph : FiniteGraph} {params : TopoParams} {weightFn : WeightFn} {start : JsString}

theorem WeighedArc.arc (weighed : WeighedArc graph params weightFn x y w) :
    params.Arc graph x y := by
  obtain ⟨edge, member, rfl, -⟩ := weighed
  exact mem_map_of_mem member

/-- The arcs from some nodes, and the first edges of one more. -/
def SeenArc (graph : FiniteGraph) (params : TopoParams) (weightFn : WeightFn)
    (before : List JsString) (nodeId : JsString) (edges : List NeighborEdge) (x y : JsString)
    (w : Rat) : Prop :=
  x ∈ before ∧ WeighedArc graph params weightFn x y w ∨
    x = nodeId ∧ ∃ edge ∈ edges, edge.neighborId = y ∧ weightFn x y edge.label = w

theorem seenArc_append (x y w) :
    WithArc (SeenArc graph params weightFn before nodeId edges) nodeId edge.neighborId
        (weightFn nodeId edge.neighborId edge.label) x y w ↔
      SeenArc graph params weightFn before nodeId (edges ++ [edge]) x y w := by
  constructor
  · intro with_
    cases with_ with
    | old _ _ _ there =>
      rcases there with first | ⟨rfl, other, member, rest⟩
      · exact Or.inl first
      · exact Or.inr ⟨rfl, other, mem_append_left _ member, rest⟩
    | new => exact Or.inr ⟨rfl, edge, by simp, rfl, rfl⟩
  · rintro (first | ⟨rfl, other, member, rfl, rfl⟩)
    · exact .old _ _ _ (Or.inl first)
    · rcases mem_append.mp member with old | last
      · exact .old _ _ _ (Or.inr ⟨rfl, other, old, rfl, rfl⟩)
      · rw [mem_singleton.mp last]
        exact .new

theorem seenArc_all (nodeId x y w) :
    SeenArc graph params weightFn before nodeId (params.neighbors graph nodeId) x y w ↔
      SeenArc graph params weightFn (before ++ [nodeId]) nodeId [] x y w := by
  constructor
  · rintro (⟨mem, weighed⟩ | ⟨rfl, weighed⟩)
    · exact Or.inl ⟨mem_append_left _ mem, weighed⟩
    · exact Or.inl ⟨by simp, weighed⟩
  · rintro (⟨mem, weighed⟩ | ⟨-, edge, none_, -⟩)
    · rcases mem_append.mp mem with old | last
      · exact Or.inl ⟨old, weighed⟩
      · rw [mem_singleton] at last
        subst last
        exact Or.inr ⟨rfl, weighed⟩
    · cases none_

/-! ### What a run knows -/

/-- The costs are those of the longest walks along the arcs seen, and each node was reached from the
one before it. -/
structure RunOk (seen : JsString → JsString → Rat → Prop) (start : JsString) (run : LongestRun) :
    Prop where
  table : HeaviestTable seen start fun x => run.dist.get x
  linked : ∀ x c, run.dist.get x = some c → x ≠ start → ∃ p d w, run.prev.get x = some p ∧
    run.dist.get p = some d ∧ seen p x w ∧ c = d + w

theorem prefers_false (keeps : prefers run neighborId nodeId alt = false) :
    ∃ best, run.dist.get neighborId = some best ∧ alt ≤ best := by
  unfold prefers at keeps
  split at keeps
  next => cases keeps
  next best held =>
    rw [Bool.or_eq_false_iff, decide_eq_false_iff_not, not_lt] at keeps
    exact ⟨best, held, keeps.1⟩

theorem prefers_true (takes : prefers run neighborId nodeId alt = true) :
    ∀ best, run.dist.get neighborId = some best → best ≤ alt := by
  intro best held
  unfold prefers at takes
  rw [held] at takes
  rw [Bool.or_eq_true, Bool.and_eq_true, decide_eq_true_eq, decide_eq_true_eq] at takes
  rcases takes with more | ⟨same, -⟩
  · exact le_of_lt more
  · exact le_of_eq same.symm

variable (weightFn) in
theorem RunOk.stretchEdge (ok : RunOk seen start run) (edge) (d)
    (there : run.dist.get nodeId = some d) (leaf : ∀ v c, ¬ seen edge.neighborId v c)
    (apart : nodeId ≠ edge.neighborId) :
    RunOk (WithArc seen nodeId edge.neighborId (weightFn nodeId edge.neighborId edge.label)) start
        (stretchEdge weightFn nodeId run edge) ∧
      (stretchEdge weightFn nodeId run edge).dist.get nodeId = some d := by
  -- looking at an edge to a node that no arc leaves yet
  generalize weight : weightFn nodeId edge.neighborId edge.label = w
  -- a node that another one was reached from has an arc, so that it is not the neighbour
  have others : ∀ p x w', seen p x w' → p ≠ edge.neighborId := by
    rintro p x w' arc rfl
    exact leaf x w' arc
  unfold Query.stretchEdge
  rw [there, Option.getD_some, weight]
  dsimp only
  split
  next takes =>
    have other : ∀ x, x ≠ edge.neighborId →
        (run.dist.set edge.neighborId (d + w)).get x = run.dist.get x := by
      intro x differ
      rw [OrdMap.get_set, if_neg (Ne.symm differ)]
    have here : (run.dist.set edge.neighborId (d + w)).get edge.neighborId = some (d + w) := by
      rw [OrdMap.get_set, if_pos rfl]
    refine ⟨⟨ok.table.withArc leaf apart there other ?_, ?_⟩, ?_⟩
    · rw [here]
      congr 1
      cases old : run.dist.get edge.neighborId with
      | none => rw [Option.getD_none, max_self]
      | some best => rw [Option.getD_some, max_eq_right (prefers_true takes best old)]
    · intro x c held differ
      dsimp only at held ⊢
      by_cases target : x = edge.neighborId
      · subst target
        rw [here] at held
        cases held
        refine ⟨nodeId, d, w, ?_, by rw [other nodeId apart]; exact there, .new, rfl⟩
        rw [OrdMap.get_set, if_pos rfl]
      · rw [other x target] at held
        obtain ⟨p, e, w', pred, atP, arc, cost⟩ := ok.linked x c held differ
        refine ⟨p, e, w', ?_, by rw [other p (others p x w' arc)]; exact atP, .old _ _ _ arc, cost⟩
        rw [OrdMap.get_set, if_neg (Ne.symm target)]
        exact pred
    · exact (other nodeId apart).trans there
  next keeps =>
    obtain ⟨best, held, le⟩ := prefers_false (Bool.eq_false_iff.mpr keeps)
    refine ⟨⟨ok.table.withArc leaf apart there (fun x _ => rfl) ?_, ?_⟩, there⟩
    · rw [held, Option.getD_some, max_eq_left le]
    · intro x c at_ differ
      obtain ⟨p, e, w', pred, atP, arc, cost⟩ := ok.linked x c at_ differ
      exact ⟨p, e, w', pred, atP, .old _ _ _ arc, cost⟩

theorem RunOk.congr {run} (ok : RunOk seen start run) (same : ∀ x y w, seen x y w ↔ seen' x y w) :
    RunOk seen' start run where
  table := ok.table.congr same
  linked x c held differ := by
    obtain ⟨p, d, w, pred, atP, arc, cost⟩ := ok.linked x c held differ
    exact ⟨p, d, w, pred, atP, (same p x w).mp arc, cost⟩

theorem RunOk.stretchEdges {before} (d) (rest done)
    (ok : RunOk (SeenArc graph params weightFn before nodeId done) start run)
    (there : run.dist.get nodeId = some d)
    (fresh : ∀ edge ∈ rest, edge.neighborId ∉ before ∧ edge.neighborId ≠ nodeId) :
    RunOk (SeenArc graph params weightFn before nodeId (done ++ rest)) start
      (rest.foldl (Query.stretchEdge weightFn nodeId) run) := by
  induction rest generalizing done run with
  | nil => rwa [append_nil]
  | cons edge rest ih =>
    obtain ⟨new, apart⟩ := fresh edge mem_cons_self
    have leaf : ∀ v c, ¬ SeenArc graph params weightFn before nodeId done edge.neighborId v c := by
      rintro v c (⟨mem, -⟩ | ⟨same, -⟩)
      · exact new mem
      · exact apart same
    obtain ⟨next, still⟩ := ok.stretchEdge weightFn edge d there leaf (Ne.symm apart)
    have later := ih (done ++ [edge]) (next.congr (seenArc_append before)) still
      (forall_mem_cons.mp fresh).2
    rw [append_assoc] at later
    exact later

theorem RunOk.skipEdges {before} (rest done)
    (ok : RunOk (SeenArc graph params weightFn before nodeId done) start run)
    (gone : run.dist.get nodeId = none) :
    RunOk (SeenArc graph params weightFn before nodeId (done ++ rest)) start run := by
  induction rest generalizing done with
  | nil => rwa [append_nil]
  | cons edge rest ih =>
    have next : RunOk (WithArc (SeenArc graph params weightFn before nodeId done) nodeId
        edge.neighborId (weightFn nodeId edge.neighborId edge.label)) start run := by
      refine ⟨ok.table.withArc_of_missing gone, fun x c held differ => ?_⟩
      obtain ⟨p, d, w, pred, atP, arc, cost⟩ := ok.linked x c held differ
      exact ⟨p, d, w, pred, atP, .old _ _ _ arc, cost⟩
    have later := ih (done ++ [edge]) (next.congr (seenArc_append before))
    rw [append_assoc] at later
    exact later

theorem seenArc_nil (nodeId x y w) :
    SeenArc graph params weightFn before nodeId [] x y w ↔
      Through before (WeighedArc graph params weightFn) x y w := by
  constructor
  · rintro (both | ⟨-, edge, none_, -⟩)
    · exact both
    · cases none_
  · exact Or.inl

theorem RunOk.stretchNode {before}
    (ok : RunOk (Through before (WeighedArc graph params weightFn)) start run)
    (fresh : ∀ y, params.Arc graph nodeId y → y ∉ before ∧ y ≠ nodeId) :
    RunOk (Through (before ++ [nodeId]) (WeighedArc graph params weightFn)) start
      (Query.stretchNode graph params weightFn run nodeId) := by
  have begun := ok.congr fun x y w => (seenArc_nil before nodeId x y w).symm
  have all : RunOk (SeenArc graph params weightFn before nodeId ([] ++ params.neighbors graph nodeId))
      start (Query.stretchNode graph params weightFn run nodeId) := by
    unfold Query.stretchNode
    cases held : run.dist.get nodeId with
    | none =>
      rw [if_neg (by simp [OrdMap.has, held])]
      exact begun.skipEdges _ [] held
    | some d =>
      rw [if_pos (by simp [OrdMap.has, held])]
      exact begun.stretchEdges d _ [] held
        fun edge mem => fresh edge.neighborId (mem_map_of_mem mem)
  refine all.congr fun x y w => ?_
  rw [nil_append, seenArc_all, seenArc_nil]

theorem longestRun_ok (greedy : Greedy node (params.Arc graph) sorted) :
    RunOk (Through sorted (WeighedArc graph params weightFn)) start
      (sorted.foldl (Query.stretchNode graph params weightFn) (.start start)) := by
  -- a run along a greedy order knows the longest walks through it
  induction sorted using List.reverseRecOn with
  | nil =>
    have begun : ∀ x, (LongestRun.start start).dist.get x = if start = x then some 0 else none := by
      intro x
      rw [LongestRun.start, OrdMap.get_set]
      split <;> simp
    rw [foldl_nil]
    refine ⟨.of_no_arc ?_ ?_ ?_, ?_⟩
    · rintro x y w ⟨none_, -⟩
      cases none_
    · rw [begun, if_pos rfl]
    · intro x differ
      rw [begun, if_neg (Ne.symm differ)]
    · intro x c held differ
      rw [begun, if_neg (Ne.symm differ)] at held
      cases held
  | append_singleton before nodeId ih =>
    have earlier : Greedy node (params.Arc graph) before := by
      intro front y rest split
      exact greedy front y (rest ++ [nodeId]) (by rw [split]; simp)
    have next := (greedy before nodeId [] rfl).1
    rw [foldl_append]
    apply (ih earlier).stretchNode
    intro y leads
    constructor
    · -- what is taken before is led to by nodes before it only
      intro mem
      obtain ⟨front, rest, split⟩ := append_of_mem mem
      have pred := (earlier front y rest split).1.2.2 nodeId next.1 leads
      exact next.2.1 (split ▸ mem_append_left _ pred)
    · rintro rfl
      exact next.2.1 (next.2.2 y next.1 leads)

/-! ### The path -/

theorem RunOk.costWalk (ok : RunOk seen start run) (traced : Traced run.prev start path x)
    (origin : run.dist.get start = some 0) (held : run.dist.get x = some c) :
    CostWalk seen start path x c := by
  induction traced generalizing c with
  | here =>
    rw [origin] at held
    cases held
    exact .here
  | step _ entry other _ ih =>
    obtain ⟨p, d, w, pred, atP, arc, rfl⟩ := ok.linked _ c held other
    rw [entry] at pred
    cases pred
    exact .step (ih atP) arc

/-- Every node with a cost is traced back to the start. -/
theorem RunOk.exists_traced (greedy : Greedy node (params.Arc graph) sorted)
    (ok : RunOk (Through sorted (WeighedArc graph params weightFn)) start run)
    (held : run.dist.get x = some c) : ∃ path, Traced run.prev start path x := by
  have marked : ∀ y ∈ sorted, (run.dist.get y).isSome = true →
      ∃ path, Traced run.prev start path y ∧ ∀ z ∈ path, z ∈ sorted := by
    intro y mem some_
    obtain ⟨n, less, at_⟩ := mem_iff_getElem.mp mem
    have rank : sorted[n]? = some y := by rw [List.getElem?_eq_getElem less, at_]
    obtain ⟨path, traced, -, all⟩ := Lib.exists_traced
      (fun n z => sorted[n]? = some z ∧ (run.dist.get z).isSome = true)
      (fun n m z first second => (List.getElem?_inj (List.getElem?_eq_some_iff.mp first.1).1
        greedy.nodup).mp (first.1.trans second.1.symm)) (by
        rintro n z ⟨place, known⟩ other
        obtain ⟨cost, atZ⟩ := Option.isSome_iff_exists.mp known
        obtain ⟨p, d, w, pred, atP, ⟨inSorted, arc⟩, -⟩ := ok.linked z cost atZ other
        -- the node before it has been taken before it
        obtain ⟨inside, here⟩ := List.getElem?_eq_some_iff.mp place
        have split : sorted = sorted.take n ++ z :: sorted.drop (n + 1) := by
          rw [← here, ← drop_eq_getElem_cons inside, take_append_drop]
        obtain ⟨q, rest, split'⟩ := append_of_mem inSorted
        have reached := (greedy q p rest split').1.1
        have earlier := (greedy _ z _ split).1.2.2 p reached arc.arc
        obtain ⟨m, low, atM⟩ := mem_iff_getElem.mp earlier
        rw [length_take] at low
        rw [getElem_take] at atM
        refine ⟨p, pred, m, by omega, ?_, by rw [atP]; rfl⟩
        rw [List.getElem?_eq_getElem (by omega), atM]) y ⟨rank, some_⟩
    refine ⟨path, traced, fun z on => ?_⟩
    obtain ⟨m, -, place, -⟩ := all z on
    exact mem_of_getElem? place
  by_cases first : x = start
  · subst first
    exact ⟨[x], .here⟩
  · by_cases mem : x ∈ sorted
    · obtain ⟨path, traced, -⟩ := marked x mem (by rw [held]; rfl)
      exact ⟨path, traced⟩
    · -- a node that is not sorted comes right after one that is
      obtain ⟨p, d, w, pred, atP, ⟨inSorted, -⟩, -⟩ := ok.linked x c held first
      obtain ⟨path, traced, inside⟩ := marked p inSorted (by rw [atP]; rfl)
      exact ⟨path ++ [x], .step traced pred first fun on => mem (inside x on)⟩

/-! ### The nodes that are sorted -/

variable (graph params) in
theorem length_kahnLoop_le (budget kahn) (sorted) :
    (kahnLoop graph params budget kahn sorted).2.length ≤ sorted.length + budget := by
  induction budget generalizing kahn sorted with
  | zero => exact le_rfl
  | succ budget ih =>
    unfold kahnLoop
    split
    next => exact Nat.le_add_right _ _
    next nodeId ready _ =>
      have later := ih ((params.successors graph nodeId).foldl releaseNeighbor
        { kahn with ready := ready }) (sorted ++ [nodeId])
      rw [length_append, length_singleton] at later
      omega

structure LeastOrder (graph : FiniteGraph) (params : TopoParams) (order : List JsString) : Prop where
  topological : Topological (params.InReach graph) (params.Arc graph) order
  greedy : Greedy (params.InReach graph) (params.Arc graph) order

theorem exists_leastOrder (valid : params.Valid graph) (acyclic : ¬ Cyclic graph params) :
    ∃ order, LeastOrder graph params order := by
  obtain ⟨members, -⟩ := discover_spec valid
  -- a sort with room for all nodes finds it
  let roomy : TopoParams :=
    { params with maxNodes := (discover graph params).discovered.toList.length }
  have valid' : roomy.Valid graph := valid
  have fits : roomy.Fits graph :=
    ⟨(discover graph params).discovered.toList, le_rfl, fun x reached => (members x).mpr reached⟩
  rcases kahnEnd_cases valid' (not_stoppedByLimit valid' fits) with
    ⟨-, cyclic⟩ | ⟨-, greedy, topological⟩
  · exact absurd cyclic acyclic
  · exact ⟨_, topological, greedy⟩

theorem greedy_kahnEnd (valid : params.Valid graph) :
    Greedy (params.InReach graph) (params.Arc graph) (kahnEnd graph params).2 ∧
      ∀ x ∈ (kahnEnd graph params).2, params.InReach graph x := by
  obtain ⟨members, -⟩ := discover_spec valid
  obtain ⟨ok, -⟩ := kahnEnd_spec valid
  have node : (· ∈ (discover graph params).discovered.toList) = params.InReach graph := by
    funext x
    exact propext (members x)
  have greedy := ok.greedy
  rw [node] at greedy
  exact ⟨greedy, fun x mem => (members x).mp (ok.subset x mem)⟩

theorem kahnEnd_eq_take (valid : params.Valid graph) (acyclic : ¬ Cyclic graph params)
    (least : LeastOrder graph params order) :
    (kahnEnd graph params).2 = order.take params.maxNodes := by
  -- the sort takes the least topological order up to its limit
  obtain ⟨greedy, reached⟩ := greedy_kahnEnd valid
  have inside : (kahnEnd graph params).2 ⊆ order :=
    fun x mem => (least.topological.mem x).mpr (reached x mem)
  have length := (subperm_of_subset greedy.nodup inside).length_le
  have front := greedy.take_eq least.greedy length
  rcases (kahnEnd_spec valid).2 with nothing | full
  · -- nothing is ready, so that every node is taken
    have free : stoppedByLimit graph params = false := by
      unfold stoppedByLimit
      simp only [(MinHeap.isEmpty_iff _).mpr nothing, Bool.not_true, Bool.and_false]
    rcases kahnEnd_cases valid free with ⟨-, cyclic⟩ | ⟨-, -, topological⟩
    · exact absurd cyclic acyclic
    · have all : order ⊆ (kahnEnd graph params).2 :=
        fun x mem => (topological.mem x).mpr ((least.topological.mem x).mp mem)
      have length' := (subperm_of_subset least.topological.nodup all).length_le
      have budget : (kahnEnd graph params).2.length ≤ params.maxNodes := by
        have bound := length_kahnLoop_le graph params params.maxNodes
          ⟨withStarts (discover graph params).inDegree params.starts.toList,
            readyAtFirst (withStarts (discover graph params).inDegree params.starts.toList)
              (discover graph params).discovered.toList⟩ []
        rw [length_nil, Nat.zero_add] at bound
        exact bound
      rw [take_of_length_le (by omega)]
      rw [front, take_of_length_le (by omega)]
  · rw [← full]
    exact front

/-! ### What is returned -/

/-- The returned path is a walk to the goal at the returned cost, and no walk costs more. -/
structure IsLongest (arc : JsString → JsString → Rat → Prop) (start goal : JsString)
    (result : LongestPath) : Prop where
  walk : CostWalk arc start result.path goal result.totalCost
  most : ∀ path c, CostWalk arc start path goal c → c ≤ result.totalCost

theorem RunOk.origin {params : LongestParams}
    (ok : RunOk (Through sorted (WeighedArc graph params.topo weightFn)) params.start run)
    (acyclic : ¬ Cyclic graph params.topo) (reached : ∀ x ∈ sorted, params.topo.InReach graph x) :
    run.dist.get params.start = some 0 := by
  have listed : params.start ∈ params.topo.starts.toList := by
    rw [TopoParams.starts, OrdSet.mem_toList, OrdSet.mem_ofList]
    exact mem_singleton_self _
  cases held : run.dist.get params.start with
  | none => exact absurd .here (ok.table.missing params.start held [params.start] 0)
  | some c =>
    obtain ⟨path, walk⟩ := (ok.table.held params.start c held).walk
    cases walk with
    | here => rfl
    | step before leads =>
      -- the edge would close a cycle
      obtain ⟨s, member, walk⟩ := reached _ leads.1
      obtain rfl : s = params.start := mem_singleton.mp member
      exact absurd ⟨_, ⟨_, listed, .refl⟩, Relation.TransGen.tail' walk leads.2.arc⟩ acyclic

/-- On an acyclic graph the returned path is real, and it is a longest one just if the nodes of some
longest path, but for the goal, are among those that the sort takes up to its limit. -/
theorem longest_path_iff (graph : FiniteGraph) (params : LongestParams) (weights : WeightChoice)
    (weightFn : WeightFn) (resolved : resolveWeightFn weights = .ok weightFn)
    (acyclic : ¬ Cyclic graph params.topo) (result : LongestPath)
    (returned : weightedLongestPath graph params weights = .ok result) :
    ∃ order, LeastOrder graph params.topo order ∧
      CostWalk (WeighedArc graph params.topo weightFn) params.start result.path params.goal
        result.totalCost ∧
      (IsLongest (WeighedArc graph params.topo weightFn) params.start params.goal result ↔
        ∃ path c, CostWalk (WeighedArc graph params.topo weightFn) params.start path params.goal c ∧
          (∀ path' c', CostWalk (WeighedArc graph params.topo weightFn) params.start path'
            params.goal c' → c' ≤ c) ∧
          ∀ x ∈ path.dropLast, x ∈ order.take params.maxNodes) := by
  unfold weightedLongestPath at returned
  rw [resolved] at returned
  obtain ⟨chosen, same, returned⟩ := bind_eq_ok.mp returned
  cases same
  obtain ⟨⟨⟩, -, returned⟩ := bind_eq_ok.mp returned
  obtain ⟨topo, sorted, returned⟩ := bind_eq_ok.mp returned
  obtain ⟨⟨⟩, checked, sorted⟩ := bind_eq_ok.mp sorted
  have valid := valid_of_validateStarts checked
  have taken : topo.sorted = (kahnEnd graph params.topo).2 := by
    dsimp only at sorted
    split at sorted
    next => cases sorted
    next =>
      cases sorted
      rfl
  obtain ⟨order, least⟩ := exists_leastOrder valid acyclic
  have front := kahnEnd_eq_take valid acyclic least
  obtain ⟨greedy, reached⟩ := greedy_kahnEnd valid
  rw [← taken] at front greedy reached
  have ok : RunOk (Through topo.sorted (WeighedArc graph params.topo weightFn)) params.start
      (longestRun graph params weightFn topo.sorted) := longestRun_ok greedy
  generalize longestRun graph params weightFn topo.sorted = run at ok returned
  dsimp only at returned
  have origin := ok.origin acyclic reached
  cases held : run.dist.get params.goal with
  | none =>
    rw [held] at returned
    cases returned
  | some totalCost =>
    rw [held] at returned
    cases returned
    obtain ⟨path, traced⟩ := ok.exists_traced greedy held
    have walk := ok.costWalk traced origin held
    rw [← reconstructPath_traced traced, front, CostWalk.through_iff] at walk
    refine ⟨order, least, walk.1, ?_⟩
    constructor
    · exact fun longest => ⟨_, _, longest.walk, longest.most, walk.2⟩
    · rintro ⟨path', c, walk', most, inside⟩
      refine ⟨walk.1, fun path'' c'' walk'' => (most path'' c'' walk'').trans ?_⟩
      -- a walk through the sorted nodes costs no more than what the run has found
      apply (ok.table.held params.goal totalCost held).most path' c
      rw [front, CostWalk.through_iff]
      exact ⟨walk', inside⟩

/-! ### A sort that stops early -/

/-- There is an edge from `s` to `t` and a way over `a`. -/
def bypassNeighbors (nodeId : JsString) : List NeighborEdge :=
  if nodeId = lit "s" then [⟨lit "a", lit "x"⟩, ⟨lit "t", lit "x"⟩]
  else if nodeId = lit "a" then [⟨lit "t", lit "x"⟩]
  else []

def bypassGraph : FiniteGraph where
  hasNode nodeId := decide (nodeId ∈ [lit "s", lit "a", lit "t"])
  getNeighbors nodeId _ _ := bypassNeighbors nodeId
  nodes := [lit "s", lit "a", lit "t"]
  known nodeId exists_ := of_decide_eq_true exists_
  closed := by
    have all : ∀ nodeId ∈ [lit "s", lit "a", lit "t"], ∀ edge ∈ bypassNeighbors nodeId,
        edge.neighborId ∈ [lit "s", lit "a", lit "t"] := by decide
    exact fun nodeId member _ _ => all nodeId member
  separable := by decide

def bypassParams (maxNodes : Nat) : LongestParams :=
  ⟨lit "s", lit "t", .out, none, maxNodes⟩

/-- The rank of a node falls along every edge. -/
def bypassRank (nodeId : JsString) : Nat :=
  if nodeId = lit "s" then 2 else if nodeId = lit "a" then 1 else 0

theorem bypassRank_lt (mem : edge ∈ bypassNeighbors x) :
    bypassRank edge.neighborId < bypassRank x := by
  have all : ∀ nodeId ∈ [lit "s", lit "a"], ∀ edge ∈ bypassNeighbors nodeId,
      bypassRank edge.neighborId < bypassRank nodeId := by decide
  by_cases known : x ∈ [lit "s", lit "a"]
  · exact all x known edge mem
  · -- no edge starts at another node
    simp only [mem_cons, not_mem_nil, or_false, not_or] at known
    rw [bypassNeighbors, if_neg known.1, if_neg known.2] at mem
    cases mem

theorem bypass_acyclic : ¬ Cyclic bypassGraph (bypassParams maxNodes).topo := by
  have falls : ∀ {x y}, Relation.TransGen ((bypassParams maxNodes).topo.Arc bypassGraph) x y →
      bypassRank y < bypassRank x := by
    intro x y walk
    induction walk with
    | single leads =>
      obtain ⟨edge, member, rfl⟩ := mem_map.mp leads
      exact bypassRank_lt member
    | tail _ leads ih =>
      obtain ⟨edge, member, rfl⟩ := mem_map.mp leads
      exact (bypassRank_lt member).trans ih
  rintro ⟨x, -, cycle⟩
  exact lt_irrefl _ (falls cycle)

/-- With room for one node the edge is returned, and the bypass is longer. -/
theorem longest_path_misses_bypass :
    weightedLongestPath bypassGraph (bypassParams 1) ⟨none, none⟩ = .ok ⟨[lit "s", lit "t"], 1⟩ ∧
    ¬ Cyclic bypassGraph (bypassParams 1).topo ∧
    CostWalk (WeighedArc bypassGraph (bypassParams 1).topo fun _ _ _ => 1) (lit "s")
      [lit "s", lit "a", lit "t"] (lit "t") 2 ∧
    ¬ IsLongest (WeighedArc bypassGraph (bypassParams 1).topo fun _ _ _ => 1) (lit "s") (lit "t")
      ⟨[lit "s", lit "t"], 1⟩ := by
  have first : WeighedArc bypassGraph (bypassParams 1).topo (fun _ _ _ => 1) (lit "s") (lit "a")
      1 := ⟨⟨lit "a", lit "x"⟩, by decide, rfl, rfl⟩
  have second : WeighedArc bypassGraph (bypassParams 1).topo (fun _ _ _ => 1) (lit "a") (lit "t")
      1 := ⟨⟨lit "t", lit "x"⟩, by decide, rfl, rfl⟩
  have bypass := (CostWalk.here.step first).step second
  have cost : (0 : Rat) + 1 + 1 = 2 := by norm_num
  rw [cost] at bypass
  refine ⟨by decide +kernel, bypass_acyclic, bypass, fun longest => ?_⟩
  have less := longest.most _ _ bypass
  norm_num at less

theorem longest_path_iff_bypass : ∃ result order,
    weightedLongestPath bypassGraph (bypassParams 3) ⟨none, none⟩ = .ok result ∧
    LeastOrder bypassGraph (bypassParams 3).topo order ∧
    CostWalk (WeighedArc bypassGraph (bypassParams 3).topo fun _ _ _ => 1) (lit "s") result.path
      (lit "t") result.totalCost := by
  have run : weightedLongestPath bypassGraph (bypassParams 3) ⟨none, none⟩ =
      .ok ⟨[lit "s", lit "a", lit "t"], 2⟩ := by decide +kernel
  obtain ⟨order, least, walk, -⟩ := longest_path_iff bypassGraph (bypassParams 3) ⟨none, none⟩
    (fun _ _ _ => 1) rfl bypass_acyclic _ run
  exact ⟨_, order, run, least, walk⟩

end Query
end GitWarp
