import GitWarp.Lib.Kahn
import GitWarp.Query.GraphTopology

/-!
# What the topological sort returns

The count of a node is the number of edges to it from nodes that are not taken yet. So the
ready nodes are those that may come next, and the sort takes the least of them. When it runs
out of ready nodes, either every node in reach is taken or the nodes left form a cycle.
-/
namespace GitWarp

open Js Lib List
open Relation (TransGen)

namespace Query

open IndexTree (NeighborEdge Direction)

variable {graph : FiniteGraph} {params : TopoParams}

/-- An edge leads from a node to another one. -/
abbrev TopoParams.Arc (params : TopoParams) (graph : FiniteGraph) (x y : JsString) : Prop :=
  y ∈ params.successors graph x

/-- The nodes in reach of the starts. -/
abbrev TopoParams.InReach (params : TopoParams) (graph : FiniteGraph) (x : JsString) : Prop :=
  Reaches (params.Arc graph) params.starts.toList x

/-- Every start is a node of the graph. -/
def TopoParams.Valid (params : TopoParams) (graph : FiniteGraph) : Prop :=
  ∀ nodeId ∈ params.starts.toList, nodeId ∈ graph.nodes

theorem valid_of_validateStarts (checked : validateStarts graph params = .ok ()) :
    params.Valid graph := by
  unfold validateStarts at checked
  unfold TopoParams.Valid
  generalize params.starts.toList = starts at checked
  induction starts with
  | nil => simp
  | cons nodeId starts ih =>
    have checked' : (validateStart graph.toNeighborProvider nodeId >>= fun _ =>
        starts.forM fun nodeId => validateStart graph.toNeighborProvider nodeId) = .ok () := checked
    obtain ⟨⟨⟩, first, rest⟩ := bind_eq_ok.mp checked'
    intro start mem
    rcases mem_cons.mp mem with rfl | later
    · apply graph.known
      unfold validateStart at first
      split at first
      next exists_ => exact exists_
      next => cases first
    · exact ih rest start later

theorem successors_mem (mem : x ∈ graph.nodes) (leads : params.Arc graph x y) :
    y ∈ graph.nodes := by
  obtain ⟨edge, listed, rfl⟩ := mem_map.mp leads
  exact graph.closed x mem _ _ edge listed

theorem TopoParams.Valid.mem_nodes (valid : params.Valid graph) (x)
    (reached : params.InReach graph x) : x ∈ graph.nodes := by
  obtain ⟨s, member, walk⟩ := reached
  induction walk with
  | refl => exact valid s member
  | tail _ leads ih => exact successors_mem ih leads

/-! ### Discovery -/

def edgesTo (graph : FiniteGraph) (params : TopoParams) (from_ : List JsString)
    (x : JsString) : Nat :=
  (from_.flatMap (params.successors graph)).count x

theorem edgesTo_append (left right) (x) :
    edgesTo graph params (left ++ right) x =
      edgesTo graph params left x + edgesTo graph params right x := by
  unfold edgesTo
  rw [flatMap_append, count_append]

theorem edgesTo_perm (perm : left.Perm right) (x) :
    edgesTo graph params left x = edgesTo graph params right x :=
  (perm.flatMap_right _).count_eq x

theorem degreeOf_set (inDegree : OrdMap JsString Int) (deg) :
    degreeOf (inDegree.set x deg) y = if x = y then deg else degreeOf inDegree y := by
  unfold degreeOf
  rw [OrdMap.get_set]
  split <;> rfl

/-- Discovery is a sweep that counts every edge that it meets. -/
theorem foldl_discoverNeighbor {ids : List JsString} (d) :
    (⟨(ids.foldl discoverNeighbor d).discovered, (ids.foldl discoverNeighbor d).queue⟩ :
        Sweep JsString) = ids.foldl Sweep.meet ⟨d.discovered, d.queue⟩ ∧
      ∀ x, degreeOf (ids.foldl discoverNeighbor d).inDegree x =
        degreeOf d.inDegree x + ids.count x := by
  induction ids generalizing d with
  | nil => simp
  | cons id ids ih =>
    obtain ⟨sweep, degrees⟩ := ih (discoverNeighbor d id)
    constructor
    · rw [foldl_cons, sweep, foldl_cons]
      congr 1
      unfold discoverNeighbor Sweep.meet
      simp only []
      split <;> rfl
    · intro x
      rw [foldl_cons, degrees, count_cons]
      have counted : degreeOf (discoverNeighbor d id).inDegree x =
          if id = x then degreeOf d.inDegree id + 1 else degreeOf d.inDegree x := by
        rw [← degreeOf_set]
        unfold discoverNeighbor
        simp only []
        split <;> rfl
      rw [counted]
      by_cases same : id = x
      · subst same
        simp
        omega
      · simp [same]

/-- The first phase in progress, with the nodes taken off the queue so far. -/
structure Discovering (next : JsString → List JsString) (starts taken : List JsString)
    (d : Discovery) : Prop where
  begun : ∀ x ∈ starts, x ∈ d.discovered
  sweep : Sweep.Ok next (Reaches (fun x y => y ∈ next x) starts) taken ⟨d.discovered, d.queue⟩
  degrees : ∀ x, degreeOf d.inDegree x = ((taken.flatMap next).count x : Nat)

section Discovering

variable {next : JsString → List JsString} {starts taken : List JsString} {d : Discovery}

theorem Discovering.first (next) (starts : OrdSet JsString) :
    Discovering next starts.toList [] ⟨starts.toList, starts, .empty⟩ :=
  ⟨fun _ => id, ⟨rfl, by simp, fun x member => ⟨x, member, .refl⟩⟩, fun _ => rfl⟩

theorem Discovering.take (ok : Discovering next starts taken d) (queue : d.queue = nodeId :: rest) :
    Discovering next starts (taken ++ [nodeId])
      ((next nodeId).foldl discoverNeighbor { d with queue := rest }) := by
  have sweep := ok.sweep
  rw [queue] at sweep
  have swept := sweep.take rest fun _ _ reached leads => Reaches.step reached leads
  obtain ⟨same, degrees⟩ := @foldl_discoverNeighbor (next nodeId) { d with queue := rest }
  refine ⟨fun x start => ?_, by rw [same]; exact swept, fun x => ?_⟩
  · -- a sweep never forgets a start
    have visited := congrArg Sweep.visited same
    simp only at visited
    rw [visited, (Sweep.foldl_meet _ _).2]
    exact Or.inl (ok.begun x start)
  · rw [degrees, ok.degrees, flatMap_append, count_append, flatMap_singleton]
    exact (Int.natCast_add _ _).symm

/-- Discovered is what is in reach, and each node has the number of edges to it. -/
theorem Discovering.last (ok : Discovering next starts taken d) (empty : d.queue = []) :
    (∀ x, x ∈ d.discovered ↔ Reaches (fun x y => y ∈ next x) starts x) ∧
      ∀ x, degreeOf d.inDegree x = ((d.discovered.toList.flatMap next).count x : Nat) := by
  have split : d.discovered.toList = taken ++ d.queue := ok.sweep.split
  rw [empty, append_nil] at split
  refine ⟨ok.sweep.mem_iff (fun _ _ => Iff.rfl) ok.begun empty, ?_⟩
  rw [split]
  exact ok.degrees

end Discovering

theorem discoverLoop_spec (valid : params.Valid graph) (turns) (taken d)
    (ok : Discovering (params.successors graph) params.starts.toList taken d)
    (enough : graph.nodes.length ≤ taken.length + turns) :
    ∃ all, Discovering (params.successors graph) params.starts.toList all
        (discoverLoop graph params turns d) ∧ (discoverLoop graph params turns d).queue = [] := by
  induction turns generalizing taken d with
  | zero =>
    have bound : taken.length + d.queue.length ≤ graph.nodes.length :=
      ok.sweep.length_le valid.mem_nodes
    exact ⟨taken, ok, length_eq_zero_iff.mp (show d.queue.length = 0 by omega)⟩
  | succ turns ih =>
    unfold discoverLoop
    cases queue : d.queue with
    | nil => exact ⟨taken, ok, queue⟩
    | cons nodeId rest =>
      refine ih (taken ++ [nodeId]) _ (ok.take queue) ?_
      rw [length_append, length_singleton]
      omega

theorem discover_ends (valid : params.Valid graph) :
    ∃ taken, Discovering (params.successors graph) params.starts.toList taken
        (discover graph params) ∧ (discover graph params).queue = [] :=
  discoverLoop_spec valid graph.nodes.length [] _ (.first _ _) (by omega)

theorem discover_spec (valid : params.Valid graph) :
    (∀ x, x ∈ (discover graph params).discovered ↔ params.InReach graph x) ∧
      ∀ x, degreeOf (discover graph params).inDegree x =
        edgesTo graph params (discover graph params).discovered.toList x := by
  obtain ⟨taken, ok, empty⟩ := discover_ends valid
  exact ok.last empty

theorem degreeOf_withStarts (starts inDegree) (x) :
    degreeOf (withStarts inDegree starts) x = degreeOf inDegree x := by
  unfold withStarts
  induction starts generalizing inDegree with
  | nil => rfl
  | cons nodeId starts ih =>
    rw [foldl_cons, ih]
    split
    · rfl
    next absent =>
      rw [degreeOf_set]
      split
      next same =>
        subst same
        unfold degreeOf
        rw [(OrdMap.has_eq_false_iff inDegree nodeId).mp (Bool.eq_false_iff.mpr absent)]
        rfl
      next => rfl

/-! ### The ready nodes -/

/-- The queue holds these nodes, all with one priority. -/
def Holds (ready : MinHeap JsString) (items : List JsString) : Prop :=
  ready.entries.Perm (items.map fun item => ⟨item, 0⟩)

theorem Holds.insert (holds : Holds ready items) : Holds (ready.insert item 0) (item :: items) :=
  ready.perm_insert.trans (holds.cons _)

theorem Holds.empty_iff (holds : Holds ready items) : ready.entries = [] ↔ items = [] := by
  constructor
  · intro nothing
    unfold Holds at holds
    rw [nothing] at holds
    exact map_eq_nil_iff.mp holds.nil_eq.symm
  · rintro rfl
    exact List.Perm.eq_nil holds

/-- The least node comes out. -/
theorem Holds.extractMin (holds : Holds ready items) (popped : ready.extractMin = some (item, rest)) :
    item ∈ items ∧ (∀ z ∈ items, item ≤ z) ∧ Holds rest (items.erase item) := by
  obtain ⟨priority, perm, least⟩ := ready.extractMin_spec popped
  have level : ∀ entry ∈ ready.entries, entry.priority = 0 ∧ entry.item ∈ items := by
    intro entry mem
    obtain ⟨z, listed, rfl⟩ := mem_map.mp (holds.mem_iff.mp mem)
    exact ⟨rfl, listed⟩
  obtain ⟨zero, mem⟩ := level ⟨item, priority⟩ (perm.mem_iff.mpr mem_cons_self)
  have zero' : priority = 0 := zero
  subst zero'
  refine ⟨mem, ?_, ?_⟩
  · intro z listed
    have entry : (⟨z, 0⟩ : HeapEntry JsString) ∈ ready.entries :=
      holds.mem_iff.mpr (mem_map_of_mem listed)
    rcases least _ entry with less | ⟨-, below⟩
    · exact absurd less (lt_irrefl _)
    · exact below
  · have both : (items.map fun item => (⟨item, 0⟩ : HeapEntry JsString)).Perm
        (⟨item, 0⟩ :: rest.entries) := holds.symm.trans perm
    have split : (items.map fun item => (⟨item, 0⟩ : HeapEntry JsString)).Perm
        (⟨item, 0⟩ :: (items.erase item).map fun item => ⟨item, 0⟩) :=
      (perm_cons_erase mem).map _
    exact ((both.symm.trans split).cons_inv)

theorem readyAtFirst_holds :
    ∃ items, Holds (readyAtFirst inDegree discovered) items ∧
      items.Perm (discovered.filter fun nodeId => decide (degreeOf inDegree nodeId = 0)) := by
  have from_ : ∀ (nodes : List JsString) (ready : MinHeap JsString) (items : List JsString),
      Holds ready items → ∃ items', Holds (nodes.foldl (fun ready nodeId =>
          if degreeOf inDegree nodeId = 0 then ready.insert nodeId 0 else ready) ready) items' ∧
        items'.Perm ((nodes.filter fun nodeId => decide (degreeOf inDegree nodeId = 0)) ++
          items) := by
    intro nodes
    induction nodes with
    | nil => exact fun ready items holds => ⟨items, holds, List.Perm.refl _⟩
    | cons nodeId nodes ih =>
      intro ready items holds
      rw [foldl_cons]
      by_cases zero : degreeOf inDegree nodeId = 0
      · rw [if_pos zero, filter_cons_of_pos (by simpa using zero)]
        obtain ⟨items', holds', perm⟩ := ih _ _ (holds.insert)
        exact ⟨items', holds', perm.trans perm_middle⟩
      · rw [if_neg zero, filter_cons_of_neg (by simpa using zero)]
        exact ih _ _ holds
  obtain ⟨items, holds, perm⟩ := from_ discovered .empty [] (List.Perm.refl _)
  rw [append_nil] at perm
  exact ⟨items, holds, perm⟩

/-- Releasing edges, with what gets ready in the queue. -/
theorem foldl_releaseNeighbor {all sorted left ids : List JsString} (kahn) (items)
    (taking : Taking (params.successors graph) all sorted left ids items (degreeOf kahn.inDegree))
    (holds : Holds kahn.ready items) :
    ∃ items', Holds (ids.foldl releaseNeighbor kahn).ready items' ∧
      Taking (params.successors graph) all sorted left [] items'
        (degreeOf (ids.foldl releaseNeighbor kahn).inDegree) := by
  induction ids generalizing kahn items with
  | nil => exact ⟨items, holds, taking⟩
  | cons id ids ih =>
    apply ih (releaseNeighbor kahn id)
      (if degreeOf kahn.inDegree id - 1 = 0 then id :: items else items)
    · exact taking.release (fun y => degreeOf_set _ _) (List.Perm.refl _)
    · unfold releaseNeighbor
      by_cases last : degreeOf kahn.inDegree id - 1 = 0
      · simp only [last, if_true]
        exact holds.insert
      · simp only [last, if_false]
        exact holds

/-! ### The loop -/

/-- What holds at every turn of the loop. -/
structure KahnOk (graph : FiniteGraph) (params : TopoParams) (all : List JsString)
    (kahn : Kahn) (sorted : List JsString) : Prop where
  greedy : Greedy (· ∈ all) (params.Arc graph) sorted
  subset : ∀ x ∈ sorted, x ∈ all
  degrees : ∀ x, degreeOf kahn.inDegree x + edgesTo graph params sorted x =
    edgesTo graph params all x
  ready : ∃ items, Holds kahn.ready items ∧ items.Nodup ∧
    ∀ x, x ∈ items ↔ x ∈ all ∧ x ∉ sorted ∧ degreeOf kahn.inDegree x = 0

theorem KahnOk.taking {all} (ok : KahnOk graph params all kahn sorted) (distinct : all.Nodup) :
    ∃ items, Holds kahn.ready items ∧ Taking (params.successors graph) all sorted
      (all.filter fun u => decide (u ∉ sorted)) [] items (degreeOf kahn.inDegree) := by
  have taken : (all.filter fun u => decide (u ∈ sorted)).Perm sorted := by
    apply (perm_ext_iff_of_nodup (distinct.filter _) ok.greedy.nodup).mpr
    intro u
    rw [mem_filter, decide_eq_true_eq]
    exact ⟨fun both => both.2, fun mem => ⟨ok.subset u mem, mem⟩⟩
  have split : all.Perm (sorted ++ all.filter fun u => decide (u ∉ sorted)) := by
    have halves := filter_append_perm (fun u => decide (u ∈ sorted)) all
    simp only [← decide_not] at halves
    exact halves.symm.trans (taken.append_right _)
  obtain ⟨items, holds, nodup, members⟩ := ok.ready
  refine ⟨items, holds, split, fun x => ?_, by simp, fun x => ?_, nodup,
    fun before y rest shape => (ok.greedy before y rest shape).1⟩
  · have degree := ok.degrees x
    rw [edgesTo_perm split, edgesTo_append] at degree
    rw [nil_append]
    unfold edgesTo at degree
    omega
  · rw [members, mem_filter, decide_eq_true_eq, and_assoc]

theorem KahnOk.of_taking {all left} (distinct : all.Nodup) (holds : Holds kahn.ready items)
    (greedy : Greedy (· ∈ all) (params.Arc graph) sorted)
    (taking : Taking (params.successors graph) all sorted left [] items (degreeOf kahn.inDegree)) :
    KahnOk graph params all kahn sorted := by
  have apart := nodup_append.mp (taking.split.nodup_iff.mp distinct)
  refine ⟨greedy, fun x mem => taking.split.mem_iff.mpr (mem_append_left _ mem), fun x => ?_,
    items, holds, taking.nodup, fun x => ?_⟩
  · rw [taking.degrees, nil_append, edgesTo_perm taking.split, edgesTo_append]
    unfold edgesTo
    omega
  · rw [taking.mem_ready, taking.split.mem_iff, mem_append]
    constructor
    · exact fun ⟨here, zero⟩ => ⟨Or.inr here, fun listed => apart.2.2 x listed x here rfl, zero⟩
    · exact fun ⟨mem, fresh, zero⟩ => ⟨mem.resolve_left fresh, zero⟩

/-- Taking the least ready node. -/
theorem KahnOk.take {all} (ok : KahnOk graph params all kahn sorted) (distinct : all.Nodup)
    (closed : ∀ x y, x ∈ all → params.Arc graph x y → y ∈ all) {nodeId ready}
    (popped : kahn.ready.extractMin = some (nodeId, ready)) :
    KahnOk graph params all
      ((params.successors graph nodeId).foldl releaseNeighbor { kahn with ready := ready })
      (sorted ++ [nodeId]) := by
  obtain ⟨items, holds, taking⟩ := ok.taking distinct
  obtain ⟨listed, least, holdsRest⟩ := holds.extractMin popped
  have taken := taking.take distinct (fun x mem y => closed x y mem) (perm_cons_erase listed)
  obtain ⟨items', holds', released⟩ :=
    foldl_releaseNeighbor { kahn with ready := ready } _ taken holdsRest
  refine .of_taking distinct holds' ?_ released
  apply ok.greedy.snoc ((taking.mem_ready_iff distinct nodeId).mp listed)
  intro z available
  exact least z ((taking.mem_ready_iff distinct z).mpr available)

theorem kahnLoop_spec {all} (distinct : all.Nodup)
    (closed : ∀ x y, x ∈ all → params.Arc graph x y → y ∈ all) (kahn) (sorted)
    (ok : KahnOk graph params all kahn sorted) :
    KahnOk graph params all (kahnLoop graph params budget kahn sorted).1
        (kahnLoop graph params budget kahn sorted).2 ∧
      ((kahnLoop graph params budget kahn sorted).1.ready.entries = [] ∨
        (kahnLoop graph params budget kahn sorted).2.length = sorted.length + budget) := by
  -- the loop ends with nothing ready, or at its limit
  induction budget generalizing kahn sorted with
  | zero => exact ⟨ok, Or.inr rfl⟩
  | succ budget ih =>
    unfold kahnLoop
    cases popped : kahn.ready.extractMin with
    | none => exact ⟨ok, Or.inl (kahn.ready.extractMin_eq_none.mp popped)⟩
    | some head =>
      obtain ⟨nodeId, ready⟩ := head
      obtain ⟨okEnd, stop⟩ := ih _ _ (ok.take distinct closed popped)
      refine ⟨okEnd, ?_⟩
      rcases stop with nothing | full
      · exact Or.inl nothing
      · right
        rw [length_append] at full
        show (kahnLoop graph params budget _ _).2.length = _
        rw [full]
        show sorted.length + 1 + budget = _
        omega

/-- What the sort ends with. -/
theorem kahnEnd_spec (valid : params.Valid graph) :
    KahnOk graph params (discover graph params).discovered.toList (kahnEnd graph params).1
        (kahnEnd graph params).2 ∧
      ((kahnEnd graph params).1.ready.entries = [] ∨
        (kahnEnd graph params).2.length = params.maxNodes) := by
  obtain ⟨members, degrees⟩ := discover_spec valid
  have closed : ∀ x y, x ∈ (discover graph params).discovered.toList → params.Arc graph x y →
      y ∈ (discover graph params).discovered.toList :=
    fun x y reached leads => (members y).mpr (((members x).mp reached).step leads)
  unfold kahnEnd
  obtain ⟨items, holds, perm⟩ := readyAtFirst_holds
  have distinct := (discover graph params).discovered.nodup
  have start : KahnOk graph params (discover graph params).discovered.toList
      ⟨withStarts (discover graph params).inDegree params.starts.toList,
        readyAtFirst (withStarts (discover graph params).inDegree params.starts.toList)
          (discover graph params).discovered.toList⟩ [] := by
    constructor
    · intro before y rest split
      simp at split
    · simp
    · intro x
      show degreeOf (withStarts _ _) x + _ = _
      rw [degreeOf_withStarts, degrees]
      exact Int.add_zero _
    · refine ⟨items, holds, perm.nodup_iff.mpr (distinct.filter _), fun x => ?_⟩
      rw [perm.mem_iff, mem_filter, decide_eq_true_eq]
      constructor
      · exact fun both => ⟨both.1, not_mem_nil, both.2⟩
      · exact fun all => ⟨all.1, all.2.2⟩
  obtain ⟨ok, stop⟩ := kahnLoop_spec distinct closed _ _ start
  refine ⟨ok, ?_⟩
  rcases stop with nothing | full
  · exact Or.inl nothing
  · exact Or.inr (by rw [full]; exact Nat.zero_add _)

/-- There is a cycle in reach of the starts. -/
def Cyclic (graph : FiniteGraph) (params : TopoParams) : Prop :=
  ∃ x, params.InReach graph x ∧ TransGen (params.Arc graph) x x

theorem nothing_ready (valid : params.Valid graph) (free : stoppedByLimit graph params = false) :
    (kahnEnd graph params).1.ready.entries = [] := by
  rcases (kahnEnd_spec valid).2 with nothing | full
  · exact nothing
  · unfold stoppedByLimit at free
    simp only [full, le_refl, decide_true, Bool.true_and, Bool.not_eq_false'] at free
    exact (MinHeap.isEmpty_iff _).mp free

/-- A sort that is not stopped by its limit has taken every node, in the least topological order,
or there is a cycle. -/
theorem kahnEnd_cases (valid : params.Valid graph) (free : stoppedByLimit graph params = false) :
    ((kahnEnd graph params).2.length < (discover graph params).discovered.size ∧
        Cyclic graph params) ∨
      ((kahnEnd graph params).2.length = (discover graph params).discovered.size ∧
        Greedy (params.InReach graph) (params.Arc graph) (kahnEnd graph params).2 ∧
        Topological (params.InReach graph) (params.Arc graph) (kahnEnd graph params).2) := by
  obtain ⟨members, -⟩ := discover_spec valid
  obtain ⟨ok, -⟩ := kahnEnd_spec valid
  have distinct := (discover graph params).discovered.nodup
  have node : (· ∈ (discover graph params).discovered.toList) = params.InReach graph := by
    funext x
    exact propext (members x)
  have sub := subperm_of_subset ok.greedy.nodup ok.subset
  rcases Nat.lt_or_eq_of_le sub.length_le with fewer | same
  · left
    refine ⟨fewer, ?_⟩
    obtain ⟨items, holds, taking⟩ := ok.taking distinct
    have none : items = [] := holds.empty_iff.mp (nothing_ready valid free)
    subst none
    obtain ⟨x, start, cycle⟩ := taking.exists_cycle_of_left fun whole => by
      have length := taking.split.length_eq
      rw [whole, append_nil] at length
      exact absurd length (Nat.ne_of_gt fewer)
    exact ⟨x, (members x).mp start, cycle⟩
  · right
    have perm : (kahnEnd graph params).2.Perm (discover graph params).discovered.toList :=
      sub.perm_of_length_le same.ge
    have greedy := ok.greedy
    rw [node] at greedy
    refine ⟨same, greedy, greedy.topological fun x => ?_⟩
    rw [perm.mem_iff]
    exact members x

/-- The sort reports a cycle exactly where there is one in reach, and otherwise returns the least
topological order of what is in reach. -/
theorem topologicalSort_spec {run} (free : stoppedByLimit graph params = false)
    (returned : topologicalSort graph params throwOnCycle = .ok run) :
    (run.hasCycle = true ↔ Cyclic graph params) ∧ (run.hasCycle = false →
        Topological (params.InReach graph) (params.Arc graph) run.sorted ∧
        ∀ other, Topological (params.InReach graph) (params.Arc graph) other →
          run.sorted = other ∨ List.Lex (· < ·) run.sorted other) := by
  obtain ⟨⟨⟩, checked, returned⟩ := bind_eq_ok.mp returned
  have valid := valid_of_validateStarts checked
  dsimp only at returned
  split at returned
  next => cases returned
  next =>
    cases returned
    show (computeTopoHasCycle graph params = true ↔ _) ∧ _
    have decided : computeTopoHasCycle graph params =
        decide ((kahnEnd graph params).2.length < (discover graph params).discovered.size) := by
      unfold computeTopoHasCycle
      rw [free]
      rfl
    rcases kahnEnd_cases valid free with ⟨fewer, cyclic⟩ | ⟨same, greedy, topological⟩
    · rw [decided, decide_eq_true_eq]
      refine ⟨iff_of_true fewer cyclic, fun absurdity => ?_⟩
      have none := of_decide_eq_false absurdity
      exact absurd fewer none
    · rw [decided, decide_eq_true_eq]
      constructor
      · apply iff_of_false (by omega)
        rintro ⟨x, reached, cycle⟩
        exact topological.acyclic (fun x y there leads => there.step leads) x reached cycle
      · exact fun _ => ⟨topological, fun other => greedy.least topological.mem⟩

end Query
end GitWarp
