import GitWarp.Lib.Metered
import GitWarp.Query.GraphAnalysis
import GitWarp.Query.TopologicalSort

/-!
# Transitive closure

Without the limit on edges, the sweep from a node marks it first and then everything else that
it leads to. The limit only decides whether the pairs are returned: they are when there are at
most as many as it allows.
-/
namespace GitWarp

open Js Lib List
open Relation (TransGen ReflTransGen)

namespace Query

variable {graph : FiniteGraph} {params : TopoParams}

/-! ### The nodes in reach -/

/-- The nodes in reach are no more than the limit on nodes. -/
def TopoParams.Fits (params : TopoParams) (graph : FiniteGraph) : Prop :=
  ∃ all : List JsString, all.length ≤ params.maxNodes ∧ ∀ x, params.InReach graph x → x ∈ all

theorem closureNodesLoop_spec (valid : params.Valid graph) (fits : params.Fits graph) (turns)
    (taken sweep) (ok : Sweep.Ok (params.successors graph) (params.InReach graph) taken sweep)
    (begun : ∀ s ∈ params.starts.toList, s ∈ sweep.visited)
    (enough : graph.nodes.length ≤ taken.length + turns) (x) :
    x ∈ closureNodesLoop graph params turns sweep ↔ params.InReach graph x := by
  -- the loop over the queue finds the nodes in reach when they fit
  induction turns generalizing taken sweep with
  | zero =>
    have bound := ok.length_le valid.mem_nodes
    have done : sweep.pending = [] := length_eq_zero_iff.mp (by omega)
    exact ok.mem_iff (fun _ _ => Iff.rfl) begun done x
  | succ turns ih =>
    unfold closureNodesLoop
    split
    next full =>
      -- as many nodes are marked as there can be, so all of them are
      obtain ⟨all, few, inside⟩ := fits
      have sub : sweep.visited.toList ⊆ all := fun y mem => inside y (ok.good y mem)
      have size : sweep.visited.toList.length = sweep.visited.size := rfl
      have perm : sweep.visited.toList.Perm all :=
        (subperm_of_subset sweep.visited.nodup sub).perm_of_length_le (by omega)
      constructor
      · exact ok.good x
      · intro reached
        exact perm.mem_iff.mpr (inside x reached)
    next =>
      split
      next done => exact ok.mem_iff (fun _ _ => Iff.rfl) begun done x
      next nodeId queue pending =>
        have okNow : Sweep.Ok (params.successors graph) (params.InReach graph) taken
            ⟨sweep.visited, nodeId :: queue⟩ := by
          rw [← pending]
          exact ok
        have next := okNow.take queue fun _ _ reached leads => reached.step leads
        apply ih (taken ++ [nodeId]) _ next
        · intro s mem
          -- marked nodes stay marked
          exact ((Sweep.foldl_meet (params.successors graph nodeId) ⟨sweep.visited, queue⟩).2
            s).mpr (Or.inl (begun s mem))
        · rw [length_append, length_singleton]
          omega

theorem mem_closureNodes (valid : params.Valid graph) (fits : params.Fits graph) :
    x ∈ closureNodes graph params ↔ params.InReach graph x := by
  unfold closureNodes
  rw [mem_sortBy, OrdSet.mem_toList]
  apply closureNodesLoop_spec valid fits _ []
  · constructor
    · rfl
    · simp
    · exact fun y member => ⟨y, member, .refl⟩
  · exact fun s member => member
  · simp

/-! ### The sweep from one node, without a limit -/

variable (graph params)

def sweepLoop : Nat → Sweep JsString → Sweep JsString
  | 0, sweep => sweep
  | turns + 1, sweep =>
    if sweep.pending = [] then sweep
    else
      sweepLoop turns
        (sweep.pending.foldl (fun sweep x => (params.successors graph x).foldl Sweep.meet sweep)
          ⟨sweep.visited, []⟩)

def sweepFrom (fromNode : JsString) : Sweep JsString :=
  sweepLoop graph params graph.nodes.length ⟨.ofList [fromNode], [fromNode]⟩

def reachableFrom (fromNode : JsString) : List JsString :=
  (sweepFrom graph params fromNode).visited.toList.tail

/-- The pairs that the closure lists. -/
def closurePairs : List (JsString × JsString) :=
  (closureNodes graph params).flatMap fun fromNode =>
    (sortBy id (reachableFrom graph params fromNode)).map fun toNode => (fromNode, toNode)

variable {graph params}

theorem sweepLoop_spec (f) (inside : ∀ x, Reaches (params.Arc graph) [f] x → x ∈ graph.nodes)
    (taken sweep)
    (ok : Sweep.Ok (params.successors graph) (Reaches (params.Arc graph) [f]) taken sweep)
    (first : ∃ rest, sweep.visited.toList = f :: rest)
    (enough : graph.nodes.length ≤ taken.length + turns) :
    (∃ rest, (sweepLoop graph params turns sweep).visited.toList = f :: rest) ∧
      ∀ x, x ∈ (sweepLoop graph params turns sweep).visited ↔
        Reaches (params.Arc graph) [f] x := by
  have finish : ∀ (taken : List JsString) (sweep : Sweep JsString),
      Sweep.Ok (params.successors graph) (Reaches (params.Arc graph) [f]) taken sweep →
      (∃ rest, sweep.visited.toList = f :: rest) → sweep.pending = [] →
      ∀ x, x ∈ sweep.visited ↔ Reaches (params.Arc graph) [f] x := by
    rintro taken sweep ok ⟨rest, first⟩ done x
    apply ok.mem_iff (fun _ _ => Iff.rfl) _ done
    intro s mem
    rw [mem_singleton.mp mem, ← OrdSet.mem_toList, first]
    exact mem_cons_self
  induction turns generalizing taken sweep with
  | zero =>
    have bound := ok.length_le inside
    have done : sweep.pending = [] := length_eq_zero_iff.mp (by omega)
    exact ⟨first, finish taken sweep ok first done⟩
  | succ turns ih =>
    unfold sweepLoop
    split
    next done => exact ⟨first, finish taken sweep ok first done⟩
    next more =>
      have okNow : Sweep.Ok (params.successors graph) (Reaches (params.Arc graph) [f]) taken
          ⟨sweep.visited, sweep.pending ++ []⟩ := by
        rw [append_nil]
        exact ok
      have swept := okNow.takeAll []
        fun _ _ reached leads => Reaches.step reached leads
      apply ih (taken ++ sweep.pending) _ swept
      · -- the marks before the turn come first
        obtain ⟨rest, first⟩ := first
        have listed := swept.split
        rw [← ok.split, first, cons_append] at listed
        exact ⟨_, listed⟩
      · have some := length_pos_iff.mpr more
        rw [length_append]
        omega

theorem reaches_singleton :
    Reaches (params.Arc graph) [f] x ↔ ReflTransGen (params.Arc graph) f x := by
  unfold Reaches
  simp

theorem sweepFrom_spec (valid : params.Valid graph) (f) (reached : params.InReach graph f) :
    (∃ rest, (sweepFrom graph params f).visited.toList = f :: rest) ∧
      ∀ x, x ∈ (sweepFrom graph params f).visited ↔ ReflTransGen (params.Arc graph) f x := by
  have inside : ∀ x, Reaches (params.Arc graph) [f] x → x ∈ graph.nodes := by
    intro x there
    apply valid.mem_nodes
    obtain ⟨s, start, before⟩ := reached
    exact ⟨s, start, before.trans (reaches_singleton.mp there)⟩
  simp only [← reaches_singleton]
  apply sweepLoop_spec f inside []
  · constructor
    · rfl
    · simp
    · intro x mem
      exact ⟨x, OrdSet.mem_ofList.mp mem, .refl⟩
  · exact ⟨[], rfl⟩
  · simp

theorem mem_reachableFrom (valid : params.Valid graph) (reached : params.InReach graph f) :
    x ∈ reachableFrom graph params f ↔ TransGen (params.Arc graph) f x ∧ f ≠ x := by
  -- after a node come the other nodes that it leads to
  obtain ⟨⟨rest, first⟩, members⟩ := sweepFrom_spec valid f reached
  have distinct := (sweepFrom graph params f).visited.nodup
  rw [first, nodup_cons] at distinct
  unfold reachableFrom
  rw [first, tail_cons]
  have marked : x ∈ (sweepFrom graph params f).visited ↔ x = f ∨ x ∈ rest := by
    rw [← OrdSet.mem_toList, first, mem_cons]
  constructor
  · intro mem
    have differ : f ≠ x := by
      rintro rfl
      exact distinct.1 mem
    rcases Relation.reflTransGen_iff_eq_or_transGen.mp
      ((members x).mp (marked.mpr (Or.inr mem))) with same | walk
    · exact absurd same.symm differ
    · exact ⟨walk, differ⟩
  · rintro ⟨walk, differ⟩
    rcases marked.mp ((members x).mpr walk.to_reflTransGen) with same | mem
    · exact absurd same.symm differ
    · exact mem

theorem nodup_reachableFrom (f) : (reachableFrom graph params f).Nodup :=
  (sweepFrom graph params f).visited.nodup.sublist (tail_sublist _)

theorem mem_closurePairs (valid : params.Valid graph) (fits : params.Fits graph) (x y) :
    (x, y) ∈ closurePairs graph params ↔
      params.InReach graph x ∧ TransGen (params.Arc graph) x y ∧ x ≠ y := by
  unfold closurePairs
  rw [mem_flatMap]
  constructor
  · rintro ⟨f, member, there⟩
    obtain ⟨toNode, listed, same⟩ := mem_map.mp there
    cases same
    have reached := (mem_closureNodes valid fits).mp member
    exact ⟨reached, (mem_reachableFrom valid reached).mp ((mem_sortBy id _ _).mp listed)⟩
  · rintro ⟨reached, leads⟩
    refine ⟨x, (mem_closureNodes valid fits).mpr reached, mem_map.mpr ⟨y, ?_, rfl⟩⟩
    exact (mem_sortBy id _ _).mpr ((mem_reachableFrom valid reached).mpr leads)

theorem pairwise_closurePairs :
    (closurePairs graph params).Pairwise fun one two => toLex one < toLex two := by
  unfold closurePairs
  have strict : ∀ nodes : List JsString, nodes.Nodup → (sortBy id nodes).Pairwise (· < ·) := by
    intro nodes distinct
    have weak := pairwise_sortBy id nodes
    have apart : (sortBy id nodes).Nodup := (perm_sortBy id nodes).nodup_iff.mpr distinct
    exact (weak.and apart).imp fun both => lt_of_le_of_ne both.1 both.2
  rw [pairwise_flatMap]
  constructor
  · intro f _
    rw [pairwise_map]
    apply (strict _ (nodup_reachableFrom f)).imp
    exact fun less => Prod.Lex.toLex_lt_toLex.mpr (Or.inr ⟨rfl, less⟩)
  · apply (strict _ (OrdSet.nodup _)).imp
    intro one two less p here q there
    obtain ⟨_, -, rfl⟩ := mem_map.mp here
    obtain ⟨_, -, rfl⟩ := mem_map.mp there
    exact Prod.Lex.toLex_lt_toLex.mpr (Or.inl less)

/-! ### The limit on the edges -/

/-- The scan that has marked what a sweep has. -/
def scanned (edgesSoFar : Nat) (sweep : Sweep JsString) : ClosureScan :=
  ⟨sweep, sweep.visited.toList.tail, edgesSoFar + sweep.visited.toList.tail.length⟩

/-- A step of a scan, which does what a step of the sweep does. -/
abbrev Scans (maxEdges edgesSoFar : Nat) (free : Sweep JsString → Sweep JsString)
    (step : ClosureScan → Except Failure ClosureScan) : Prop :=
  Metered maxEdges (maxEdgesExceeded maxEdges) (fun sweep => sweep.visited.toList ≠ [])
    (fun sweep => edgesSoFar + sweep.visited.toList.tail.length) (scanned edgesSoFar) free step

theorem scanNeighbor_scans (y) :
    Scans maxEdges edgesSoFar (fun sweep => sweep.meet y)
      (fun scan => scanNeighbor maxEdges scan y) := by
  have tail : ∀ sweep : Sweep JsString, sweep.visited.toList ≠ [] → y ∉ sweep.visited →
      (sweep.meet y).visited.toList.tail = sweep.visited.toList.tail ++ [y] := by
    intro sweep some fresh
    unfold Sweep.meet
    rw [if_neg fresh, OrdSet.toList_add _ _ fresh, tail_append_of_ne_nil some]
  constructor
  · intro sweep some
    obtain ⟨⟨fresh, marked, -⟩, -⟩ := Sweep.foldl_meet [y] sweep
    have marked' : (sweep.meet y).visited.toList = sweep.visited.toList ++ fresh := marked
    rw [marked']
    exact append_ne_nil_of_left_ne_nil some fresh
  · intro sweep some
    by_cases old : y ∈ sweep.visited
    · unfold Sweep.meet
      rw [if_pos old]
    · rw [tail sweep some old, length_append]
      omega
  · intro sweep some within
    unfold scanNeighbor
    show (if y ∈ sweep.visited then _ else _) = _
    by_cases old : y ∈ sweep.visited
    · unfold Sweep.meet
      rw [if_pos old, if_pos old, if_pos within]
    · rw [if_neg old, tail sweep some old, length_append, length_singleton]
      show (if maxEdges < edgesSoFar + sweep.visited.toList.tail.length + 1 then _ else _) = _
      by_cases exceeded : maxEdges < edgesSoFar + sweep.visited.toList.tail.length + 1
      · rw [if_pos exceeded, if_neg (by omega)]
      · rw [if_neg exceeded, if_pos (by omega)]
        unfold scanned
        rw [tail sweep some old, length_append, length_singleton]
        rfl

theorem scanNode_scans (nodeId) :
    Scans maxEdges edgesSoFar
      (fun sweep => (params.successors graph nodeId).foldl Sweep.meet sweep)
      (fun scan => scanNode graph params maxEdges scan nodeId) :=
  Metered.foldlM (scanNeighbor_scans)

theorem scanLoop_scans :
    Scans maxEdges edgesSoFar (sweepLoop graph params turns)
      (scanLoop graph params maxEdges turns) := by
  induction turns with
  | zero => exact Metered.pure
  | succ turns ih =>
    -- a frontier is emptied before its nodes are expanded
    have emptied : Scans maxEdges edgesSoFar (fun sweep => ⟨sweep.visited, []⟩)
        (fun scan => .ok { scan with sweep := ⟨scan.sweep.visited, []⟩ }) :=
      Metered.silent _ _ (fun _ some => some) (fun _ => rfl) fun _ => rfl
    have turn : ∀ frontier : List JsString, Scans maxEdges edgesSoFar
        (fun sweep => if frontier = [] then sweep else sweepLoop graph params turns (frontier.foldl
            (fun sweep x => (params.successors graph x).foldl Sweep.meet sweep)
            ⟨sweep.visited, []⟩))
        (fun scan => if frontier = [] then .ok scan
          else frontier.foldlM (scanNode graph params maxEdges)
            { scan with sweep := ⟨scan.sweep.visited, []⟩ } >>=
              scanLoop graph params maxEdges turns) := by
      intro frontier
      by_cases done : frontier = []
      · simp only [if_pos done]
        exact Metered.pure
      · simp only [if_neg done]
        have expanded : Scans maxEdges edgesSoFar _ (fun scan =>
            frontier.foldlM (scanNode graph params maxEdges) scan) :=
          Metered.foldlM (scanNode_scans)
        exact (emptied.andThen expanded).andThen ih
    exact Metered.reading (fun scan => scan.sweep.pending)
      (fun _ => rfl) turn

/-- The pairs from a node, added to the pairs so far and to their number. -/
def pairsAfter (graph : FiniteGraph) (params : TopoParams)
    (sofar : List (JsString × JsString) × Nat) (fromNode : JsString) :
    List (JsString × JsString) × Nat :=
  (sofar.1 ++ (sortBy id (reachableFrom graph params fromNode)).map fun toNode =>
      (fromNode, toNode),
    sofar.2 + (reachableFrom graph params fromNode).length)

theorem closureFrom_metered (fromNode) :
    Metered maxEdges (maxEdgesExceeded maxEdges) (fun _ => True) Prod.snd id
      (fun sofar => pairsAfter graph params sofar fromNode)
      (fun sofar => closureFrom graph params maxEdges sofar fromNode) := by
  constructor
  · exact fun _ _ => trivial
  · exact fun sofar _ => Nat.le_add_right _ _
  · intro sofar _ within
    have scans : Scans maxEdges sofar.2 (sweepLoop graph params graph.nodes.length)
        (scanLoop graph params maxEdges graph.nodes.length) := scanLoop_scans
    have swept := scans.eq ⟨.ofList [fromNode], [fromNode]⟩ (cons_ne_nil _ _) within
    unfold closureFrom
    have start : (⟨⟨.ofList [fromNode], [fromNode]⟩, [], sofar.2⟩ : ClosureScan) =
        scanned sofar.2 ⟨.ofList [fromNode], [fromNode]⟩ := rfl
    rw [id, start, swept]
    show (if sofar.2 + (reachableFrom graph params fromNode).length ≤ maxEdges then _ else _) >>=
      _ = if sofar.2 + (reachableFrom graph params fromNode).length ≤ maxEdges then _ else _
    split
    · rfl
    · rfl

theorem foldl_pairsAfter (nodes : List JsString) (sofar) (counted : sofar.2 = sofar.1.length) :
    nodes.foldl (pairsAfter graph params) sofar =
      let pairs := sofar.1 ++ nodes.flatMap fun fromNode =>
        (sortBy id (reachableFrom graph params fromNode)).map fun toNode => (fromNode, toNode)
      (pairs, pairs.length) := by
  induction nodes generalizing sofar with
  | nil => simp [← counted]
  | cons fromNode nodes ih =>
    have length : (sortBy id (reachableFrom graph params fromNode)).length =
        (reachableFrom graph params fromNode).length := (perm_sortBy id _).length_eq
    rw [foldl_cons, ih]
    · unfold pairsAfter
      simp only [flatMap_cons, append_assoc]
    · unfold pairsAfter
      rw [length_append, length_map, length, counted]

theorem transitiveClosure_eq (checked : validateStarts graph params = .ok ()) :
    transitiveClosure graph params maxEdges =
      if (closurePairs graph params).length ≤ maxEdges then .ok (closurePairs graph params)
      else .error (maxEdgesExceeded maxEdges) := by
  have metered : Metered maxEdges (maxEdgesExceeded maxEdges) (fun _ => True) Prod.snd id
      (fun sofar => (closureNodes graph params).foldl (pairsAfter graph params) sofar)
      (fun sofar => (closureNodes graph params).foldlM (closureFrom graph params maxEdges) sofar) :=
    Metered.foldlM (closureFrom_metered)
  have whole := metered.eq ([], 0) trivial (Nat.zero_le _)
  rw [foldl_pairsAfter _ ([], 0) rfl] at whole
  unfold transitiveClosure
  rw [checked]
  show ((closureNodes graph params).foldlM (closureFrom graph params maxEdges) ([], 0) >>= _) = _
  rw [show (closureNodes graph params).foldlM (closureFrom graph params maxEdges) ([], 0) = _
    from whole]
  show (if (closurePairs graph params).length ≤ maxEdges then _ else _) >>= _ = _
  split
  · rfl
  · rfl

end Query
end GitWarp
