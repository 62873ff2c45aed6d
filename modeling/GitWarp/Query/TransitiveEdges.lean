import GitWarp.Lib.TransitiveReduction
import GitWarp.Query.GraphLevels

/-!
# Transitive reduction and closure

The second frontier of a node and what the sweep from it marks are the nodes that a walk of two
or more steps leads to. So the edges that are dropped are those that a longer walk makes
superfluous, with all their labels. The closure lists for each node in reach what it leads to,
apart from itself.
-/
namespace GitWarp

open Js Lib List
open Relation (TransGen ReflTransGen)

namespace Query

open IndexTree (NeighborEdge Direction)

variable {graph : FiniteGraph} {params : TopoParams}

theorem reaches_iff (second : ∀ y, y ∈ starts ↔ ∃ w, params.Arc graph u w ∧ params.Arc graph w y) :
    Reaches (params.Arc graph) starts x ↔
      ∃ w, params.Arc graph u w ∧ TransGen (params.Arc graph) w x := by
  constructor
  · rintro ⟨y, member, walk⟩
    obtain ⟨w, first, next⟩ := (second y).mp member
    exact ⟨w, first, TransGen.head' next walk⟩
  · rintro ⟨w, first, walk⟩
    obtain ⟨y, next, rest⟩ := TransGen.head'_iff.mp walk
    exact ⟨y, (second y).mpr ⟨w, first, next⟩, rest⟩

theorem secondFrontier_spec (u) :
    (secondFrontier graph params u).visited.toList = (secondFrontier graph params u).pending ∧
      ∀ y, y ∈ (secondFrontier graph params u).pending ↔
        ∃ w, params.Arc graph u w ∧ params.Arc graph w y := by
  have from_ : ∀ (ids : List JsString) (sweep : Sweep JsString),
      sweep.visited.toList = sweep.pending →
      (ids.foldl (fun sweep successorId =>
          (params.successors graph successorId).foldl Sweep.meet sweep) sweep).visited.toList =
        (ids.foldl (fun sweep successorId =>
          (params.successors graph successorId).foldl Sweep.meet sweep) sweep).pending ∧
      ∀ y, y ∈ (ids.foldl (fun sweep successorId =>
          (params.successors graph successorId).foldl Sweep.meet sweep) sweep).visited ↔
        y ∈ sweep.visited ∨ ∃ w ∈ ids, params.Arc graph w y := by
    intro ids
    induction ids with
    | nil => exact fun sweep same => ⟨same, by simp⟩
    | cons id ids ih =>
      intro sweep same
      obtain ⟨⟨fresh, marked, pending⟩, members⟩ :=
        Sweep.foldl_meet (params.successors graph id) sweep
      obtain ⟨all, rest⟩ := ih _ (by rw [marked, pending, same])
      refine ⟨all, fun y => ?_⟩
      rw [foldl_cons, rest, members]
      simp only [mem_cons, exists_eq_or_imp, or_assoc]
  obtain ⟨same, members⟩ := from_ (params.successors graph u) ⟨.empty, []⟩ rfl
  refine ⟨same, fun y => ?_⟩
  have listed : (secondFrontier graph params u).visited.toList =
      (secondFrontier graph params u).pending := same
  rw [← listed, OrdSet.mem_toList, show y ∈ (secondFrontier graph params u).visited ↔ _ from
    members y]
  simp

theorem foldl_reduceNode (u) {nodes : List JsString} (scan) :
    (nodes.foldl (reduceNode graph params u directSet) scan).sweep =
        nodes.foldl (fun sweep x => (params.successors graph x).foldl Sweep.meet sweep) scan.sweep ∧
      ∀ key, key ∈ (nodes.foldl (reduceNode graph params u directSet) scan).redundant ↔
        key ∈ scan.redundant ∨ ∃ x ∈ nodes, x ∈ directSet ∧ key = redundantKey u x := by
  induction nodes generalizing scan with
  | nil => simp
  | cons x nodes ih =>
    obtain ⟨sweep, noted⟩ := ih (reduceNode graph params u directSet scan x)
    refine ⟨sweep, fun key => ?_⟩
    rw [foldl_cons, noted]
    unfold reduceNode
    split
    next direct => simp [direct, or_assoc]
    next other => simp [other]

theorem reduceLoop_spec (inside : ∀ x, Reaches (params.Arc graph) starts x → x ∈ graph.nodes) (u)
    (directSet redundant : OrdSet JsString) (taken scan)
    (ok : Sweep.Ok (params.successors graph) (Reaches (params.Arc graph) starts) taken scan.sweep)
    (begun : ∀ s ∈ starts, s ∈ scan.sweep.visited) (noted : ∀ key, key ∈ scan.redundant ↔
      key ∈ redundant ∨ ∃ x ∈ taken, x ∈ directSet ∧ key = redundantKey u x)
    (enough : graph.nodes.length ≤ taken.length + turns) :
    ∀ key, key ∈ reduceLoop graph params u directSet turns scan ↔
      key ∈ redundant ∨ ∃ x, Reaches (params.Arc graph) starts x ∧ x ∈ directSet ∧
        key = redundantKey u x := by
  have finish : ∀ (taken : List JsString) (scan : ReductionScan),
      Sweep.Ok (params.successors graph) (Reaches (params.Arc graph) starts) taken scan.sweep →
      (∀ s ∈ starts, s ∈ scan.sweep.visited) → scan.sweep.pending = [] →
      (∀ key, key ∈ scan.redundant ↔
        key ∈ redundant ∨ ∃ x ∈ taken, x ∈ directSet ∧ key = redundantKey u x) →
      ∀ key, key ∈ scan.redundant ↔ key ∈ redundant ∨
        ∃ x, Reaches (params.Arc graph) starts x ∧ x ∈ directSet ∧ key = redundantKey u x := by
    intro taken scan ok begun done noted key
    have all : ∀ x, x ∈ taken ↔ Reaches (params.Arc graph) starts x := by
      intro x
      rw [← ok.mem_iff (fun _ _ => Iff.rfl) begun done, ← OrdSet.mem_toList, ok.split, done,
        append_nil]
    rw [noted]
    simp only [all]
  induction turns generalizing taken scan with
  | zero =>
    have bound := ok.length_le inside
    have done : scan.sweep.pending = [] := length_eq_zero_iff.mp (by omega)
    exact finish taken scan ok begun done noted
  | succ turns ih =>
    unfold reduceLoop
    split
    next done => exact finish taken scan ok begun done noted
    next more =>
      obtain ⟨sweep, notedNow⟩ := foldl_reduceNode u
        { scan with sweep := ⟨scan.sweep.visited, []⟩ }
      have okNow : Sweep.Ok (params.successors graph) (Reaches (params.Arc graph) starts) taken
          ⟨scan.sweep.visited, scan.sweep.pending ++ []⟩ := by
        rw [append_nil]
        exact ok
      have swept := okNow.takeAll []
        fun _ _ reached leads => Reaches.step reached leads
      apply ih (taken ++ scan.sweep.pending)
      · rw [sweep]
        exact swept
      · intro s mem
        rw [sweep, ← OrdSet.mem_toList, swept.split]
        apply mem_append_left
        rw [← ok.split]
        exact begun s mem
      · intro key
        rw [notedNow]
        show key ∈ scan.redundant ∨ _ ↔ _
        rw [noted, or_assoc]
        simp only [mem_append, or_and_right, exists_or]
      · have some := length_pos_iff.mpr more
        rw [length_append]
        omega

theorem reduceFrom_spec (acyclic : ∀ x, params.InReach graph x →
      ¬ TransGen (params.Arc graph) x x) (valid : params.Valid graph) (u)
    (reached : params.InReach graph u) :
    ∀ key, key ∈ reduceFrom graph params redundant u ↔ key ∈ redundant ∨
      ∃ v, params.Arc graph u v ∧ key = redundantKey u v ∧
        ∃ w, params.Arc graph u w ∧ TransGen (params.Arc graph) w v := by
  -- noted from a node are the pairs that a walk of two or more steps has for its ends
  intro key
  unfold reduceFrom
  split
  next few =>
    constructor
    · exact Or.inl
    · rintro (old | ⟨v, leads, -, w, first, walk⟩)
      · exact old
      · -- with one edge only the walk would come back to its target
        exfalso
        have short : (params.successors graph u).length ≤ 1 := by
          unfold TopoParams.successors
          rw [length_map]
          exact few
        have same : w = v := by
          have leads' : v ∈ params.successors graph u := leads
          have first' : w ∈ params.successors graph u := first
          cases listed : params.successors graph u with
          | nil =>
            rw [listed] at leads'
            exact absurd leads' not_mem_nil
          | cons only rest =>
            rw [listed, length_cons] at short
            have nothing : rest = [] := length_eq_zero_iff.mp (by omega)
            rw [listed, nothing, mem_singleton] at leads' first'
            exact first'.trans leads'.symm
        subst same
        exact acyclic w (Reaches.step reached first) walk
  next many =>
    obtain ⟨split, members⟩ := secondFrontier_spec u
    have inside : ∀ x, Reaches (params.Arc graph) (secondFrontier graph params u).pending x →
        x ∈ graph.nodes := by
      intro x there
      apply valid.mem_nodes
      obtain ⟨w, first, walk⟩ := (reaches_iff members).mp there
      obtain ⟨s, start, before⟩ := reached
      exact ⟨s, start, (before.tail first).trans walk.to_reflTransGen⟩
    have start : Sweep.Ok (params.successors graph)
        (Reaches (params.Arc graph) (secondFrontier graph params u).pending) []
        (secondFrontier graph params u) := by
      constructor
      · exact split
      · simp
      · intro x member
        rw [← OrdSet.mem_toList, split] at member
        exact ⟨x, member, .refl⟩
    rw [reduceLoop_spec inside u _ redundant []
      ⟨secondFrontier graph params u, redundant⟩ start (by
        intro s member
        rw [← OrdSet.mem_toList, split]
        exact member) (by simp) (by simp)]
    constructor
    · rintro (old | ⟨x, there, direct, rfl⟩)
      · exact Or.inl old
      · exact Or.inr ⟨x, OrdSet.mem_ofList.mp direct, rfl, (reaches_iff members).mp there⟩
    · rintro (old | ⟨v, leads, rfl, longer⟩)
      · exact Or.inl old
      · exact Or.inr ⟨v, (reaches_iff members).mpr longer, OrdSet.mem_ofList.mpr leads, rfl⟩

theorem redundantKey_inj (first : u ∈ graph.nodes) (second : u' ∈ graph.nodes)
    (same : redundantKey u v = redundantKey u' v') : u = u' ∧ v = v' := by
  have left := split_append_cons v (graph.separable u first)
  have right := split_append_cons v' (graph.separable u' second)
  unfold redundantKey at same
  rw [same, right] at left
  obtain ⟨rfl, -⟩ := List.cons.inj left
  exact ⟨rfl, (List.cons.inj (append_cancel_left same)).2⟩

/-- The arcs between the nodes in reach. -/
def TopoParams.ReachedArc (params : TopoParams) (graph : FiniteGraph) (x y : JsString) : Prop :=
  params.InReach graph x ∧ params.Arc graph x y

theorem transGen_reachedArc (reached : params.InReach graph x) :
    TransGen (params.ReachedArc graph) x y ↔ TransGen (params.Arc graph) x y := by
  constructor
  · intro walk
    exact TransGen.mono (fun _ _ both => both.2) _ _ walk
  · intro walk
    have both : params.InReach graph y ∧ TransGen (params.ReachedArc graph) x y := by
      induction walk with
      | single leads => exact ⟨Reaches.step reached leads, .single ⟨reached, leads⟩⟩
      | tail _ leads ih =>
        exact ⟨Reaches.step ih.1 leads, ih.2.tail ⟨ih.1, leads⟩⟩
    exact both.2

theorem redundantPairs_spec (acyclic : ∀ x, params.InReach graph x →
      ¬ TransGen (params.Arc graph) x x) (valid : params.Valid graph)
    (members : ∀ x, x ∈ sorted ↔ params.InReach graph x) (u v) (arc : params.ReachedArc graph u v) :
    redundantKey u v ∈ redundantPairs graph params sorted ↔
      ¬ Direct (params.ReachedArc graph) u v := by
  -- after the whole order, a pair is noted exactly when its edge is not direct
  have from_ : ∀ (nodes : List JsString) (redundant : OrdSet JsString),
      (∀ x ∈ nodes, params.InReach graph x) →
      ∀ key, key ∈ nodes.foldl (reduceFrom graph params) redundant ↔ key ∈ redundant ∨
        ∃ u ∈ nodes, ∃ v, params.Arc graph u v ∧ key = redundantKey u v ∧
          ∃ w, params.Arc graph u w ∧ TransGen (params.Arc graph) w v := by
    intro nodes
    induction nodes with
    | nil => simp
    | cons x nodes ih =>
      intro redundant inReach key
      rw [foldl_cons, ih _ (forall_mem_cons.mp inReach).2,
        reduceFrom_spec acyclic valid x (inReach x mem_cons_self)]
      simp only [mem_cons, exists_eq_or_imp, or_assoc]
  unfold redundantPairs
  rw [from_ sorted .empty fun x member => (members x).mp member]
  have inGraph := valid.mem_nodes
  constructor
  · rintro (none | ⟨u', member, v', -, same, w, first, walk⟩) direct
    · exact OrdSet.not_mem_empty _ none
    · have reached' := (members u').mp member
      obtain ⟨rfl, rfl⟩ := redundantKey_inj (inGraph u arc.1) (inGraph u' reached') same
      apply direct.2
      exact ⟨w, ⟨reached', first⟩, (transGen_reachedArc (Reaches.step reached' first)).mpr walk⟩
  · intro indirect
    right
    refine ⟨u, (members u).mpr arc.1, v, arc.2, rfl, ?_⟩
    by_contra none
    apply indirect
    refine ⟨arc, ?_⟩
    rintro ⟨w, first, walk⟩
    exact none ⟨w, first.2, (transGen_reachedArc (Reaches.step arc.1 first.2)).mp walk⟩

/-- The pairs of nodes that the edges of a reduction join. -/
def Joins (edges : List GraphEdge) (x y : JsString) : Prop :=
  ∃ edge ∈ edges, edge.src = x ∧ edge.dst = y

section

variable (free : stoppedByLimit graph params = false)
  (returned : transitiveReduction graph params = .ok reduction)
include free returned

/-- The reduction keeps exactly the edges in reach that are direct, with all their labels. -/
theorem transitiveReduction_edges (edge) :
    edge ∈ reduction.edges ↔ Direct (params.ReachedArc graph) edge.src edge.dst ∧
      (⟨edge.dst, edge.label⟩ : NeighborEdge) ∈ params.neighbors graph edge.src := by
  obtain ⟨run, sorted, result⟩ := bind_eq_ok.mp returned
  cases result
  have topological := sorted_topological free sorted
  have valid : params.Valid graph := by
    obtain ⟨⟨⟩, checked, -⟩ := bind_eq_ok.mp sorted
    exact valid_of_validateStarts checked
  have acyclic : ∀ x, params.InReach graph x → ¬ TransGen (params.Arc graph) x x :=
    topological.acyclic fun _ _ reached leads => Reaches.step reached leads
  rw [mem_sortBy, mem_filter, Bool.not_eq_true', OrdSet.has_eq_false_iff]
  have listed : edge ∈ edgesFrom graph params run.sorted ↔ params.InReach graph edge.src ∧
      (⟨edge.dst, edge.label⟩ : NeighborEdge) ∈ params.neighbors graph edge.src := by
    unfold edgesFrom
    rw [mem_flatMap]
    constructor
    · rintro ⟨u, member, there⟩
      obtain ⟨found, inside, rfl⟩ := mem_map.mp there
      exact ⟨(topological.mem u).mp member, inside⟩
    · rintro ⟨reached, inside⟩
      exact ⟨edge.src, (topological.mem _).mpr reached, mem_map.mpr ⟨_, inside, rfl⟩⟩
  rw [listed]
  have arc : (⟨edge.dst, edge.label⟩ : NeighborEdge) ∈ params.neighbors graph edge.src →
      params.Arc graph edge.src edge.dst := fun inside => mem_map.mpr ⟨_, inside, rfl⟩
  have noted := redundantPairs_spec acyclic valid topological.mem edge.src edge.dst
  constructor
  · rintro ⟨⟨reached, inside⟩, kept⟩
    refine ⟨?_, inside⟩
    by_contra indirect
    exact kept ((noted ⟨reached, arc inside⟩).mpr indirect)
  · rintro ⟨direct, inside⟩
    exact ⟨⟨direct.1.1, inside⟩, fun dropped => (noted direct.1).mp dropped direct⟩

/-- The joined pairs are the least relation that reaches what the edges in reach do. -/
theorem transitiveReduction_spec :
    (∀ x y, TransGen (Joins reduction.edges) x y ↔ TransGen (params.ReachedArc graph) x y) ∧
      (∀ q : JsString → JsString → Prop,
        (∀ x y, TransGen q x y ↔ TransGen (params.ReachedArc graph) x y) →
        ∀ x y, Joins reduction.edges x y → q x y) ∧
      ∀ x y label, Joins reduction.edges x y →
        (⟨y, label⟩ : NeighborEdge) ∈ params.neighbors graph x →
          (⟨x, y, label⟩ : GraphEdge) ∈ reduction.edges := by
  have edges := transitiveReduction_edges free returned
  have joins : Joins reduction.edges = Direct (params.ReachedArc graph) := by
    funext x y
    apply propext
    constructor
    · rintro ⟨edge, member, rfl, rfl⟩
      exact ((edges edge).mp member).1
    · intro direct
      obtain ⟨found, inside, rfl⟩ := mem_map.mp direct.1.2
      exact ⟨⟨x, found.neighborId, found.label⟩, (edges _).mpr ⟨direct, inside⟩, rfl, rfl⟩
  rw [joins]
  obtain ⟨run, sorted, -⟩ := bind_eq_ok.mp returned
  have topological := sorted_topological free sorted
  refine ⟨?_, fun q same => direct_subset q same, ?_⟩
  · -- the place in the topological order is a rank
    apply transGen_direct_iff
    exact fun x y arc => topological.idxOf_lt arc.1 (Reaches.step arc.1 arc.2) arc.2
  · exact fun x y label direct inside => (edges ⟨x, y, label⟩).mpr ⟨direct, inside⟩

end

end Query
end GitWarp
