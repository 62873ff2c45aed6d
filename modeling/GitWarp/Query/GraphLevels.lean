import GitWarp.Query.GraphAnalysis
import GitWarp.Query.TopologicalSort

/-!
# Levels are the lengths of the longest paths

Along a topological order, the nodes that lead to a node are done before it. When a node is
done, its level bounds the paths to it, and so every neighbour is raised above all paths that
come through the node.
-/
namespace GitWarp

open Js Lib List

namespace Query

variable {graph : FiniteGraph} {params : TopoParams}

/-- The level of a node in a scan. -/
def LevelScan.levelOf (scan : LevelScan) (nodeId : JsString) : Nat :=
  (scan.levelMap.get nodeId).getD 0

theorem foldl_raiseNeighbor (level) {ids : List JsString} (scan) :
    let after := ids.foldl (raiseNeighbor level) scan
    (∀ x, after.levelOf x = if x ∈ ids then max (scan.levelOf x) (level + 1) else scan.levelOf x) ∧
      ∀ x, (scan.levelMap.get x).isSome = true ∨ x ∈ ids ∧ (after.levelMap.get x).isSome = true ↔
        (after.levelMap.get x).isSome = true := by
  -- raising neighbours above a level
  induction ids generalizing scan with
  | nil => simp
  | cons id ids ih =>
    obtain ⟨levels, keys⟩ := ih (raiseNeighbor level scan id)
    have one : ∀ x, (raiseNeighbor level scan id).levelOf x =
        if x = id then max (scan.levelOf x) (level + 1) else scan.levelOf x := by
      intro x
      unfold raiseNeighbor
      simp only []
      split
      next less =>
        unfold LevelScan.levelOf
        simp only [OrdMap.get_set]
        by_cases same : id = x
        · subst same
          simp only [if_true, Option.getD_some]
          omega
        · rw [if_neg same, if_neg (fun again => same again.symm)]
      next more =>
        split
        next same =>
          subst same
          unfold LevelScan.levelOf
          omega
        next => rfl
    have known : ∀ x, ((raiseNeighbor level scan id).levelMap.get x).isSome = true →
        (scan.levelMap.get x).isSome = true ∨ x = id := by
      intro x
      unfold raiseNeighbor
      simp only []
      split
      · simp only [OrdMap.get_set]
        split
        next same => exact fun _ => Or.inr same.symm
        next => exact Or.inl
      · exact Or.inl
    have kept : ∀ x, (scan.levelMap.get x).isSome = true →
        ((raiseNeighbor level scan id).levelMap.get x).isSome = true := by
      intro x
      unfold raiseNeighbor
      simp only []
      split
      · simp only [OrdMap.get_set]
        split
        · exact fun _ => rfl
        · exact fun before => before
      · exact fun before => before
    constructor
    · intro x
      rw [foldl_cons, levels, one]
      by_cases same : x = id
      · simp [same]
      · by_cases later : x ∈ ids <;> simp [same, later]
    · intro x
      constructor
      · rintro (before | ⟨-, after⟩)
        · exact (keys x).mp (Or.inl (kept x before))
        · exact after
      · intro after
        rcases (keys x).mpr after with before | ⟨later, -⟩
        · rcases known x before with old | rfl
          · exact Or.inl old
          · exact Or.inr ⟨mem_cons_self, after⟩
        · exact Or.inr ⟨mem_cons_of_mem _ later, after⟩

theorem groundLevels_get (x) :
    (groundLevels sorted).get x = if x ∈ sorted then some 0 else none := by
  have from_ : ∀ (nodes : List JsString) (levelMap : OrdMap JsString Nat),
      (∀ x n, levelMap.get x = some n → n = 0) →
      (nodes.foldl (fun levelMap nodeId =>
        if levelMap.has nodeId then levelMap else levelMap.set nodeId 0) levelMap).get x =
          if x ∈ nodes then some 0 else levelMap.get x := by
    intro nodes
    induction nodes with
    | nil => simp
    | cons nodeId nodes ih =>
      intro levelMap ground
      rw [foldl_cons]
      by_cases has : levelMap.has nodeId = true
      · rw [if_pos has, ih levelMap ground]
        obtain ⟨n, held⟩ := (OrdMap.has_eq_true_iff levelMap nodeId).mp has
        have zero := ground nodeId n held
        by_cases same : x = nodeId
        · subst same
          simp [held, zero]
        · simp [same]
      · rw [if_neg has, ih]
        · rw [OrdMap.get_set]
          by_cases same : x = nodeId
          · subst same
            simp
          · rw [if_neg fun again : nodeId = x => same again.symm]
            simp [same]
        · intro y n
          rw [OrdMap.get_set]
          split
          · exact fun held => (Option.some.inj held).symm
          · exact ground y n
  exact from_ sorted .empty (by simp)

/-- The levels after part of the order: each level is the length of a path, and bounds the paths
through the nodes that are done. -/
structure LevelsOk (graph : FiniteGraph) (params : TopoParams) (done : List JsString)
    (scan : LevelScan) : Prop where
  path : ∀ x, params.InReach graph x →
    PathTo (params.InReach graph) (params.Arc graph) (scan.levelOf x) x
  bound : ∀ u ∈ done, ∀ x, params.Arc graph u x → ∀ m,
    PathTo (params.InReach graph) (params.Arc graph) m u → m + 1 ≤ scan.levelOf x
  keys : ∀ x, (scan.levelMap.get x).isSome = true ↔ params.InReach graph x

theorem LevelsOk.longest (ok : LevelsOk graph params done scan) (reached : params.InReach graph x)
    (all : ∀ u, params.InReach graph u → params.Arc graph u x → u ∈ done) :
    Longest (params.InReach graph) (params.Arc graph) (scan.levelOf x) x := by
  refine ⟨ok.path x reached, fun m walk => ?_⟩
  cases walk with
  | here => exact Nat.zero_le _
  | step first leads =>
    have there := first.is_node fun _ _ inside step => Reaches.step inside step
    exact ok.bound _ (all _ there leads) x leads _ first

theorem LevelsOk.raise (ok : LevelsOk graph params done scan) (u) (reached : params.InReach graph u)
    (longest : Longest (params.InReach graph) (params.Arc graph) (scan.levelOf u) u) :
    LevelsOk graph params (done ++ [u]) (raiseFrom graph params scan u) := by
  obtain ⟨levels, keys⟩ := foldl_raiseNeighbor (scan.levelOf u) scan
  constructor
  · intro x inside
    rw [show (raiseFrom graph params scan u).levelOf x = _ from levels x]
    split
    next leads =>
      rcases le_total (scan.levelOf x) (scan.levelOf u + 1) with below | above
      · rw [max_eq_right below]
        exact .step (ok.path u reached) leads
      · rw [max_eq_left above]
        exact ok.path x inside
    next => exact ok.path x inside
  · intro v mem x leads m walk
    rw [show (raiseFrom graph params scan u).levelOf x = _ from levels x]
    rcases mem_append.mp mem with before | now
    · have old := ok.bound v before x leads m walk
      split <;> omega
    · obtain rfl := mem_singleton.mp now
      have most := longest.2 m walk
      rw [if_pos leads]
      omega
  · intro x
    rw [show ((raiseFrom graph params scan u).levelMap.get x).isSome = true ↔ _ from
      (keys x).symm, ok.keys]
    constructor
    · rintro (inside | ⟨leads, -⟩)
      · exact inside
      · exact Reaches.step reached leads
    · exact Or.inl

theorem levelsOf_spec (topological : Topological (params.InReach graph) (params.Arc graph) sorted) :
    LevelsOk graph params sorted (levelsOf graph params sorted) := by
  -- after the whole order every level is the length of the longest path
  have from_ : ∀ (rest done : List JsString) (scan : LevelScan), sorted = done ++ rest →
      LevelsOk graph params done scan →
      LevelsOk graph params sorted (rest.foldl (raiseFrom graph params) scan) := by
    intro rest
    induction rest with
    | nil =>
      intro done scan split ok
      rw [append_nil] at split
      rw [split]
      exact ok
    | cons u rest ih =>
      intro done scan split ok
      have reached : params.InReach graph u := (topological.mem u).mp (by rw [split]; simp)
      have longest := ok.longest reached fun v inside leads =>
        topological.after done u rest split v inside leads
      exact ih (done ++ [u]) _ (by rw [split]; simp) (ok.raise u reached longest)
  have ground : ∀ x, (groundLevels sorted).get x = if x ∈ sorted then some 0 else none :=
    groundLevels_get
  apply from_ sorted [] _ rfl
  constructor
  · intro x reached
    have zero : LevelScan.levelOf ⟨groundLevels sorted, 0⟩ x = 0 := by
      unfold LevelScan.levelOf
      simp only [ground]
      split <;> rfl
    rw [zero]
    exact .here reached
  · simp
  · intro x
    show ((groundLevels sorted).get x).isSome = true ↔ _
    rw [ground, ← topological.mem]
    split
    next mem => exact iff_of_true rfl mem
    next absent => exact iff_of_false (by simp) absent

theorem sorted_topological {run} (free : stoppedByLimit graph params = false)
    (sorted : topologicalSort graph params true = .ok run) :
    Topological (params.InReach graph) (params.Arc graph) run.sorted := by
  have acyclic : run.hasCycle = false := by
    obtain ⟨⟨⟩, -, sorted⟩ := bind_eq_ok.mp sorted
    dsimp only at sorted
    split at sorted
    next => cases sorted
    next none =>
      cases sorted
      simpa using none
  exact ((topologicalSort_spec free sorted).2 acyclic).1

theorem levels_spec (scan) (free : stoppedByLimit graph params = false)
    (returned : levels graph params = .ok scan) :
    (∀ x, (scan.levelMap.get x).isSome = true ↔ params.InReach graph x) ∧
      ∀ x n, scan.levelMap.get x = some n →
        Longest (params.InReach graph) (params.Arc graph) n x := by
  obtain ⟨run, sorted, result⟩ := bind_eq_ok.mp returned
  cases result
  have topological := sorted_topological free sorted
  have ok := levelsOf_spec topological
  refine ⟨ok.keys, fun x n held => ?_⟩
  have reached := (ok.keys x).mp (by rw [held]; rfl)
  have level : (levelsOf graph params run.sorted).levelOf x = n := by
    unfold LevelScan.levelOf
    rw [held]
    rfl
  rw [← level]
  exact ok.longest reached fun u inside _ => (topological.mem u).mpr inside

end Query
end GitWarp
