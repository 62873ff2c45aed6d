import GitWarp.Query.DepthFirst
import GitWarp.Query.GraphPathFinding

/-!
# Shortest paths by number of edges

Both searches go through the frontiers in step, and both stop at the same limits. So they meet
the goal under the same condition, in the round of its distance, and the recorded predecessors
then spell out a path with one edge for each round.
-/
namespace GitWarp

open Js Lib List OrdSet

variable {ids : List JsString} {before visited : OrdSet JsString} {depth : Nat} {round : ReachRound}

namespace Query

open IndexTree (NeighborEdge Direction)

variable {provider : NeighborProvider} {params : TraversalParams} {goal : JsString}

/-- The head of the loop at some depth: visited are the nodes up to it, and the frontier lists
those at it. -/
structure AtFrontier (provider : NeighborProvider) (params : TraversalParams) (depth : Nat)
    (visited : OrdSet JsString) (ids : List JsString) : Prop where
  known : ∀ x, x ∈ visited ↔ ∃ k ≤ depth, DistanceFromStart provider params k x
  edge : ∀ x, x ∈ ids ↔ DistanceFromStart provider params depth x

/-- From some depth on, the goal is met within the limits. -/
def MetFrom (provider : NeighborProvider) (params : TraversalParams) (goal : JsString)
    (depth : Nat) : Prop :=
  ∃ k, depth ≤ k ∧ (k : Int) < params.maxDepth ∧
    (nodesBelow provider params (k + 1)).length < params.maxNodes ∧
    DistanceFromStart provider params (k + 1) goal

theorem AtFrontier.size_eq (front : AtFrontier provider params depth visited ids) :
    visited.size = (nodesBelow provider params (depth + 1)).length := by
  apply List.Perm.length_eq
  apply (perm_ext_iff_of_nodup visited.nodup (nodup_seen _ _)).mpr
  intro x
  rw [(mem_layers _ _).1]
  constructor
  · intro mem
    obtain ⟨k, near, distance⟩ := (front.known x).mp mem
    exact ⟨k, by omega, distance⟩
  · rintro ⟨k, near, distance⟩
    exact (front.known x).mpr ⟨k, by omega, distance⟩

theorem AtFrontier.not_metFrom (front : AtFrontier provider params depth visited ids)
    (stop : ids = [] ∨ params.maxDepth ≤ depth ∨ params.maxNodes ≤ visited.size) :
    ¬ MetFrom provider params goal depth := by
  rintro ⟨k, later, shallow, few, distance⟩
  rcases stop with nothing | deep | full
  · have empty : ∀ x, ¬ DistanceFromStart provider params depth x := by
      intro x there
      have mem := (front.edge x).mpr there
      rw [nothing] at mem
      exact not_mem_nil mem
    exact not_atDistance_of_empty empty (by omega) goal distance
  · omega
  · have fewer := (seen_start (successorIds provider params) params.start (depth + 1) (k + 1)
      (by omega)).length_le
    have size : visited.size ≤ (nodesBelow provider params (k + 1)).length :=
      front.size_eq.le.trans fewer
    omega

theorem metFrom_succ (unmet : ¬ DistanceFromStart provider params (depth + 1) goal) :
    MetFrom provider params goal depth ↔ MetFrom provider params goal (depth + 1) := by
  constructor
  · rintro ⟨k, later, rest⟩
    by_cases first : k = depth
    · exact absurd (first ▸ rest.2.2) unmet
    · exact ⟨k, by omega, rest⟩
  · rintro ⟨k, later, rest⟩
    exact ⟨k, by omega, rest⟩

theorem AtFrontier.new_iff (front : AtFrontier provider params depth before ids)
    (known : ∀ x, x ∈ visited ↔ ∃ k ≤ depth + 1, DistanceFromStart provider params k x)
    (new : ∀ x, x ∈ visited → x ∉ before → DistanceFromStart provider params (depth + 1) x) (x) :
    x ∈ visited ∧ x ∉ before ↔ DistanceFromStart provider params (depth + 1) x := by
  constructor
  · exact fun both => new x both.1 both.2
  · intro distance
    refine ⟨(known x).mpr ⟨depth + 1, Nat.le_refl _, distance⟩, fun old => ?_⟩
    obtain ⟨k, near, closer⟩ := (front.known x).mp old
    have same := closer.unique distance
    omega

/-! ### Folds that spread -/

section Spreading

variable {R E : Type} (Ok : R → Prop) (seen : R → OrdSet JsString) (met : R → Bool)

/-- A step of a round keeps what is visited. Unless it has met the goal by then, it has visited
what it aims at. -/
structure Spread (Aim : JsString → Prop) (round after : R) : Prop where
  ok : Ok after
  grows : ∀ y, y ∈ seen round → y ∈ seen after
  unmet : met after = false → met round = false ∧ ∀ y, Aim y → y ∈ seen after

theorem Spread.foldl {Aim : E → JsString → Prop} {items : List E}
    (each : ∀ item ∈ items, ∀ round, Ok round →
      Spread Ok seen met (Aim item) round (step round item)) {round} (ok : Ok round) :
    Spread Ok seen met (fun y => ∃ item ∈ items, Aim item y) round (items.foldl step round) := by
  induction items generalizing round with
  | nil => exact ⟨ok, fun _ mem => mem, fun unmet => ⟨unmet, by simp⟩⟩
  | cons item items ih =>
    obtain ⟨now, later⟩ := forall_mem_cons.mp each
    have first := now round ok
    have rest := ih later first.ok
    refine ⟨rest.ok, fun y mem => rest.grows y (first.grows y mem), fun unmet => ?_⟩
    obtain ⟨unmetNow, visited⟩ := rest.unmet unmet
    obtain ⟨unmetBefore, visitedFirst⟩ := first.unmet unmetNow
    refine ⟨unmetBefore, ?_⟩
    rintro y ⟨other, listed, aimed⟩
    rcases mem_cons.mp listed with rfl | listed
    · exact rest.grows y (visitedFirst y aimed)
    · exact visited y ⟨other, listed, aimed⟩

end Spreading

/-! ### Reachability -/

/-- A round of `isReachable` in progress. -/
structure ReachOk (provider : NeighborProvider) (params : TraversalParams) (goal : JsString)
    (depth : Nat) (before : OrdSet JsString) (round : ReachRound) : Prop where
  grows : ∀ x, x ∈ before → x ∈ round.visited
  new : ∀ x, x ∈ round.visited → x ∉ before → DistanceFromStart provider params (depth + 1) x
  listed : ∀ x, x ∈ round.nextFrontier ↔ x ∈ round.visited ∧ x ∉ before
  unmet : goal ∉ round.visited
  met : round.met = true → DistanceFromStart provider params (depth + 1) goal

section

variable (front : AtFrontier provider params depth before ids)
include front

theorem AtFrontier.next_distance (there : DistanceFromStart provider params depth x)
    (leads : y ∈ successorIds provider params x) (fresh : y ∉ before) :
    DistanceFromStart provider params (depth + 1) y := by
  obtain ⟨k, near, distance⟩ := there.next_le leads
  by_cases last : k = depth + 1
  · exact last ▸ distance
  · exact absurd ((front.known y).mpr ⟨k, by omega, distance⟩) fresh

theorem ReachOk.meetNode (away : goal ∉ before) (there : DistanceFromStart provider params depth x)
    (ok : ReachOk provider params goal depth before round)
    (leads : edge.neighborId ∈ successorIds provider params x) :
    Spread (ReachOk provider params goal depth before) ReachRound.visited ReachRound.met
      (edge.neighborId = ·) round (meetNode goal round edge) := by
  unfold Query.meetNode
  split
  next met => exact ⟨ok, fun _ mem => mem, fun unmet => absurd met (by rw [unmet]; simp)⟩
  next unmet =>
    split
    next here =>
      refine ⟨⟨ok.grows, ok.new, ok.listed, ok.unmet, fun _ => ?_⟩, fun _ mem => mem,
        fun absurdity => absurd absurdity (by simp)⟩
      exact front.next_distance there (here ▸ leads) away
    next elsewhere =>
      split
      next known => exact ⟨ok, fun _ mem => mem, fun unmet => ⟨unmet, fun _ same => same ▸ known⟩⟩
      next fresh =>
        refine ⟨?_, fun y mem => (mem_add _ _).mpr (Or.inl mem),
          fun unmet => ⟨unmet, fun _ same => (mem_add _ _).mpr (Or.inr same.symm)⟩⟩
        have away' : edge.neighborId ∉ before := fun old => fresh (ok.grows _ old)
        constructor
        · exact fun y old => (mem_add _ _).mpr (Or.inl (ok.grows y old))
        · intro y mem old
          rcases (mem_add _ _).mp mem with mem | rfl
          · exact ok.new y mem old
          · exact front.next_distance there leads old
        · intro y
          simp only [mem_append, mem_singleton, mem_add, ok.listed]
          constructor
          · rintro (listed | rfl)
            · exact ⟨Or.inl listed.1, listed.2⟩
            · exact ⟨Or.inr rfl, away'⟩
          · rintro ⟨mem | rfl, old⟩
            · exact Or.inl ⟨mem, old⟩
            · exact Or.inr rfl
        · intro mem
          rcases (mem_add _ _).mp mem with mem | same
          · exact ok.unmet mem
          · exact elsewhere same.symm
        · exact ok.met

theorem ReachOk.frontier (away : goal ∉ before) {nodes : List JsString}
    (edge : ∀ x ∈ nodes, DistanceFromStart provider params depth x)
    (ok : ReachOk provider params goal depth before round) :
    Spread (ReachOk provider params goal depth before) ReachRound.visited ReachRound.met
      (fun y => ∃ x ∈ nodes, ∃ edge ∈ neighborsOf provider params x, edge.neighborId = y) round
      (nodes.foldl (fun round nodeId =>
        (neighborsOf provider params nodeId).foldl (Query.meetNode goal) round) round) :=
  Spread.foldl _ _ _ (fun x mem _ okNow => Spread.foldl _ _ _ (fun _ listed _ okHere =>
    okHere.meetNode front away (edge x mem) (mem_map_of_mem listed)) okNow) ok

theorem reachRound_spec
    (away : goal ∉ before) :
    let round := reachRound provider params goal before ids
    (round.met = true ∧ DistanceFromStart provider params (depth + 1) goal) ∨
      (round.met = false ∧ ¬ DistanceFromStart provider params (depth + 1) goal ∧
        AtFrontier provider params (depth + 1) round.visited round.nextFrontier ∧
        goal ∉ round.visited) := by
  -- a round of `isReachable` meets the goal exactly at its distance, and otherwise goes on to
  -- the next frontier
  have start : ReachOk provider params goal depth before ⟨before, [], false⟩ := by
    constructor
    · exact fun _ mem => mem
    · exact fun x mem old => absurd mem old
    · simp
    · exact away
    · exact fun absurdity => absurd absurdity (by simp)
  obtain ⟨ok, -, closed⟩ := start.frontier front away fun x mem => (front.edge x).mp mem
  intro round
  cases met : round.met with
  | true => exact Or.inl ⟨rfl, ok.met met⟩
  | false =>
    right
    have all := (closed met).2
    have known := within_succ front.known ok.grows ok.new
      fun x y there leads => all y ⟨x, (front.edge x).mpr there, mem_map.mp leads⟩
    refine ⟨rfl, ?_, ⟨known, ?_⟩, ok.unmet⟩
    · intro distance
      exact ok.unmet ((known goal).mpr ⟨depth + 1, Nat.le_refl _, distance⟩)
    · intro x
      exact (ok.listed x).trans (front.new_iff known ok.new x)

end

theorem isReachableLoop_iff (depth) (visited ids)
    (front : AtFrontier provider params depth visited ids) (away : goal ∉ visited) :
    isReachableLoop provider params goal depth visited ids = true ↔
      MetFrom provider params goal depth := by
  induction depth, visited, ids using isReachableLoop.induct provider params goal with
  | case1 depth visited ids stop =>
    rw [isReachableLoop.eq_def, if_pos stop]
    have never : ¬ MetFrom provider params goal depth := front.not_metFrom stop
    simp [never]
  | case2 depth visited ids go round met =>
    rw [isReachableLoop.eq_def, if_neg go]
    rw [not_or, not_or] at go
    rcases reachRound_spec front away with ⟨-, distance⟩ | ⟨unmet, -⟩
    · have size := front.size_eq
      have now : MetFrom provider params goal depth :=
        ⟨depth, Nat.le_refl _, by omega, by omega, distance⟩
      exact iff_of_true (if_pos met) now
    · rw [met] at unmet
      cases unmet
  | case3 depth visited ids go round unmet ih =>
    rw [isReachableLoop.eq_def, if_neg go]
    rcases reachRound_spec front away with ⟨met, -⟩ | ⟨-, absent, next, away'⟩
    · exact absurd met unmet
    · rw [metFrom_succ absent]
      have turn := ih next away'
      rw [← turn]
      exact iff_of_eq (congrArg (· = true) (if_neg unmet))

/-! ### Shortest path -/

/-- Each visited node but the start was met from a visited node one closer. -/
def Parents (provider : NeighborProvider) (params : TraversalParams)
    (visited : OrdSet JsString) (parent : OrdMap JsString JsString) : Prop :=
  ∀ x ∈ visited, x ≠ params.start → ∃ p k, parent.get x = some p ∧ p ∈ visited ∧
    DistanceFromStart provider params k p ∧ DistanceFromStart provider params (k + 1) x ∧
    x ∈ successorIds provider params p

/-- A round of `shortestPath` in progress. -/
structure PathOk (provider : NeighborProvider) (params : TraversalParams) (goal : JsString)
    (depth : Nat) (before : OrdSet JsString) (round : PathRound) : Prop where
  grows : ∀ x, x ∈ before → x ∈ round.visited
  new : ∀ x, x ∈ round.visited → x ∉ before → DistanceFromStart provider params (depth + 1) x
  parents : Parents provider params round.visited round.parent
  listed : round.met = false → ∀ x, x ∈ round.nextFrontier.map Entry.nodeId ↔
    x ∈ round.visited ∧ x ∉ before
  depths : ∀ entry ∈ round.nextFrontier, entry.depth = depth + 1
  met : round.met = true ↔ goal ∈ round.visited

variable {round : PathRound}

theorem PathOk.meetNeighbor (front : AtFrontier provider params depth before ids)
    (level : entry.depth = depth) (there : DistanceFromStart provider params depth entry.nodeId)
    (ok : PathOk provider params goal depth before round)
    (leads : edge.neighborId ∈ successorIds provider params entry.nodeId) :
    Spread (PathOk provider params goal depth before) PathRound.visited PathRound.met
      (edge.neighborId = ·) round (meetNeighbor goal entry round edge) := by
  unfold Query.meetNeighbor
  split
  next skip =>
    refine ⟨ok, fun _ mem => mem, fun unmet => ⟨unmet, fun _ same => ?_⟩⟩
    rcases skip with met | known
    · rw [unmet] at met
      cases met
    · exact same ▸ known
  next fresh =>
    rw [not_or] at fresh
    obtain ⟨unmet, unseen⟩ := fresh
    have unmet' : round.met = false := Bool.eq_false_iff.mpr unmet
    have away : edge.neighborId ∉ before := fun old => unseen (ok.grows _ old)
    have distance := front.next_distance there leads away
    have stays : ∀ y, y ∈ round.visited → y ∈ round.visited.add edge.neighborId :=
      fun y mem => (mem_add _ _).mpr (Or.inl mem)
    refine ⟨?_, stays, fun _ => ⟨unmet', fun _ same => (mem_add _ _).mpr (Or.inr same.symm)⟩⟩
    constructor
    · exact fun y old => stays y (ok.grows y old)
    · intro y mem old
      rcases (mem_add _ _).mp mem with mem | rfl
      · exact ok.new y mem old
      · exact distance
    · intro y mem other
      show ∃ p k, (round.parent.set edge.neighborId entry.nodeId).get y = some p ∧ _
      by_cases same : y = edge.neighborId
      · -- the new node was met from the node of the frontier
        subst same
        refine ⟨entry.nodeId, depth, by simp, stays _ (ok.grows _ ?_), there, distance, leads⟩
        exact (front.known entry.nodeId).mpr ⟨depth, Nat.le_refl _, there⟩
      · have member' : y ∈ round.visited :=
          ((mem_add _ _).mp mem).resolve_right same
        obtain ⟨p, k, held, seen, rest⟩ := ok.parents y member' other
        refine ⟨p, k, ?_, stays p seen, rest⟩
        rw [OrdMap.get_set, if_neg fun again => same again.symm]
        exact held
    · intro notGoal y
      have elsewhere : edge.neighborId ≠ goal := by simpa using notGoal
      show y ∈ (if _ then _ else _ : List Entry).map Entry.nodeId ↔ _
      rw [if_neg elsewhere, map_append, mem_append, ok.listed unmet', mem_add]
      constructor
      · rintro (listed | new)
        · exact ⟨Or.inl listed.1, listed.2⟩
        · obtain rfl : y = edge.neighborId := mem_singleton.mp new
          exact ⟨Or.inr rfl, away⟩
      · rintro ⟨mem | rfl, old⟩
        · exact Or.inl ⟨mem, old⟩
        · exact Or.inr (mem_singleton_self _)
    · intro other
      show other ∈ (if _ then _ else _ : List Entry) → _
      split
      · exact ok.depths other
      · intro mem
        rcases mem_append.mp mem with old | new
        · exact ok.depths other old
        · rw [mem_singleton.mp new, ← level]
    · show decide (edge.neighborId = goal) = true ↔ goal ∈ round.visited.add edge.neighborId
      rw [decide_eq_true_eq, mem_add]
      constructor
      · exact fun same => Or.inr same.symm
      · rintro (mem | same)
        · exact absurd (ok.met.mpr mem) unmet
        · exact same.symm

/-- The neighbours of one entry of the frontier. -/
theorem PathOk.frontier (front : AtFrontier provider params depth before ids)
    (inner : (depth : Int) < params.maxDepth) (entries : List Entry)
    (edge : ∀ entry ∈ entries, entry.depth = depth ∧
      DistanceFromStart provider params depth entry.nodeId)
    (ok : PathOk provider params goal depth before round) :
    Spread (PathOk provider params goal depth before) PathRound.visited PathRound.met
      (fun y => ∃ entry ∈ entries, y ∈ successorIds provider params entry.nodeId) round
      (entries.foldl (expandEntry provider params goal) round) := by
  refine Spread.foldl _ _ _ (fun entry mem round okNow => ?_) ok
  obtain ⟨level, there⟩ := edge entry mem
  unfold expandEntry
  split
  next skip =>
    refine ⟨okNow, fun _ mem => mem, fun unmet => ?_⟩
    rcases skip with met | deep
    · rw [unmet] at met
      cases met
    · omega
  next =>
    obtain ⟨okRest, grown, first⟩ := Spread.foldl _ _ _ (fun _ listed _ okHere =>
      okHere.meetNeighbor front level there (mem_map_of_mem listed)) okNow
    exact ⟨okRest, grown, fun unmet =>
      ⟨(first unmet).1, fun y leads => (first unmet).2 y (mem_map.mp leads)⟩⟩

/-- A frontier of entries of one depth. -/
structure EntriesAt (depth : Nat) (entries : List Entry) (ids : List JsString) : Prop where
  ids : entries.map Entry.nodeId = ids
  level : ∀ entry ∈ entries, entry.depth = depth

theorem pathRound_spec (front : AtFrontier provider params depth before ids) (away : goal ∉ before)
    (inner : (depth : Int) < params.maxDepth) {parent}
    (parents : Parents provider params before parent)
    (at_depth : EntriesAt depth entries ids) :
    let round := pathRound provider params goal before parent entries
    Parents provider params round.visited round.parent ∧ ((round.met = true ∧ goal ∈ round.visited ∧
          DistanceFromStart provider params (depth + 1) goal) ∨
        (round.met = false ∧ ¬ DistanceFromStart provider params (depth + 1) goal ∧
          goal ∉ round.visited ∧
          ∃ nextIds, EntriesAt (depth + 1) round.nextFrontier nextIds ∧
            AtFrontier provider params (depth + 1) round.visited nextIds)) := by
  -- a round of `shortestPath` meets the goal exactly at its distance, and otherwise goes on to
  -- the next frontier; the records stay good
  have start : PathOk provider params goal depth before ⟨before, parent, [], false⟩ := by
    constructor
    · exact fun _ mem => mem
    · exact fun x mem old => absurd mem old
    · exact parents
    · intro _ x
      simp
    · simp
    · exact iff_of_false (by simp) away
  have edge : ∀ entry ∈ sortBy Entry.nodeId entries, entry.depth = depth ∧
      DistanceFromStart provider params depth entry.nodeId := by
    intro entry mem
    rw [mem_sortBy] at mem
    refine ⟨at_depth.level entry mem, (front.edge entry.nodeId).mp ?_⟩
    rw [← at_depth.ids]
    exact mem_map_of_mem mem
  obtain ⟨ok, -, closed⟩ := start.frontier front inner _ edge
  intro round
  refine ⟨ok.parents, ?_⟩
  cases met : round.met with
  | true => exact Or.inl ⟨rfl, ok.met.mp met, ok.new goal (ok.met.mp met) away⟩
  | false =>
    right
    have all := (closed met).2
    have known := within_succ front.known ok.grows ok.new (by
      intro x y there leads
      have mem := (front.edge x).mpr there
      rw [← at_depth.ids] at mem
      obtain ⟨entry, listed, rfl⟩ := mem_map.mp mem
      exact all y ⟨entry, (mem_sortBy _ _ _).mpr listed, leads⟩)
    have unmet : goal ∉ round.visited := by
      intro mem
      rw [show round.met = true from ok.met.mpr mem] at met
      cases met
    refine ⟨rfl, ?_, unmet, _, ⟨rfl, ok.depths⟩, ⟨known, ?_⟩⟩
    · intro distance
      exact unmet ((known goal).mpr ⟨depth + 1, Nat.le_refl _, distance⟩)
    · intro x
      exact (ok.listed met x).trans (front.new_iff known ok.new x)

/-- The records lead back along a shortest path. -/
theorem Parents.reconstruct {parent} (parents : Parents provider params visited parent)
    (seen : goal ∈ visited) (distance : DistanceFromStart provider params d goal) :
    PathFromStart provider params (reconstructPath parent params.start goal) goal ∧
      (reconstructPath parent params.start goal).length = d + 1 := by
  obtain ⟨path, traced, short, known⟩ := exists_traced
    (fun n x => x ∈ visited ∧ DistanceFromStart provider params n x)
    (fun n m x first second => first.2.unique second.2)
    (by
      rintro n x ⟨member, there⟩ other
      obtain ⟨p, k, held, seen', closer, further, -⟩ := parents x member other
      have same := further.unique there
      exact ⟨p, held, k, by omega, seen', closer⟩) goal ⟨seen, distance⟩
  have simple : PathFromStart provider params path goal := by
    apply traced.simplePath
    intro y p held on other
    obtain ⟨m, -, member, -⟩ := known y on
    obtain ⟨p', k, held', -, -, -, leads⟩ := parents y member other
    rw [held] at held'
    obtain rfl : p = p' := Option.some.inj held'
    exact leads
  rw [reconstructPath_traced traced]
  refine ⟨simple, ?_⟩
  -- the path is a walk, so it has at least as many steps as the distance
  obtain ⟨n, length, walk⟩ := simple.walk
  have least : d ≤ n := by
    by_contra shorter
    exact distance.2 n (by omega) walk
  omega

/-- What a report of `shortestPath` says. -/
structure ReportOk (provider : NeighborProvider) (params : TraversalParams) (goal : JsString)
    (report : PathReport) : Prop where
  path : report.found = true → PathFromStart provider params report.path goal
  length : report.found = true → report.length + 1 = report.path.length
  minimal : report.found = true → ∀ n : Nat,
    Walk (Succeeds (successorIds provider params)) params.start n goal → report.length ≤ n

theorem ReportOk.of_distance {path d} (simple : PathFromStart provider params path goal)
    (length : path.length = d + 1) (distance : DistanceFromStart provider params d goal) :
    ReportOk provider params goal ⟨true, path, path.length - 1⟩ := by
  constructor
  · exact fun _ => simple
  · intro _
    show (path.length : Int) - 1 + 1 = path.length
    omega
  · intro _ n walk
    show (path.length : Int) - 1 ≤ n
    have least : d ≤ n := by
      by_contra shorter
      exact distance.2 n (by omega) walk
    omega

theorem ReportOk.not_found : ReportOk provider params goal ⟨false, [], -1⟩ :=
  ⟨fun absurdity => by simp at absurdity, fun absurdity => by simp at absurdity,
    fun absurdity => by simp at absurdity⟩

theorem pathRound_of_deep {parent} (level : ∀ entry ∈ entries, entry.depth = depth)
    (deep : params.maxDepth ≤ depth) :
    pathRound provider params goal visited parent entries = ⟨visited, parent, [], false⟩ := by
  unfold pathRound
  have level' : ∀ entry ∈ sortBy Entry.nodeId entries, entry.depth = depth :=
    fun entry mem => level entry ((mem_sortBy _ _ _).mp mem)
  generalize sortBy Entry.nodeId entries = sorted at level'
  induction sorted with
  | nil => rfl
  | cons entry sorted ih =>
    rw [foldl_cons]
    have skip : expandEntry provider params goal ⟨visited, parent, [], false⟩ entry =
        ⟨visited, parent, [], false⟩ := by
      unfold expandEntry
      rw [if_pos]
      exact Or.inr (by rw [level' entry mem_cons_self]; exact deep)
    rw [skip]
    exact ih fun other mem => level' other (mem_cons_of_mem _ mem)

theorem shortestPathLoop_spec (depth) (visited) {parent} (entries ids)
    (at_depth : EntriesAt depth entries ids) (front : AtFrontier provider params depth visited ids)
    (away : goal ∉ visited) (parents : Parents provider params visited parent) :
    ((shortestPathLoop provider params goal visited parent entries).found = true ↔
        MetFrom provider params goal depth) ∧
      ReportOk provider params goal
        (shortestPathLoop provider params goal visited parent entries) := by
  induction visited, parent, entries using shortestPathLoop.induct provider params goal
    generalizing depth ids with
  | case1 visited parent entries stop =>
    rw [shortestPathLoop.eq_def, if_pos stop]
    have never : ¬ MetFrom provider params goal depth := by
      apply front.not_metFrom
      rcases stop with nothing | full
      · left
        rw [← at_depth.ids, nothing]
        rfl
      · exact Or.inr (Or.inr full)
    exact ⟨iff_of_false (by simp) never, .not_found⟩
  | case2 visited parent entries go round met =>
    rw [shortestPathLoop.eq_def, if_neg go]
    simp only []
    rw [if_pos met]
    rw [not_or] at go
    have inner : (depth : Int) < params.maxDepth := by
      by_contra deep
      have nothing : pathRound provider params goal visited parent entries = _ :=
        pathRound_of_deep at_depth.level (by omega)
      rw [show round = _ from nothing] at met
      cases met
    obtain ⟨parents', ⟨-, seen, distance⟩ | ⟨unmet, -⟩⟩ :=
      pathRound_spec front away inner parents at_depth
    · obtain ⟨simple, length⟩ := parents'.reconstruct seen distance
      have size := front.size_eq
      have now : MetFrom provider params goal depth :=
        ⟨depth, Nat.le_refl _, inner, by omega, distance⟩
      exact ⟨iff_of_true rfl now, .of_distance simple length distance⟩
    · rw [show round.met = true from met] at unmet
      cases unmet
  | case3 visited parent entries go round unmet ih =>
    rw [shortestPathLoop.eq_def, if_neg go]
    simp only []
    rw [if_neg unmet]
    by_cases inner : (depth : Int) < params.maxDepth
    · obtain ⟨parents', ⟨met, -⟩ | ⟨-, absent, away', nextIds, at_next, next⟩⟩ :=
        pathRound_spec front away inner parents at_depth
      · exact absurd met unmet
      · rw [metFrom_succ absent]
        exact ih (depth + 1) nextIds at_next next away' parents'
    · -- at the depth limit the next frontier is empty and the loop ends
      have nothing : pathRound provider params goal visited parent entries = _ :=
        pathRound_of_deep at_depth.level (by omega)
      have never : ¬ MetFrom provider params goal depth :=
        front.not_metFrom (Or.inr (Or.inl (by omega)))
      rw [show pathRound provider params goal visited parent entries = _ from nothing,
        shortestPathLoop.eq_def, if_pos (Or.inl rfl)]
      exact ⟨iff_of_false (by simp) never, .not_found⟩

theorem shortestPath_spec (reported : shortestPath provider params goal = .ok report) :
    (report.found = true ↔ isReachable provider params goal = true) ∧
      ReportOk provider params goal report := by
  -- `shortestPath` reports the goal under the condition under which `isReachable` does
  unfold shortestPath at reported
  obtain ⟨⟨⟩, -, reported⟩ := bind_eq_ok.mp reported
  split at reported
  next same =>
    cases reported
    subst same
    have zero : DistanceFromStart provider params 0 params.start :=
      atDistance_zero.mpr rfl
    refine ⟨?_, .of_distance .here rfl zero⟩
    unfold isReachable
    exact iff_of_true rfl (if_pos rfl)
  next differ =>
    cases reported
    have front : AtFrontier provider params 0 (.ofList [params.start]) [params.start] := by
      constructor
      · intro x
        rw [mem_ofList, mem_singleton]
        constructor
        · intro first
          exact ⟨0, Nat.le_refl 0, atDistance_zero.mpr first⟩
        · rintro ⟨k, near, distance⟩
          obtain rfl : k = 0 := by omega
          exact atDistance_zero.mp distance
      · intro x
        rw [mem_singleton]
        exact atDistance_zero.symm
    have away : goal ∉ OrdSet.ofList [params.start] := by
      rw [mem_ofList, mem_singleton]
      exact fun same => differ same.symm
    have parents : Parents provider params (.ofList [params.start]) .empty := by
      intro x mem other
      rw [mem_ofList, mem_singleton] at mem
      exact absurd mem other
    have at_depth : EntriesAt 0 [⟨params.start, 0⟩] [params.start] :=
      ⟨rfl, fun entry mem => by rw [mem_singleton.mp mem]⟩
    obtain ⟨found, ok⟩ := shortestPathLoop_spec 0 _ _ _ at_depth front away parents
    refine ⟨?_, ok⟩
    rw [found]
    unfold isReachable
    rw [if_neg differ, isReachableLoop_iff 0 _ _ front away]

/-! ### The traversals together -/

/-- Breadth first, the nodes within the depth limit are listed by distance and id, and the list
is cut at the node limit. -/
def BfsExact (provider : NeighborProvider) (params : TraversalParams) : Prop :=
  ∃ all : List JsString, (∀ x, x ∈ all ↔ ∃ k : Nat, (k : Int) ≤ params.maxDepth ∧
      DistanceFromStart provider params k x) ∧
    all.Pairwise (Before (Succeeds (successorIds provider params)) params.start) ∧ all.Nodup ∧
    bfs provider params = (do
      validateStart provider params.start
      pure (all.take params.maxNodes))

/-- Depth first, the same nodes are visited, each once, unless the node limit is reached. -/
def DfsExact (provider : NeighborProvider) (params : TraversalParams) : Prop :=
  ∀ nodes, dfs provider params = .ok nodes → nodes.length < params.maxNodes →
    nodes.Nodup ∧ ∃ breadth, bfs provider params = .ok breadth ∧ ∀ x, x ∈ nodes ↔ x ∈ breadth

/-- A path is reported exactly for a goal that is reachable, and it is a shortest one. -/
def PathExact (provider : NeighborProvider) (params : TraversalParams) (goal : JsString) : Prop :=
  ∀ report, shortestPath provider params goal = .ok report →
    (report.found = true ↔ isReachable provider params goal = true) ∧
      ReportOk provider params goal report

/-- The unweighted traversals are exact. -/
structure UnweightedExact (provider : NeighborProvider) (params : TraversalParams)
    (goal : JsString) : Prop where
  breadth : BfsExact provider params
  depth : DfsExact provider params
  path : PathExact provider params goal

theorem bfsExact : BfsExact provider params := by
  refine ⟨nodesWithin provider params, ?_, pairwise_seen _ _, nodup_seen _ _, bfs_eq⟩
  intro x
  rw [show x ∈ nodesWithin provider params ↔ _ from (mem_layers _ _).1 x]
  constructor
  · rintro ⟨k, less, distance⟩
    exact ⟨k, by omega, distance⟩
  · rintro ⟨k, near, distance⟩
    exact ⟨k, by omega, distance⟩

theorem dfsExact_of_detourFree (free : DetourFree provider params) : DfsExact provider params := by
  -- without detours a depth-first traversal visits what a breadth-first one does
  intro nodes run unreached
  unfold dfs at run
  obtain ⟨⟨⟩, valid, result⟩ := bind_eq_ok.mp run
  obtain rfl : (dfsVisited provider params).toList = nodes := by cases result; rfl
  refine ⟨OrdSet.nodup _, (nodesWithin provider params).take params.maxNodes, ?_, ?_⟩
  · rw [bfs_eq, valid]
    rfl
  · have same : ∀ x, x ∈ dfsVisited provider params ↔ x ∈ nodesWithin provider params := by
      intro x
      constructor
      · exact dfsVisited_within x
      · intro mem
        obtain ⟨k, less, distance⟩ := ((mem_layers _ _).1 x).mp mem
        obtain ⟨n, walk⟩ := free k x (by omega) distance
        exact dfsVisited_open unreached (by omega) n x walk
    -- both lists are without repetition, so the node limit is not reached by either
    have perm : (dfsVisited provider params).toList.Perm (nodesWithin provider params) :=
      (perm_ext_iff_of_nodup (OrdSet.nodup _) (nodup_seen _ _)).mpr same
    intro x
    rw [take_of_length_le (by rw [← perm.length_eq]; omega)]
    exact same x

theorem detourFree_of_bound (nodes : List JsString)
    (all : ∀ n x, Walk (Succeeds (successorIds provider params)) params.start n x → x ∈ nodes)
    (few : (nodes.length : Int) ≤ params.maxDepth) : DetourFree provider params := by
  -- where the depth limit is no less than the number of nodes in reach there are no detours
  have short : ∀ path x, PathFromStart provider params path x → ¬ Exhausts params path := by
    intro path x simple exhausts
    obtain ⟨distinct, inside⟩ : path.Nodup ∧ path ⊆ nodes := by
      clear exhausts
      induction simple with
      | here => exact ⟨nodup_singleton _, by simp [all 0 _ .here]⟩
      | step first last fresh ih =>
        obtain ⟨n, -, walk⟩ := first.walk
        refine ⟨nodup_append.mpr ⟨ih.1, nodup_singleton _, ?_⟩, ?_⟩
        · intro z mem w only same
          rw [mem_singleton] at only
          exact fresh (only ▸ same ▸ mem)
        · apply append_subset.mpr
          exact ⟨ih.2, by simp [all (n + 1) _ (.step walk last)]⟩
    have fewer := (subperm_of_subset distinct inside).length_le
    unfold Exhausts at exhausts
    omega
  rintro k x - ⟨walk, -⟩
  refine ⟨k, ?_⟩
  induction walk with
  | here => exact .here
  | step _ last ih =>
    exact .step ih ⟨last, fun path simple exhausts => absurd exhausts (short path _ simple)⟩

/-- A graph with a short way and a detour: `a` leads to `b` and `c`, `b` to `c`, and `c` to
`d`. -/
def detourGraph : NeighborProvider where
  hasNode nodeId := decide (nodeId ∈ [lit "a", lit "b", lit "c", lit "d"])
  getNeighbors nodeId _ _ :=
    if nodeId = lit "a" then [⟨lit "b", lit "x"⟩, ⟨lit "c", lit "x"⟩]
    else if nodeId = lit "b" then [⟨lit "c", lit "x"⟩]
    else if nodeId = lit "c" then [⟨lit "d", lit "x"⟩]
    else []

def detourParams (maxDepth : Int) : TraversalParams :=
  ⟨lit "a", .out, none, 100, maxDepth⟩

end Query
end GitWarp
