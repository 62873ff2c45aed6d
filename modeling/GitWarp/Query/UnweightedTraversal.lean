import GitWarp.Query.GraphTraversal

/-!
# What the traversals visit

Breadth-first traversal lists the nodes by distance and then by id, up to the limits.
Depth-first traversal visits each node once and none beyond the depth limit; it misses
nodes only where it meets a node on a detour that uses up the depth.
-/
namespace GitWarp

open Js Lib List

namespace Query

open IndexTree (NeighborEdge Direction)

variable (provider : NeighborProvider) (params : TraversalParams)

/-- The ids of the neighbours of a node. -/
def successorIds (nodeId : JsString) : List JsString :=
  (neighborsOf provider params nodeId).map NeighborEdge.neighborId

/-- The distance of a node from the start. -/
abbrev DistanceFromStart (d : Nat) (x : JsString) : Prop :=
  AtDistance (Succeeds (successorIds provider params)) params.start d x

/-! ### One level of the breadth-first traversal -/

structure LevelOk (depth : Nat) (level : BfsLevel) : Prop where
  entries : level.nextLevel = level.queued.toList.map fun x => ⟨x, depth + 1⟩

theorem LevelOk.queueNeighbor (ok : LevelOk depth level) (edge) :
    LevelOk depth (queueNeighbor depth level edge) := by
  unfold Query.queueNeighbor
  split
  · exact ok
  next fresh =>
    rw [not_or] at fresh
    constructor
    simp only [ok.entries, OrdSet.toList_add _ _ fresh.2, map_append, map_cons, map_nil]

theorem foldl_queueNeighbor {edges : List NeighborEdge} (level) (ok : LevelOk depth level) :
    LevelOk depth (edges.foldl (queueNeighbor depth) level) ∧
      ∀ y, y ∈ (edges.foldl (queueNeighbor depth) level).queued ↔
        y ∈ level.queued ∨ y ∉ level.visited ∧ y ∈ edges.map NeighborEdge.neighborId := by
  -- queued are the old nodes and the new neighbours that are not visited
  induction edges generalizing level with
  | nil => simp [ok]
  | cons edge edges ih =>
    obtain ⟨okRest, queued⟩ := ih (queueNeighbor depth level edge) (ok.queueNeighbor edge)
    refine ⟨okRest, fun y => ?_⟩
    rw [foldl_cons, queued]
    unfold queueNeighbor
    split
    next known =>
      constructor
      · rintro (old | ⟨fresh, mem⟩)
        · exact Or.inl old
        · exact Or.inr ⟨fresh, mem_cons_of_mem _ mem⟩
      · rintro (old | ⟨fresh, mem⟩)
        · exact Or.inl old
        · rw [map_cons, mem_cons] at mem
          rcases mem with rfl | later
          · exact Or.inl (known.resolve_left fresh)
          · exact Or.inr ⟨fresh, later⟩
    next fresh =>
      rw [not_or] at fresh
      simp only [OrdSet.mem_add, map_cons, mem_cons]
      constructor
      · rintro ((old | rfl) | ⟨away, mem⟩)
        · exact Or.inl old
        · exact Or.inr ⟨fresh.1, Or.inl rfl⟩
        · exact Or.inr ⟨away, Or.inr mem⟩
      · rintro (old | ⟨away, rfl | mem⟩)
        · exact Or.inl (Or.inl old)
        · exact Or.inl (Or.inr rfl)
        · exact Or.inr ⟨away, mem⟩

/-- The ids of a level's entries, and their common depth. -/
def levelOf (depth : Nat) (ids : List JsString) : List Entry := ids.map fun x => ⟨x, depth⟩

theorem visitEntries_visited {depth : Nat} (near : (depth : Int) ≤ params.maxDepth) (ids)
    (distinct : ids.Nodup) (level) :
    ((levelOf depth ids).foldl (visitEntry provider params) level).visited.toList =
      level.visited.toList ++ (ids.filter fun x => decide (x ∉ level.visited)).take
        (params.maxNodes - level.visited.size) := by
  -- the visited nodes of a level: its fresh ids in order, as long as there is room
  induction ids generalizing level with
  | nil => simp [levelOf]
  | cons id ids ih =>
    have rest := ih (nodup_cons.mp distinct).2
    have absent := (nodup_cons.mp distinct).1
    show ((levelOf depth ids).foldl (visitEntry provider params)
      (visitEntry provider params level ⟨id, depth⟩)).visited.toList = _
    rw [rest]
    by_cases full : params.maxNodes ≤ level.visited.size
    · -- no room: the entry changes nothing, and both sides take no node
      have same : visitEntry provider params level ⟨id, depth⟩ = level := by
        exact if_pos (Or.inl full)
      rw [same, Nat.sub_eq_zero_of_le full, take_zero, take_zero]
    · by_cases old : id ∈ level.visited
      · have same : visitEntry provider params level ⟨id, depth⟩ = level := by
          exact if_pos (Or.inr (Or.inl old))
        rw [same, filter_cons_of_neg (by simpa using old)]
      · rcases visitEntry_cases provider params with same | ⟨visited, -⟩
        · -- the entry is fresh, in reach and there is room, so it is visited
          exfalso
          have grown : (visitEntry provider params level ⟨id, depth⟩).visited =
              level.visited.add id := by
            unfold visitEntry
            have shallow : ¬ params.maxDepth < (depth : Int) := by omega
            rw [if_neg (by
              rintro (room | known | deep)
              · exact full room
              · exact old known
              · exact shallow deep)]
            split
            · rw [foldl_queueNeighbor_visited]
            · rfl
          rw [same] at grown
          exact old (by rw [grown]; simp)
        · rw [visited, OrdSet.toList_add _ _ old, OrdSet.size_add _ _ old,
            filter_cons_of_pos (by simpa using old)]
          have later : (ids.filter fun x => decide (x ∉ level.visited.add id)) =
              ids.filter fun x => decide (x ∉ level.visited) := by
            apply filter_congr
            intro x mem
            have differ : x ≠ id := fun same => absent (same ▸ mem)
            simp [differ]
          obtain ⟨room, left⟩ : ∃ room, params.maxNodes - level.visited.size = room + 1 :=
            ⟨params.maxNodes - level.visited.size - 1, by omega⟩
          have less : params.maxNodes - (level.visited.size + 1) = room := by omega
          rw [later, left, less, take_succ_cons, append_assoc]
          rfl

theorem visitEntries_queued {depth : Nat} (inner : (depth : Int) < params.maxDepth) (level)
    (ok : LevelOk depth level) :
    LevelOk depth ((levelOf depth ids).foldl (visitEntry provider params) level) ∧
      (∀ x, x ∈ level.visited →
        x ∈ ((levelOf depth ids).foldl (visitEntry provider params) level).visited) ∧
      (∀ y, y ∈ ((levelOf depth ids).foldl (visitEntry provider params) level).queued →
        y ∈ level.queued ∨ ∃ x, x ∉ level.visited ∧
          x ∈ ((levelOf depth ids).foldl (visitEntry provider params) level).visited ∧
          y ∈ successorIds provider params x) ∧
      ∀ y, (y ∈ level.queued ∨ ∃ x, x ∉ level.visited ∧
          x ∈ ((levelOf depth ids).foldl (visitEntry provider params) level).visited ∧
          y ∈ successorIds provider params x) →
        y ∈ ((levelOf depth ids).foldl (visitEntry provider params) level).queued ∨
          y ∈ ((levelOf depth ids).foldl (visitEntry provider params) level).visited := by
  -- what visiting a level queues: neighbours of newly visited nodes, and all of them that are
  -- not visited themselves
  induction ids generalizing level with
  | nil =>
    refine ⟨ok, fun x member => member, fun y queued => Or.inl queued, ?_⟩
    rintro y (queued | ⟨x, fresh, visited, -⟩)
    · exact Or.inl queued
    · exact absurd visited fresh
  | cons id ids ih =>
    show LevelOk depth ((levelOf depth ids).foldl (visitEntry provider params)
      (visitEntry provider params level ⟨id, depth⟩)) ∧ _
    rw [show (levelOf depth (id :: ids)).foldl (visitEntry provider params) level =
      (levelOf depth ids).foldl (visitEntry provider params)
        (visitEntry provider params level ⟨id, depth⟩) from rfl]
    generalize visited : visitEntry provider params level ⟨id, depth⟩ = after
    by_cases skip : params.maxNodes ≤ level.visited.size ∨ id ∈ level.visited ∨
        params.maxDepth < (depth : Int)
    · have same : after = level := by
        rw [← visited]
        exact if_pos skip
      rw [same]
      exact ih level ok
    · have unseen : id ∉ level.visited := fun known => skip (Or.inr (Or.inl known))
      have step : after = (neighborsOf provider params id).foldl (queueNeighbor depth)
          { level with visited := level.visited.add id } := by
        rw [← visited]
        unfold visitEntry
        rw [if_neg skip]
        exact if_pos inner
      have okNow : LevelOk depth { level with visited := level.visited.add id } := ⟨ok.entries⟩
      obtain ⟨okAfter, queuedAfter⟩ := foldl_queueNeighbor _ okNow
      rw [← step] at okAfter queuedAfter
      have visitedAfter : after.visited = level.visited.add id := by
        rw [step, foldl_queueNeighbor_visited]
      obtain ⟨okRest, grown, sound, complete⟩ := ih after okAfter
      refine ⟨okRest, ?_, ?_, ?_⟩
      · intro x member
        apply grown
        rw [visitedAfter]
        exact (OrdSet.mem_add _ _).mpr (Or.inl member)
      · intro y queued
        rcases sound y queued with now | ⟨x, fresh, member, leads⟩
        · rcases (queuedAfter y).mp now with old | ⟨-, leads⟩
          · exact Or.inl old
          · refine Or.inr ⟨id, unseen, grown id ?_, leads⟩
            rw [visitedAfter]
            exact (OrdSet.mem_add _ _).mpr (Or.inr rfl)
        · refine Or.inr ⟨x, fun known => fresh ?_, member, leads⟩
          rw [visitedAfter]
          exact (OrdSet.mem_add _ _).mpr (Or.inl known)
      · rintro y (old | ⟨x, fresh, member, leads⟩)
        · exact complete y (Or.inl ((queuedAfter y).mpr (Or.inl old)))
        · by_cases first : x = id
          · -- the neighbours of this node are queued now, unless they are visited already
            by_cases known : y ∈ after.visited
            · exact Or.inr (grown y known)
            · apply complete y
              rw [visitedAfter] at known
              exact Or.inl ((queuedAfter y).mpr (Or.inr ⟨known, first ▸ leads⟩))
          · apply complete y
            refine Or.inr ⟨x, ?_, member, leads⟩
            rw [visitedAfter, OrdSet.mem_add]
            rintro (known | same)
            · exact fresh known
            · exact first same

/-! ### Breadth-first traversal level by level -/

/-- The nodes of the layers below a depth. -/
abbrev nodesBelow (depth : Nat) : List JsString :=
  (layers (successorIds provider params) params.start depth).1

abbrev layerAt (depth : Nat) : List JsString :=
  (layers (successorIds provider params) params.start depth).2

/-- The state at the head of the loop as long as no limit has cut a level short: visited are the
layers below, and the level lists the next layer, together with nodes visited before. -/
structure Wavefront (depth : Nat) (visited : OrdSet JsString) (ids : List JsString) : Prop where
  inner : (depth : Int) ≤ params.maxDepth + 1
  seen : visited.toList = nodesBelow provider params depth
  distinct : ids.Nodup
  sound : ∀ x ∈ ids, DistanceFromStart provider params depth x ∨ x ∈ visited
  complete : (depth : Int) ≤ params.maxDepth →
    ∀ x, DistanceFromStart provider params depth x → x ∈ ids
  last : params.maxDepth < (depth : Int) → ids = []

variable {provider params}

theorem Wavefront.mem_visited (front : Wavefront provider params depth visited ids) :
    x ∈ visited ↔ ∃ k < depth, DistanceFromStart provider params k x := by
  rw [← OrdSet.mem_toList, front.seen]
  exact (mem_layers _ _).1 x

theorem Wavefront.fresh_eq (front : Wavefront provider params depth visited ids)
    (near : (depth : Int) ≤ params.maxDepth) :
    ((sortBy id ids).filter fun x => decide (x ∉ visited)) = layerAt provider params depth := by
  -- the fresh nodes of the sorted level are the next layer
  have sameMembers : ∀ x, x ∈ ((sortBy id ids).filter fun x => decide (x ∉ visited)) ↔
      x ∈ layerAt provider params depth := by
    intro x
    rw [mem_filter, mem_sortBy, decide_eq_true_eq, (mem_layers _ _).2]
    constructor
    · rintro ⟨listed, fresh⟩
      exact (front.sound x listed).resolve_right fresh
    · intro distance
      refine ⟨front.complete near x distance, fun known => ?_⟩
      obtain ⟨k, less, closer⟩ := front.mem_visited.mp known
      have same := closer.unique distance
      omega
  have distinct : (sortBy id ids).Nodup := (perm_sortBy id ids).nodup_iff.mpr front.distinct
  -- both lists are strictly in order, so their members fix them
  have sorted : ((sortBy id ids).filter fun x => decide (x ∉ visited)).Pairwise (· < ·) := by
    apply List.Pairwise.filter
    exact ((pairwise_sortBy id ids).and distinct).imp fun both => lt_of_le_of_ne both.1 both.2
  have layer := pairwise_layer (successorIds provider params) params.start depth
  have perm : ((sortBy id ids).filter fun x => decide (x ∉ visited)).Perm
      (layerAt provider params depth) :=
    (perm_ext_iff_of_nodup (distinct.filter _) (layer.imp ne_of_lt)).mpr sameMembers
  apply perm.eq_of_pairwise ?_ sorted layer
  intro x y _ _ less more
  exact absurd (less.trans more) (lt_irrefl x)

theorem sortBy_levelOf (depth) (ids) :
    sortBy Entry.nodeId (levelOf depth ids) = levelOf depth (sortBy id ids) := by
  exact (map_insertionSort (fun a b : JsString => a ≤ b)
    (fun a b : Entry => a.nodeId ≤ b.nodeId) (fun x => (⟨x, depth⟩ : Entry)) ids
    fun _ _ _ _ => Iff.rfl).symm

section

variable (front : Wavefront provider params depth visited ids)
  (near : (depth : Int) ≤ params.maxDepth)
include front near

theorem Wavefront.visitLevel_visited (room : visited.size ≤ params.maxNodes) :
    (visitLevel provider params visited (levelOf depth ids)).visited.toList =
      (nodesBelow provider params (depth + 1)).take params.maxNodes := by
  unfold visitLevel
  rw [sortBy_levelOf, visitEntries_visited provider params near _
    ((perm_sortBy id ids).nodup_iff.mpr front.distinct)]
  show visited.toList ++ _ = (nodesBelow provider params depth ++
    layerAt provider params depth).take params.maxNodes
  rw [front.fresh_eq near, front.seen, take_append]
  have size : visited.size = (nodesBelow provider params depth).length := by
    rw [← front.seen]
    rfl
  show _ ++ (layerAt provider params depth).take (params.maxNodes - visited.size) = _
  rw [size] at room ⊢
  rw [take_of_length_le room]

theorem Wavefront.visitLevel_front
    (room : (nodesBelow provider params (depth + 1)).length ≤ params.maxNodes) :
    ∃ nextIds, (visitLevel provider params visited (levelOf depth ids)).nextLevel =
        levelOf (depth + 1) nextIds ∧
      Wavefront provider params (depth + 1)
        (visitLevel provider params visited (levelOf depth ids)).visited nextIds := by
  -- a level that fits leads to the next wavefront
  have size : visited.size = (nodesBelow provider params depth).length := by
    rw [← front.seen]
    rfl
  have shorter : (nodesBelow provider params depth).length ≤
      (nodesBelow provider params (depth + 1)).length :=
    (seen_start _ _ depth (depth + 1) (Nat.le_succ depth)).length_le
  have visitedAfter := front.visitLevel_visited near (by omega)
  rw [take_of_length_le room] at visitedAfter
  by_cases inner : (depth : Int) < params.maxDepth
  · obtain ⟨ok, -, sound, complete⟩ := visitEntries_queued provider params inner ⟨visited, [], .empty⟩ ⟨rfl⟩
    have mem_after : ∀ x, x ∈ (visitLevel provider params visited (levelOf depth ids)).visited ↔
        ∃ k < depth + 1, DistanceFromStart provider params k x := by
      intro x
      rw [← OrdSet.mem_toList, visitedAfter]
      exact (mem_layers _ _).1 x
    have level : (levelOf depth (sortBy id ids)).foldl (visitEntry provider params)
        ⟨visited, [], .empty⟩ = visitLevel provider params visited (levelOf depth ids) := by
      unfold visitLevel
      rw [sortBy_levelOf]
    rw [level] at ok sound complete
    refine ⟨(visitLevel provider params visited (levelOf depth ids)).queued.toList, ok.entries,
      ⟨by omega, visitedAfter, OrdSet.nodup _, ?_, ?_, by omega⟩⟩
    · intro y queued
      rcases sound y queued with old | ⟨x, fresh, member, leads⟩
      · exact absurd old (OrdSet.not_mem_empty y)
      · -- a newly visited node is at this depth, so its neighbours are at most one further
        obtain ⟨k, less, distance⟩ := (mem_after x).mp member
        obtain ⟨k', near', distance'⟩ := distance.next_le leads
        by_cases same : k' = depth + 1
        · exact Or.inl (same ▸ distance')
        · exact Or.inr ((mem_after y).mpr ⟨k', by omega, distance'⟩)
    · intro _ y distance
      obtain ⟨⟨x, closer, leads⟩, -⟩ := atDistance_succ.mp distance
      have fresh : x ∉ visited := by
        intro known
        obtain ⟨k, less, distance'⟩ := front.mem_visited.mp known
        have same := distance'.unique closer
        omega
      have reached := complete y (Or.inr ⟨x, fresh,
        (mem_after x).mpr ⟨depth, Nat.lt_succ_self depth, closer⟩, leads⟩)
      rcases reached with queued | known
      · exact queued
      · exfalso
        obtain ⟨k, less, distance'⟩ := (mem_after y).mp known
        have same := distance'.unique distance
        omega
  · -- at the depth limit nothing is queued
    have empty : ∀ (entries : List JsString) (level : BfsLevel), level.nextLevel = [] →
        ((levelOf depth entries).foldl (visitEntry provider params) level).nextLevel = [] := by
      intro entries
      induction entries with
      | nil => exact fun level none => none
      | cons id entries ih =>
        intro level none
        apply ih
        unfold visitEntry
        split
        · exact none
        · exact none
    refine ⟨[], ?_, ⟨by omega, visitedAfter, nodup_nil, by simp, by omega, fun _ => rfl⟩⟩
    unfold visitLevel
    rw [sortBy_levelOf]
    exact empty _ _ rfl

end

theorem nodesBelow_of_empty (empty : ∀ x, ¬ DistanceFromStart provider params depth x) (later)
    (more : depth ≤ later) :
    nodesBelow provider params later = nodesBelow provider params depth := by
  induction later with
  | zero =>
    obtain rfl : depth = 0 := by omega
    rfl
  | succ later ih =>
    by_cases same : depth = later + 1
    · rw [same]
    · have layer : layerAt provider params later = [] := by
        apply eq_nil_iff_forall_not_mem.mpr
        intro x mem
        exact not_atDistance_of_empty empty (by omega) x (((mem_layers _ _).2 x).mp mem)
      show nodesBelow provider params later ++ layerAt provider params later = _
      rw [layer, append_nil]
      exact ih (by omega)

variable (provider params)

/-- The nodes within the depth limit, by distance and then by id. -/
def nodesWithin : List JsString := nodesBelow provider params (params.maxDepth + 1).toNat

variable {provider params}

theorem take_nodesWithin {depth : Nat} (inner : (depth : Int) ≤ params.maxDepth + 1)
    (full : params.maxNodes ≤ (nodesBelow provider params depth).length) :
    (nodesBelow provider params depth).take params.maxNodes =
      (nodesWithin provider params).take params.maxNodes := by
  obtain ⟨more, whole⟩ := seen_start (successorIds provider params) params.start depth
    (params.maxDepth + 1).toNat (by omega)
  unfold nodesWithin nodesBelow
  rw [← whole, take_append_of_le_length full]

theorem bfsLoop_spec (level) (depth) (ids) (entries : level = levelOf depth ids)
    (front : Wavefront provider params depth visited ids) (room : visited.size ≤ params.maxNodes) :
    (bfsLoop provider params visited level).toList =
      (nodesWithin provider params).take params.maxNodes := by
  -- from a wavefront the loop visits the nodes within the depth limit, as far as there is room
  have size : visited.size = (nodesBelow provider params depth).length := by
    rw [← front.seen]
    rfl
  induction visited, level using bfsLoop.induct provider params generalizing depth ids with
  | case1 visited level done =>
    rw [bfsLoop.eq_def, if_pos done, front.seen]
    rcases done with nothing | full
    · -- an empty level: either the depth limit is passed or there is no further layer
      have noIds : ids = [] := by
        rw [entries] at nothing
        exact map_eq_nil_iff.mp nothing
      have whole : nodesWithin provider params = nodesBelow provider params depth := by
        by_cases near : (depth : Int) ≤ params.maxDepth
        · apply nodesBelow_of_empty
          · intro x distance
            have mem := front.complete near x distance
            rw [noIds] at mem
            exact not_mem_nil mem
          · omega
        · have limit : (params.maxDepth + 1).toNat = depth := by
            have inner := front.inner
            omega
          unfold nodesWithin
          rw [limit]
      rw [whole, take_of_length_le (by omega)]
    · rw [← take_nodesWithin front.inner (by omega), take_of_length_le (by omega)]
  | case2 visited level active now ih =>
    rw [bfsLoop.eq_def, if_neg active]
    rw [not_or] at active
    subst entries
    have near : (depth : Int) ≤ params.maxDepth := by
      by_contra beyond
      apply active.1
      rw [front.last (by omega)]
      rfl
    have visitedAfter := front.visitLevel_visited near room
    by_cases fits : (nodesBelow provider params (depth + 1)).length ≤ params.maxNodes
    · obtain ⟨nextIds, entries, next⟩ := front.visitLevel_front near fits
      have sizeAfter : now.visited.size = (nodesBelow provider params (depth + 1)).length := by
        show now.visited.toList.length = _
        rw [visitedAfter, take_of_length_le fits]
      exact ih (depth + 1) nextIds entries next (by omega) sizeAfter
    · -- the level was cut short, and the loop ends at its next test
      have sizeAfter : now.visited.size = params.maxNodes := by
        show now.visited.toList.length = _
        rw [visitedAfter, length_take]
        omega
      have stop : params.maxNodes ≤ now.visited.size := by omega
      show (bfsLoop provider params now.visited now.nextLevel).toList = _
      rw [bfsLoop.eq_def, if_pos (Or.inr stop), visitedAfter]
      exact take_nodesWithin (by omega) (by omega)

theorem bfsLoop_negative (beyond : params.maxDepth < 0) :
    bfsLoop provider params .empty [⟨params.start, 0⟩] = .empty := by
  have nothing : visitLevel provider params .empty [⟨params.start, 0⟩] = ⟨.empty, [], .empty⟩ := by
    show visitEntry provider params ⟨.empty, [], .empty⟩ ⟨params.start, 0⟩ = _
    exact if_pos (Or.inr (Or.inr beyond))
  rw [bfsLoop.eq_def]
  split
  · rfl
  · rw [nothing, bfsLoop.eq_def, if_pos (Or.inl rfl)]

theorem bfs_eq : bfs provider params = (do
    validateStart provider params.start
    pure ((nodesWithin provider params).take params.maxNodes)) := by
  have loop : (bfsLoop provider params .empty [⟨params.start, 0⟩]).toList =
      (nodesWithin provider params).take params.maxNodes := by
    by_cases beyond : params.maxDepth < 0
    · rw [bfsLoop_negative beyond]
      have none : (params.maxDepth + 1).toNat = 0 := by omega
      unfold nodesWithin
      rw [none]
      exact take_nil.symm
    · apply bfsLoop_spec _ 0 [params.start] rfl ?_ (Nat.zero_le _)
      refine ⟨by omega, rfl, nodup_singleton _, ?_, ?_, by omega⟩
      · intro x mem
        exact Or.inl (atDistance_zero.mpr (mem_singleton.mp mem))
      · intro _ x distance
        exact mem_singleton.mpr (atDistance_zero.mp distance)
  unfold bfs
  rw [loop]

end Query
end GitWarp
