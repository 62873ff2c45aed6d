import GitWarp.Optic.Merging
import GitWarp.Optic.NodeReads

/-!
# Reading a neighbourhood

The reading of a neighbourhood refuses a tail that has an edge operation at the
node, and otherwise gives the pages of the checkpoint's index. It does not ask
whether the tail touches an end of an edge. The result is compared with the
visible edges of the full reduction.
-/
namespace GitWarp

open Js Lib KeyCodec List

variable {V : Type}

open IndexTree (Direction maxLocalId Numbered)

/-! ### The tail -/

def matchesNeighborhoodLabel (labels : List JsString) (label : JsString) : Bool :=
  decide (labels = [] ∨ label ∈ labels)

def neighborhoodEnds (direction : Direction) (src dst : JsString) : List JsString :=
  match direction with
  | .incoming => [dst]
  | .out => [src]
  | .both => if src = dst then [src] else [src, dst]

/-- `neighborhoodNodeIdsForOperation`: adds and removes of edges concern their ends. -/
def neighborhoodNodeIds (direction : Direction) (labels : List JsString) : Op V → List JsString
  | .edgeAdd src dst label _ =>
    if matchesNeighborhoodLabel labels label then neighborhoodEnds direction src dst else []
  | .edgeRemove src dst label _ =>
    if matchesNeighborhoodLabel labels label then neighborhoodEnds direction src dst else []
  | _ => []

def includesNeighborhood (nodeId : JsString) (direction : Direction) (labels : List JsString)
    (entry : PatchEntry V) : Except Failure Bool :=
  someOp (fun op => decide (nodeId ∈ neighborhoodNodeIds direction labels op)) entry.patch.ops

def assertNeighborhoodTailStable : List (PatchEntry V) → Except Failure Unit
  | [] => .ok ()
  | _ :: _ => .error noBoundedBasis

/-! ### A page -/

structure NeighborhoodOpticReadOptions where
  direction : Option Direction
  labels : Option (List JsString)
  cursor : Option JsString
  limit : Option Int

structure NeighborhoodPage where
  edges : List NeighborhoodOpticEdge
  cursor : Option JsString
  resumeCursors : List (Option JsString)
  deriving DecidableEq

def emptyPage : NeighborhoodPage := ⟨[], none, []⟩

def encodeResumeCursors (scope : NeighborhoodCursorScope) :
    List (Option NeighborhoodCandidatePosition) → Except Failure (List (Option JsString))
  | [] => .ok []
  | none :: rest => do
    let cursors ← encodeResumeCursors scope rest
    pure (none :: cursors)
  | some position :: rest => do
    let cursor ← encodeNeighborhoodCursor scope position
    let cursors ← encodeResumeCursors scope rest
    pure (some cursor :: cursors)

def pageCursor (scope : NeighborhoodCursorScope) (collected : NeighborhoodBitmapPageResult) :
    Except Failure (Option JsString) :=
  match collected.hasMore, collected.last with
  | true, some last => (encodeNeighborhoodCursor scope last).map some
  | _, _ => .ok none

def completedPage (scope : NeighborhoodCursorScope) (collected : NeighborhoodBitmapPageResult) :
    Except Failure NeighborhoodPage := do
  let cursor ← pageCursor scope collected
  let resumeCursors ← encodeResumeCursors scope collected.resumeAfter
  pure ⟨collected.edges, cursor, resumeCursors⟩

def IndexTree.readCheckpointNeighborhoodPage (t : IndexTree V) (scope : NeighborhoodCursorScope)
    (cursor : Option JsString) (limit : Option Int) : Except Failure NeighborhoodPage := do
  let limit ← parseNeighborhoodLimit limit
  let after ← parseNeighborhoodCursor cursor scope
  match t.readSourceGlobalId scope.nodeId with
  | none => .ok emptyPage
  | some sourceGlobalId =>
    if !t.hasAdjacency scope.direction scope.nodeId then .ok emptyPage
    else do
      let collected ← t.collectNeighborhoodBitmapPage limit after scope.direction scope.nodeId
        scope.labels sourceGlobalId
      completedPage scope collected

def normalizeLabels (labels : List JsString) : List JsString :=
  sortBy id (OrdSet.ofList labels).toList

namespace CheckpointTailOpticSource

/-- `_readWitnessedNeighborhoodPage`. -/
def readNeighborhood (source : CheckpointTailOpticSource V) (checkpointSha nodeId : JsString)
    (options : NeighborhoodOpticReadOptions) : Except Failure NeighborhoodPage := do
  let direction := options.direction.getD .out
  let labels := normalizeLabels (options.labels.getD [])
  let basis ← source.loadBasis
  let tail ← source.collectTail basis.frontier (includesNeighborhood nodeId direction labels)
  assertNeighborhoodTailStable tail
  basis.tree.readCheckpointNeighborhoodPage ⟨checkpointSha, nodeId, direction, labels⟩
    options.cursor options.limit

/-- The edges over the pages of a reading from a cursor on, with any limit on each page. -/
inductive Pages (source : CheckpointTailOpticSource V) (checkpointSha nodeId : JsString)
    (direction : Option Direction) (labels : Option (List JsString)) :
    Option JsString → List NeighborhoodOpticEdge → Prop
  | last (cursor : Option JsString) (limit : Option Int) (page : NeighborhoodPage)
      (read : source.readNeighborhood checkpointSha nodeId ⟨direction, labels, cursor, limit⟩ =
        .ok page) (ended : page.cursor = none) :
      Pages source checkpointSha nodeId direction labels cursor page.edges
  | more (cursor : Option JsString) (limit : Option Int) (page : NeighborhoodPage)
      (next : JsString) (rest : List NeighborhoodOpticEdge)
      (read : source.readNeighborhood checkpointSha nodeId ⟨direction, labels, cursor, limit⟩ =
        .ok page) (resumes : page.cursor = some next)
      (later : Pages source checkpointSha nodeId direction labels (some next) rest) :
      Pages source checkpointSha nodeId direction labels cursor (page.edges ++ rest)

end CheckpointTailOpticSource

/-! ### Lookups in a tree -/

theorem swap_spec {m : OrdMap JsString Nat} (distinct : ∀ x y g, m.get x = some g →
    m.get y = some g → x = y) :
    (OrdMap.ofList (m.entries.map Prod.swap)).get g = some x ↔ m.get x = some g := by
  have keys : ((m.entries.map Prod.swap).map Prod.fst).Nodup := by
    rw [map_map]
    have entries : m.entries.Pairwise fun a b => a.1 ≠ b.1 := pairwise_map.mp m.nodup
    apply pairwise_map.mpr
    apply entries.imp_of_mem
    rintro ⟨y, h⟩ ⟨z, h'⟩ here there apart same
    have same : h = h' := same
    subst same
    exact apart (distinct y z h ((m.mem_entries_iff y).mp here) ((m.mem_entries_iff z).mp there))
  rw [OrdMap.get_ofList_of_nodup _ keys, mem_map]
  constructor
  · rintro ⟨⟨y, h⟩, member, same⟩
    cases same
    exact (m.mem_entries_iff _).mp member
  · exact fun held => ⟨(x, g), (m.mem_entries_iff x).mpr held, rfl⟩

namespace IndexTree

variable {t : IndexTree V}

section

variable (numbered : t.Numbered)
include numbered

theorem Numbered.byGlobalId_get (g x) :
    t.byGlobalId.get g = some x ↔ t.nodeToGlobal.get x = some g :=
  swap_spec numbered.nodes

theorem Numbered.byId_get : t.labelRegistry.byId.get i = some label ↔ t.labels.get label = some i :=
  swap_spec numbered.labels

theorem Numbered.resolveLiveNode_eq :
    t.resolveLiveNode g = some x ↔ g ∈ t.alive ∧ t.nodeToGlobal.get x = some g := by
  rw [resolveLiveNode, ← numbered.byGlobalId_get, ← OrdSet.has_iff]
  split
  next alive => simp [alive]
  next dead => simp [dead]

theorem Numbered.readSourceGlobalId_eq :
    t.readSourceGlobalId x = some g ↔ t.nodeToGlobal.get x = some g ∧ g ∈ t.alive := by
  rw [readSourceGlobalId]
  have entry : ∀ h y, (h, y) ∈ t.byGlobalId.entries ↔ t.nodeToGlobal.get y = some h := by
    intro h y
    rw [OrdMap.mem_entries_iff, numbered.byGlobalId_get]
  cases found : t.byGlobalId.entries.find? fun entry => entry.2 = x with
  | none =>
    have absent := List.find?_eq_none.mp found
    simp only [reduceCtorEq, false_iff, not_and]
    intro held
    have bad := absent (g, x) ((entry g x).mpr held)
    simp at bad
  | some pair =>
    obtain ⟨h, y⟩ := pair
    have same := List.find?_some found
    rw [decide_eq_true_eq] at same
    subst same
    have held := (entry h y).mp (List.mem_of_find?_eq_some found)
    rw [held, ← OrdSet.has_iff, Option.some.injEq]
    dsimp only
    split
    next alive =>
      constructor
      · intro same
        cases same
        exact ⟨rfl, alive⟩
      · rintro ⟨rfl, -⟩
        rfl
    next dead =>
      simp only [reduceCtorEq, false_iff, not_and]
      rintro rfl
      exact dead

theorem Numbered.lt (x g) (held : t.nodeToGlobal.get x = some g) : g < 2 ^ 32 := by
  have shard := (numbered.ids x g held).1
  have bound := (computeShardKey x).isLt
  rw [← shard, maxLocalId] at bound
  omega

end

/-! ### The bitmaps of a node -/

def near : Side → EdgeParts → JsString
  | .out => EdgeParts.src
  | .incoming => EdgeParts.dst

def far : Side → EdgeParts → JsString
  | .out => EdgeParts.dst
  | .incoming => EdgeParts.src

/-- The edge that is listed at a node. -/
def partsOf (x : JsString) (edge : NeighborhoodOpticEdge) : EdgeParts :=
  match edge.direction with
  | .out => ⟨x, edge.neighborId, edge.label⟩
  | .incoming => ⟨edge.neighborId, x, edge.label⟩

theorem Numbered.members_edgeShard (numbered : t.Numbered) (holds : t.Holds E) (side)
    (held : t.nodeToGlobal.get x = some g) (i h) :
    h ∈ (t.edgeShard side x).members (.label i, g) ↔
      ∃ e ∈ E, t.Seen (near side) (far side) e i g h := by
  have shard := (numbered.ids x g held).1
  have kept : ∀ store : EdgeBitmaps, (store.filterKeys fun key =>
      decide (key.2 / maxLocalId = (computeShardKey x).val)).members (.label i, g) =
        store.members (.label i, g) := by
    intro store
    rw [OrdMap.members, OrdMap.get_filterKeys, if_pos (by simpa using shard), OrdMap.members]
  cases side with
  | out =>
    rw [edgeShard, kept]
    exact holds.readsFwd.lists i g h
  | incoming =>
    rw [edgeShard, kept]
    exact holds.readsRev.lists i g h

theorem mem_selectedLabels (numbered : t.Numbered) (buckets requested) (label i) :
    (label, i) ∈ selectedLabels buckets t.labelRegistry requested ↔ t.labels.get label = some i ∧
        if requested = [] then ∃ owner, (Bucket.label i, owner) ∈ buckets.keys
        else label ∈ requested := by
  rw [selectedLabels]
  split
  next all_ =>
    simp only [labelsPresentInShard, mem_sortBy, mem_filterMap, OrdSet.mem_toList,
      OrdSet.mem_ofList]
    constructor
    · rintro ⟨j, ⟨⟨bucket, owner⟩, member, present⟩, made⟩
      obtain ⟨label', found, same⟩ := Option.map_eq_some_iff.mp made
      cases same
      cases bucket with
      | all => cases present
      | label k =>
        cases present
        exact ⟨numbered.byId_get.mp found, owner, member⟩
    · rintro ⟨held, owner, member⟩
      exact ⟨i, ⟨_, member, rfl⟩, by rw [numbered.byId_get.mpr held]; rfl⟩
  next some_ =>
    rw [mem_filterMap]
    constructor
    · rintro ⟨label', member, made⟩
      obtain ⟨j, found, same⟩ := Option.map_eq_some_iff.mp made
      cases same
      exact ⟨found, member⟩
    · rintro ⟨held, member⟩
      refine ⟨label, member, ?_⟩
      have found : t.labelRegistry.byName.get label = some i := held
      rw [found]
      rfl

theorem labelsOnce (numbered : t.Numbered) (side x) (distinct : requested.Nodup) :
    t.LabelsOnce side x requested := by
  have one : (selectedLabels (t.edgeShard side x) t.labelRegistry requested).Nodup := by
    rw [selectedLabels]
    split
    next =>
      rw [labelsPresentInShard, (perm_sortBy _ _).nodup_iff]
      apply (OrdSet.nodup _).filterMap
      intro i j entry here there
      obtain ⟨label, -, rfl⟩ := Option.map_eq_some_iff.mp here
      obtain ⟨label', -, same⟩ := Option.map_eq_some_iff.mp there
      exact (congrArg Prod.snd same).symm
    next =>
      apply distinct.filterMap
      intro label label' entry here there
      obtain ⟨i, -, rfl⟩ := Option.map_eq_some_iff.mp here
      obtain ⟨j, -, same⟩ := Option.map_eq_some_iff.mp there
      exact (congrArg Prod.fst same).symm
  rw [LabelsOnce, nodup_map_iff_inj_on one]
  rintro ⟨label, i⟩ here ⟨label', j⟩ there same
  subst same
  -- a label has one number
  have first := ((mem_selectedLabels numbered _ _ _ _).mp here).1
  have second := ((mem_selectedLabels numbered _ _ _ _).mp there).1
  rw [first] at second
  rw [Option.some.inj second]

/-- The edge is asked for. -/
def Requested (direction : Direction) (labels : List JsString) (edge : NeighborhoodOpticEdge) :
    Prop :=
  edge.direction ∈ requestedDirections direction ∧ (labels = [] ∨ edge.label ∈ labels)

theorem ends_partsOf (x) (e) :
    e = partsOf x edge ↔ near edge.direction e = x ∧ far edge.direction e = edge.neighborId ∧
      e.label = edge.label := by
  obtain ⟨side, n, l⟩ := edge
  obtain ⟨src, dst, label⟩ := e
  cases side with
  | out => simp [partsOf, near, far]
  | incoming =>
    simp only [partsOf, near, far, EdgeParts.mk.injEq]
    tauto

theorem mem_restOf (numbered : t.Numbered) (holds : t.Holds E) (direction) (x) (requested) (g)
    (held : t.nodeToGlobal.get x = some g) (edge) :
    edge ∈ t.restOf (t.wholePositions direction x requested g) none ↔
      Requested direction requested edge ∧ partsOf x edge ∈ E ∧
        t.isAlive edge.neighborId = true := by
  -- a reading from the start lists the edges that the tree holds at the node, if both ends are
  -- alive
  have everything : behind none (t.wholePositions direction x requested g) =
      t.wholePositions direction x requested g := by
    apply filter_eq_self.mpr
    simp [Behind]
  rw [restOf, everything, mem_filterMap]
  constructor
  · rintro ⟨p, member, shown⟩
    obtain ⟨n, resolved, rfl⟩ := Option.map_eq_some_iff.mp shown
    obtain ⟨alive, number⟩ := numbered.resolveLiveNode_eq.mp resolved
    obtain ⟨side, asked, inside⟩ := mem_flatMap.mp (mem_filter.mp member).1
    obtain ⟨⟨label, i⟩, selected, rfl, text, stored⟩ := (t.mem_positions side x requested g).mp inside
    subst text
    obtain ⟨labelled, choice⟩ := (mem_selectedLabels numbered _ _ _ _).mp selected
    obtain ⟨e, inE, atNear, atFar, named⟩ :=
      (numbered.members_edgeShard holds p.direction held i p.globalId).mp stored
    have same : e = partsOf x ⟨p.direction, n, p.label⟩ := by
      rw [ends_partsOf]
      exact ⟨numbered.nodes _ _ _ atNear held, numbered.nodes _ _ _ atFar number,
        numbered.labels _ _ _ named labelled⟩
    refine ⟨⟨asked, ?_⟩, same ▸ inE, ?_⟩
    · split at choice
      next all_ => exact Or.inl all_
      next => exact Or.inr choice
    · dsimp only
      rw [isAlive, number]
      simpa using alive
  · rintro ⟨⟨asked, wanted⟩, inE, alive⟩
    obtain ⟨i, g', h, seen⟩ : ∃ i g' h, t.Seen (near edge.direction) (far edge.direction)
        (partsOf x edge) i g' h := by
      cases side : edge.direction with
      | out => exact holds.readsFwd.known _ inE
      | incoming => exact holds.readsRev.known _ inE
    obtain ⟨atNear, atFar, label⟩ := (ends_partsOf x _).mp rfl
    have stored := (numbered.members_edgeShard holds edge.direction held i h).mpr
    obtain ⟨numberNear, numberFar, labelled⟩ := seen
    rw [atNear, held, Option.some.injEq] at numberNear
    rw [atFar] at numberFar
    rw [label] at labelled
    have inBitmap := stored ⟨_, inE, by rw [atNear, held], by rw [atFar, numberFar], by
      rw [label, labelled]⟩
    have living : h ∈ t.alive := by
      rw [isAlive, numberFar] at alive
      simpa using alive
    have resolved := numbered.resolveLiveNode_eq.mpr ⟨living, numberFar⟩
    refine ⟨⟨edge.direction, h, edge.label⟩, mem_filter.mpr ⟨?_, ?_⟩, ?_⟩
    · rw [wholePositions, mem_flatMap]
      refine ⟨edge.direction, asked, (t.mem_positions _ _ _ _).mpr ⟨(edge.label, i), ?_, rfl, rfl,
        inBitmap⟩⟩
      rw [mem_selectedLabels numbered]
      refine ⟨labelled, ?_⟩
      split
      next =>
        -- the bitmap itself shows that the label is present in the shard
        refine ⟨g, (OrdMap.mem_keys_iff _ _).mpr ?_⟩
        rw [OrdMap.members] at inBitmap
        cases present : (t.edgeShard edge.direction x).get (.label i, g) with
        | none =>
          rw [present] at inBitmap
          cases inBitmap
        | some bitmap => rfl
      next some_ => exact wanted.resolve_left some_
    · dsimp only
      rw [resolved]
      rfl
    · rw [listed]
      rw [resolved]
      rfl

theorem nodup_restOf (numbered : t.Numbered) (direction) (x) (requested)
    (distinct : requested.Nodup) (g) :
    (t.restOf (t.wholePositions direction x requested g) none).Nodup := by
  have sorted := t.ascending_wholePositions direction g
    fun side => labelsOnce numbered side x distinct
  have nodup : (t.wholePositions direction x requested g).Nodup := by
    apply sorted.imp
    rintro a b below rfl
    exact lt_irrefl _ below
  apply ((nodup.filter _).filter _).filterMap
  intro p q edge here there
  obtain ⟨n, resolved, rfl⟩ := Option.map_eq_some_iff.mp here
  obtain ⟨n', resolved', same⟩ := Option.map_eq_some_iff.mp there
  have number := (numbered.resolveLiveNode_eq.mp resolved).2
  have number' := (numbered.resolveLiveNode_eq.mp resolved').2
  obtain ⟨side, globalId, label⟩ := p
  obtain ⟨side', globalId', label'⟩ := q
  obtain ⟨rfl, rfl, rfl⟩ := same
  dsimp only at number number'
  rw [number, Option.some.injEq] at number'
  rw [number']

/-! ### Pages -/

/-- The edges of a reading from a position on. -/
def neighborhood (t : IndexTree V) (scope : NeighborhoodCursorScope)
    (after : Option NeighborhoodCandidatePosition) : List NeighborhoodOpticEdge :=
  match t.readSourceGlobalId scope.nodeId with
  | none => []
  | some g => t.restOf (t.wholePositions scope.direction scope.nodeId scope.labels g) after

theorem wholePositions_of_no_adjacency (requested) (g) (bare : t.hasAdjacency direction x = false) :
    t.wholePositions direction x requested g = [] := by
  rw [wholePositions, flatMap_eq_nil_iff]
  intro side asked
  rw [eq_nil_iff_forall_not_mem]
  intro p mem
  obtain ⟨entry, -, -, -, stored⟩ := (t.mem_positions side x requested g).mp mem
  have none_ := (any_eq_false.mp bare) side asked
  simp only [Bool.not_eq_true', Bool.not_eq_false, List.isEmpty_iff] at none_
  rw [OrdMap.members, OrdMap.get, none_] at stored
  cases stored

theorem globalId_lt (numbered : t.Numbered) (holds : t.Holds E)
    (held : t.nodeToGlobal.get x = some g) (mem : p ∈ t.wholePositions direction x requested g) :
    p.globalId < 2 ^ 32 := by
  obtain ⟨side, -, inside⟩ := mem_flatMap.mp mem
  obtain ⟨⟨label, i⟩, -, rfl, -, stored⟩ := (t.mem_positions side x requested g).mp inside
  obtain ⟨e, -, -, atFar, -⟩ :=
    (numbered.members_edgeShard holds p.direction held i p.globalId).mp stored
  exact numbered.lt _ _ atFar

theorem page_spec (numbered : t.Numbered) (holds : t.Holds E) (scope)
    (distinct : scope.labels.Nodup)
    (read : t.readCheckpointNeighborhoodPage scope cursor limit = .ok page) :
    ∃ after, parseNeighborhoodCursor cursor scope = .ok after ∧
      (page.cursor = none → page.edges = t.neighborhood scope after) ∧
      ∀ next, page.cursor = some next → ∃ q, q.globalId < 2 ^ 32 ∧
        encodeNeighborhoodCursor scope q = .ok next ∧
        t.neighborhood scope after = page.edges ++ t.neighborhood scope (some q) := by
  -- what a page lists, and where its cursor leads
  simp only [readCheckpointNeighborhoodPage, bind_eq_ok] at read
  obtain ⟨size, sized, after, parsed, read⟩ := read
  refine ⟨after, parsed, ?_⟩
  have room : 0 < size := by
    rw [parseNeighborhoodLimit] at sized
    split at sized
    next => cases sized
    next fine =>
      cases sized
      omega
  cases found : t.readSourceGlobalId scope.nodeId with
  | none =>
    rw [found] at read
    cases read
    exact ⟨fun _ => by rw [neighborhood, found]; rfl, fun next some_ => by cases some_⟩
  | some g =>
    rw [found] at read
    obtain ⟨held, -⟩ := numbered.readSourceGlobalId_eq.mp found
    dsimp only at read
    split at read
    next bare =>
      cases read
      rw [Bool.not_eq_true'] at bare
      have none_ := wholePositions_of_no_adjacency scope.labels g bare
      refine ⟨fun _ => ?_, fun next some_ => by cases some_⟩
      rw [neighborhood, found]
      dsimp only
      rw [none_]
      rfl
    next =>
      have once := fun side => labelsOnce numbered side scope.nodeId distinct
      simp only [t.collectNeighborhoodBitmapPage_eq size after once, completedPage, bind_eq_ok, Except.ok.injEq, exists_eq_left'] at read
      obtain ⟨next, made, resumeCursors, -, whole⟩ := read
      cases whole
      obtain ⟨ends, goes⟩ := t.page_restOf size room _ (t.ascending_wholePositions scope.direction g once) _ rfl
      simp only [neighborhood, found]
      rw [pageCursor] at made
      constructor
      · intro ended
        apply ends
        cases more : (t.collectSorted size (behind after (t.wholePositions scope.direction
            scope.nodeId scope.labels g)) ⟨[], false, after, []⟩).hasMore with
        | false => rfl
        | true =>
          obtain ⟨q, -, last, -⟩ := goes more
          rw [more, last] at made
          simp only [ended, Except.map] at made
          split at made <;> cases made
      · intro next' resumes
        cases more : (t.collectSorted size (behind after (t.wholePositions scope.direction
            scope.nodeId scope.labels g)) ⟨[], false, after, []⟩).hasMore with
        | false =>
          rw [more] at made
          cases made
          cases resumes
        | true =>
          obtain ⟨q, member, last, split_⟩ := goes more
          rw [more, last] at made
          refine ⟨q, globalId_lt numbered holds held member, ?_, split_⟩
          cases resumes
          dsimp only at made
          cases encoded : encodeNeighborhoodCursor scope q with
          | error e =>
            rw [encoded] at made
            cases made
          | ok text =>
            rw [encoded] at made
            cases made
            rfl

end IndexTree

namespace CheckpointTailOpticSource

variable {source : CheckpointTailOpticSource V} {basis : CheckpointTailIndexBasis V}
  {base full : WarpState V}

theorem normalizeLabels_nodup (labels) : (normalizeLabels labels).Nodup := by
  rw [normalizeLabels, (perm_sortBy id _).nodup_iff]
  exact OrdSet.nodup _

theorem mem_normalizeLabels {labels} : label ∈ normalizeLabels labels ↔ label ∈ labels := by
  rw [normalizeLabels, mem_sortBy, OrdSet.mem_toList, OrdSet.mem_ofList]

end CheckpointTailOpticSource

open CheckpointTailOpticSource in
/-- A reading from the start lists each requested edge that is visible, and lists it once. -/
theorem IndexTree.neighborhood_spec {t : IndexTree V} (reflects : t.Reflects s) (keyed : s.Keyed)
    (checkpointSha x) (direction labels) :
    (t.neighborhood ⟨checkpointSha, x, direction, normalizeLabels labels⟩ none).Nodup ∧
      ∀ edge, edge ∈ t.neighborhood ⟨checkpointSha, x, direction, normalizeLabels labels⟩ none ↔
        IndexTree.Requested direction labels edge ∧ IndexTree.partsOf x edge ∈ visibleEdges s := by
  have numbered := reflects.edges.toNumbered
  have asked : ∀ edge, IndexTree.Requested direction (normalizeLabels labels) edge ↔
      IndexTree.Requested direction labels edge := by
    intro edge
    have empty_ : normalizeLabels labels = [] ↔ labels = [] := by
      simp only [eq_nil_iff_forall_not_mem, mem_normalizeLabels]
    rw [IndexTree.Requested, IndexTree.Requested, empty_, mem_normalizeLabels]
  -- the ends of a visible edge are alive in the index
  have ends : ∀ edge, IndexTree.partsOf x edge ∈ visibleEdges s →
      t.isAlive x = true ∧ t.isAlive edge.neighborId = true := by
    intro edge visible
    obtain ⟨-, -, src, dst⟩ := (IndexTree.mem_visibleEdges keyed _).mp visible
    rw [reflects.alive, reflects.alive]
    cases side : edge.direction with
    | out =>
      simp only [IndexTree.partsOf, side] at src dst
      exact ⟨src, dst⟩
    | incoming =>
      simp only [IndexTree.partsOf, side] at src dst
      exact ⟨dst, src⟩
  rw [IndexTree.neighborhood]
  cases found : t.readSourceGlobalId x with
  | none =>
    refine ⟨nodup_nil, fun edge => ?_⟩
    simp only [not_mem_nil, false_iff, not_and]
    intro _ visible
    have alive := (ends edge visible).1
    rw [IndexTree.isAlive] at alive
    split at alive
    next => cases alive
    next g held =>
      have source_ := numbered.readSourceGlobalId_eq.mpr ⟨held, by simpa using alive⟩
      rw [found] at source_
      cases source_
  | some g =>
    obtain ⟨held, -⟩ := numbered.readSourceGlobalId_eq.mp found
    refine ⟨IndexTree.nodup_restOf numbered _ x _ (normalizeLabels_nodup _) g, fun edge => ?_⟩
    rw [IndexTree.mem_restOf numbered reflects.edges _ x _ g held, asked]
    apply and_congr_right
    intro _
    exact and_iff_left_of_imp fun visible => (ends edge visible).2

namespace CheckpointTailOpticSource

variable {source : CheckpointTailOpticSource V} {basis : CheckpointTailIndexBasis V}
  {base full : WarpState V}

section

variable (describes : source.Describes basis base full)
include describes

/-- The pages of a reading are the edges of its neighbourhood, in order. -/
theorem Pages.eq (checkpointSha x) (direction labels cursor edges)
    (pages : source.Pages checkpointSha x direction labels cursor edges) :
    ∃ after, parseNeighborhoodCursor cursor ⟨checkpointSha, x, direction.getD .out,
        normalizeLabels (labels.getD [])⟩ = .ok after ∧
      edges = basis.tree.neighborhood ⟨checkpointSha, x, direction.getD .out,
        normalizeLabels (labels.getD [])⟩ after := by
  have page_of : ∀ cursor limit page, source.readNeighborhood checkpointSha x
      ⟨direction, labels, cursor, limit⟩ = .ok page → basis.tree.readCheckpointNeighborhoodPage
        ⟨checkpointSha, x, direction.getD .out, normalizeLabels (labels.getD [])⟩ cursor limit =
          .ok page := by
    intro cursor limit page read
    simp only [readNeighborhood, describes.loadBasis, bind_eq_ok, Except.ok.injEq,
      exists_eq_left'] at read
    obtain ⟨tail, -, -, -, read⟩ := read
    exact read
  have spec := fun cursor limit page read =>
    basis.tree.page_spec describes.reflects.edges.toNumbered describes.reflects.edges _
      (normalizeLabels_nodup _) (page_of cursor limit page read)
  induction pages with
  | last cursor limit page read ended =>
    obtain ⟨after, parsed, ends, -⟩ := spec cursor limit page read
    exact ⟨after, parsed, ends ended⟩
  | more cursor limit page next rest read resumes later ih =>
    obtain ⟨after, parsed, -, goes⟩ := spec cursor limit page read
    obtain ⟨q, bound, encoded, split_⟩ := goes next resumes
    obtain ⟨after', parsed', rfl⟩ := ih
    -- the cursor stands for the last edge of the page
    have same := parse_encodeNeighborhoodCursor _ q bound encoded _ _ parsed'
    subst same
    exact ⟨after, parsed, split_.symm⟩

theorem Pages.spec (checkpointSha x) (direction labels edges)
    (pages : source.Pages checkpointSha x direction labels none edges) :
    edges.Nodup ∧ ∀ edge, edge ∈ edges ↔
      IndexTree.Requested (direction.getD .out) (labels.getD []) edge ∧
        IndexTree.partsOf x edge ∈ visibleEdges base := by
  obtain ⟨after, parsed, whole⟩ := pages.eq describes
  cases parsed
  rw [whole]
  exact IndexTree.neighborhood_spec describes.reflects describes.base_keyed checkpointSha x _ _

/-- No operation of the tail adds or removes a requested edge at the node. -/
theorem Pages.stable (direction labels cursor edges)
    (pages : source.Pages checkpointSha x direction labels cursor edges) :
    ∀ event, source.TailEvent basis.frontier event → x ∉ neighborhoodNodeIds (direction.getD .out)
      (normalizeLabels (labels.getD [])) event.2.op := by
  obtain ⟨limit, page, read⟩ : ∃ limit page, source.readNeighborhood checkpointSha x
      ⟨direction, labels, cursor, limit⟩ = .ok page := by
    cases pages with
    | last _ limit page read _ | more _ limit page next rest read _ _ => exact ⟨limit, page, read⟩
  simp only [readNeighborhood, describes.loadBasis, bind_eq_ok, Except.ok.injEq,
    exists_eq_left'] at read
  obtain ⟨tail, collected, _, asserted, _⟩ := read
  have none_ : tail = [] := by
    cases tail with
    | nil => rfl
    | cons entry rest => cases asserted
  subst none_
  rintro event ⟨entry, later, effect, known, inside⟩ concerned
  have included : includesNeighborhood x (direction.getD .out) (normalizeLabels (labels.getD []))
      entry = .ok true :=
    (includes_iff known).mpr ⟨event, inside, by simpa using concerned⟩
  exact not_mem_nil ((source.mem_collectTail collected).mpr ⟨later, included⟩)

end

/-- A remove of an edge in the tail, whatever edge it names, has observed the dot. -/
def TailObservesEdge (source : CheckpointTailOpticSource V) (frontier : Frontier) (d : JsString) :
    Prop :=
  ∃ event, source.TailEvent frontier event ∧ ∃ src dst label dots,
    event.2.op = .edgeRemove src dst label dots ∧ d ∈ dots

theorem Describes.edgeTombs (describes : source.Describes basis base full) (d) :
    d ∈ full.edgeAlive.tombstones ↔
      d ∈ base.edgeAlive.tombstones ∨ source.TailObservesEdge basis.frontier d := by
  rw [describes.full_represents.edgeTombs, describes.mem_facts (by simp),
    describes.base_represents.edgeTombs]
  simp only [edgeTomb_mem_facts, TailObservesEdge]

/-- An add of a requested edge in the tail would have been noticed. -/
theorem Pages.edgeTags (describes : source.Describes basis base full)
    (direction labels cursor edges)
    (pages : source.Pages checkpointSha x direction labels cursor edges)
    (asked : IndexTree.Requested (direction.getD .out) (labels.getD []) edge)
    (valid : (IndexTree.partsOf x edge).Valid) (d) :
    d ∈ full.edgeAlive.dotsOf (IndexTree.partsOf x edge).key ↔
      d ∈ base.edgeAlive.dotsOf (IndexTree.partsOf x edge).key := by
  rw [describes.full_represents.edgeTags, describes.mem_facts (by simp),
    describes.base_represents.edgeTags]
  apply or_iff_left
  rintro ⟨event, happened, tagged⟩
  obtain ⟨src, dst, label, dot, added, key, -⟩ := edgeTag_mem_facts.mp tagged
  have ids := event.2.validIds
  rw [added] at ids
  have same : IndexTree.partsOf x edge = ⟨src, dst, label⟩ := edgeKey_inj valid
    ⟨ids src (by simp [Op.ids]), ids dst (by simp [Op.ids]), ids label (by simp [Op.ids])⟩ key
  apply pages.stable describes _ _ _ _ event happened
  obtain ⟨sides, named⟩ := asked
  obtain ⟨side, n, l⟩ := edge
  have matches_ : matchesNeighborhoodLabel (normalizeLabels (labels.getD [])) l = true := by
    rw [matchesNeighborhoodLabel, decide_eq_true_eq, mem_normalizeLabels]
    rcases named with none_ | mem
    · rw [none_]
      exact Or.inl rfl
    · exact Or.inr mem
  rw [added]
  cases side with
  | out =>
    obtain ⟨rfl, rfl, rfl⟩ := EdgeParts.mk.inj same
    rw [neighborhoodNodeIds, if_pos matches_]
    cases chosen : direction.getD .out with
    | out => simp [neighborhoodEnds]
    | incoming => simp [chosen, requestedDirections] at sides
    | both =>
      simp only [neighborhoodEnds]
      split <;> simp
  | incoming =>
    obtain ⟨rfl, rfl, rfl⟩ := EdgeParts.mk.inj same
    rw [neighborhoodNodeIds, if_pos matches_]
    cases chosen : direction.getD .out with
    | out => simp [chosen, requestedDirections] at sides
    | incoming => simp [neighborhoodEnds]
    | both =>
      simp only [neighborhoodEnds]
      split
      next loop => simp [loop]
      next => simp

/-- The pages are the requested visible edges of the full reduction exactly if every requested edge
at the node that is alive in the checkpoint keeps its visibility: its ends are alive in the
checkpoint just when they are alive in the end and a dot of it outlives the removes of the tail. -/
theorem optic_neighborhood_iff (describes : source.Describes basis base full)
    (checkpointSha x : JsString) (direction : Option Direction) (labels : Option (List JsString))
    (edges : List NeighborhoodOpticEdge)
    (pages : source.Pages checkpointSha x direction labels none edges) :
    (edges.Nodup ∧ ∀ edge, edge ∈ edges ↔
      IndexTree.Requested (direction.getD .out) (labels.getD []) edge ∧
        IndexTree.partsOf x edge ∈ visibleEdges full) ↔
    ∀ edge, IndexTree.Requested (direction.getD .out) (labels.getD []) edge →
      (IndexTree.partsOf x edge).Valid →
      base.edgeAlive.contains (IndexTree.partsOf x edge).key = true →
        ((visibleNode base x = true ∧ visibleNode base edge.neighborId = true) ↔
          (visibleNode full x = true ∧ visibleNode full edge.neighborId = true ∧
            ∃ d ∈ base.edgeAlive.dotsOf (IndexTree.partsOf x edge).key,
              d ∉ base.edgeAlive.tombstones ∧ ¬ source.TailObservesEdge basis.frontier d)) := by
  obtain ⟨nodup, lists⟩ := pages.spec describes
  rw [and_iff_right nodup]
  have visible : ∀ s : WarpState V, s.Keyed → ∀ edge, IndexTree.partsOf x edge ∈ visibleEdges s ↔
      (IndexTree.partsOf x edge).Valid ∧
        s.edgeAlive.contains (IndexTree.partsOf x edge).key = true ∧
          visibleNode s x = true ∧ visibleNode s edge.neighborId = true := by
    intro s keyed edge
    rw [IndexTree.mem_visibleEdges keyed]
    have ids : (ValidId (IndexTree.partsOf x edge).src ∧ ValidId (IndexTree.partsOf x edge).dst ∧
        ValidId (IndexTree.partsOf x edge).label) ↔ (IndexTree.partsOf x edge).Valid :=
      ⟨fun ⟨src, dst, label⟩ => ⟨src, dst, label⟩, fun valid => ⟨valid.src, valid.dst, valid.label⟩⟩
    rw [ids]
    obtain ⟨side, n, l⟩ := edge
    cases side with
    | out => rfl
    | incoming =>
      simp only [IndexTree.partsOf]
      rw [and_comm (a := visibleNode s n = true)]
      rfl
  have survives : ∀ edge, IndexTree.Requested (direction.getD .out) (labels.getD []) edge →
      (IndexTree.partsOf x edge).Valid →
      (full.edgeAlive.contains (IndexTree.partsOf x edge).key = true ↔
        ∃ d ∈ base.edgeAlive.dotsOf (IndexTree.partsOf x edge).key,
          d ∉ base.edgeAlive.tombstones ∧ ¬ source.TailObservesEdge basis.frontier d) := by
    intro edge asked valid
    rw [ORSet.contains_iff]
    simp only [pages.edgeTags describes _ _ _ _ asked valid, describes.edgeTombs, not_or]
  constructor
  · intro same edge asked valid alive
    have here := same edge
    rw [lists, and_iff_right asked, and_iff_right asked, visible base describes.base_keyed,
      visible full describes.full_keyed, and_iff_right valid, and_iff_right valid,
      and_iff_right alive, survives edge asked valid] at here
    rw [here]
    tauto
  · intro keeps edge
    rw [lists]
    apply and_congr_right
    intro asked
    rw [visible base describes.base_keyed, visible full describes.full_keyed]
    apply and_congr_right
    intro valid
    rw [survives edge asked valid]
    constructor
    · rintro ⟨alive, ends⟩
      obtain ⟨src, dst, kept⟩ := (keeps edge asked valid alive).mp ends
      exact ⟨kept, src, dst⟩
    · rintro ⟨⟨d, tagged, kept, unobserved⟩, src, dst⟩
      have alive := base.edgeAlive.contains_iff.mpr ⟨d, tagged, kept⟩
      exact ⟨alive, (keeps edge asked valid alive).mpr ⟨src, dst, d, tagged, kept, unobserved⟩⟩

/-! ### An end that the tail removes -/

def stateOf (source : CheckpointTailOpticSource Nat) (frontier : Frontier) : WarpState Nat :=
  (reducePatches (source.store.streamForFrontier ⟨frontier, none⟩) .empty).toOption.getD .empty

/-- The checkpoint of the commit of `b`, with the index that is built of it. -/
def takenAt (early late : List (PatchOp Nat)) : CheckpointTailOpticSource Nat :=
  { writtenBy early late with
    checkpoint := some ⟨.ofList [(lit "b", lit "bbbb")], (IndexTree.build (stateOf
      (writtenBy early late) (.ofList [(lit "b", lit "bbbb")]))).toOption.getD .empty⟩ }

def dotOfB (counter : Nat) (positive : 0 < counter) : Dot :=
  ⟨lit "b", counter, b_named, positive⟩

theorem addN_check : (Op.nodeAdd (lit "n") (dotOfB 1 Nat.one_pos) : Op Nat).check = .ok () := by
  decide

/-- Two nodes and an edge from one to the other. -/
def linked : List (PatchOp Nat) :=
  [.runtime ⟨.nodeAdd (lit "n") (dotOfB 1 Nat.one_pos), addN_check⟩,
    .runtime ⟨.nodeAdd (lit "m") (dotOfB 2 Nat.two_pos), by decide⟩,
    .runtime ⟨.edgeAdd (lit "n") (lit "m") (lit "l") (dotOfB 3 counter_three), by decide⟩]

def removeM : CanonicalOp Nat := ⟨.nodeRemove (lit "m") [lit "b:2"], by decide⟩

theorem ok_of_toOption {A : Type} {x : Except Failure A} (a : A) (some_ : x.toOption.isSome = true) :
    x = .ok (x.toOption.getD a) := by
  cases x with
  | error e => cases some_
  | ok found => rfl

theorem describes_takenAt (early late) (precedes : (takenAt early late).store.coordinatePrecedes
      ⟨.ofList [(lit "b", lit "bbbb")], none⟩ ⟨(takenAt early late).refs, none⟩ = true)
    (reduced : (reducePatches ((takenAt early late).store.streamForFrontier
      ⟨.ofList [(lit "b", lit "bbbb")], none⟩) .empty).toOption.isSome = true)
    (built : (IndexTree.build (stateOf (writtenBy early late)
      (.ofList [(lit "b", lit "bbbb")]))).toOption.isSome = true)
    (whole : (reducePatches ((takenAt early late).store.streamForFrontier
      ⟨(takenAt early late).refs, none⟩) .empty).toOption.isSome = true) :
    (takenAt early late).Describes ⟨.ofList [(lit "b", lit "bbbb")], (IndexTree.build (stateOf
        (writtenBy early late) (.ofList [(lit "b", lit "bbbb")]))).toOption.getD .empty⟩
      (stateOf (takenAt early late) (.ofList [(lit "b", lit "bbbb")]))
      (stateOf (takenAt early late) (takenAt early late).refs) where
  head := rfl
  precedes := precedes
  reduced := ok_of_toOption _ reduced
  built := ok_of_toOption _ built
  whole := ok_of_toOption _ whole

/-- The edge is still listed although the node it leads to has been removed. -/
theorem optic_lists_edge_to_removed_node :
    ∃ basis base full edges, (takenAt linked [.runtime removeM]).Describes basis base full ∧
      (takenAt linked [.runtime removeM]).Pages (lit "cccc") (lit "n") none none none edges ∧
      ⟨.out, lit "m", lit "l"⟩ ∈ edges ∧ visibleEdges full = [] := by
  have read : (takenAt linked [.runtime removeM]).readNeighborhood (lit "cccc") (lit "n")
      ⟨none, none, none, none⟩ = .ok ⟨[⟨.out, lit "m", lit "l"⟩], none, [none]⟩ := by
    decide +kernel
  refine ⟨_, _, _, _, describes_takenAt linked [.runtime removeM] ?_ ?_ ?_ ?_,
    .last none none _ read rfl, mem_cons_self, ?_⟩
  · decide +kernel
  · decide +kernel
  · decide +kernel
  · decide +kernel
  · decide +kernel

def addP : PatchOp Nat :=
  .runtime ⟨.nodeAdd (lit "p") ⟨lit "a", 1, a_named, Nat.one_pos⟩, by decide⟩

theorem takenAt_unobserved (d) : ¬ (takenAt linked [addP]).TailObservesEdge
    (.ofList [(lit "b", lit "bbbb")]) d := by
  rintro ⟨event, ⟨entry, ⟨w, tip, found, mem⟩, effect, known, inside⟩, src, dst, label, dots,
    removed, -⟩
  have refs : (w, tip) ∈ [(lit "a", lit "aaaa"), (lit "b", lit "bbbb")] :=
    ((takenAt linked [addP]).refs.mem_entries_iff w).mpr found
  simp only [mem_cons, not_mem_nil, or_false, Prod.mk.injEq] at refs
  rcases refs with ⟨rfl, rfl⟩ | ⟨rfl, rfl⟩
  · -- the only patch of the tail adds a node
    have only : entry = ⟨⟨lit "a", 1, [addP], .absent⟩, lit "aaaa"⟩ := mem_singleton.mp mem
    subst only
    cases known
    cases mem_singleton.mp inside
    cases removed
  · cases mem

theorem optic_neighborhood_iff_sample :
    ∃ basis base full, (takenAt linked [addP]).Describes basis base full ∧
      (takenAt linked [addP]).Pages (lit "cccc") (lit "n") none none none
        [⟨.out, lit "m", lit "l"⟩] ∧
      ∀ edge, edge ∈ [(⟨.out, lit "m", lit "l"⟩ : NeighborhoodOpticEdge)] ↔
        IndexTree.Requested .out [] edge ∧
          IndexTree.partsOf (lit "n") edge ∈ visibleEdges full := by
  have read : (takenAt linked [addP]).readNeighborhood (lit "cccc") (lit "n")
      ⟨none, none, none, none⟩ = .ok ⟨[⟨.out, lit "m", lit "l"⟩], none, [none]⟩ := by
    decide +kernel
  have describes := describes_takenAt linked [addP] (by decide +kernel) (by decide +kernel)
    (by decide +kernel) (by decide +kernel)
  have pages : (takenAt linked [addP]).Pages (lit "cccc") (lit "n") none none none
      [⟨.out, lit "m", lit "l"⟩] := .last none none _ read rfl
  refine ⟨_, _, _, describes, pages, ((optic_neighborhood_iff describes _ _ _ _ _ pages).mpr
    fun edge asked valid alive => ?_).2⟩
  -- the one edge of the checkpoint
  have keys : (stateOf (takenAt linked [addP]) (.ofList [(lit "b", lit "bbbb")])).edgeAlive.elements =
      [(⟨lit "n", lit "m", lit "l"⟩ : EdgeParts).key] := by
    decide +kernel
  have member := (ORSet.mem_elements_iff _).mpr alive
  have named : (⟨lit "n", lit "m", lit "l"⟩ : EdgeParts).Valid :=
    ⟨⟨by decide, by decide, by decide⟩, ⟨by decide, by decide, by decide⟩,
      ⟨by decide, by decide, by decide⟩⟩
  have same := edgeKey_inj valid named (mem_singleton.mp member)
  obtain ⟨side, neighborId, label⟩ := edge
  cases side with
  | incoming => simp [IndexTree.Requested, requestedDirections] at asked
  | out =>
    obtain ⟨-, rfl, rfl⟩ := EdgeParts.mk.inj same
    have ends : ∀ x ∈ [lit "n", lit "m"],
        visibleNode (stateOf (takenAt linked [addP]) (.ofList [(lit "b", lit "bbbb")])) x = true ∧
        visibleNode (stateOf (takenAt linked [addP]) (takenAt linked [addP]).refs) x = true := by
      decide +kernel
    obtain ⟨n, n'⟩ := ends (lit "n") (by simp)
    obtain ⟨m, m'⟩ := ends (lit "m") (by simp)
    refine ⟨fun _ => ⟨n', m', lit "b:3", ?_, ?_, takenAt_unobserved _⟩, fun _ => ⟨n, m⟩⟩
    · decide +kernel
    · decide +kernel

end CheckpointTailOpticSource
end GitWarp
