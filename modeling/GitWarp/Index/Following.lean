import GitWarp.Index.Coherence
import GitWarp.Reducer.PropertyReports

/-!
# Following a chain of states

An index is built once and then brought from state to state by the diffs of the
reductions. What the updater cannot learn from a diff: the edges and properties
that a node had before it became alive for the first time, and which entries of a
diff belong to edges.
-/
namespace GitWarp

open Js Lib KeyCodec List

variable {V : Type} [StrictEq V]

namespace IndexTree

/-! ### One update -/

omit [StrictEq V] in
theorem applyDiff_eq (t diff) (s : WarpState V) :
    t.applyDiff diff s = (handleNodeAdds diff.nodesAdded t).map fun added =>
      handleProps diff.propsChanged (restoreEdges s diff (diff.nodesAdded.filter t.nodeToGlobal.has)
        (diff.edgesRemoved.foldl handleEdgeRemove (diff.edgesAdded.foldl (addVisibleEdge s)
          (diff.nodesRemoved.foldl purgeNodeEdges
            (diff.nodesRemoved.foldl handleNodeRemove added))))) := by
  unfold applyDiff
  split
  next empty =>
    simp only [PatchDiff.isEmpty, Bool.and_eq_true, List.isEmpty_iff] at empty
    obtain ⟨⟨⟨⟨added, removed⟩, edgesAdded⟩, edgesRemoved⟩, props⟩ := empty
    rw [added, removed, edgesAdded, edgesRemoved, props]
    rfl
  next => cases handleNodeAdds diff.nodesAdded t <;> rfl

omit [StrictEq V] in
theorem restoreEdges_eq (s diff readded) (t : IndexTree V) : restoreEdges s diff readded t =
      (((collectReaddedEdgeKeys s readded).filter fun k =>
        !(OrdSet.ofList (diff.edgesAdded.map PatchDiff.edgeKey)).has
          (PatchDiff.edgeKey (decodeEdgeKey k))).map decodeEdgeKey).foldl (addVisibleEdge s) t := by
  rw [foldl_map, foldl_filter]
  unfold restoreEdges
  dsimp only
  congr 1
  funext t k
  cases (OrdSet.ofList (diff.edgesAdded.map PatchDiff.edgeKey)).has
    (PatchDiff.edgeKey (decodeEdgeKey k)) <;> rfl

def newNodes (before after : WarpState V) : List JsString :=
  after.nodeAlive.elements.filter fun x => !visibleNode before x

omit [StrictEq V] in
theorem mem_newNodes {before after : WarpState V} (x) :
    x ∈ newNodes before after ↔ visibleNode after x = true ∧ visibleNode before x = false := by
  rw [newNodes, mem_filter, ORSet.mem_elements_iff, Bool.not_eq_true']
  rfl

/-- What the updater relies on, beyond the changes that a diff lists, when it takes a tree from
one state to the next and numbers the nodes `added`. -/
structure Learns (t : IndexTree V) (before after : WarpState V) (added : List JsString) : Prop where
  /-- An edge that was there and shows for the first time shows at a node known to the tree. -/
  edges : ∀ e ∈ visibleEdges after, e ∉ visibleEdges before →
    before.edgeAlive.contains (PatchDiff.edgeKey e) = true →
      ∃ x, (x = e.src ∨ x = e.dst) ∧ visibleNode before x = false ∧
        (t.nodeToGlobal.get x).isSome = true
  /-- The properties of a new node are in the tree or change now. -/
  props : ∀ x ∈ added, t.nodeToGlobal.get x = none → ∀ k, ValidId k →
    t.property x k = before.nodeProperty x k ∨ before.nodeProperty x k ≠ after.nodeProperty x k
  room : t.HasRoom added

omit [StrictEq V] in
theorem Learns.perm {after} {t : IndexTree V} (learns : t.Learns before after xs)
    (perm : ys.Perm xs) :
    t.Learns before after ys where
  edges := learns.edges
  props := fun x mem => learns.props x (perm.mem_iff.mp mem)
  room := by
    intro k
    rw [(perm.filter _).length_eq]
    exact learns.room k

/-- Applying the additions of a diff and then its removals gives the elements of the state
after; an exact diff does, and so does one in which an element that ends alive never died. -/
structure Covers (before after : WarpState V) (diff : PatchDiff V) : Prop where
  nodes : ∀ x, nodeStatus x after = true ↔
    (nodeStatus x before = true ∨ x ∈ diff.nodesAdded) ∧ x ∉ diff.nodesRemoved
  edges : ∀ k, edgeStatus k after = true ↔
    (edgeStatus k before = true ∨ k ∈ diff.edgesAdded.map PatchDiff.edgeKey) ∧
      k ∉ diff.edgesRemoved.map PatchDiff.edgeKey
  named : ∀ x ∈ diff.nodesAdded, ValidId x
  propsChanged : LastValues diff.propsChanged before after

section Update

variable {t : IndexTree V} {before after : WarpState V} {diff : PatchDiff V}

theorem nodesAdded_perm (exact_ : ExactDiff before after diff) :
    diff.nodesAdded.Perm (newNodes before after) := by
  apply (perm_ext_iff_of_nodup exact_.nodesAdded.1 (nodup_elements.filter _)).mpr
  intro x
  rw [exact_.nodesAdded.2]
  exact (mem_newNodes x).symm

theorem covers_of_exact (keyed' : after.Keyed) (exact_ : ExactDiff before after diff) :
    Covers before after diff where
  nodes := by
    intro x
    rw [exact_.nodesAdded.2, exact_.nodesRemoved.2]
    cases nodeStatus x before <;> cases nodeStatus x after <;> simp
  edges := by
    intro k
    rw [exact_.edgesAdded.2, exact_.edgesRemoved.2]
    cases edgeStatus k before <;> cases edgeStatus k after <;> simp
  named := by
    intro x mem
    have alive := ((exact_.nodesAdded.2 x).mp mem).1
    obtain ⟨d, tagged, -⟩ := after.nodeAlive.contains_iff.mp alive
    exact keyed'.nodes x d tagged
  propsChanged := exact_.propsChanged

theorem mem_edges_iff {l : List EdgeParts}
    (valid : ∀ e ∈ l, ValidId e.src ∧ ValidId e.dst ∧ ValidId e.label)
    (here : ValidId e.src ∧ ValidId e.dst ∧ ValidId e.label) :
    e ∈ l ↔ PatchDiff.edgeKey e ∈ l.map PatchDiff.edgeKey := by
  refine ⟨fun mem => mem_map_of_mem mem, fun mem => ?_⟩
  obtain ⟨e', listed, same⟩ := mem_map.mp mem
  have there := valid e' listed
  have decoded := congrArg decodeEdgeKey same
  simp only [PatchDiff.edgeKey, decodeEdgeKey_encodeEdgeKey there.1 there.2.1 there.2.2,
    decodeEdgeKey_encodeEdgeKey here.1 here.2.1 here.2.2] at decoded
  obtain ⟨src, dst, label⟩ := e'
  obtain ⟨src', dst', label'⟩ := e
  cases decoded
  exact listed

omit [StrictEq V] in
theorem mem_collectReaddedEdgeKeys {s : WarpState V} (readded) (k) :
    k ∈ collectReaddedEdgeKeys s readded ↔ s.edgeAlive.contains k = true ∧
      ((decodeEdgeKey k).src ∈ readded ∨ (decodeEdgeKey k).dst ∈ readded) := by
  simp only [collectReaddedEdgeKeys, OrdSet.mem_toList, OrdSet.mem_ofList, mem_flatMap,
    mem_filter, ORSet.mem_elements_iff, decide_eq_true_eq]
  constructor
  · rintro ⟨x, member, alive, rfl | rfl⟩
    · exact ⟨alive, Or.inl member⟩
    · exact ⟨alive, Or.inr member⟩
  · rintro ⟨alive, src | dst⟩
    · exact ⟨_, src, alive, Or.inl rfl⟩
    · exact ⟨_, dst, alive, Or.inr rfl⟩

/-- Where the edges of a tree and the visible edges of a state differ, the step to the next
state says what the updater needs to hear. -/
structure EdgesBridge (t : IndexTree V) (E : Set EdgeParts) (before after : WarpState V) : Prop where
  valid : ∀ e ∈ E, ValidId e.src ∧ ValidId e.dst ∧ ValidId e.label
  shown : ∀ e ∈ visibleEdges after, e ∈ E ∨ edgeStatus (PatchDiff.edgeKey e) before = false ∨
    ∃ x, (x = e.src ∨ x = e.dst) ∧ visibleNode before x = false ∧
      (t.nodeToGlobal.get x).isSome = true
  hidden : ∀ e ∈ E, e ∉ visibleEdges after → (edgeStatus (PatchDiff.edgeKey e) before = true ∧
      edgeStatus (PatchDiff.edgeKey e) after = false) ∨
    ∃ x, (x = e.src ∨ x = e.dst) ∧ visibleNode before x = true ∧ visibleNode after x = false

omit [StrictEq V] in
theorem edge_hidden (keyed : before.Keyed) (keyed' : after.Keyed) (e)
    (old : e ∈ visibleEdges before) (gone : e ∉ visibleEdges after) :
    (edgeStatus (PatchDiff.edgeKey e) before = true ∧
      edgeStatus (PatchDiff.edgeKey e) after = false) ∨
    ∃ x, (x = e.src ∨ x = e.dst) ∧ visibleNode before x = true ∧ visibleNode after x = false := by
  obtain ⟨valid, alive, src, dst⟩ := (mem_visibleEdges keyed e).mp old
  cases still : edgeStatus (PatchDiff.edgeKey e) after with
  | false => exact Or.inl ⟨alive, rfl⟩
  | true =>
    right
    cases srcAfter : visibleNode after e.src with
    | false => exact ⟨e.src, Or.inl rfl, src, srcAfter⟩
    | true =>
      cases dstAfter : visibleNode after e.dst with
      | false => exact ⟨e.dst, Or.inr rfl, dst, dstAfter⟩
      | true =>
        exact absurd ((mem_visibleEdges keyed' e).mpr ⟨valid, still, srcAfter, dstAfter⟩) gone

omit [StrictEq V] in
theorem Reflects.edgesBridge (keyed : before.Keyed) (keyed' : after.Keyed)
    (learns : t.Learns before after added) :
    t.EdgesBridge {e | e ∈ visibleEdges before} before after where
  valid := fun e mem => ((mem_visibleEdges keyed e).mp mem).1
  shown := by
    intro e visible
    by_cases old : e ∈ visibleEdges before
    · exact Or.inl old
    · cases had : edgeStatus (PatchDiff.edgeKey e) before with
      | false => exact Or.inr (Or.inl rfl)
      | true => exact Or.inr (Or.inr (learns.edges e visible old had))
  hidden := edge_hidden keyed keyed'

theorem edges_after (keyed' : after.Keyed) (covers : Covers before after diff)
    (addressed : diff.Addressed) (bridge : t.EdgesBridge E before after) (e) :
    (((e ∈ E ∧ e.src ∉ diff.nodesRemoved ∧ e.dst ∉ diff.nodesRemoved) ∨
        e ∈ diff.edgesAdded ∧ visibleNode after e.src = true ∧ visibleNode after e.dst = true) ∧
        e ∉ diff.edgesRemoved ∨
      e ∈ ((collectReaddedEdgeKeys after (diff.nodesAdded.filter t.nodeToGlobal.has)).filter fun k =>
        !(OrdSet.ofList (diff.edgesAdded.map PatchDiff.edgeKey)).has
          (PatchDiff.edgeKey (decodeEdgeKey k))).map decodeEdgeKey ∧
        visibleNode after e.src = true ∧ visibleNode after e.dst = true) ↔
      e ∈ visibleEdges after := by
  -- the edges that the updater's phases leave, said of one edge
  constructor
  · rintro (⟨⟨old, src, dst⟩ | ⟨new, src, dst⟩, kept⟩ | ⟨restored, src, dst⟩)
    · by_contra gone
      rw [mem_edges_iff addressed.edgesRemoved (bridge.valid e old)] at kept
      rcases bridge.hidden e old gone with ⟨had, lost⟩ | ⟨x, endpoint, had, lost⟩
      · have status := (covers.edges (PatchDiff.edgeKey e)).mpr ⟨Or.inl had, kept⟩
        exact absurd (status.symm.trans lost) (by simp)
      · have stays : x ∉ diff.nodesRemoved := by
          rcases endpoint with rfl | rfl
          · exact src
          · exact dst
        have status := (covers.nodes x).mpr ⟨Or.inl had, stays⟩
        exact absurd (status.symm.trans lost) (by simp)
    · have valid := addressed.edgesAdded e new
      rw [mem_edges_iff addressed.edgesAdded valid] at new
      rw [mem_edges_iff addressed.edgesRemoved valid] at kept
      exact (mem_visibleEdges keyed' e).mpr
        ⟨valid, (covers.edges _).mpr ⟨Or.inr new, kept⟩, src, dst⟩
    · obtain ⟨k, listed, rfl⟩ := mem_map.mp restored
      have alive := ((mem_collectReaddedEdgeKeys _ k).mp (mem_filter.mp listed).1).1
      obtain ⟨d, tagged, -⟩ := after.edgeAlive.contains_iff.mp alive
      apply (mem_visibleEdges_iff after keyed' (keyed'.edges k d tagged)).mpr
      simp only [visibleEdge, Bool.and_eq_true]
      exact ⟨⟨alive, src⟩, dst⟩
  · intro visible
    obtain ⟨valid, alive, src, dst⟩ := (mem_visibleEdges keyed' e).mp visible
    have listed := (covers.edges _).mp alive
    have kept : e ∉ diff.edgesRemoved := by
      rw [mem_edges_iff addressed.edgesRemoved valid]
      exact listed.2
    by_cases added : e ∈ diff.edgesAdded
    · exact Or.inl ⟨Or.inr ⟨added, src, dst⟩, kept⟩
    · rcases bridge.shown e visible with old | dead | ⟨x, endpoint, wasDead, known⟩
      · exact Or.inl ⟨Or.inl ⟨old, ((covers.nodes _).mp src).2, ((covers.nodes _).mp dst).2⟩, kept⟩
      · rw [mem_edges_iff addressed.edgesAdded valid] at added
        have had := listed.1.resolve_right added
        exact absurd (had.symm.trans dead) (by simp)
      · -- an edge that shows again, at a node that the tree knows
        right
        have decoded : decodeEdgeKey (PatchDiff.edgeKey e) = e :=
          decodeEdgeKey_encodeEdgeKey valid.1 valid.2.1 valid.2.2
        refine ⟨mem_map.mpr ⟨PatchDiff.edgeKey e, mem_filter.mpr ⟨?_, ?_⟩, decoded⟩, src, dst⟩
        · have isAlive : visibleNode after x = true := by
            rcases endpoint with rfl | rfl
            · exact src
            · exact dst
          have readded : x ∈ diff.nodesAdded.filter t.nodeToGlobal.has := by
            rw [mem_filter]
            refine ⟨?_, known⟩
            apply ((covers.nodes x).mp isAlive).1.resolve_left
            exact fun wasAlive => absurd (wasDead.symm.trans wasAlive) (by simp)
          rw [mem_collectReaddedEdgeKeys, decoded]
          rcases endpoint with rfl | rfl
          · exact ⟨alive, Or.inl readded⟩
          · exact ⟨alive, Or.inr readded⟩
        · rw [decoded, Bool.not_eq_true', OrdSet.has_eq_false_iff, OrdSet.mem_ofList,
            ← mem_edges_iff addressed.edgesAdded valid]
          exact added

omit [StrictEq V] in
theorem filter_reports (addressed : diff.Addressed) (backed : Backed diff.propsChanged after)
    (valid : ValidId k) :
    (diff.propsChanged.filter fun p => p.nodeId = x ∧ p.key = k) =
      diff.propsChanged.filter fun p => p.registerKey = encodePropKey x k := by
  apply filter_congr
  intro p mem
  rw [PropDiffEntry.registerKey, if_neg (backed p mem).1, decide_eq_decide]
  constructor
  · rintro ⟨rfl, rfl⟩
    rfl
  · intro same
    exact append_separator_inj (addressed.propsChanged p mem).keyed.separated
      valid.separated same

theorem property_after (covers : Covers before after diff) (addressed : diff.Addressed)
    (backed : Backed diff.propsChanged after) (defined : before.Defined) (defined' : after.Defined)
    (u) (x k) (valid : ValidId k) (held : u.property x k = before.nodeProperty x k ∨
      before.nodeProperty x k ≠ after.nodeProperty x k) :
    (handleProps diff.propsChanged u).property x k = after.nodeProperty x k := by
  rw [handleProps, property_foldl PropDiffEntry.nodeId PropDiffEntry.key PropDiffEntry.value,
    filter_reports addressed backed valid]
  have last := covers.propsChanged (encodePropKey x k)
  cases found : (diff.propsChanged.filter fun p =>
      p.registerKey = encodePropKey x k).getLast? with
  | some p =>
    rw [found] at last
    have mem := mem_of_getLast? found
    rw [← filter_reports addressed backed valid, mem_filter, decide_eq_true_eq] at mem
    obtain ⟨listed, rfl, rfl⟩ := mem
    have present := propValue_of_isSome _ (backed p listed).2
    rw [Option.map_some, Option.some_or, WarpState.nodeProperty, present, last]
  | none =>
    rw [found] at last
    have same : before.nodeProperty x k = after.nodeProperty x k :=
      ((propValue_eq_iff defined' defined _).mp last).symm
    rcases held with here | changed
    · rw [Option.map_none, Option.none_or, here, same]
    · exact absurd same changed

/-- What the phases for nodes and edges leave of a tree, before the properties. The tree may
differ from the state before where the state after is as the tree. -/
theorem nodes_edges_after (held : t.Holds E) (keyed' : after.Keyed)
    (covers : Covers before after diff) (addressed : diff.Addressed)
    (nodes : ∀ x, t.isAlive x ≠ visibleNode before x → visibleNode after x = t.isAlive x)
    (bridge : t.EdgesBridge E before after) (addsOk : handleNodeAdds diff.nodesAdded t = .ok added) :
    ∃ u, t.applyDiff diff after = .ok (handleProps diff.propsChanged u) ∧
      u.Holds {e | e ∈ visibleEdges after} ∧ (∀ x, u.isAlive x = visibleNode after x) ∧
      (∀ x, (u.nodeToGlobal.get x).isSome = true ↔
        (t.nodeToGlobal.get x).isSome = true ∨ x ∈ diff.nodesAdded) ∧ u.props = t.props := by
  obtain ⟨holds, adds⟩ := held.handleNodeAdds _ _ addsOk
  obtain ⟨cleared, alive, sameNumbers, sameProps⟩ := holds.handleNodeRemoves diff.nodesRemoved added
  have status : ∀ x, (diff.nodesRemoved.foldl IndexTree.handleNodeRemove added).isAlive x =
      visibleNode after x := by
    intro x
    rw [Bool.eq_iff_iff, alive, adds.alive]
    refine Iff.trans ?_ (covers.nodes x).symm
    by_cases same : t.isAlive x = visibleNode before x
    · rw [same]
      rfl
    · -- the state after decides as the tree does
      have decided := nodes x same
      have change := covers.nodes x
      simp only [nodeStatus, visibleNode] at same decided change ⊢
      cases inTree : t.isAlive x <;> cases inState : before.nodeAlive.contains x <;>
        simp_all
  obtain ⟨purged, samePurged⟩ := cleared.purge diff.nodesRemoved _ _
  have numbered : (diff.nodesRemoved.foldl IndexTree.purgeNodeEdges
      (diff.nodesRemoved.foldl IndexTree.handleNodeRemove added)).CoversAlive after := by
    intro x visible
    rw [samePurged.nodes]
    exact numbered_of_isAlive _ ((status x).trans visible)
  obtain ⟨linked, sameLinked⟩ := purged.link diff.edgesAdded _ _ numbered
  obtain ⟨unlinked, sameUnlinked⟩ := linked.unlink _ _
  have soFar := (samePurged.trans sameLinked).trans sameUnlinked
  obtain ⟨restored, sameRestored⟩ := unlinked.link
    (((collectReaddedEdgeKeys after (diff.nodesAdded.filter t.nodeToGlobal.has)).filter fun k =>
      !(OrdSet.ofList (diff.edgesAdded.map PatchDiff.edgeKey)).has
        (PatchDiff.edgeKey (decodeEdgeKey k))).map decodeEdgeKey) _ _ (by
      intro x visible
      rw [soFar.nodes]
      exact numbered_of_isAlive _ ((status x).trans visible))
  rw [← restoreEdges_eq] at restored sameRestored
  have same := soFar.trans sameRestored
  refine ⟨_, by rw [applyDiff_eq, addsOk]; rfl, restored.congr fun e => ?_, fun x => ?_, fun x => ?_, ?_⟩
  · simpa only [Set.mem_ofPred_eq] using edges_after keyed' covers addressed bridge e
  · rw [same.isAlive, status]
  · rw [same.nodes, sameNumbers, adds.numbered]
  · rw [same.props, sameProps, adds.props]

/-- A diff that covers the change takes a tree of the state before to one of the state after. -/
theorem Reflects.applyDiff (reflects : t.Reflects before) (keyed : before.Keyed)
    (keyed' : after.Keyed) (covers : Covers before after diff) (addressed : diff.Addressed)
    (backed : Backed diff.propsChanged after) (defined : before.Defined) (defined' : after.Defined)
    (learns : t.Learns before after diff.nodesAdded) :
    ∃ t', t.applyDiff diff after = .ok t' ∧ t'.Reflects after := by
  obtain ⟨added, addsOk⟩ := learns.room.handleNodeAdds
  obtain ⟨u, updated, holds, alive, numbers, kept⟩ :=
    nodes_edges_after reflects.edges keyed' covers addressed
      (fun x apart => absurd (reflects.alive x) apart) (Reflects.edgesBridge keyed keyed' learns) addsOk
  obtain ⟨props, onlyProps⟩ := foldl_addProperty u
  have names : ∀ x, (u.nodeToGlobal.get x).isSome = true → ValidId x := by
    intro x present
    rcases (numbers x).mp present with old | new
    · exact reflects.valid x old
    · exact covers.named x new
  have sound := PropsSound.foldl PropDiffEntry.value u (by
      obtain ⟨node, key, filled⟩ := reflects.sound
      constructor <;> rw [kept] <;> assumption)
    fun p mem => ⟨⟨(addressed.propsChanged p mem).named, (backed p mem).1,
      (addressed.propsChanged p mem).node (backed p mem).1⟩,
      (addressed.propsChanged p mem).keyed⟩
  have read := property_after covers addressed backed defined defined' u
  refine ⟨_, updated, ?_⟩
  rw [handleProps, onlyProps] at *
  refine ⟨holds.withProps, alive, names, sound, fun x k present valid => read x k valid ?_⟩
  have same : u.property x k = t.property x k := by rw [property, property, kept]
  rw [same]
  by_cases known : (t.nodeToGlobal.get x).isSome = true
  · exact Or.inl (reflects.props x k known valid)
  · rcases (numbers x).mp present with old | new
    · exact absurd old known
    · exact learns.props x new (by simpa using known) k valid

end Update
end IndexTree

/-! ### Chains -/

structure Indexed (V : Type) where
  state : WarpState V
  tree : IndexTree V

/-- Reduces more patches with diff tracking and brings the tree along. -/
def Indexed.advance (current : Indexed V) (patches : List (PatchEntry V)) :
    Except Failure (Indexed V) := do
  let (state, diff) ← reducePatchesWithDiff patches current.state
  let tree ← current.tree.applyDiff diff state
  pure ⟨state, tree⟩

def Indexed.follow : List (List (PatchEntry V)) → Indexed V → Except Failure (Indexed V)
  | [], current => .ok current
  | patches :: rest, current => do
    let next ← current.advance patches
    follow rest next

/-- When a step leaves nothing for the updater to guess: its diff is exact, it changes the
value of no edge property, and the tree knows or learns what newly alive nodes bring along. -/
structure Indexed.Trackable (current : Indexed V) (patches : List (PatchEntry V)) : Prop where
  unique : OneElementPerDot (current.state.facts ∪ historyFacts patches)
  settles : TogglesSettle current.state patches
  edgeValues : PatchesKeepEdgeValues current.state patches
  learns : ∀ after, reducePatches patches current.state = .ok after →
    current.tree.Learns current.state after (IndexTree.newNodes current.state after)

/-- Every step of a chain is one that the updater can follow. -/
def Indexed.TrackableAlong : List (List (PatchEntry V)) → Indexed V → Prop
  | [], _ => True
  | patches :: rest, current => current.Trackable patches ∧
    ∀ next, current.advance patches = .ok next → TrackableAlong rest next

/-- What holds of the state and the tree along a chain. -/
structure Indexed.Sound (current : Indexed V) : Prop where
  reachable : Reachable current.state
  defined : current.state.Defined
  reflects : current.tree.Reflects current.state

omit [StrictEq V] in
theorem Reachable.reduce (reachable : Reachable s) {entries : List (PatchEntry V)}
    (valid : ∀ entry ∈ entries, entry.WellFormed) (reduced : reducePatches entries s = .ok t) :
    Reachable t := by
  obtain ⟨earlier, all, before⟩ := reachable
  refine ⟨earlier ++ entries, fun e mem => ?_, ?_⟩
  · exact (mem_append.mp mem).elim (all e) (valid e)
  · rw [reducePatches_append, before]
    exact reduced

omit [StrictEq V] in
theorem WarpState.Keyed.addressed {s : WarpState V} (keyed : s.Keyed) : s.Addressed :=
  ⟨fun x d tagged => (keyed.nodes x d tagged).nonempty, fun k d tagged => keyed.edges k d tagged⟩

theorem reducePatchesWithDiff_reports (keyed : s.Keyed) {patches : List (PatchEntry V)}
    (valid : ∀ entry ∈ patches, entry.WellFormed)
    (unique : OneElementPerDot (s.facts ∪ historyFacts patches)) (settles : TogglesSettle s patches)
    (edgeValues : PatchesKeepEdgeValues s patches) :
    ∃ after diff, reducePatchesWithDiff patches s = .ok (after, diff) ∧
      reducePatches patches s = .ok after ∧ ExactDiff s after diff ∧ diff.Addressed ∧
      Backed diff.propsChanged after := by
  obtain ⟨after, diff, reduced, plain, addressed, exactness⟩ :=
    reducePatchesWithDiff_spec valid keyed.addressed unique
  refine ⟨after, diff, reduced, plain, exactness.mpr settles, addressed, ?_⟩
  apply reduceWithDiffFrom_backed s after .empty diff valid edgeValues ?_ reduced
  intro entry none_
  cases none_

theorem Indexed.Sound.advance {current : Indexed V} (sound : current.Sound)
    (valid : ∀ entry ∈ patches, entry.WellFormed) (writes : WritesDefined patches)
    (trackable : current.Trackable patches) :
    ∃ next, current.advance patches = .ok next ∧
      reducePatches patches current.state = .ok next.state ∧ next.Sound := by
  have keyed := sound.reachable.keyed
  obtain ⟨after, diff, reduced, plain, exact_, addressed, backed⟩ :=
    reducePatchesWithDiff_reports keyed valid trackable.unique
      trackable.settles trackable.edgeValues
  have reachable := sound.reachable.reduce valid plain
  have defined := sound.defined.reduce writes plain
  obtain ⟨tree, updated, reflects⟩ := sound.reflects.applyDiff keyed reachable.keyed
    (IndexTree.covers_of_exact reachable.keyed exact_) addressed backed sound.defined defined
    ((trackable.learns after plain).perm (IndexTree.nodesAdded_perm exact_))
  refine ⟨⟨after, tree⟩, ?_, plain, reachable, defined, reflects⟩
  simp only [Indexed.advance, reduced, bind, Except.bind, updated]
  rfl

theorem Indexed.Sound.follow (chain) (current : Indexed V) (sound : current.Sound)
    (valid : ∀ patches ∈ chain, ∀ entry ∈ patches, entry.WellFormed)
    (writes : ∀ patches ∈ chain, WritesDefined patches) (along : TrackableAlong chain current) :
    ∃ last, follow chain current = .ok last ∧
      reducePatches chain.flatten current.state = .ok last.state ∧ last.Sound := by
  induction chain generalizing current with
  | nil => exact ⟨current, rfl, rfl, sound⟩
  | cons patches rest ih =>
    obtain ⟨next, advanced, reduced, after⟩ := sound.advance
      (valid patches mem_cons_self) (writes patches mem_cons_self) along.1
    obtain ⟨last, followed, reducedRest, final⟩ := ih next after
      (forall_mem_cons.mp valid).2
      (forall_mem_cons.mp writes).2 (along.2 next advanced)
    refine ⟨last, ?_, ?_, final⟩
    · simp only [Indexed.follow, advanced, bind, Except.bind]
      exact followed
    · rw [flatten_cons, reducePatches_append, reduced]
      exact reducedRest

/-- An index that is built once and then follows the diffs of a chain of reductions answers
as the index that is built from the last state. -/
theorem incremental_index_follows (s₀ : WarpState V) (t₀ : IndexTree V)
    (chain : List (List (PatchEntry V))) (reachable : Reachable s₀) (defined : s₀.Defined)
    (built : IndexTree.build s₀ = .ok t₀)
    (valid : ∀ patches ∈ chain, ∀ entry ∈ patches, entry.WellFormed)
    (writes : ∀ patches ∈ chain, WritesDefined patches)
    (along : Indexed.TrackableAlong chain ⟨s₀, t₀⟩) :
    ∃ last fresh, Indexed.follow chain ⟨s₀, t₀⟩ = .ok last ∧
      reducePatches chain.flatten s₀ = .ok last.state ∧
      IndexTree.build last.state = .ok fresh ∧ last.tree.SameAnswers fresh := by
  obtain ⟨last, followed, reduced, sound⟩ := Indexed.Sound.follow chain ⟨s₀, t₀⟩
    ⟨reachable, defined, IndexTree.build_reflects reachable.keyed t₀ built⟩ valid writes along
  obtain ⟨fresh, rebuilt⟩ := sound.reflects.build_ok
  have keyed := sound.reachable.keyed
  exact ⟨last, fresh, followed, reduced, rebuilt,
    sound.reflects.sameAnswers keyed (IndexTree.build_reflects keyed fresh rebuilt)⟩

omit [StrictEq V] in
theorem togglesSettle_of_single {entry : PatchEntry V} (short : entry.events.length ≤ 1) :
    TogglesSettle s [entry] := by
  have few : ∀ (c : Bool) (trace : List Bool), trace.length ≤ 1 →
      ¬ 2 ≤ rises c trace + falls c trace := by
    intro c trace bound
    match trace, bound with
    | [], _ => simp [rises, falls]
    | [b], _ => cases c <;> cases b <;> simp [rises, falls]
  constructor <;> intro k <;>
    simp only [patchTraces, baseline] <;>
    rw [if_neg (few _ _ (by rw [length_trace]; exact short))]

theorem sampleAdd_ops : ∀ event ∈ sampleAdd.events,
    event.2.op = .nodeAdd (lit "n") ⟨lit "a", 1, by decide, by decide⟩ := by
  have listed : sampleAdd.events.map (fun event => event.2.op) =
      [.nodeAdd (lit "n") ⟨lit "a", 1, by decide, by decide⟩] := rfl
  intro event mem
  have known := mem_map_of_mem (f := fun event : Event Nat => event.2.op) mem
  exact mem_singleton.mp known

theorem sampleAdd_unique : OneElementPerDot (WarpState.empty.facts ∪ historyFacts [sampleAdd]) := by
  apply oneElement_of_events
  · intro event mem x dot op
    have known := sampleAdd_ops event mem
    rw [op] at known
    exact (Op.nodeAdd.inj known).1
  · intro event mem src dst label dot op
    have known := sampleAdd_ops event mem
    rw [op] at known
    cases known

theorem sampleAdd_edgeValues : EdgeValuesKept .empty sampleAdd.events := by
  refine ⟨?_, trivial⟩
  intro src dst label key value op
  cases op

theorem incremental_index_follows_sample :
    ∃ last fresh, Indexed.follow [[sampleAdd]] ⟨.empty, .empty⟩ = .ok last ∧
      reducePatches [sampleAdd] .empty = .ok last.state ∧
      IndexTree.build last.state = .ok fresh ∧ last.tree.SameAnswers fresh := by
  refine incremental_index_follows .empty .empty [[sampleAdd]] ⟨[], by simp, rfl⟩ defined_empty
    rfl ?_ ?_ ⟨⟨sampleAdd_unique, ?_, ⟨sampleAdd_edgeValues, trivial⟩, ?_⟩, fun _ _ => trivial⟩
  · simpa using sampleAdd_wellFormed
  · intro patches member k r written
    cases mem_singleton.mp member
    obtain ⟨entry, listed, effect, found, inside⟩ := written
    cases mem_singleton.mp listed
    rcases inside with ⟨event, among, fact⟩ | ⟨w, other⟩ | ⟨tick, -, other⟩
    · have here : event ∈ sampleAdd.events := by simpa only [PatchEntry.events, found] using among
      rw [sampleAdd_ops event here] at fact
      cases fact
    · cases other
    · cases other
  · exact togglesSettle_of_single (by decide)
  · intro after reduced
    cases reduced
    refine ⟨?_, ?_, ?_⟩
    · intro e _ _ had
      cases had
    · intro x _ _ k _
      exact Or.inl rfl
    · intro k
      exact (Nat.zero_add _).le.trans ((length_filter_le _ _).trans (by decide))

/-! ### An edge that is older than its endpoint -/

/-- A node and an edge from it to a node that does not exist yet. -/
def linkEarly : PatchEntry Nat where
  patch := ⟨lit "a", 1,
    [.decoded { OpLike.bare (lit "NodeAdd") 0 with
        node := some (lit "m"), dot := some (.raw ⟨some (lit "a"), some (.int 1)⟩) },
      .decoded { OpLike.bare (lit "EdgeAdd") 0 with
        src := some (lit "m"), dst := some (lit "n"), label := some (lit "l")
        dot := some (.raw ⟨some (lit "a"), some (.int 2)⟩) }], .absent⟩
  sha := lit "aaaa"

def addLate : PatchEntry Nat where
  patch := ⟨lit "a", 2, [.decoded { OpLike.bare (lit "NodeAdd") 0 with
    node := some (lit "n"), dot := some (.raw ⟨some (lit "a"), some (.int 3)⟩) }], .absent⟩
  sha := lit "bbbb"

theorem linkEarly_wellFormed : linkEarly.WellFormed :=
  .of_checks (by decide)

theorem addLate_wellFormed : addLate.WellFormed :=
  .of_checks (by decide)

/-- Adding the missing endpoint shows the edge in a new index and not in the one that followed. -/
theorem incremental_index_misses_edge :
    ∃ s₀ t₀ last fresh, Reachable s₀ ∧ IndexTree.build s₀ = .ok t₀ ∧
      Indexed.follow [[addLate]] ⟨s₀, t₀⟩ = .ok last ∧ IndexTree.build last.state = .ok fresh ∧
      ¬ last.tree.SameAnswers fresh := by
  have evaluated : (do
      let s ← reducePatches [linkEarly] .empty
      let t ← IndexTree.build s
      let last ← Indexed.follow [[addLate]] ⟨s, t⟩
      let fresh ← IndexTree.build last.state
      pure ((last.tree.getNeighbors (lit "m") .out none).length,
        (fresh.getNeighbors (lit "m") .out none).length)) = .ok (0, 1) := by
    decide +kernel
  obtain ⟨s, reduced, rest⟩ := bind_eq_ok.mp evaluated
  obtain ⟨t, built, rest⟩ := bind_eq_ok.mp rest
  obtain ⟨last, followed, rest⟩ := bind_eq_ok.mp rest
  obtain ⟨fresh, rebuilt, answers⟩ := bind_eq_ok.mp rest
  refine ⟨s, t, last, fresh, ⟨[linkEarly], ?_, reduced⟩, built, followed, rebuilt, fun same => ?_⟩
  · intro entry member
    exact mem_singleton.mp member ▸ linkEarly_wellFormed
  · have lengths := Except.ok.inj answers
    rw [same.neighbors] at lengths
    exact absurd ((Prod.mk.inj lengths).1.symm.trans (Prod.mk.inj lengths).2) (by decide)

end GitWarp
