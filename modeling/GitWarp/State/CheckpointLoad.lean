import GitWarp.State.StateSerializer

/-!
# A state rebuilt from a checkpoint

A checkpoint keeps the visible projection of a state, without the dots of its
elements. The rebuilt state shows that projection again, but all of its nodes
share one dot and all of its edges share it too, so a remove that observes the
dots of one element takes its siblings away as well.
-/
namespace GitWarp

open Js Lib KeyCodec List

variable {V : Type}

theorem checkpoint_named : lit "__checkpoint__" ≠ [] := by decide

theorem zeroSha_hex : isHexOid (List.replicate 40 (48 : CodeUnit)) = true := by decide

/-- `syntheticDot`: the one dot of everything that was loaded. -/
def syntheticDot : Dot := ⟨lit "__checkpoint__", 1, checkpoint_named, Nat.one_pos⟩

def syntheticEventId : EventId :=
  ⟨1, lit "__checkpoint__", List.replicate 40 48, 0, Nat.one_pos, checkpoint_named, zeroSha_hex⟩

/-- One loop of the loader: each key is added with the synthetic dot. -/
def addSynthetic (alive : ORSet) (keys : List JsString) : ORSet :=
  keys.foldl (fun alive key => alive.add key syntheticDot) alive

/-- `encodeEdgeKey` at the fields of an edge. -/
def edgeKeyOf (edge : EdgeParts) : JsString := encodeEdgeKey edge.src edge.dst edge.label

/-- The birth event of the edges is below every real one; the constructor of events refuses
it and the source bypasses the constructor, so it is a parameter here. -/
def reconstructStateFromCheckpoint (sentinelBirthEvent : EventId)
    (visibleProjection : StateProjection V) : WarpState V where
  nodeAlive := addSynthetic .empty visibleProjection.nodes
  edgeAlive := addSynthetic .empty (visibleProjection.edges.map edgeKeyOf)
  prop := .ofList (visibleProjection.props.map fun p =>
    (encodePropKey p.node p.key, ⟨syntheticEventId, p.value⟩))
  observedFrontier := .empty
  edgeBirthEvent := .ofList (visibleProjection.edges.map fun edge =>
    (edgeKeyOf edge, sentinelBirthEvent))

/-! ### Local removes -/

/-- Removing a node by its live dots takes away the node and its edges, and nothing else. -/
def RemovesNode (s : WarpState V) (x : JsString) : Prop :=
  ∀ eventId, let after := (Op.nodeRemove x (s.nodeAlive.getDots x).toList).mutate s eventId
    (∀ y, visibleNode after y = true ↔ visibleNode s y = true ∧ y ≠ x) ∧
    ∀ k, visibleEdge after k = true ↔ visibleEdge s k = true ∧
      (decodeEdgeKey k).src ≠ x ∧ (decodeEdgeKey k).dst ≠ x

/-- Removing an edge by its live dots takes away the edge, and nothing else. -/
def RemovesEdge (s : WarpState V) (edge : EdgeParts) : Prop :=
  ∀ eventId, let after := (Op.edgeRemove edge.src edge.dst edge.label
      (s.edgeAlive.getDots (edgeKeyOf edge)).toList).mutate s eventId
    (∀ y, visibleNode after y = visibleNode s y) ∧
    ∀ k, visibleEdge after k = true ↔ visibleEdge s k = true ∧ k ≠ edgeKeyOf edge

/-- The state `t`, rebuilt from the projection of `s`, shows it and can be edited. -/
structure Editable (s t : WarpState V) : Prop where
  projection : projectState t = projectState s
  nodes : ∀ x, visibleNode t x = true → RemovesNode t x
  edges : ∀ edge, visibleEdge t (edgeKeyOf edge) = true → RemovesEdge t edge

/-! ### What is alive after the loops -/

theorem tombstones_addSynthetic (alive) (keys) :
    (addSynthetic alive keys).tombstones = alive.tombstones := by
  induction keys generalizing alive with
  | nil => rfl
  | cons key rest ih => exact ih (alive.add key syntheticDot)

theorem mem_dotsOf_addSynthetic (alive) (keys) (x d) :
    d ∈ (addSynthetic alive keys).dotsOf x ↔
      d ∈ alive.dotsOf x ∨ x ∈ keys ∧ d = syntheticDot.encode := by
  induction keys generalizing alive with
  | nil => simp [addSynthetic]
  | cons key rest ih =>
    rw [show addSynthetic alive (key :: rest) = addSynthetic (alive.add key syntheticDot) rest
      from rfl, ih, ORSet.mem_dotsOf_add, mem_cons]
    tauto

/-- The loaded elements are those of the list, each with the synthetic dot alone. -/
theorem mem_dotsOf_loaded (keys) (x d) :
    d ∈ (addSynthetic .empty keys).dotsOf x ↔ x ∈ keys ∧ d = syntheticDot.encode := by
  simp [mem_dotsOf_addSynthetic]

theorem contains_loaded (keys) (x) : (addSynthetic .empty keys).contains x = true ↔ x ∈ keys := by
  rw [ORSet.contains_iff, tombstones_addSynthetic]
  simp only [mem_dotsOf_loaded]
  constructor
  · rintro ⟨d, ⟨mem, -⟩, -⟩
    exact mem
  · intro mem
    exact ⟨_, ⟨mem, rfl⟩, OrdSet.not_mem_empty _⟩

/-- Observing the dots of one loaded element is observing the dot of them all. -/
theorem contains_remove_loaded (keys) {x : JsString} (mem : x ∈ keys) (y) :
    ((addSynthetic .empty keys).remove
      (.ofList ((addSynthetic .empty keys).getDots x).toList)).contains y = false := by
  rw [Bool.eq_false_iff, Ne, ORSet.contains_iff]
  rintro ⟨d, tagged, live⟩
  rw [ORSet.dotsOf_remove, mem_dotsOf_loaded] at tagged
  apply live
  rw [ORSet.mem_tombstones_remove, OrdSet.mem_ofList, OrdSet.mem_toList, ORSet.mem_getDots,
    mem_dotsOf_loaded, tombstones_addSynthetic]
  exact Or.inr ⟨⟨mem, tagged.2⟩, OrdSet.not_mem_empty _⟩

/-! ### What the rebuilt state shows -/

section Rebuilt

variable (sentinel : EventId) (s : WarpState V)

theorem edgeKeyOf_decode (key : IsEdgeKey k) : edgeKeyOf (decodeEdgeKey k) = k := by
  obtain ⟨src, dst, label, validSrc, validDst, validLabel, rfl⟩ := key
  rw [decodeEdgeKey_encodeEdgeKey validSrc validDst validLabel]
  rfl

theorem visibleNode_rebuilt (x) :
    visibleNode (reconstructStateFromCheckpoint sentinel (projectState s)) x = visibleNode s x := by
  rw [Bool.eq_iff_iff, visibleNode, reconstructStateFromCheckpoint, contains_loaded, projectState,
    mem_sortBy, ORSet.mem_elements_iff, visibleNode]

section

variable (keyed : s.Keyed)
include keyed

theorem mem_loadedEdges : k ∈ (projectState s).edges.map edgeKeyOf ↔ visibleEdge s k = true := by
  simp only [projectState, mem_map, mem_sortBy, visibleEdges, mem_filter]
  constructor
  · rintro ⟨-, ⟨k', ⟨-, visible⟩, rfl⟩, rfl⟩
    rw [edgeKeyOf_decode (visibleEdge_isEdgeKey s keyed visible)]
    exact visible
  · intro visible
    have alive := visible
    simp only [visibleEdge, Bool.and_eq_true] at alive
    exact ⟨_, ⟨k, ⟨s.edgeAlive.mem_elements_iff.mpr alive.1.1, visible⟩, rfl⟩,
      edgeKeyOf_decode (visibleEdge_isEdgeKey s keyed visible)⟩

theorem visibleEdge_rebuilt (k) :
    visibleEdge (reconstructStateFromCheckpoint sentinel (projectState s)) k = visibleEdge s k := by
  rw [Bool.eq_iff_iff]
  constructor
  · intro visible
    simp only [visibleEdge, Bool.and_eq_true] at visible
    exact (mem_loadedEdges s keyed).mp ((contains_loaded _ k).mp visible.1.1)
  · intro visible
    have loaded := (contains_loaded _ k).mpr ((mem_loadedEdges s keyed).mpr visible)
    simp only [visibleEdge, Bool.and_eq_true] at visible ⊢
    -- the endpoints of the edge are visible nodes, so they were loaded too
    exact ⟨⟨loaded, (visibleNode_rebuilt sentinel s _).trans visible.1.2⟩,
      (visibleNode_rebuilt sentinel s _).trans visible.2⟩

theorem get_loadedProps (k) (r) :
    (reconstructStateFromCheckpoint sentinel (projectState s)).prop.get k = some r ↔
      ∃ p ∈ visibleProps s, k = encodePropKey p.node p.key ∧ r = ⟨syntheticEventId, p.value⟩ := by
  -- two visible properties of one key are one, so no write of the loop is lost
  have distinct : (((projectState s).props.map fun p =>
      (encodePropKey p.node p.key, (⟨syntheticEventId, p.value⟩ : LWWRegister V))).map
        Prod.fst).Nodup := by
    rw [map_map]
    have nodup := nodup_visibleProps s keyed
    have sorted := ((perm_sortBy propOrder (visibleProps s)).nodup_iff).mpr nodup.of_map
    refine List.Nodup.map_on ?_ sorted
    intro p left q right same
    rw [projectState, mem_sortBy] at left right
    have here := (mem_visibleProps_iff s keyed p).mp left
    have there := (mem_visibleProps_iff s keyed q).mp right
    obtain ⟨node, key⟩ := encodePropKey_inj here.1 there.1 here.2.1 there.2.1 same
    exact inj_on_of_nodup_map nodup left right (by rw [propOrder, propOrder, node, key])
  rw [reconstructStateFromCheckpoint, OrdMap.get_ofList_of_nodup _ distinct, mem_map]
  simp only [projectState, mem_sortBy, Prod.mk.injEq, eq_comm]

theorem keyed_rebuilt :
    (reconstructStateFromCheckpoint sentinel (projectState s)).Keyed where
  nodes := by
    intro x d tagged
    have member := ((mem_dotsOf_loaded _ x d).mp tagged).1
    rw [projectState, mem_sortBy, ORSet.mem_elements_iff, ORSet.contains_iff] at member
    obtain ⟨d, alive, -⟩ := member
    exact keyed.nodes x d alive
  edges := by
    intro k d tagged
    have member := ((mem_dotsOf_loaded _ k d).mp tagged).1
    exact visibleEdge_isEdgeKey s keyed ((mem_loadedEdges s keyed).mp member)
  props := by
    intro k r found
    obtain ⟨p, member, rfl, -⟩ := (get_loadedProps sentinel s keyed k r).mp found
    have valid := (mem_visibleProps_iff s keyed p).mp member
    exact Or.inl ⟨p.node, p.key, valid.1, valid.2.1, rfl⟩
  births := by
    intro k e found
    obtain ⟨edge, member, same⟩ := mem_map.mp
      (OrdMap.mem_of_mem_entries_ofList _ ((OrdMap.mem_entries_iff _ _).mpr found))
    obtain ⟨rfl, -⟩ := Prod.mk.inj same
    exact visibleEdge_isEdgeKey s keyed
      ((mem_loadedEdges s keyed).mp (mem_map_of_mem member))

/-- The projection survives the rebuilding. -/
theorem projectState_rebuilt :
    projectState (reconstructStateFromCheckpoint sentinel (projectState s)) = projectState s := by
  rw [projectState_eq_iff (keyed_rebuilt sentinel s keyed) keyed]
  refine ⟨visibleNode_rebuilt sentinel s, visibleEdge_rebuilt sentinel s keyed, ?_⟩
  intro p
  rw [mem_visibleProps_iff _ (keyed_rebuilt sentinel s keyed), visibleNode_rebuilt]
  simp only [get_loadedProps sentinel s keyed]
  constructor
  · rintro ⟨validNode, validKey, -, r, ⟨q, member, same, rfl⟩, value⟩
    have valid := (mem_visibleProps_iff s keyed q).mp member
    obtain ⟨node, key⟩ := encodePropKey_inj validNode valid.1 validKey valid.2.1 same
    cases p
    cases q
    simp_all
  · intro member
    have valid := (mem_visibleProps_iff s keyed p).mp member
    exact ⟨valid.1, valid.2.1, valid.2.2.1, _, ⟨p, member, rfl, rfl⟩, rfl⟩

/-! ### Exactly the smallest graphs are editable -/

/-- A remove of a loaded node is local iff it is the only node. -/
theorem removesNode_rebuilt_iff {x : JsString} (visible : visibleNode s x = true) :
    RemovesNode (reconstructStateFromCheckpoint sentinel (projectState s)) x ↔
      ∀ y, visibleNode s y = true → y = x := by
  have mem : x ∈ (projectState s).nodes := by
    rw [← contains_loaded]
    exact (visibleNode_rebuilt sentinel s x).trans visible
  have gone := contains_remove_loaded _ mem
  constructor
  · intro local_ y shown
    by_contra other
    have kept := ((local_ syntheticEventId).1 y).mpr
      ⟨(visibleNode_rebuilt sentinel s y).trans shown, other⟩
    exact absurd kept (Bool.eq_false_iff.mp (gone y))
  · intro only eventId
    refine ⟨fun y => ⟨fun shown => absurd shown (Bool.eq_false_iff.mp (gone y)), ?_⟩,
      fun k => ⟨?_, ?_⟩⟩
    · rintro ⟨shown, other⟩
      rw [visibleNode_rebuilt] at shown
      exact absurd (only y shown) other
    · intro shown
      simp only [visibleEdge, Bool.and_eq_true] at shown
      exact absurd shown.2 (Bool.eq_false_iff.mp (gone _))
    · rintro ⟨shown, other, -⟩
      rw [visibleEdge_rebuilt sentinel s keyed] at shown
      simp only [visibleEdge, Bool.and_eq_true] at shown
      exact absurd (only _ shown.1.2) other

/-- A remove of a loaded edge is local iff it is the only edge. -/
theorem removesEdge_rebuilt_iff {edge : EdgeParts} (visible : visibleEdge s (edgeKeyOf edge) = true) :
    RemovesEdge (reconstructStateFromCheckpoint sentinel (projectState s)) edge ↔
      ∀ k, visibleEdge s k = true → k = edgeKeyOf edge := by
  have gone := contains_remove_loaded _ ((mem_loadedEdges s keyed).mpr visible)
  constructor
  · intro local_ k shown
    by_contra other
    have kept := ((local_ syntheticEventId).2 k).mpr
      ⟨(visibleEdge_rebuilt sentinel s keyed k).trans shown, other⟩
    simp only [visibleEdge, Bool.and_eq_true] at kept
    exact absurd kept.1.1 (Bool.eq_false_iff.mp (gone k))
  · intro only eventId
    refine ⟨fun y => rfl, fun k => ⟨?_, ?_⟩⟩
    · intro shown
      simp only [visibleEdge, Bool.and_eq_true] at shown
      exact absurd shown.1.1 (Bool.eq_false_iff.mp (gone k))
    · rintro ⟨shown, other⟩
      rw [visibleEdge_rebuilt sentinel s keyed] at shown
      exact absurd (only k shown) other

end

end Rebuilt

/-- The rebuilt state always shows the projection, and it can be edited exactly when the
graph has at most one node and at most one edge. -/
theorem reconstructed_editable_iff (sentinel : EventId) (s : WarpState V) (reachable : Reachable s) :
    Editable s (reconstructStateFromCheckpoint sentinel (projectState s)) ↔
      (∀ x y, visibleNode s x = true → visibleNode s y = true → x = y) ∧
      ∀ j k, visibleEdge s j = true → visibleEdge s k = true → j = k := by
  have keyed := reachable.keyed
  constructor
  · intro editable
    refine ⟨fun x y left right => ?_, fun j k left right => ?_⟩
    · have removes := editable.nodes y ((visibleNode_rebuilt sentinel s y).trans right)
      exact (removesNode_rebuilt_iff sentinel s keyed right).mp removes x left
    · have decoded := edgeKeyOf_decode (visibleEdge_isEdgeKey s keyed right)
      rw [← decoded] at right
      have removes := editable.edges _ ((visibleEdge_rebuilt sentinel s keyed _).trans right)
      exact ((removesEdge_rebuilt_iff sentinel s keyed right).mp removes j left).trans decoded
  · rintro ⟨oneNode, oneEdge⟩
    refine ⟨projectState_rebuilt sentinel s keyed, fun x shown => ?_, fun edge shown => ?_⟩
    · rw [visibleNode_rebuilt] at shown
      exact (removesNode_rebuilt_iff sentinel s keyed shown).mpr fun y other => oneNode y x other shown
    · rw [visibleEdge_rebuilt sentinel s keyed] at shown
      exact (removesEdge_rebuilt_iff sentinel s keyed shown).mpr fun k other =>
        oneEdge k _ other shown

/-- The rebuilt road: removing one end by its live dots removes the other end as well. -/
theorem rebuilt_road_not_editable :
    ∃ s t : WarpState Nat, reducePatches [roadPatch] .empty = .ok s ∧ Reachable s ∧
      reconstructStateFromCheckpoint syntheticEventId (projectState s) = t ∧
      visibleNode t (lit "y") = true ∧
      visibleNode ((Op.nodeRemove (lit "x") (t.nodeAlive.getDots (lit "x")).toList).mutate t
        syntheticEventId) (lit "y") = false ∧ ¬ Editable s t := by
  refine ⟨_, _, rfl, ⟨[roadPatch], ?_, rfl⟩, rfl, by decide, by decide, ?_⟩
  · intro entry member
    exact mem_singleton.mp member ▸ roadPatch_wellFormed
  · intro editable
    have kept := ((editable.nodes (lit "x") (by decide) syntheticEventId).1 (lit "y")).mpr
    revert kept
    decide

/-- The road itself, with two nodes. -/
theorem reconstructed_editable_iff_road :
    ∃ s : WarpState Nat, reducePatches [roadPatch] .empty = .ok s ∧
      (Editable s (reconstructStateFromCheckpoint syntheticEventId (projectState s)) ↔
        (∀ x y, visibleNode s x = true → visibleNode s y = true → x = y) ∧
        ∀ j k, visibleEdge s j = true → visibleEdge s k = true → j = k) := by
  refine ⟨_, rfl, reconstructed_editable_iff syntheticEventId _ ⟨[roadPatch], ?_, rfl⟩⟩
  intro entry member
  exact mem_singleton.mp member ▸ roadPatch_wellFormed

end GitWarp
