import GitWarp.Provenance.ProvenanceController

/-!
# What a slice shows

The backward cone of a node holds the patches that name the node or an entity that a
patch of the cone reads. A remove of an edge at the node names the edge only, so it
may be missing, and so may a remove of another node that carries a dot of this one.
The slice agrees with the full state exactly where no missing remove decides.
-/
namespace GitWarp

open Js Lib KeyCodec List

variable {V : Type}

/-! ### The cone -/

/-- The entities that the footprints of a history lead to from a node. -/
inductive Related (H : List (ProvenancePatch V)) (nodeId : JsString) : JsString → Prop
  | start : Related H nodeId nodeId
  | read (e e' : JsString) (p : ProvenancePatch V) (related : Related H nodeId e)
      (member : p ∈ H) (names : p.Names e) (onward : e' ∈ p.reads) : Related H nodeId e'

/-- The patch names an entity that is related to the node. -/
def ProvenancePatch.Concerns (H : List (ProvenancePatch V)) (nodeId : JsString)
    (p : ProvenancePatch V) : Prop :=
  ∃ e, Related H nodeId e ∧ p.Names e

def entriesOf (H : List (ProvenancePatch V)) : List (PatchEntry V) := H.map ProvenancePatch.entry

noncomputable def concerning (H : List (ProvenancePatch V)) (nodeId : JsString) :
    List (PatchEntry V) :=
  open Classical in entriesOf (H.filter fun p => decide (p.Concerns H nodeId))

theorem mem_concerning {entry : PatchEntry V} :
    entry ∈ concerning H nodeId ↔ ∃ p ∈ H, p.Concerns H nodeId ∧ p.entry = entry := by
  simp only [concerning, entriesOf, mem_map, mem_filter, decide_eq_true_eq, and_assoc]

/-- The host has the commits of the history, and their index. -/
structure ProvenanceHost.Serves (host : ProvenanceHost V) (H : List (ProvenancePatch V)) : Prop where
  commits : ∀ p ∈ H, host.commits.get p.entry.sha = some (.patch p.entry.patch p.reads p.writes)
  index : host.provenanceIndex = some (buildProvenance H)
  exact : host.provenanceDegraded = false

namespace ProvenanceHost.Serves

variable {host : ProvenanceHost V} {H : List (ProvenancePatch V)}

section

variable (serves : host.Serves H)
include serves

theorem load (mem : p ∈ H) : host.loadPatchBySha p.entry.sha = .ok p := by
  rw [ProvenanceHost.loadPatchBySha, serves.commits p mem]

theorem consistent : Consistent (entriesOf H) := by
  intro a left b right same
  obtain ⟨p, member, rfl⟩ := mem_map.mp left
  obtain ⟨q, member', rfl⟩ := mem_map.mp right
  have loaded := serves.load member
  rw [same, serves.load member'] at loaded
  cases loaded
  rfl

theorem reaches_iff : (host.leads (buildProvenance H)).Reaches nodeId e ↔ Related H nodeId e := by
  constructor
  · intro reached
    induction reached with
    | origin => exact .start
    | next k k' sha p _ listed loaded onward ih =>
      obtain ⟨q, member, rfl, names⟩ := mem_patchesFor.mp listed
      have same := serves.load member
      rw [show (host.leads (buildProvenance H)).load q.entry.sha =
        host.loadPatchBySha q.entry.sha from rfl, same] at loaded
      cases loaded
      exact .read k k' p ih member names onward
  · intro related
    induction related with
    | start => exact .origin
    | read k k' p _ member names onward ih =>
      have listed := mem_patchesFor.mpr ⟨p, member, rfl, names⟩
      exact .next k k' p.entry.sha p ih listed (serves.load member) onward

/-- The cone is computed, and holds the patches that concern the node. -/
theorem cone :
    ∃ conePatchMap, host.computeBackwardCone nodeId = .ok conePatchMap ∧
      ∀ sha p, conePatchMap.get sha = some p ↔
        p ∈ H ∧ p.entry.sha = sha ∧ p.Concerns H nodeId := by
  have loads : ∀ k, ∀ sha ∈ (host.leads (buildProvenance H)).itemsOf k,
      sha ∈ host.commits.keys ∧ ∃ p, (host.leads (buildProvenance H)).load sha = .ok p := by
    intro k sha listed
    obtain ⟨p, member, rfl, -⟩ := mem_patchesFor.mp listed
    constructor
    · rw [OrdMap.mem_keys_iff, serves.commits p member]
      rfl
    · exact ⟨p, serves.load member⟩
  obtain ⟨w, ran, found⟩ := Leads.search_iff loads
    (host.rounds (buildProvenance H)) (Nat.le_refl _)
  refine ⟨w.found, ?_, ?_⟩
  · rw [ProvenanceHost.computeBackwardCone, serves.index]
    dsimp only
    rw [ran]
    rfl
  · intro sha p
    rw [found]
    constructor
    · rintro ⟨loaded, k, reached, listed⟩
      obtain ⟨q, member, rfl, names⟩ := mem_patchesFor.mp listed
      have same := serves.load member
      rw [show (host.leads (buildProvenance H)).load q.entry.sha =
        host.loadPatchBySha q.entry.sha from rfl, same] at loaded
      cases loaded
      exact ⟨member, rfl, k, serves.reaches_iff.mp reached, names⟩
    · rintro ⟨member, rfl, k, related, names⟩
      have listed := mem_patchesFor.mpr ⟨p, member, rfl, names⟩
      exact ⟨serves.load member, k, serves.reaches_iff.mpr related, listed⟩

end

/-- The slice replays some list of the patches that concern the node. -/
theorem slice (localeCompare) (serves : host.Serves H) (nodeId)
    (valid : ∀ p ∈ H, p.entry.WellFormed) :
    ∃ slice replayed, host.materializeSlice localeCompare nodeId = .ok slice ∧
      reducePatches replayed .empty = .ok slice.state ∧
        ∀ entry, entry ∈ replayed ↔ entry ∈ concerning H nodeId := by
  obtain ⟨conePatchMap, computed, holds⟩ := serves.cone
  have values : ∀ entry, entry ∈ conePatchMap.values.map ProvenancePatch.entry ↔
      entry ∈ concerning H nodeId := by
    intro entry
    rw [mem_concerning]
    simp only [mem_map, OrdMap.values]
    constructor
    · rintro ⟨p, ⟨⟨sha, _⟩, listed, rfl⟩, same⟩
      obtain ⟨member, -, concerns⟩ := (holds sha _).mp ((conePatchMap.mem_entries_iff _).mp listed)
      exact ⟨_, member, concerns, same⟩
    · rintro ⟨p, member, concerns, same⟩
      have held := (holds p.entry.sha p).mpr ⟨member, rfl, concerns⟩
      exact ⟨p, ⟨(p.entry.sha, p), (conePatchMap.mem_entries_iff _).mpr held, rfl⟩, same⟩
  have served : host.materializeSlice localeCompare nodeId =
      (if conePatchMap.size = 0 then pure ⟨.empty, 0⟩
      else do
        let sortedPatches := sortPatchesCausally localeCompare
          (conePatchMap.values.map ProvenancePatch.entry)
        let state ← reducePatches sortedPatches .empty
        pure ⟨state, sortedPatches.length⟩) := by
    simp only [ProvenanceHost.materializeSlice, serves.exact, serves.index, computed, bind,
      Except.bind, Option.isNone_some, Bool.false_eq_true, if_false]
  rw [served]
  split
  next none_ =>
    -- an empty cone gives the empty state, as replaying no patch does
    refine ⟨⟨.empty, 0⟩, [], rfl, rfl, ?_⟩
    intro entry
    rw [← values entry, OrdMap.values, eq_nil_of_length_eq_zero none_]
    simp
  next =>
    have sorted : ∀ entry, entry ∈ sortPatchesCausally localeCompare
        (conePatchMap.values.map ProvenancePatch.entry) ↔ entry ∈ concerning H nodeId := by
      intro entry
      rw [sortPatchesCausally, mem_insertionSort, values entry]
    have wellFormed : ∀ entry ∈ sortPatchesCausally localeCompare
        (conePatchMap.values.map ProvenancePatch.entry), entry.WellFormed := by
      intro entry listed
      obtain ⟨p, member, -, rfl⟩ := mem_concerning.mp ((sorted entry).mp listed)
      exact valid p member
    obtain ⟨state, reduced, -⟩ := reduces_history wellFormed
    have ran : (do
        let sortedPatches := sortPatchesCausally localeCompare
          (conePatchMap.values.map ProvenancePatch.entry)
        let state ← reducePatches sortedPatches .empty
        pure ⟨state, sortedPatches.length⟩ : Except Failure (Slice V)) =
          .ok ⟨state, (sortPatchesCausally localeCompare
            (conePatchMap.values.map ProvenancePatch.entry)).length⟩ := by
      dsimp only
      rw [reduced]
      rfl
    exact ⟨_, _, ran, reduced, sorted⟩

end ProvenanceHost.Serves

/-! ### Nothing that is added is missing -/

section Footprints

variable {forms : RecordingBuilder.ValueForms V} {H : List (ProvenancePatch V)}
  (built : ∀ p ∈ H, p.Built forms) (x : JsString)

include built

theorem nodeAdded_concerning (y) (related : Related H x y) (d) :
    NodeAdded (concerning H x) y d ↔ NodeAdded (entriesOf H) y d := by
  constructor
  · rintro ⟨entry, listed, dot, held, same⟩
    obtain ⟨p, member, -, rfl⟩ := mem_concerning.mp listed
    exact ⟨p.entry, mem_map_of_mem member, dot, held, same⟩
  · rintro ⟨entry, listed, dot, held, same⟩
    obtain ⟨p, member, rfl⟩ := mem_map.mp listed
    have written : y ∈ p.writes := (built p member).recorded _ held
    exact ⟨p.entry, mem_concerning.mpr ⟨p, member, ⟨y, related, Or.inr written⟩, rfl⟩,
      dot, held, same⟩

theorem edgeAdded_concerning (e) (incident : e.src = x ∨ e.dst = x) (d) :
    EdgeAdded (concerning H x) e d ↔ EdgeAdded (entriesOf H) e d := by
  constructor
  · rintro ⟨entry, listed, dot, held, same⟩
    obtain ⟨p, member, -, rfl⟩ := mem_concerning.mp listed
    exact ⟨p.entry, mem_map_of_mem member, dot, held, same⟩
  · rintro ⟨entry, listed, dot, held, same⟩
    obtain ⟨p, member, rfl⟩ := mem_map.mp listed
    obtain ⟨src, dst, -⟩ := (built p member).recorded _ held
    have named : p.Names x := by
      rcases incident with rfl | rfl
      · exact Or.inl src
      · exact Or.inl dst
    exact ⟨p.entry, mem_concerning.mpr ⟨p, member, ⟨x, .start, named⟩, rfl⟩, dot, held, same⟩

theorem related_of_edgeAdded (e) (incident : e.src = x ∨ e.dst = x) (d)
    (added : EdgeAdded (entriesOf H) e d) : Related H x e.src ∧ Related H x e.dst := by
  obtain ⟨entry, listed, dot, held, -⟩ := added
  obtain ⟨p, member, rfl⟩ := mem_map.mp listed
  obtain ⟨src, dst, -⟩ := (built p member).recorded _ held
  have named : p.Names x := by
    rcases incident with rfl | rfl
    · exact Or.inl src
    · exact Or.inl dst
  exact ⟨.read x e.src p .start member named src, .read x e.dst p .start member named dst⟩

theorem write_concerning (validNode : ValidId x) (validKey : ValidId key) (r) :
    .write (encodePropKey x key) r ∈ historyFacts (concerning H x) ↔
      .write (encodePropKey x key) r ∈ historyFacts (entriesOf H) := by
  -- every patch that writes a property of the node concerns the node
  constructor
  · rintro ⟨entry, listed, fact⟩
    obtain ⟨p, member, -, rfl⟩ := mem_concerning.mp listed
    exact ⟨p.entry, mem_map_of_mem member, fact⟩
  · rintro ⟨entry, listed, fact⟩
    obtain ⟨p, member, rfl⟩ := mem_map.mp listed
    obtain ⟨op, event, held, inside⟩ := holds_of_fact fact (by simp)
    have ids := held.validIds
    have written : x ∈ p.writes := by
      cases op with
      | nodePropSet node key' value =>
        simp only [Op.facts, Set.mem_singleton_iff, Fact.write.injEq] at inside
        have same := (encodePropKey_inj validNode (ids node (by simp [Op.ids])) validKey
          (ids key' (by simp [Op.ids])) inside.1).1
        rw [same]
        exact ((built p member).recorded _ held).2
      | edgePropSet src dst label key' value =>
        simp only [Op.facts, Set.mem_singleton_iff, Fact.write.injEq] at inside
        exact absurd inside.1.symm (encodeEdgePropKey_ne_encodePropKey validNode)
      | nodeAdd node dot | nodeRemove node dots | edgeAdd src dst label dot
      | edgeRemove src dst label dots => simp [Op.facts] at inside
      | blobValue node oid => cases inside
    exact ⟨p.entry, mem_concerning.mpr ⟨p, member, ⟨x, .start, Or.inr written⟩, rfl⟩, fact⟩

end Footprints

/-! ### Agreement -/

/-- The slice shows the node, its properties and its edges as the full state does. -/
structure SliceAgrees (x : JsString) (slice full : WarpState V) : Prop where
  node : visibleNode slice x = visibleNode full x
  props : ∀ p : NodeProp V, p.node = x → (p ∈ visibleProps slice ↔ p ∈ visibleProps full)
  edges : ∀ e : EdgeParts, e.src = x ∨ e.dst = x → (e ∈ visibleEdges slice ↔ e ∈ visibleEdges full)

/-- Some dot with which the history adds the node is removed by none of the removers. -/
def NodeSurvives (entries removers : List (PatchEntry V)) (x : JsString) : Prop :=
  ∃ d, NodeAdded entries x d ∧ ¬ NodeDotRemoved removers d

/-- Some dot of the edge survives the removers, and so do both endpoints. -/
def EdgeSurvives (entries removers : List (PatchEntry V)) (e : EdgeParts) : Prop :=
  (∃ d, EdgeAdded entries e d ∧ ¬ EdgeDotRemoved removers d) ∧
    NodeSurvives entries removers e.src ∧ NodeSurvives entries removers e.dst

/-- What survives the removes that concern the node survives all removes. -/
structure Covered (H : List (ProvenancePatch V)) (x : JsString) : Prop where
  node : NodeSurvives (entriesOf H) (concerning H x) x → NodeSurvives (entriesOf H) (entriesOf H) x
  edges : ∀ e : EdgeParts, e.src = x ∨ e.dst = x →
    EdgeSurvives (entriesOf H) (concerning H x) e → EdgeSurvives (entriesOf H) (entriesOf H) e

theorem nodeDotRemoved_of_concerning (H : List (ProvenancePatch V))
    (removed : NodeDotRemoved (concerning H x) d) : NodeDotRemoved (entriesOf H) d := by
  obtain ⟨entry, listed, rest⟩ := removed
  obtain ⟨p, member, -, rfl⟩ := mem_concerning.mp listed
  exact ⟨p.entry, mem_map_of_mem member, rest⟩

theorem edgeDotRemoved_of_concerning (H : List (ProvenancePatch V))
    (removed : EdgeDotRemoved (concerning H x) d) : EdgeDotRemoved (entriesOf H) d := by
  obtain ⟨entry, listed, rest⟩ := removed
  obtain ⟨p, member, -, rfl⟩ := mem_concerning.mp listed
  exact ⟨p.entry, mem_map_of_mem member, rest⟩

theorem NodeSurvives.concerning {H : List (ProvenancePatch V)}
    (survives : NodeSurvives (entriesOf H) (entriesOf H) y) :
    NodeSurvives (entriesOf H) (GitWarp.concerning H x) y := by
  obtain ⟨d, added, kept⟩ := survives
  exact ⟨d, added, fun removed => kept (nodeDotRemoved_of_concerning H removed)⟩

theorem EdgeSurvives.concerning {H : List (ProvenancePatch V)}
    (survives : EdgeSurvives (entriesOf H) (entriesOf H) e) :
    EdgeSurvives (entriesOf H) (GitWarp.concerning H x) e := by
  obtain ⟨⟨d, added, kept⟩, src, dst⟩ := survives
  exact ⟨⟨d, added, fun removed => kept (edgeDotRemoved_of_concerning H removed)⟩,
    src.concerning, dst.concerning⟩

theorem EdgeSurvives.valid {entries removers : List (PatchEntry V)}
    (survives : EdgeSurvives entries removers e) : e.Valid := by
  obtain ⟨⟨_, ⟨entry, -, dot, held, -⟩, -⟩, -⟩ := survives
  have ids := held.validIds
  exact ⟨ids e.src (by simp [Op.ids]), ids e.dst (by simp [Op.ids]), ids e.label (by simp [Op.ids])⟩

theorem visibleNode_iff_survives {s : WarpState V} (reduced : reducePatches entries .empty = .ok s)
    (x) : visibleNode s x = true ↔ NodeSurvives entries entries x :=
  visibleNode_reduced entries s reduced

theorem mem_visibleEdges_iff_survives {s : WarpState V}
    (reduced : reducePatches entries .empty = .ok s) (e) :
    e ∈ visibleEdges s ↔ EdgeSurvives entries entries e := by
  constructor
  · intro visible
    have valid := valid_of_mem_visibleEdges entries s reduced e visible
    obtain ⟨own, src, dst⟩ := (mem_visibleEdges_reduced entries s reduced valid).mp visible
    exact ⟨own, (visibleNode_reduced entries s reduced).mp src,
      (visibleNode_reduced entries s reduced).mp dst⟩
  · intro survives
    rw [mem_visibleEdges_reduced entries s reduced survives.valid]
    exact ⟨survives.1, (visibleNode_reduced entries s reduced).mpr survives.2.1,
      (visibleNode_reduced entries s reduced).mpr survives.2.2⟩

/-- Whatever the order of a history, it shows a node that some patch adds with a dot that no patch
removes, an edge that survives in the same way between two such nodes, and in each register the
write with the greatest event. -/
theorem reduced_shows_history (entries : List (PatchEntry V)) (s : WarpState V)
    (reduced : reducePatches entries .empty = .ok s) :
    (∀ x, visibleNode s x = true ↔ NodeSurvives entries entries x) ∧
      (∀ e, e ∈ visibleEdges s ↔ EdgeSurvives entries entries e) ∧
      ∀ key, Winner LWWRegister.eventId (fun register => ∃ entry ∈ entries,
        .write key register ∈ entry.facts) (s.prop.get key) :=
  ⟨visibleNode_iff_survives reduced, mem_visibleEdges_iff_survives reduced,
    (represents_history reduced).writes⟩

/-- The remove comes before the add that it has observed. -/
theorem reduced_shows_history_sample :
    ∃ s, reducePatches [sampleRemove, sampleAdd] .empty = .ok s ∧
      (visibleNode s (lit "n") = true ↔
        NodeSurvives [sampleRemove, sampleAdd] [sampleRemove, sampleAdd] (lit "n")) :=
  ⟨_, rfl, (reduced_shows_history [sampleRemove, sampleAdd] _ rfl).1 (lit "n")⟩

/-! ### The slice against the full state -/

section Agreement

variable {forms : RecordingBuilder.ValueForms V} {H : List (ProvenancePatch V)}
  (built : ∀ p ∈ H, p.Built forms) (x : JsString) (replayed : List (PatchEntry V))
  (whole : ∀ entry, entry ∈ replayed ↔ entry ∈ concerning H x)

omit built in
include whole in
theorem nodeDotRemoved_replayed (d) :
    NodeDotRemoved replayed d ↔ NodeDotRemoved (concerning H x) d := by
  simp only [NodeDotRemoved, whole]

omit built in
include whole in
theorem edgeDotRemoved_replayed (d) :
    EdgeDotRemoved replayed d ↔ EdgeDotRemoved (concerning H x) d := by
  simp only [EdgeDotRemoved, whole]

include built whole

theorem nodeSurvives_replayed (related : Related H x y) :
    NodeSurvives replayed replayed y ↔ NodeSurvives (entriesOf H) (concerning H x) y := by
  have added : ∀ d, NodeAdded replayed y d ↔ NodeAdded (entriesOf H) y d := by
    intro d
    rw [← nodeAdded_concerning built x y related d]
    simp only [NodeAdded, whole]
  simp only [NodeSurvives, added, nodeDotRemoved_replayed x replayed whole]

theorem edgeSurvives_replayed (e) (incident : e.src = x ∨ e.dst = x) :
    EdgeSurvives replayed replayed e ↔ EdgeSurvives (entriesOf H) (concerning H x) e := by
  have added : ∀ d, EdgeAdded replayed e d ↔ EdgeAdded (entriesOf H) e d := by
    intro d
    rw [← edgeAdded_concerning built x e incident d]
    simp only [EdgeAdded, whole]
  simp only [EdgeSurvives, added, edgeDotRemoved_replayed x replayed whole]
  apply and_congr_right
  rintro ⟨d, inside, -⟩
  -- both endpoints are related, since some patch added the edge
  obtain ⟨src, dst⟩ := related_of_edgeAdded built x e incident d inside
  rw [nodeSurvives_replayed built x replayed whole src,
    nodeSurvives_replayed built x replayed whole dst]

theorem mem_visibleProps_replayed (consistent : Consistent (entriesOf H)) {slice}
    (sliced : reducePatches replayed .empty = .ok slice)
    (reduced : reducePatches (entriesOf H) .empty = .ok full)
    (node : visibleNode slice x = visibleNode full x) (p) (own : p.node = x) :
    p ∈ visibleProps slice ↔ p ∈ visibleProps full := by
  rw [mem_visibleProps_iff slice (keyed_of_reduced replayed sliced),
    mem_visibleProps_iff full (keyed_of_reduced (entriesOf H) reduced), own, node]
  apply and_congr_right
  intro validNode
  apply and_congr_right
  intro validKey
  have facts := historyFacts_congr replayed (concerning H x) whole
  have left := (represents_history sliced).writes (encodePropKey x p.key)
  have right := (represents_history reduced).writes (encodePropKey x p.key)
  rw [facts] at left
  -- the same writes have the same winner
  have same : slice.prop.get (encodePropKey x p.key) = full.prop.get (encodePropKey x p.key) :=
    (left.congr (write_concerning built x validNode validKey)).unique
      (consistent.oneWritePerEvent _) right
  rw [same]

end Agreement

/-- A slice is always computed, and agrees with the full state on the node, its properties and its
edges exactly if what survives the removes that concern the node survives all removes. -/
theorem slice_agrees_iff (forms : RecordingBuilder.ValueForms V)
    (localeCompare : JsString → JsString → Int) (H : List (ProvenancePatch V))
    (built : ∀ p ∈ H, p.Built forms) (host : ProvenanceHost V) (serves : host.Serves H)
    (x : JsString) :
    ∃ slice full, host.materializeSlice localeCompare x = .ok slice ∧
      reducePatches (entriesOf H) .empty = .ok full ∧
        (SliceAgrees x slice.state full ↔ Covered H x) := by
  obtain ⟨slice, replayed, sliced, ran, whole⟩ :=
    serves.slice localeCompare x fun p member => (built p member).wellFormed
  have wellFormed : ∀ entry ∈ entriesOf H, entry.WellFormed := by
    intro entry listed
    obtain ⟨p, member, rfl⟩ := mem_map.mp listed
    exact (built p member).wellFormed
  obtain ⟨full, reduced, -⟩ := reduces_history wellFormed
  refine ⟨slice, full, sliced, reduced, ?_⟩
  have sliceNode : visibleNode slice.state x = true ↔
      NodeSurvives (entriesOf H) (concerning H x) x := by
    rw [visibleNode_iff_survives ran, nodeSurvives_replayed built x replayed whole .start]
  have fullNode := visibleNode_iff_survives reduced x
  have sliceEdge : ∀ e : EdgeParts, e.src = x ∨ e.dst = x → (e ∈ visibleEdges slice.state ↔
      EdgeSurvives (entriesOf H) (concerning H x) e) := by
    intro e incident
    rw [mem_visibleEdges_iff_survives ran, edgeSurvives_replayed built x replayed whole e incident]
  have fullEdge := mem_visibleEdges_iff_survives reduced
  constructor
  · intro agrees
    constructor
    · intro survives
      rw [← fullNode, ← agrees.node, sliceNode]
      exact survives
    · intro e incident survives
      rw [← fullEdge, ← agrees.edges e incident, sliceEdge e incident]
      exact survives
  · intro covered
    have node : visibleNode slice.state x = visibleNode full x := by
      rw [Bool.eq_iff_iff, sliceNode, fullNode]
      exact ⟨covered.node, NodeSurvives.concerning⟩
    constructor
    · exact node
    · exact mem_visibleProps_replayed built x replayed whole serves.consistent ran
        reduced node
    · intro e incident
      rw [sliceEdge e incident, fullEdge]
      exact ⟨covered.edges e incident, EdgeSurvives.concerning⟩

/-! ### A remove that the slice misses -/

def plainForms : RecordingBuilder.ValueForms Nat := ⟨fun _ => 0, 0⟩

def unitCompare (a b : JsString) : Int := if a < b then -1 else if a = b then 0 else 1

def linkSession : PatchSession Nat where
  writerId := ⟨lit "a", a_named⟩
  lamport := 1
  vv := .empty
  onDeleteWithData := .reject
  snapshotState := none
  calls := [.addNode (lit "x"), .addNode (lit "y"), .addEdge (lit "x") (lit "y") (lit "l")]
  ownTick := 0
  sha := lit "aaaa"
  positive := Int.one_pos
  hex := aaaa_hex

theorem linkSession_publishes : (linkSession.publish plainForms).toOption.isSome = true := by
  decide +kernel

def linkPatch : ProvenancePatch Nat :=
  (linkSession.publish plainForms).toOption.get linkSession_publishes

/-- Another writer removes the edge from the state that the first patch gives. -/
def unlinkSession : PatchSession Nat where
  writerId := ⟨lit "b", b_named⟩
  lamport := 2
  vv := .empty
  onDeleteWithData := .reject
  snapshotState := (reducePatches [linkPatch.entry] .empty).toOption
  calls := [.removeEdge (lit "x") (lit "y") (lit "l")]
  ownTick := 0
  sha := lit "bbbb"
  positive := lamport_two
  hex := bbbb_hex

theorem unlinkSession_publishes : (unlinkSession.publish plainForms).toOption.isSome = true := by
  decide +kernel

def unlinkPatch : ProvenancePatch Nat :=
  (unlinkSession.publish plainForms).toOption.get unlinkSession_publishes

theorem built_of_publishes {session : PatchSession Nat} (publishes) :
    ((session.publish plainForms).toOption.get publishes).Built plainForms := by
  refine ⟨session, ?_⟩
  generalize session.publish plainForms = published at publishes ⊢
  cases published with
  | error e => cases publishes
  | ok p => rfl

def linkHost : ProvenanceHost Nat where
  commits := .ofList [ (lit "aaaa", .patch linkPatch.entry.patch linkPatch.reads linkPatch.writes),
    (lit "bbbb", .patch unlinkPatch.entry.patch unlinkPatch.reads unlinkPatch.writes)]
  provenanceIndex := some (buildProvenance [linkPatch, unlinkPatch])
  provenanceDegraded := false

theorem linkHost_serves : linkHost.Serves [linkPatch, unlinkPatch] where
  commits := by
    intro p mem
    simp only [mem_cons, not_mem_nil, or_false] at mem
    rcases mem with rfl | rfl
    · rfl
    · rfl
  index := rfl
  exact := rfl

theorem linkHistory_built : ∀ p ∈ [linkPatch, unlinkPatch], p.Built plainForms := by
  intro p mem
  simp only [mem_cons, not_mem_nil, or_false] at mem
  rcases mem with rfl | rfl
  · exact built_of_publishes linkSession_publishes
  · exact built_of_publishes unlinkSession_publishes

/-- The edge that is gone in the full state is still there in the slice of its source. -/
theorem slice_misses_removeEdge :
    ¬ ∀ (forms : RecordingBuilder.ValueForms Nat) (localeCompare : JsString → JsString → Int)
      (H : List (ProvenancePatch Nat)) (host : ProvenanceHost Nat) (x : JsString)
      (slice : Slice Nat) (full : WarpState Nat), (∀ p ∈ H, p.Built forms) → host.Serves H →
        host.materializeSlice localeCompare x = .ok slice →
          reducePatches (entriesOf H) .empty = .ok full → SliceAgrees x slice.state full := by
  intro claim
  have sliced : ((linkHost.materializeSlice unitCompare (lit "x")).toOption.map fun slice =>
      visibleEdges slice.state) = some [⟨lit "x", lit "y", lit "l"⟩] := by decide +kernel
  have reduced : ((reducePatches (entriesOf [linkPatch, unlinkPatch]) .empty).toOption.map
      visibleEdges) = some [] := by decide +kernel
  cases gotSlice : linkHost.materializeSlice unitCompare (lit "x") with
  | error e => simp [gotSlice, Except.toOption] at sliced
  | ok slice =>
    cases gotFull : reducePatches (entriesOf [linkPatch, unlinkPatch]) .empty with
    | error e => simp [gotFull, Except.toOption] at reduced
    | ok full =>
      have agrees := claim plainForms unitCompare _ linkHost (lit "x") slice full
        linkHistory_built linkHost_serves gotSlice gotFull
      simp only [gotSlice, Except.toOption, Option.map_some, Option.some.injEq] at sliced
      simp only [gotFull, Except.toOption, Option.map_some, Option.some.injEq] at reduced
      have still := (agrees.edges ⟨lit "x", lit "y", lit "l"⟩ (Or.inl rfl)).mp (by simp [sliced])
      rw [reduced] at still
      cases still

/-- The slice of a node of the first patch alone. -/
theorem slice_agrees_iff_link :
    ∃ slice full, (linkHost.materializeSlice unitCompare (lit "x")) = .ok slice ∧
      reducePatches (entriesOf [linkPatch, unlinkPatch]) .empty = .ok full ∧
        (SliceAgrees (lit "x") slice.state full ↔ Covered [linkPatch, unlinkPatch] (lit "x")) :=
  slice_agrees_iff plainForms unitCompare [linkPatch, unlinkPatch]
    linkHistory_built linkHost linkHost_serves (lit "x")

end GitWarp
