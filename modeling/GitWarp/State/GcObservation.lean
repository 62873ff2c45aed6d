import GitWarp.State.StateSerializer

/-!
# What a collection leaves to be seen

Compacting an OR-Set deletes dots that are tombstoned and covered by the vector. None of
them was live, so every reader of live dots sees the same, in the same order, and the
same vector finds nothing more to delete.
-/
namespace GitWarp

open Js Lib KeyCodec List

variable {V : Type}

/-! ### One OR-Set -/

namespace ORSet

/-- What is left of a set: elements and dots in the same order. -/
structure Shrinks (s t : ORSet) : Prop where
  keys : t.entries.keys.Sublist s.entries.keys
  dots : ∀ x, (t.dotsOf x).toList.Sublist (s.dotsOf x).toList

theorem Shrinks.refl (s) : Shrinks s s := ⟨.refl _, fun _ => .refl _⟩

theorem Shrinks.trans (first : Shrinks s t) (second : Shrinks t u) : Shrinks s u :=
  ⟨second.keys.trans first.keys, fun x => (second.dots x).trans (first.dots x)⟩

theorem shrinks_deleteDot (s) : Shrinks s (s.deleteDot element encodedDot) := by
  cases found : s.entries.get element with
  | none =>
    have same : (s.deleteDot element encodedDot).entries = s.entries := by simp [deleteDot, found]
    exact ⟨by rw [same], fun x => by rw [dotsOf, same, dotsOf]⟩
  | some dots =>
    by_cases last : (dots.delete encodedDot).toList = []
    · -- the element goes with its last dot
      have same : (s.deleteDot element encodedDot).entries = s.entries.delete element := by
        simp [deleteDot, found, last]
      refine ⟨?_, fun x => ?_⟩
      · rw [same]
        exact filter_sublist.map Prod.fst
      · rw [dotsOf, same, dotsOf, OrdMap.get_delete]
        split
        · exact nil_sublist _
        · exact .refl _
    · have same : (s.deleteDot element encodedDot).entries =
          s.entries.set element (dots.delete encodedDot) := by simp [deleteDot, found, last]
      refine ⟨?_, fun x => ?_⟩
      · -- replacing the dots keeps the place of the element
        have there : element ∈ s.entries.keys := by
          rw [OrdMap.mem_keys_iff, found]
          rfl
        have keys : (s.entries.set element (dots.delete encodedDot)).keys = s.entries.keys :=
          (keys_assocSet _ _ _).trans (if_pos there)
        rw [same, keys]
      · rw [dotsOf, same, dotsOf, OrdMap.get_set]
        split
        next here =>
          subst here
          rw [found]
          exact filter_sublist
        · exact .refl _

theorem shrinks_applyCompaction (s) : Shrinks s (s.applyCompaction toDelete) := by
  induction toDelete generalizing s with
  | nil => exact .refl s
  | cons target rest ih => exact s.shrinks_deleteDot.trans (ih _)

theorem shrinks_compact (compacted : s.compact vv = .ok t) : Shrinks s t := by
  obtain ⟨toDelete, -, applied⟩ := bind_eq_ok.mp compacted
  cases applied
  exact shrinks_applyCompaction s

theorem eq_of_sublist_of_mem {A : Type} {short long : List A} (below : short.Sublist long)
    (nodup : long.Nodup) (all : ∀ x ∈ long, x ∈ short) : short = long := by
  apply below.eq_of_length_le
  exact (nodup.subperm all).length_le

/-- What a compaction with a vector leaves of a set. -/
structure Collected (vv : VersionVector) (s t : ORSet) : Prop where
  elements : t.elements = s.elements
  liveDots : ∀ x, t.getDots x = s.getDots x
  contains : ∀ x, t.contains x = s.contains x
  uncovered : ∀ d ∈ s.tombstones, (∀ dot, Dot.decode d = .ok dot → vv.contains dot = false) →
    d ∈ t.tombstones
  again : t.compact vv = .ok t

theorem compact_of_nothing (s : ORSet) (vv) (decodable : s.Decodable)
    (nothing : ∀ x, ∀ d ∈ s.dotsOf x, ¬ s.Compactable vv d) : s.compact vv = .ok s := by
  have listed : ∀ x dots, (x, dots) ∈ s.entries.entries → s.dotsOf x = dots := by
    intro x dots mem
    rw [dotsOf, (OrdMap.mem_entries_iff _ _).mp mem]
    rfl
  obtain ⟨toDelete, collected, spec⟩ := s.collectCompactableDots_spec vv
    fun entry mem d tagged => decodable entry.1 d (listed entry.1 entry.2 mem ▸ tagged)
  have empty : toDelete = [] := by
    apply eq_nil_iff_forall_not_mem.mpr
    rintro ⟨x, d⟩ mem
    obtain ⟨⟨dots, inside, tagged⟩, compactable⟩ := (spec x d).mp mem
    exact nothing x d (listed x dots inside ▸ tagged) compactable
  simp only [compact, collected, empty, bind, Except.bind]
  rfl

theorem compact_collected (s) (vv) (decodable : s.Decodable) :
    ∃ t, s.compact vv = .ok t ∧ t.Decodable ∧ Collected vv s t := by
  obtain ⟨t, compacted, tags, tombs⟩ := s.compact_spec vv decodable
  have shrinks := shrinks_compact compacted
  -- a dot that stays keeps its tombstone, and a dot that goes had one
  have stays : ∀ x, ∀ d ∈ t.dotsOf x, (d ∈ t.tombstones ↔ d ∈ s.tombstones) := by
    intro x d tagged
    rw [tombs]
    obtain ⟨-, kept⟩ := (tags x d).mp tagged
    exact ⟨And.left, fun tomb => ⟨tomb, fun gone => kept gone.1⟩⟩
  have live : ∀ x d, d ∈ t.getDots x ↔ d ∈ s.getDots x := by
    intro x d
    rw [mem_getDots, mem_getDots]
    constructor
    · rintro ⟨tagged, alive⟩
      exact ⟨((tags x d).mp tagged).1, fun tomb => alive ((stays x d tagged).mpr tomb)⟩
    · rintro ⟨tagged, alive⟩
      have kept : d ∈ t.dotsOf x := (tags x d).mpr ⟨tagged, fun gone => alive gone.1⟩
      exact ⟨kept, fun tomb => alive ((stays x d kept).mp tomb)⟩
  have contains : ∀ x, t.contains x = s.contains x := by
    intro x
    have alive : ∀ u : ORSet, u.contains x = true ↔ ∃ d, d ∈ u.getDots x := by
      intro u
      simp only [contains_iff, mem_getDots]
    rw [Bool.eq_iff_iff, alive, alive]
    exact exists_congr (live x)
  refine ⟨t, compacted, fun x d tagged => decodable x d ((tags x d).mp tagged).1, ?_⟩
  constructor
  · -- the same elements, in the order of the entries that are left
    have below : t.elements.Sublist s.elements := by
      unfold elements
      rw [funext contains]
      exact shrinks.keys.filter _
    exact eq_of_sublist_of_mem below nodup_elements fun x mem => by
      rw [mem_elements_iff] at mem ⊢
      exact (contains x).trans mem
  · intro x
    apply OrdSet.ext_toList
    have below : (t.getDots x).toList.Sublist (s.getDots x).toList := by
      have same : (t.getDots x).toList =
          (t.dotsOf x).toList.filter fun d => !s.isTombstoned d := by
        apply filter_congr
        intro d tagged
        rw [Bool.eq_iff_iff]
        simp only [Bool.not_eq_true', ← Bool.not_eq_true, isTombstoned_iff]
        exact not_congr (stays x d tagged)
      rw [same]
      exact (shrinks.dots x).filter _
    exact eq_of_sublist_of_mem below (s.getDots x).nodup fun d mem => (live x d).mpr mem
  · exact contains
  · intro d tomb uncovered
    rw [tombs]
    refine ⟨tomb, ?_⟩
    rintro ⟨⟨-, dot, decoded, covered⟩, -⟩
    rw [uncovered dot decoded] at covered
    cases covered
  · apply compact_of_nothing t vv
    · exact fun x d tagged => decodable x d ((tags x d).mp tagged).1
    · rintro x d tagged ⟨tomb, covered⟩
      obtain ⟨-, kept⟩ := (tags x d).mp tagged
      exact kept ⟨(stays x d tagged).mp tomb, covered⟩

end ORSet

/-! ### Reachable states -/

/-- The states of a replica: patches and other states come in, and collections run in between,
with any vectors. -/
inductive Replicated : WarpState V → Prop
  | empty : Replicated .empty
  | patch {s t : WarpState V} (entry : PatchEntry V) (reached : Replicated s)
      (applied : applyFast s entry = .ok t) : Replicated t
  | join {s other : WarpState V} (left : Replicated s) (right : Replicated other) :
      Replicated (s.join other)
  | collect {s t : WarpState V} {result : GCExecuteResult} (vv : VersionVector)
      (reached : Replicated s) (collected : executeGC s vv = .ok (t, result)) : Replicated t

/-- Both sets of a state decode. -/
def WarpState.Decodable (s : WarpState V) : Prop := s.nodeAlive.Decodable ∧ s.edgeAlive.Decodable

theorem decodable_mutate {op : Op V} (s) (decodable : s.Decodable) : (op.mutate s e).Decodable := by
  obtain ⟨nodes, edges⟩ := decodable
  cases op with
  | nodeAdd node dot => exact ⟨nodes.add, edges⟩
  | nodeRemove node observedDots | edgeRemove src dst label observedDots | blobValue node oid =>
    exact ⟨nodes, edges⟩
  | edgeAdd src dst label dot => exact ⟨nodes, edges.add⟩
  | nodePropSet node key value =>
    obtain ⟨sameNodes, sameEdges, -⟩ := s.mutatePropLWW_frame (encodePropKey node key) e value
    exact ⟨(congrArg ORSet.Decodable sameNodes).mpr nodes, (congrArg ORSet.Decodable sameEdges).mpr edges⟩
  | edgePropSet src dst label key value =>
    obtain ⟨sameNodes, sameEdges, -⟩ := s.mutatePropLWW_frame (encodeEdgePropKey src dst label key) e value
    exact ⟨(congrArg ORSet.Decodable sameNodes).mpr nodes, (congrArg ORSet.Decodable sameEdges).mpr edges⟩

theorem decodable_applyEvents (s) (decodable : s.Decodable) : (applyEvents s events).Decodable := by
  induction events generalizing s with
  | nil => exact decodable
  | cons event rest ih => exact ih _ (decodable_mutate s decodable)

theorem executeGC_spec {s : WarpState V} (decodable : s.Decodable) :
    ∃ nodes edges result,
      executeGC s vv = .ok ({ s with nodeAlive := nodes, edgeAlive := edges }, result) ∧
      nodes.Decodable ∧ edges.Decodable ∧ ORSet.Collected vv s.nodeAlive nodes ∧
      ORSet.Collected vv s.edgeAlive edges := by
  obtain ⟨nodes, compactedNodes, decodableNodes, collectedNodes⟩ :=
    s.nodeAlive.compact_collected vv decodable.1
  obtain ⟨edges, compactedEdges, decodableEdges, collectedEdges⟩ :=
    s.edgeAlive.compact_collected vv decodable.2
  have ran : ∃ result,
      executeGC s vv = .ok ({ s with nodeAlive := nodes, edgeAlive := edges }, result) := by
    simp only [executeGC, compactORSets, compactedNodes, compactedEdges, bind, Except.bind]
    exact ⟨_, rfl⟩
  obtain ⟨result, ran⟩ := ran
  exact ⟨nodes, edges, result, ran, decodableNodes, decodableEdges, collectedNodes, collectedEdges⟩

theorem Replicated.decodable {s : WarpState V} (reached : Replicated s) : s.Decodable := by
  induction reached with
  | empty => exact ⟨ORSet.decodable_empty, ORSet.decodable_empty⟩
  | patch entry reached applied ih =>
    obtain ⟨effect, -, rfl⟩ := effect_of_applyFast applied
    exact decodable_applyEvents _ ih
  | join left right ihLeft ihRight => exact ⟨ihLeft.1.join ihRight.1, ihLeft.2.join ihRight.2⟩
  | collect vv reached collected ih =>
    obtain ⟨nodes, edges, result, ran, decodableNodes, decodableEdges, -⟩ := executeGC_spec ih
    cases ran.symm.trans collected
    exact ⟨decodableNodes, decodableEdges⟩

/-! ### Observation -/

theorem projectState_of_collected (s vv) (collectedNodes : ORSet.Collected vv s.nodeAlive nodes)
    (collectedEdges : ORSet.Collected vv s.edgeAlive edges) :
    projectState ({ s with nodeAlive := nodes, edgeAlive := edges } : WarpState V) =
      projectState s := by
  have sameEdges : visibleEdge ({ s with nodeAlive := nodes, edgeAlive := edges } : WarpState V) =
      visibleEdge s := by
    funext k
    simp only [visibleEdge, collectedNodes.contains, collectedEdges.contains]
  have sameNodes : visibleNode ({ s with nodeAlive := nodes, edgeAlive := edges } : WarpState V) =
      visibleNode s := by
    funext x
    exact collectedNodes.contains x
  have edgeList : visibleEdges ({ s with nodeAlive := nodes, edgeAlive := edges } : WarpState V) =
      visibleEdges s := by
    simp only [visibleEdges, collectedEdges.elements, sameEdges]
  have propList : visibleProps ({ s with nodeAlive := nodes, edgeAlive := edges } : WarpState V) =
      visibleProps s := by
    simp only [visibleProps, sameNodes]
    rfl
  simp only [projectState, collectedNodes.elements, edgeList, propList]

/-- A collection with any vector, on any reachable state, goes through and leaves the projection
and the live dots of every element as they are; it keeps every tombstone that the vector does not
cover, and a second run changes nothing. -/
theorem executeGC_observed (s : WarpState V) (reached : Replicated s) (vv : VersionVector) :
    ∃ t result, executeGC s vv = .ok (t, result) ∧ projectState t = projectState s ∧
      (∀ x, t.nodeAlive.getDots x = s.nodeAlive.getDots x) ∧
      (∀ k, t.edgeAlive.getDots k = s.edgeAlive.getDots k) ∧
      (∀ d ∈ s.nodeAlive.tombstones,
        (∀ dot, Dot.decode d = .ok dot → vv.contains dot = false) → d ∈ t.nodeAlive.tombstones) ∧
      (∀ d ∈ s.edgeAlive.tombstones,
        (∀ dot, Dot.decode d = .ok dot → vv.contains dot = false) → d ∈ t.edgeAlive.tombstones) ∧
      executeGC t vv = .ok (t, ⟨0, 0, 0⟩) := by
  obtain ⟨nodes, edges, result, ran, -, -, collectedNodes, collectedEdges⟩ :=
    executeGC_spec reached.decodable
  refine ⟨_, result, ran, projectState_of_collected s vv collectedNodes collectedEdges,
    collectedNodes.liveDots, collectedEdges.liveDots, collectedNodes.uncovered,
    collectedEdges.uncovered, ?_⟩
  simp only [executeGC, compactORSets, collectedNodes.again, collectedEdges.again, bind, Except.bind,
    Nat.sub_self]
  rfl

theorem Replicated.reduce {entries} {s t : WarpState V} (reached : Replicated s)
    (reduced : reducePatches entries s = .ok t) : Replicated t := by
  induction entries generalizing s with
  | nil =>
    cases reduced
    exact reached
  | cons entry rest ih =>
    obtain ⟨next, applied, later⟩ := bind_eq_ok.mp reduced
    exact ih (.patch entry reached applied) later

/-- A removed node is collected, and nothing that was seen changes. -/
theorem executeGC_observed_removed : ∃ s t result,
    reducePatches [sampleAdd, sampleRemove] .empty = .ok s ∧
      executeGC s (VersionVector.empty.put (lit "a") (by decide) 1) = .ok (t, result) ∧
      result.nodesCompacted = 1 ∧ projectState t = projectState s := by
  obtain ⟨s, reduced, counted⟩ : ∃ s, reducePatches [sampleAdd, sampleRemove] .empty = .ok s ∧
      (executeGC s (VersionVector.empty.put (lit "a") (by decide) 1)).toOption.map
        (fun result => result.2.nodesCompacted) = some 1 := ⟨_, rfl, by decide +kernel⟩
  obtain ⟨t, result, ran, projected, -⟩ := executeGC_observed s (Replicated.empty.reduce reduced)
    (VersionVector.empty.put (lit "a") (by decide) 1)
  rw [ran] at counted
  exact ⟨s, t, result, reduced, ran, Option.some.inj counted, projected⟩

end GitWarp
