import GitWarp.State.Slicing

/-!
# What survives a history

The patches of a history add elements with dots and remove dots again. What a
reduced state shows is decided by the dots that some patch has added and no
patch has removed, whatever the order of the patches.
-/
namespace GitWarp

open Js Lib KeyCodec

variable {V : Type}

/-! ### Adds and removes of a history -/

/-- A patch adds the node with the dot. -/
def NodeAdded (entries : List (PatchEntry V)) (x d : JsString) : Prop :=
  ∃ entry ∈ entries, ∃ dot, entry.Holds (.nodeAdd x dot) ∧ d = dot.encode

/-- A patch removes the dot, whatever node it names. -/
def NodeDotRemoved (entries : List (PatchEntry V)) (d : JsString) : Prop :=
  ∃ entry ∈ entries, ∃ node dots, entry.Holds (.nodeRemove node dots) ∧ d ∈ dots

def EdgeAdded (entries : List (PatchEntry V)) (e : EdgeParts) (d : JsString) : Prop :=
  ∃ entry ∈ entries, ∃ dot, entry.Holds (.edgeAdd e.src e.dst e.label dot) ∧ d = dot.encode

def EdgeDotRemoved (entries : List (PatchEntry V)) (d : JsString) : Prop :=
  ∃ entry ∈ entries, ∃ src dst label dots, entry.Holds (.edgeRemove src dst label dots) ∧ d ∈ dots

/-! ### Facts of a patch and the operations it holds -/

theorem holds_of_fact {entry : PatchEntry V} (fact : f ∈ entry.facts)
    (unseen : ∀ w n, f ≠ .seen w n) : ∃ op e, entry.Holds op ∧ f ∈ op.facts e := by
  obtain ⟨effect, known, fact⟩ := fact
  rcases fact with ⟨event, listed, inside⟩ | ⟨w, seen⟩ | ⟨tick, -, seen⟩
  · exact ⟨event.2.op, event.1, entry.holds_of_effect known event listed, inside⟩
  · exact absurd seen (unseen _ _)
  · exact absurd seen (unseen _ _)

theorem fact_of_holds {entry : PatchEntry V} (known : entry.effect = .ok effect)
    (held : entry.Holds op) : ∃ e, ∀ f ∈ op.facts e, f ∈ entry.facts := by
  obtain ⟨event, listed, rfl⟩ := entry.event_of_holds known held
  refine ⟨event.1, ?_⟩
  intro f inside
  exact ⟨effect, known, Or.inl ⟨event, listed, inside⟩⟩

theorem mem_historyFacts_iff {adds : Op V → Prop}
    (effects : ∀ entry ∈ entries, ∃ effect, entry.effect = .ok effect)
    (unseen : ∀ w n, f ≠ .seen w n) (timeless : ∀ op e, f ∈ op.facts e ↔ adds op) :
    f ∈ historyFacts entries ↔ ∃ entry ∈ entries, ∃ op, entry.Holds op ∧ adds op := by
  constructor
  · rintro ⟨entry, member, fact⟩
    obtain ⟨op, e, held, inside⟩ := holds_of_fact fact unseen
    exact ⟨entry, member, op, held, (timeless op e).mp inside⟩
  · rintro ⟨entry, member, op, held, inside⟩
    obtain ⟨effect, known⟩ := effects entry member
    obtain ⟨e, facts⟩ := fact_of_holds known held
    exact ⟨entry, member, facts f ((timeless op e).mpr inside)⟩

/-! ### A reduced state -/

section Reduced

variable (entries : List (PatchEntry V)) (s : WarpState V)
  (reduced : reducePatches entries .empty = .ok s)

include reduced

theorem nodeTags_iff (x d) : d ∈ s.nodeAlive.dotsOf x ↔ NodeAdded entries x d := by
  rw [(represents_history reduced).nodeTags, mem_historyFacts_iff
    (effects_of_reduced entries .empty s reduced) (by simp) fun op e => nodeTag_mem_facts]
  constructor
  · rintro ⟨entry, member, op, held, dot, rfl, same⟩
    exact ⟨entry, member, dot, held, same⟩
  · rintro ⟨entry, member, dot, held, same⟩
    exact ⟨entry, member, _, held, dot, rfl, same⟩

theorem nodeTombs_iff (d) : d ∈ s.nodeAlive.tombstones ↔ NodeDotRemoved entries d := by
  rw [(represents_history reduced).nodeTombs, mem_historyFacts_iff
    (effects_of_reduced entries .empty s reduced) (by simp) fun op e => nodeTomb_mem_facts]
  constructor
  · rintro ⟨entry, member, op, held, node, dots, rfl, inside⟩
    exact ⟨entry, member, node, dots, held, inside⟩
  · rintro ⟨entry, member, node, dots, held, inside⟩
    exact ⟨entry, member, _, held, node, dots, rfl, inside⟩

theorem edgeTags_iff (valid : e.Valid) (d) :
    d ∈ s.edgeAlive.dotsOf e.key ↔ EdgeAdded entries e d := by
  rw [(represents_history reduced).edgeTags, mem_historyFacts_iff
    (effects_of_reduced entries .empty s reduced) (by simp)
    fun op event => edgeTag_mem_facts]
  constructor
  · rintro ⟨entry, member, op, held, src, dst, label, dot, rfl, key, same⟩
    -- the key of a valid edge tells its parts
    have ids := held.validIds
    have own : (⟨src, dst, label⟩ : EdgeParts).Valid :=
      ⟨ids src (by simp [Op.ids]), ids dst (by simp [Op.ids]), ids label (by simp [Op.ids])⟩
    have parts := edgeKey_inj valid own key
    subst parts
    exact ⟨entry, member, dot, held, same⟩
  · rintro ⟨entry, member, dot, held, same⟩
    exact ⟨entry, member, _, held, e.src, e.dst, e.label, dot, rfl, rfl, same⟩

theorem edgeTombs_iff (d) : d ∈ s.edgeAlive.tombstones ↔ EdgeDotRemoved entries d := by
  rw [(represents_history reduced).edgeTombs, mem_historyFacts_iff
    (effects_of_reduced entries .empty s reduced) (by simp) fun op e => edgeTomb_mem_facts op e d]
  constructor
  · rintro ⟨entry, member, op, held, src, dst, label, dots, rfl, inside⟩
    exact ⟨entry, member, src, dst, label, dots, held, inside⟩
  · rintro ⟨entry, member, src, dst, label, dots, held, inside⟩
    exact ⟨entry, member, _, held, src, dst, label, dots, rfl, inside⟩

theorem visibleNode_reduced :
    visibleNode s x = true ↔ ∃ d, NodeAdded entries x d ∧ ¬ NodeDotRemoved entries d := by
  rw [visibleNode, ORSet.contains_iff]
  simp only [nodeTags_iff entries s reduced, nodeTombs_iff entries s reduced]

theorem mem_visibleEdges_reduced (valid : e.Valid) :
    e ∈ visibleEdges s ↔ (∃ d, EdgeAdded entries e d ∧ ¬ EdgeDotRemoved entries d) ∧
      visibleNode s e.src = true ∧ visibleNode s e.dst = true := by
  rw [mem_visibleEdges_key (keyed_of_reduced entries reduced) valid, visibleEdge_key valid]
  simp only [Bool.and_eq_true, ORSet.contains_iff, edgeTags_iff entries s reduced valid,
    edgeTombs_iff entries s reduced, and_assoc]

theorem valid_of_mem_visibleEdges (e) (visible : e ∈ visibleEdges s) : e.Valid := by
  simp only [visibleEdges, List.mem_map, List.mem_filter] at visible
  obtain ⟨k, ⟨-, shown⟩, rfl⟩ := visible
  obtain ⟨src, dst, label, validSrc, validDst, validLabel, rfl⟩ :=
    visibleEdge_isEdgeKey s (keyed_of_reduced entries reduced) shown
  rw [decodeEdgeKey_encodeEdgeKey validSrc validDst validLabel]
  exact ⟨validSrc, validDst, validLabel⟩

end Reduced

end GitWarp
