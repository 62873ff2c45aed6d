import GitWarp.State.StateSerializer

/-!
# Reducing some of the patches

A reader that looks at a few elements may leave out patches that do not concern
them. A focus names the elements; a patch may be left out if it adds and writes
none of them. Removes need care, because they carry dots only: what a left-out
remove has observed stays recorded as lost.
-/
namespace GitWarp

open Js Lib KeyCodec List

variable {V : Type}

/-! ### Focus -/

/-- The elements that a reader looks at. -/
structure Focus where
  nodes : JsString → Prop
  edges : EdgeParts → Prop
  validNodes : ∀ x, nodes x → ValidId x
  validEdges : ∀ e, edges e → e.Valid

namespace Focus

/-- The encoded keys of the properties of the focus. -/
def Owns (F : Focus) (k : JsString) : Prop :=
  (∃ x key, F.nodes x ∧ ValidId key ∧ k = encodePropKey x key) ∨
    ∃ e key, F.edges e ∧ ValidId key ∧ k = e.propKey key

theorem nodes_of_owns (F : Focus) (validNode : ValidId node) (validKey : ValidId key)
    (owned : F.Owns (encodePropKey node key)) : F.nodes node := by
  rcases owned with ⟨x, key', member, validKey', same⟩ | ⟨e, key', -, -, same⟩
  · rw [(encodePropKey_inj validNode (F.validNodes x member) validKey validKey' same).1]
    exact member
  · exact absurd same.symm (encodeEdgePropKey_ne_encodePropKey validNode)

theorem edges_of_owns (F : Focus) (valid : e.Valid) (validKey : ValidId key)
    (owned : F.Owns (e.propKey key)) : F.edges e := by
  rcases owned with ⟨x, key', member, -, same⟩ | ⟨e', key', member, validKey', same⟩
  · exact absurd same
      (encodeEdgePropKey_ne_encodePropKey (F.validNodes x member))
  · rw [(edgePropKey_inj valid (F.validEdges e' member) validKey validKey' same).1]
    exact member

end Focus

/-- The operation adds or writes an element of the focus. -/
def Op.Touches (F : Focus) : Op V → Prop
  | .nodeAdd node _ => F.nodes node
  | .nodePropSet node _ _ => F.nodes node
  | .edgeAdd src dst label _ => F.edges ⟨src, dst, label⟩
  | .edgePropSet src dst label _ _ => F.edges ⟨src, dst, label⟩
  | .nodeRemove _ _ | .edgeRemove _ _ _ _ | .blobValue _ _ => False

/-- The dots that an operation removes. -/
structure LostDots where
  node : JsString → Prop
  edge : JsString → Prop

def Op.Loses (lost : LostDots) : Op V → Prop
  | .nodeRemove _ dots => ∀ d ∈ dots, lost.node d
  | .edgeRemove _ _ _ dots => ∀ d ∈ dots, lost.edge d
  | _ => True

/-! ### Agreement -/

/-- Two states agree on a focus, up to tombstones of lost dots that only the first has. -/
structure AgreeOn (F : Focus) (lost : LostDots) (s t : WarpState V) : Prop where
  nodeTags : ∀ x, F.nodes x → ∀ d, d ∈ s.nodeAlive.dotsOf x ↔ d ∈ t.nodeAlive.dotsOf x
  nodeTombs : ∀ d ∈ t.nodeAlive.tombstones, d ∈ s.nodeAlive.tombstones
  nodeLost : ∀ d ∈ s.nodeAlive.tombstones, d ∈ t.nodeAlive.tombstones ∨ lost.node d
  edgeTags : ∀ e, F.edges e → ∀ d, d ∈ s.edgeAlive.dotsOf e.key ↔ d ∈ t.edgeAlive.dotsOf e.key
  edgeTombs : ∀ d ∈ t.edgeAlive.tombstones, d ∈ s.edgeAlive.tombstones
  edgeLost : ∀ d ∈ s.edgeAlive.tombstones, d ∈ t.edgeAlive.tombstones ∨ lost.edge d
  props : ∀ k, F.Owns k → s.prop.get k = t.prop.get k
  births : ∀ e, F.edges e → s.edgeBirthEvent.get e.key = t.edgeBirthEvent.get e.key

namespace AgreeOn

variable {F : Focus} {lost : LostDots} {s t : WarpState V}

theorem refl (F lost) (s : WarpState V) : AgreeOn F lost s s where
  nodeTags := fun _ _ _ => Iff.rfl
  nodeTombs := fun _ => id
  nodeLost := fun _ => Or.inl
  edgeTags := fun _ _ _ => Iff.rfl
  edgeTombs := fun _ => id
  edgeLost := fun _ => Or.inl
  props := fun _ _ => rfl
  births := fun _ _ => rfl

section

variable (agree : AgreeOn F lost s t)
include agree

theorem frontier (vv vv') :
    AgreeOn F lost { s with observedFrontier := vv } { t with observedFrontier := vv' } where
  nodeTags := agree.nodeTags
  nodeTombs := agree.nodeTombs
  nodeLost := agree.nodeLost
  edgeTags := agree.edgeTags
  edgeTombs := agree.edgeTombs
  edgeLost := agree.edgeLost
  props := agree.props
  births := agree.births

theorem write :
    AgreeOn F lost (s.mutatePropLWW k eventId value) (t.mutatePropLWW k eventId value) := by
  obtain ⟨sNodes, sEdges, -, sBirths⟩ := s.mutatePropLWW_frame k eventId value
  obtain ⟨tNodes, tEdges, -, tBirths⟩ := t.mutatePropLWW_frame k eventId value
  constructor
  · rw [sNodes, tNodes]
    exact agree.nodeTags
  · rw [sNodes, tNodes]
    exact agree.nodeTombs
  · rw [sNodes, tNodes]
    exact agree.nodeLost
  · rw [sEdges, tEdges]
    exact agree.edgeTags
  · rw [sEdges, tEdges]
    exact agree.edgeTombs
  · rw [sEdges, tEdges]
    exact agree.edgeLost
  · intro k' owned
    rw [WarpState.get_mutatePropLWW, WarpState.get_mutatePropLWW, agree.props k' owned]
  · rw [sBirths, tBirths]
    exact agree.births

theorem writeElsewhere (k eventId) (value : V) (foreign : ¬ F.Owns k) :
    AgreeOn F lost (s.mutatePropLWW k eventId value) t := by
  -- a write of something else on the first side
  obtain ⟨sNodes, sEdges, -, sBirths⟩ := s.mutatePropLWW_frame k eventId value
  constructor
  · rw [sNodes]
    exact agree.nodeTags
  · rw [sNodes]
    exact agree.nodeTombs
  · rw [sNodes]
    exact agree.nodeLost
  · rw [sEdges]
    exact agree.edgeTags
  · rw [sEdges]
    exact agree.edgeTombs
  · rw [sEdges]
    exact agree.edgeLost
  · intro k' owned
    have apart : k ≠ k' := by
      rintro rfl
      exact foreign owned
    rw [WarpState.get_mutatePropLWW, if_neg apart, agree.props k' owned]
  · rw [sBirths]
    exact agree.births

/-- The same operation on both sides. -/
theorem mutate {op : Op V} : AgreeOn F lost (op.mutate s eventId) (op.mutate t eventId) := by
  cases op with
  | nodeAdd node dot =>
    refine { agree with nodeTags := ?_ }
    intro x mem d
    simp only [Op.mutate, ORSet.mem_dotsOf_add, agree.nodeTags x mem d]
  | nodeRemove node dots =>
    refine { agree with nodeTombs := ?_, nodeLost := ?_ }
    · simp only [Op.mutate, ORSet.mem_tombstones_remove]
      exact fun d => Or.imp_left (agree.nodeTombs d)
    · simp only [Op.mutate, ORSet.mem_tombstones_remove]
      rintro d (old | new)
      · exact (agree.nodeLost d old).imp_left Or.inl
      · exact Or.inl (Or.inr new)
  | edgeAdd src dst label dot =>
    refine { agree with edgeTags := ?_, births := ?_ }
    · intro e mem d
      simp only [Op.mutate, ORSet.mem_dotsOf_add, agree.edgeTags e mem d]
    · intro e mem
      simp only [Op.mutate, WarpState.get_bumpBirthEvent, agree.births e mem]
  | edgeRemove src dst label dots =>
    refine { agree with edgeTombs := ?_, edgeLost := ?_ }
    · simp only [Op.mutate, ORSet.mem_tombstones_remove]
      exact fun d => Or.imp_left (agree.edgeTombs d)
    · simp only [Op.mutate, ORSet.mem_tombstones_remove]
      rintro d (old | new)
      · exact (agree.edgeLost d old).imp_left Or.inl
      · exact Or.inl (Or.inr new)
  | nodePropSet node key value | edgePropSet src dst label key value => exact agree.write
  | blobValue node oid => exact agree

theorem mutateLeft {canonOp : CanonicalOp V} (spares : ¬ canonOp.op.Touches F)
    (loses : canonOp.op.Loses lost) : AgreeOn F lost (canonOp.op.mutate s eventId) t := by
  -- an operation on the first side that spares the focus
  have ids := canonOp.validIds
  obtain ⟨op, checked⟩ := canonOp
  cases op with
  | nodeAdd node dot =>
    refine { agree with nodeTags := ?_ }
    intro x mem d
    have apart : x ≠ node := by
      rintro rfl
      exact spares mem
    simp only [Op.mutate, ORSet.mem_dotsOf_add, agree.nodeTags x mem d, apart, false_and, or_false]
  | nodeRemove node dots =>
    refine { agree with nodeTombs := ?_, nodeLost := ?_ }
    · simp only [Op.mutate, ORSet.mem_tombstones_remove]
      exact fun d mem => Or.inl (agree.nodeTombs d mem)
    · simp only [Op.mutate, ORSet.mem_tombstones_remove, OrdSet.mem_ofList]
      rintro d (old | new)
      · exact agree.nodeLost d old
      · exact Or.inr (loses d new)
  | edgeAdd src dst label dot =>
    have own : (⟨src, dst, label⟩ : EdgeParts).Valid :=
      ⟨ids src (by simp [Op.ids]), ids dst (by simp [Op.ids]), ids label (by simp [Op.ids])⟩
    have apart : ∀ e, F.edges e → encodeEdgeKey src dst label ≠ e.key := by
      intro e mem same
      rw [← edgeKey_inj own (F.validEdges e mem) same] at mem
      exact spares mem
    refine { agree with edgeTags := ?_, births := ?_ }
    · intro e mem d
      simp only [Op.mutate, ORSet.mem_dotsOf_add, agree.edgeTags e mem d,
        (apart e mem).symm, false_and, or_false]
    · intro e mem
      simp only [Op.mutate, WarpState.get_bumpBirthEvent, apart e mem, if_false, agree.births e mem]
  | edgeRemove src dst label dots =>
    refine { agree with edgeTombs := ?_, edgeLost := ?_ }
    · simp only [Op.mutate, ORSet.mem_tombstones_remove]
      exact fun d mem => Or.inl (agree.edgeTombs d mem)
    · simp only [Op.mutate, ORSet.mem_tombstones_remove, OrdSet.mem_ofList]
      rintro d (old | new)
      · exact agree.edgeLost d old
      · exact Or.inr (loses d new)
  | nodePropSet node key value =>
    apply agree.writeElsewhere
    intro owned
    exact spares (F.nodes_of_owns (ids node (by simp [Op.ids]))
      (ids key (by simp [Op.ids])) owned)
  | edgePropSet src dst label key value =>
    apply agree.writeElsewhere
    intro owned
    exact spares (F.edges_of_owns
      ⟨ids src (by simp [Op.ids]), ids dst (by simp [Op.ids]), ids label (by simp [Op.ids])⟩
      (ids key (by simp [Op.ids])) owned)
  | blobValue node oid => exact agree

theorem events (events) : AgreeOn F lost (applyEvents s events) (applyEvents t events) := by
  induction events generalizing s t with
  | nil => exact agree
  | cons event rest ih => exact ih (agree.mutate)

theorem eventsLeft {events}
    (spared : ∀ event ∈ events, ¬ event.2.op.Touches F ∧ event.2.op.Loses lost) :
    AgreeOn F lost (applyEvents s events) t := by
  induction events generalizing s with
  | nil => exact agree
  | cons event rest ih =>
    obtain ⟨spares, loses⟩ := spared event mem_cons_self
    exact ih (agree.mutateLeft spares loses)
      (forall_mem_cons.mp spared).2

end

end AgreeOn

/-! ### Leaving patches out -/

theorem PatchEntry.holds_of_effect (entry : PatchEntry V) {effect}
    (known : entry.effect = .ok effect) : ∀ event ∈ effect.events, entry.Holds event.2.op := by
  exact holds_of_event entry 0 (fun _ => id) _ (entry.effect_parts known).1

theorem effect_of_applied {s t : WarpState V} (applied : applyFast s entry = .ok t) :
    ∃ effect, entry.effect = .ok effect ∧ t = effect.apply s ∧
      ∀ event ∈ effect.events, entry.Holds event.2.op := by
  obtain ⟨effect, known, same⟩ := effect_of_applyFast applied
  exact ⟨effect, known, same, entry.holds_of_effect known⟩

theorem nodeAdd_of_tag {s : WarpState V} (reduced : reducePatches entries .empty = .ok s)
    (tagged : d ∈ s.nodeAlive.dotsOf x) :
    ∃ entry ∈ entries, ∃ dot, entry.Holds (.nodeAdd x dot) ∧ d = dot.encode := by
  have knows := represents_history reduced
  obtain ⟨entry, member, effect, known, fact⟩ := (knows.nodeTags x d).mp tagged
  rcases fact with ⟨event, listed, inside⟩ | ⟨w, seen⟩ | ⟨tick, -, seen⟩
  · obtain ⟨dot, added, same⟩ := nodeTag_mem_facts.mp inside
    exact ⟨entry, member, dot, added ▸ entry.holds_of_effect known event listed, same⟩
  · cases seen
  · cases seen

theorem edgeAdd_of_tag {s : WarpState V} (reduced : reducePatches entries .empty = .ok s)
    (tagged : d ∈ s.edgeAlive.dotsOf k) :
    ∃ entry ∈ entries, ∃ src dst label dot, entry.Holds (.edgeAdd src dst label dot) ∧
      k = encodeEdgeKey src dst label ∧ d = dot.encode := by
  have knows := represents_history reduced
  obtain ⟨entry, member, effect, known, fact⟩ := (knows.edgeTags k d).mp tagged
  rcases fact with ⟨event, listed, inside⟩ | ⟨w, seen⟩ | ⟨tick, -, seen⟩
  · obtain ⟨src, dst, label, dot, added, key, same⟩ :=
      edgeTag_mem_facts.mp inside
    exact ⟨entry, member, src, dst, label, dot,
      added ▸ entry.holds_of_effect known event listed, key, same⟩
  · cases seen
  · cases seen

/-- Without patches that spare the focus, the reducer still succeeds and agrees on the focus. -/
theorem reducePatches_filter_agrees (s t s' : WarpState V)
    (spared : ∀ entry ∈ entries, keep entry = false → ∀ op, entry.Holds op →
      ¬ op.Touches F ∧ op.Loses lost) (agree : AgreeOn F lost s t)
    (reduced : reducePatches entries s = .ok s') :
    ∃ t', reducePatches (entries.filter keep) t = .ok t' ∧ AgreeOn F lost s' t' := by
  induction entries generalizing s t with
  | nil =>
    cases reduced
    exact ⟨t, rfl, agree⟩
  | cons entry rest ih =>
    simp only [reducePatches, bind_eq_ok] at reduced
    obtain ⟨middle, applied, later⟩ := reduced
    obtain ⟨effect, known, rfl, held⟩ := effect_of_applied applied
    have others := fun other mem => spared other (mem_cons_of_mem entry mem)
    rw [filter_cons]
    by_cases kept : keep entry = true
    · -- both sides apply the patch
      have both := (agree.events effect.events).frontier
        (foldFrontier effect.context effect.tick (applyEvents s effect.events).observedFrontier)
        (foldFrontier effect.context effect.tick (applyEvents t effect.events).observedFrontier)
      rw [if_pos kept, reducePatches_cons known]
      exact ih (effect.apply s) (effect.apply t) others both later
    · rw [if_neg kept]
      have dropped := spared entry mem_cons_self (Bool.eq_false_iff.mpr kept)
      have left := agree.eventsLeft
        fun event mem => dropped event.2.op (held event mem)
      exact ih (effect.apply s) t others (left.frontier _ t.observedFrontier) later

/-! ### What the focus shows -/

/-- The visible graphs of two states are the same on a focus. -/
structure SameOn (F : Focus) (s t : WarpState V) : Prop where
  nodes : ∀ x, F.nodes x → visibleNode s x = visibleNode t x
  edges : ∀ e, F.edges e → visibleEdge s e.key = visibleEdge t e.key
  nodeProps : ∀ p, F.nodes p.node → (p ∈ visibleProps s ↔ p ∈ visibleProps t)
  edgeProps : ∀ p, F.edges p.owner → (p ∈ edgePropertyRecords s ↔ p ∈ edgePropertyRecords t)

theorem contains_eq_of_agree {s t : ORSet} {lost : JsString → Prop}
    (tags : ∀ d, d ∈ s.dotsOf x ↔ d ∈ t.dotsOf x) (tombs : ∀ d ∈ t.tombstones, d ∈ s.tombstones)
    (covered : ∀ d ∈ s.tombstones, d ∈ t.tombstones ∨ lost d)
    (unharmed : ∀ d ∈ s.dotsOf x, ¬ lost d) : s.contains x = t.contains x := by
  rw [Bool.eq_iff_iff, ORSet.contains_iff, ORSet.contains_iff]
  constructor
  · rintro ⟨d, tagged, alive⟩
    exact ⟨d, (tags d).mp tagged, fun gone => alive (tombs d gone)⟩
  · rintro ⟨d, tagged, alive⟩
    refine ⟨d, (tags d).mpr tagged, ?_⟩
    intro gone
    rcases covered d gone with both | removed
    · exact alive both
    · exact unharmed d ((tags d).mpr tagged) removed

theorem decodeEdgeKey_key (valid : e.Valid) : decodeEdgeKey e.key = e :=
  decodeEdgeKey_encodeEdgeKey valid.src valid.dst valid.label

theorem visibleEdge_key {s : WarpState V} {e : EdgeParts} (valid : e.Valid) :
    visibleEdge s e.key =
      (s.edgeAlive.contains e.key && visibleNode s e.src && visibleNode s e.dst) := by
  rw [visibleEdge, decodeEdgeKey_key valid]
  rfl

theorem mem_visibleEdges_key {s : WarpState V} (keyed : s.Keyed) (valid : e.Valid) :
    e ∈ visibleEdges s ↔ visibleEdge s e.key = true := by
  have isKey : IsEdgeKey e.key := ⟨e.src, e.dst, e.label, valid.src, valid.dst, valid.label, rfl⟩
  rw [← mem_visibleEdges_iff s keyed isKey, decodeEdgeKey_key valid]

theorem mem_edgePropertyRecords_key (keyed : s.Keyed) {p : EdgeProp V} (valid : p.owner.Valid) :
    p ∈ edgePropertyRecords s ↔ visibleEdge s p.owner.key = true ∧
      ∃ r, ValidId p.key ∧ s.prop.get (p.owner.propKey p.key) = some r ∧
        Fresh r (s.edgeBirthEvent.get p.owner.key) ∧ r.value = p.value := by
  rw [mem_edgePropertyRecords_iff s keyed, mem_visibleEdges_key keyed valid]
  apply and_congr_right
  intro _
  constructor
  · rintro ⟨src, dst, label, key, r, -, -, -, validKey, found, fresh, rfl⟩
    exact ⟨r, validKey, found, fresh, rfl⟩
  · rintro ⟨r, validKey, found, fresh, value⟩
    refine ⟨p.owner.src, p.owner.dst, p.owner.label, p.key, r, valid.src, valid.dst, valid.label,
      validKey, found, fresh, ?_⟩
    rw [value]

/-- States that agree on a focus show the same there, if no dot of the focus was lost and the
endpoints of its edges belong to it. -/
theorem AgreeOn.sameOn {s t : WarpState V} (agree : AgreeOn F lost s t) (left : s.Keyed)
    (right : t.Keyed) (endpoints : ∀ e, F.edges e → F.nodes e.src ∧ F.nodes e.dst)
    (nodeDots : ∀ x, F.nodes x → ∀ d ∈ s.nodeAlive.dotsOf x, ¬ lost.node d)
    (edgeDots : ∀ e, F.edges e → ∀ d ∈ s.edgeAlive.dotsOf e.key, ¬ lost.edge d) : SameOn F s t := by
  have nodes : ∀ x, F.nodes x → visibleNode s x = visibleNode t x := by
    intro x member
    exact contains_eq_of_agree (agree.nodeTags x member)
      agree.nodeTombs agree.nodeLost (nodeDots x member)
  have edges : ∀ e, F.edges e → visibleEdge s e.key = visibleEdge t e.key := by
    intro e member
    have alive := contains_eq_of_agree
      (agree.edgeTags e member) agree.edgeTombs agree.edgeLost (edgeDots e member)
    obtain ⟨src, dst⟩ := endpoints e member
    rw [visibleEdge_key (F.validEdges e member), visibleEdge_key (F.validEdges e member),
      alive, nodes e.src src, nodes e.dst dst]
  refine ⟨nodes, edges, ?_, ?_⟩
  · intro p member
    rw [mem_visibleProps_iff s left, mem_visibleProps_iff t right, nodes p.node member]
    apply and_congr_right
    intro _
    apply and_congr_right
    intro validKey
    rw [agree.props _ (Or.inl ⟨p.node, p.key, member, validKey, rfl⟩)]
  · intro p member
    have valid := F.validEdges p.owner member
    rw [mem_edgePropertyRecords_key left valid, mem_edgePropertyRecords_key right valid,
      edges p.owner member, agree.births p.owner member]
    apply and_congr_right
    intro _
    apply exists_congr
    intro r
    apply and_congr_right
    intro validKey
    rw [agree.props _ (Or.inr ⟨p.owner, p.key, member, validKey, rfl⟩)]

end GitWarp
