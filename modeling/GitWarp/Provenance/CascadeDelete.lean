import GitWarp.Provenance.BuilderAtomicity
import GitWarp.Reducer.NetDiff

/-!
# Deletion of a node with its edges

The edges that end in a node are found among the alive edge keys by the text of the
node between the separators. In a reachable state that text tells the two ends of an
edge, so the patch takes exactly the node and its edges out of the graph.
-/
namespace GitWarp

open Js Lib KeyCodec List

variable {V : Type}

/-! ### Edges of a node -/

def Incident (nodeId edgeKey : JsString) : Prop :=
  (decodeEdgeKey edgeKey).src = nodeId ∨ (decodeEdgeKey edgeKey).dst = nodeId

theorem Js.includes_iff_infix (part text) : includes part text = true ↔ part <:+: text := by
  induction text with
  | nil => simp [includes]
  | cons u rest ih => simp [includes, ih, infix_cons_iff, isPrefixOf_iff_prefix]

theorem split_two_separators {before middle : JsString} {after : JsString}
    (freeBefore : fieldSeparator ∉ before) (freeMiddle : fieldSeparator ∉ middle) :
    split fieldSeparator (before ++ fieldSeparator :: (middle ++ fieldSeparator :: after)) =
      before :: middle :: split fieldSeparator after := by
  rw [split_append_cons _ freeBefore, split_append_cons _ freeMiddle]

theorem matches_iff_incident {nodeId : JsString} (free : fieldSeparator ∉ nodeId)
    (valid : IsEdgeKey edgeKey) :
    ((nodeId ++ [fieldSeparator]).isPrefixOf edgeKey ||
        includes (fieldSeparator :: (nodeId ++ [fieldSeparator])) edgeKey) = true ↔
      Incident nodeId edgeKey := by
  -- whether the text of a node stands at the start of an edge key, or between its separators
  obtain ⟨src, dst, label, validSrc, validDst, validLabel, rfl⟩ := valid
  have parts : split fieldSeparator (encodeEdgeKey src dst label) = [src, dst, label] := by
    rw [encodeEdgeKey, split_two_separators validSrc.separated validDst.separated,
      split_of_not_mem validLabel.separated]
  rw [Incident, decodeEdgeKey_encodeEdgeKey validSrc validDst validLabel,
    Bool.or_eq_true, isPrefixOf_iff_prefix, includes_iff_infix]
  constructor
  · rintro (⟨after, shape⟩ | ⟨before, after, shape⟩)
    · left
      have shape' : encodeEdgeKey src dst label = nodeId ++ fieldSeparator :: after := by
        rw [← shape]
        simp
      rw [shape', split_append_cons _ free] at parts
      exact (List.cons.inj parts).1.symm
    · right
      have shape' : encodeEdgeKey src dst label =
          before ++ fieldSeparator :: (nodeId ++ fieldSeparator :: after) := by
        rw [← shape]
        simp
      -- the key has two separators, so none is left for the text before
      have two : (encodeEdgeKey src dst label).count fieldSeparator = 2 := by
        simp [encodeEdgeKey, count_eq_zero_of_not_mem validSrc.separated,
          count_eq_zero_of_not_mem validDst.separated,
          count_eq_zero_of_not_mem validLabel.separated]
      have freeBefore : fieldSeparator ∉ before := by
        rw [shape'] at two
        simp only [count_append, count_cons_self] at two
        exact count_eq_zero.mp (by omega)
      rw [shape', split_two_separators freeBefore free] at parts
      exact (List.cons.inj (List.cons.inj parts).2).1.symm
  · rintro (rfl | rfl)
    · exact Or.inl ⟨dst ++ fieldSeparator :: label, by simp [encodeEdgeKey]⟩
    · exact Or.inr ⟨src, label, by simp [encodeEdgeKey]⟩

variable (s : WarpState V)

theorem mem_attachedEdges (keyed : s.Keyed) (valid : ValidId nodeId) :
    edgeKey ∈ (RecordingBuilder.findAttachedData s nodeId).edges ↔
      s.edgeAlive.contains edgeKey = true ∧ Incident nodeId edgeKey := by
  rw [RecordingBuilder.findAttachedData, mem_filter, ORSet.mem_elements_iff]
  apply and_congr_right
  intro alive
  obtain ⟨d, tagged, -⟩ := s.edgeAlive.contains_iff.mp alive
  exact matches_iff_incident valid.separated (keyed.edges edgeKey d tagged)

/-! ### Dots of a reachable state -/

theorem Fact.tag_named {f : Fact V} (said : f ∈ historyFacts entries)
    (tag : (∃ x, f = .nodeTag x d) ∨ ∃ k, f = .edgeTag k d) : d ≠ [] := by
  obtain ⟨entry, -, effect, -, fact⟩ := said
  rcases fact with ⟨event, -, inside⟩ | ⟨w, rfl⟩ | ⟨tick, -, rfl⟩
  · rcases tag with ⟨x, rfl⟩ | ⟨k, rfl⟩
    · obtain ⟨dot, -, rfl⟩ := nodeTag_mem_facts.mp inside
      simp [Dot.encode]
    · obtain ⟨src, dst, label, dot, -, -, rfl⟩ := edgeTag_mem_facts.mp inside
      simp [Dot.encode]
  · simp at tag
  · simp at tag

/-- No dot of a reachable state is the empty text. -/
structure WarpState.DotsNamed (s : WarpState V) : Prop where
  nodes : ∀ x d, d ∈ s.nodeAlive.dotsOf x → d ≠ []
  edges : ∀ k d, d ∈ s.edgeAlive.dotsOf k → d ≠ []

theorem Reachable.dotsNamed {s : WarpState V} (reachable : Reachable s) : s.DotsNamed := by
  obtain ⟨entries, -, reduced⟩ := reachable
  have knows := represents_history reduced
  constructor
  · intro x d tagged
    exact Fact.tag_named ((knows.nodeTags x d).mp tagged) (Or.inl ⟨x, rfl⟩)
  · intro k d tagged
    exact Fact.tag_named ((knows.edgeTags k d).mp tagged) (Or.inr ⟨k, rfl⟩)

theorem assertObservedDots_ok (i) {dots : List JsString} (named : ∀ d ∈ dots, d ≠ []) :
    assertObservedDots opName i dots = .ok () := by
  induction dots generalizing i with
  | nil => rfl
  | cons d rest ih =>
    rw [assertObservedDots, check_then_eq_ok, assertNonEmptyString_ok]
    exact ⟨named d mem_cons_self, ih (i + 1) fun x inside => named x (.tail d inside)⟩

/-! ### The patch -/

namespace RecordingBuilder

def cascadeOps (s : WarpState V) (nodeId : JsString) : List (Op V) :=
  (findAttachedData s nodeId).edges.map (attachedRemoval s) ++
    [.nodeRemove nodeId (s.nodeAlive.getDots nodeId).toList]

/-- The builder has the operations added, and is otherwise as before. -/
structure Extends (b after : RecordingBuilder V) (ops : List (Op V)) : Prop where
  ops : after.builder.ops.map CanonicalOp.op = b.builder.ops.map CanonicalOp.op ++ ops
  writerId : after.builder.writerId = b.builder.writerId
  lamport : after.builder.lamport = b.builder.lamport
  vv : after.builder.vv = b.builder.vv

theorem Extends.trans {b middle after : RecordingBuilder V} {first later}
    (left : b.Extends middle first) (right : middle.Extends after later) :
    b.Extends after (first ++ later) where
  ops := by rw [right.ops, left.ops, append_assoc]
  writerId := right.writerId.trans left.writerId
  lamport := right.lamport.trans left.lamport
  vv := right.vv.trans left.vv

theorem push_extends (b) (checked : op.check = .ok ()) :
    ∃ after, push op observed written b = (.ok (), after) ∧ b.Extends after [op] :=
  ⟨_, push_of_check observed written b checked, by simp [record], rfl, rfl, rfl⟩

theorem cascade_extends (edges)
    (checked : ∀ edgeKey ∈ edges, (attachedRemoval s edgeKey).check = .ok ()) (b) :
    ∃ after, Attempt.forEach (removeAttachedEdge s) edges b = (.ok (), after) ∧
      b.Extends after (edges.map (attachedRemoval s)) := by
  induction edges generalizing b with
  | nil => exact ⟨b, rfl, by simp, rfl, rfl, rfl⟩
  | cons first rest ih =>
    rw [forall_mem_cons] at checked
    obtain ⟨middle, pushed, one⟩ := push_extends b checked.1
    obtain ⟨after, ran, others⟩ := ih checked.2 middle
    refine ⟨after, ?_, one.trans others⟩
    rw [Attempt.forEach, removeAttachedEdge_eq, andThen_of_ok pushed, ran]

theorem attachedRemoval_check (keyed : s.Keyed) (dots : s.DotsNamed)
    (alive : s.edgeAlive.contains edgeKey = true) : (attachedRemoval s edgeKey).check = .ok () := by
  obtain ⟨d, tagged, -⟩ := s.edgeAlive.contains_iff.mp alive
  obtain ⟨src, dst, label, validSrc, validDst, validLabel, rfl⟩ := keyed.edges edgeKey d tagged
  rw [attachedRemoval, decodeEdgeKey_encodeEdgeKey validSrc validDst validLabel,
    Op.check, check_then_eq_ok, assertEdge_ok]
  refine ⟨⟨validSrc, validDst, validLabel⟩, assertObservedDots_ok _ ?_⟩
  exact fun d listed => dots.edges _ d (s.edgeAlive.mem_getDots.mp listed).1

theorem removeNode_extends (keyed : s.Keyed) (dots : s.DotsNamed)
    (live : s.nodeAlive.contains nodeId = true) (b) (opened : b.builder.committed = false)
    (snapshot : b.snapshotState = some s) (policy : b.onDeleteWithData = .cascade) :
    ∃ after, removeNode nodeId b = (.ok (), after) ∧ b.Extends after (cascadeOps s nodeId) := by
  -- on a live node of a reachable state the call goes through
  obtain ⟨d, tagged, alive⟩ := s.nodeAlive.contains_iff.mp live
  have valid := keyed.nodes nodeId d tagged
  have checked : ∀ edgeKey ∈ (findAttachedData s nodeId).edges,
      (attachedRemoval s edgeKey).check = .ok () := fun edgeKey inside =>
    attachedRemoval_check s keyed dots
      ((mem_attachedEdges s keyed valid).mp inside).1
  obtain ⟨middle, ran, edges⟩ := cascade_extends s _ checked b
  have observed : (s.nodeAlive.getDots nodeId).toList ≠ [] :=
    ne_nil_of_mem (s.nodeAlive.mem_getDots.mpr ⟨tagged, alive⟩)
  have node : (Op.nodeRemove nodeId (s.nodeAlive.getDots nodeId).toList : Op V).check = .ok () := by
    rw [Op.check, check_then_eq_ok, assertNonEmptyString_ok, check_then_eq_ok,
      assertNoReservedBytes_ok]
    refine ⟨valid.nonempty, ⟨valid.separated, valid.unprefixed⟩, assertObservedDots_ok _ ?_⟩
    exact fun d listed => dots.nodes _ d (s.nodeAlive.mem_getDots.mp listed).1
  obtain ⟨after, pushed, one⟩ := push_extends middle node
  have chosen : removeNode nodeId b =
      ((Attempt.forEach (removeAttachedEdge s) (findAttachedData s nodeId).edges).andThen
        (removeBareNode s nodeId)) b := by
    unfold removeNode assertNotCommitted
    rw [andThen_of_check (notCommitted_ok_iff.mpr opened)]
    simp only [Attempt.choose, snapshot, policy]
    rfl
  refine ⟨after, ?_, edges.trans one⟩
  rw [chosen, andThen_of_ok ran, removeBareNode, assertObservedDotsForRemove,
    andThen_of_check (if_neg observed), pushed]

theorem lower_removal (s : WarpState V) (removal : canonical.op ∈ cascadeOps s nodeId) :
    lowerCanonicalOp canonical = .ok (.runtime canonical) := by
  obtain ⟨op, checked⟩ := canonical
  rcases mem_append.mp removal with inside | last
  · obtain ⟨edgeKey, -, same⟩ := mem_map.mp inside
    subst same
    rfl
  · have same := mem_singleton.mp last
    subst same
    rfl

theorem commit_cascade (b after : RecordingBuilder V) (fresh : b.builder.ops = [])
    (extended : b.Extends after (cascadeOps s nodeId)) :
    ∃ patch, after.commitPatch ownTick sha = .ok patch ∧
      ∀ op, patch.entry.Holds op ↔ op ∈ cascadeOps s nodeId := by
  -- the builder publishes, and its patch holds exactly the removals
  have ops : after.builder.ops.map CanonicalOp.op = cascadeOps s nodeId := by
    rw [extended.ops, fresh]
    rfl
  have some_ : after.builder.ops ≠ [] := by
    intro none
    rw [none] at ops
    exact absurd ops.symm (by simp [cascadeOps])
  have removal : ∀ canonical ∈ after.builder.ops, canonical.op ∈ cascadeOps s nodeId := by
    intro canonical inside
    rw [← ops]
    exact mem_map_of_mem inside
  have lowered := mapM_eq_map lowerCanonicalOp PatchOp.runtime after.builder.ops
    fun canonical inside => lower_removal s (removal canonical inside)
  refine ⟨_, by rw [commitPatch, if_neg some_, lowered]; rfl, ?_⟩
  intro op
  constructor
  · rintro ⟨rawOp, member, canonOp, normal, rfl⟩
    obtain ⟨canonical, listed, same⟩ := mem_of_mapM_ok _ lowered rawOp member
    have raised := (normalizeRawOp_lowered same).1
    rw [normal] at raised
    cases raised
    exact removal canonOp listed
  · intro inside
    rw [← ops] at inside
    obtain ⟨canonical, listed, rfl⟩ := mem_map.mp inside
    exact ⟨.runtime canonical, mem_map_of_mem listed, canonical, rfl, rfl⟩

end RecordingBuilder

/-! ### The state after the patch -/

/-- The node and its edges are gone, and nothing else is. -/
structure Cascaded (s t : WarpState V) (nodeId : JsString) : Prop where
  dead : t.nodeAlive.contains nodeId = false
  bare : ∀ k, Incident nodeId k → t.edgeAlive.contains k = false
  nodes : ∀ x, x ≠ nodeId → t.nodeAlive.contains x = s.nodeAlive.contains x
  edges : ∀ k, ¬ Incident nodeId k → t.edgeAlive.contains k = s.edgeAlive.contains k
  nodeDots : ∀ x d, d ∈ t.nodeAlive.dotsOf x ↔ d ∈ s.nodeAlive.dotsOf x
  edgeDots : ∀ k d, d ∈ t.edgeAlive.dotsOf k ↔ d ∈ s.edgeAlive.dotsOf k
  otherNodeDots : ∀ x d, x ≠ nodeId → (d ∈ t.nodeAlive.getDots x ↔ d ∈ s.nodeAlive.getDots x)
  otherEdgeDots : ∀ k d, ¬ Incident nodeId k →
    (d ∈ t.edgeAlive.getDots k ↔ d ∈ s.edgeAlive.getDots k)
  nodeTombs : ∀ d, d ∈ t.nodeAlive.tombstones ↔
    d ∈ s.nodeAlive.tombstones ∨ d ∈ s.nodeAlive.getDots nodeId
  edgeTombs : ∀ d, d ∈ t.edgeAlive.tombstones ↔
    d ∈ s.edgeAlive.tombstones ∨ ∃ k, Incident nodeId k ∧ d ∈ s.edgeAlive.getDots k
  props : t.prop.Equiv s.prop
  births : t.edgeBirthEvent.Equiv s.edgeBirthEvent

theorem contains_iff_getDots (orset : ORSet) (x) :
    orset.contains x = true ↔ ∃ d, d ∈ orset.getDots x := by
  simp [ORSet.contains_iff]

theorem removal_facts (known : entry.effect = .ok effect)
    (holds : ∀ op, entry.Holds op ↔ op ∈ RecordingBuilder.cascadeOps s nodeId) (f)
    (unseen : ∀ w n, f ≠ .seen w n) :
    f ∈ historyFacts [entry] ↔ (∃ d ∈ s.nodeAlive.getDots nodeId, f = .nodeTomb d) ∨
      ∃ k ∈ (RecordingBuilder.findAttachedData s nodeId).edges,
        ∃ d ∈ s.edgeAlive.getDots k, f = .edgeTomb d := by
  -- what a patch of removals says, its contexts and ticks apart
  constructor
  · rintro ⟨_, member, effect', known', fact⟩
    rw [mem_singleton.mp member, known, Except.ok.injEq] at known'
    subst known'
    rcases fact with ⟨event, happened, inside⟩ | ⟨w, rfl⟩ | ⟨tick, -, rfl⟩
    · have op := (holds event.2.op).mp (entry.holds_of_effect known event happened)
      rcases mem_append.mp op with edge | node
      · obtain ⟨k, attached, same⟩ := mem_map.mp edge
        rw [← same] at inside
        obtain ⟨d, listed, rfl⟩ := inside
        exact Or.inr ⟨k, attached, d, listed, rfl⟩
      · rw [mem_singleton.mp node] at inside
        obtain ⟨d, listed, rfl⟩ := inside
        exact Or.inl ⟨d, listed, rfl⟩
    · exact absurd rfl (unseen _ _)
    · exact absurd rfl (unseen _ _)
  · have told : ∀ op, op ∈ RecordingBuilder.cascadeOps s nodeId →
        (∀ e, f ∈ op.facts e) → f ∈ historyFacts [entry] := by
      intro op inside fact
      obtain ⟨event, happened, rfl⟩ := entry.event_of_holds known ((holds op).mpr inside)
      exact ⟨entry, mem_singleton_self entry, effect, known, Or.inl ⟨event, happened, fact event.1⟩⟩
    rintro (⟨d, listed, rfl⟩ | ⟨k, attached, d, listed, rfl⟩)
    · apply told (.nodeRemove nodeId (s.nodeAlive.getDots nodeId).toList)
      · exact mem_append_right _ (mem_singleton_self _)
      · exact fun e => ⟨d, listed, rfl⟩
    · apply told (RecordingBuilder.attachedRemoval s k)
      · exact mem_append_left _ (mem_map_of_mem attached)
      · exact fun e => ⟨d, listed, rfl⟩

theorem winner_of_facts {stamp : R → EventId} (held shown)
    (wins : Winner stamp (fun r => held = some r) shown) : shown = held := by
  cases shown with
  | some r => exact wins.1.symm
  | none =>
    cases held with
    | none => rfl
    | some r => exact absurd rfl (wins r)

theorem cascaded_of_removals (t) (keyed : s.Keyed)
    (nodeDots : DiffCalculator.OneElement s.nodeAlive)
    (edgeDots : DiffCalculator.OneElement s.edgeAlive) (valid : ValidId nodeId)
    (known : entry.effect = .ok effect)
    (holds : ∀ op, entry.Holds op ↔ op ∈ RecordingBuilder.cascadeOps s nodeId)
    (applied : applyFast s entry = .ok t) : Cascaded s t nodeId := by
  have reduced : reducePatches [entry] s = .ok t := by
    rw [reducePatches, applied]
    rfl
  have knows := represents_of_reduced [entry] s s.facts (represents_facts s) reduced
  have told := fun f unseen => removal_facts s known holds f unseen
  have nodeTags : ∀ x d, d ∈ t.nodeAlive.dotsOf x ↔ d ∈ s.nodeAlive.dotsOf x := by
    intro x d
    rw [knows.nodeTags, Set.mem_union, told _ (by simp)]
    exact or_iff_left (by simp)
  have edgeTags : ∀ k d, d ∈ t.edgeAlive.dotsOf k ↔ d ∈ s.edgeAlive.dotsOf k := by
    intro k d
    rw [knows.edgeTags, Set.mem_union, told _ (by simp)]
    exact or_iff_left (by simp)
  have nodeTombs : ∀ d, d ∈ t.nodeAlive.tombstones ↔
      d ∈ s.nodeAlive.tombstones ∨ d ∈ s.nodeAlive.getDots nodeId := by
    intro d
    rw [knows.nodeTombs, Set.mem_union, told _ (by simp)]
    exact or_congr Iff.rfl (by simp)
  have edgeTombs : ∀ d, d ∈ t.edgeAlive.tombstones ↔
      d ∈ s.edgeAlive.tombstones ∨ ∃ k, Incident nodeId k ∧ d ∈ s.edgeAlive.getDots k := by
    intro d
    rw [knows.edgeTombs, Set.mem_union, told _ (by simp)]
    apply or_congr_right
    constructor
    · rintro (⟨_, -, wrong⟩ | ⟨k, attached, d', listed, same⟩)
      · cases wrong
      · cases same
        exact ⟨k, ((mem_attachedEdges s keyed valid).mp attached).2, listed⟩
    · rintro ⟨k, incident, listed⟩
      obtain ⟨tagged, alive⟩ := s.edgeAlive.mem_getDots.mp listed
      have contained := s.edgeAlive.contains_iff.mpr ⟨d, tagged, alive⟩
      exact Or.inr ⟨k, (mem_attachedEdges s keyed valid).mpr ⟨contained, incident⟩, d, listed, rfl⟩
  -- a dot of another element is not among those that the patch has observed
  have otherNode : ∀ x d, x ≠ nodeId →
      (d ∈ t.nodeAlive.getDots x ↔ d ∈ s.nodeAlive.getDots x) := by
    intro x d other
    rw [ORSet.mem_getDots, ORSet.mem_getDots, nodeTags, nodeTombs, ORSet.mem_getDots]
    apply and_congr_right
    intro tagged
    rw [not_or, and_iff_left]
    exact fun observed => other (nodeDots x nodeId d tagged observed.1)
  have otherEdge : ∀ k d, ¬ Incident nodeId k →
      (d ∈ t.edgeAlive.getDots k ↔ d ∈ s.edgeAlive.getDots k) := by
    intro k d other
    rw [ORSet.mem_getDots, ORSet.mem_getDots, edgeTags, edgeTombs]
    apply and_congr_right
    intro tagged
    rw [not_or, and_iff_left]
    rintro ⟨k', incident, observed⟩
    have same := edgeDots k k' d tagged (s.edgeAlive.mem_getDots.mp observed).1
    exact other (same ▸ incident)
  constructor
  · rw [← Bool.not_eq_true, ORSet.contains_iff]
    rintro ⟨d, tagged, alive⟩
    rw [nodeTags] at tagged
    rw [nodeTombs, not_or, ORSet.mem_getDots] at alive
    exact alive.2 ⟨tagged, alive.1⟩
  · intro k incident
    rw [← Bool.not_eq_true, ORSet.contains_iff]
    rintro ⟨d, tagged, alive⟩
    rw [edgeTags] at tagged
    rw [edgeTombs, not_or] at alive
    exact alive.2 ⟨k, incident, s.edgeAlive.mem_getDots.mpr ⟨tagged, alive.1⟩⟩
  · intro x other
    rw [Bool.eq_iff_iff, contains_iff_getDots, contains_iff_getDots]
    exact exists_congr fun d => otherNode x d other
  · intro k other
    rw [Bool.eq_iff_iff, contains_iff_getDots, contains_iff_getDots]
    exact exists_congr fun d => otherEdge k d other
  · exact nodeTags
  · exact edgeTags
  · exact otherNode
  · exact otherEdge
  · exact nodeTombs
  · exact edgeTombs
  · intro k
    apply winner_of_facts
    apply (knows.writes k).congr
    intro r
    rw [Set.mem_union, told _ (by simp)]
    exact or_iff_left (by simp)
  · intro k
    apply winner_of_facts
    apply (knows.births k).congr
    intro e
    rw [Set.mem_union, told _ (by simp)]
    exact or_iff_left (by simp)

/-- Under the cascade policy the removal of a live node takes exactly the node and its edges
out of a reachable state. -/
theorem cascade_delete_exact (forms : RecordingBuilder.ValueForms V) (s : WarpState V)
    (reachable : Reachable s) (nodeDots : DiffCalculator.OneElement s.nodeAlive)
    (edgeDots : DiffCalculator.OneElement s.edgeAlive) (nodeId : JsString)
    (live : s.nodeAlive.contains nodeId = true) (session : PatchSession V)
    (snapshot : session.snapshotState = some s) (policy : session.onDeleteWithData = .cascade)
    (calls : session.calls = [.removeNode nodeId]) :
    ∃ patch t, session.publish forms = .ok patch ∧ applyFast s patch.entry = .ok t ∧
      Cascaded s t nodeId := by
  obtain ⟨after, ran, extended⟩ := RecordingBuilder.removeNode_extends s reachable.keyed
    reachable.dotsNamed live session.start rfl snapshot policy
  obtain ⟨patch, committed, holds⟩ := RecordingBuilder.commit_cascade s session.start after
    rfl extended
  have published : session.publish forms = .ok patch := by
    rw [PatchSession.publish, calls, RecordingBuilder.after, foldl_cons, foldl_nil,
      RecordingBuilder.perform, ran]
    exact committed
  have wellFormed := ProvenancePatch.Built.wellFormed ⟨session, published⟩
  obtain ⟨effect, known⟩ := wellFormed.effect_ok
  have applied := applyFast_ok known s
  obtain ⟨d, tagged, -⟩ := s.nodeAlive.contains_iff.mp live
  exact ⟨patch, effect.apply s, published, applied,
    cascaded_of_removals s _ reachable.keyed nodeDots edgeDots
      (reachable.keyed.nodes nodeId d tagged) known holds applied⟩

def roadRemoval (s : WarpState Nat) : PatchSession Nat where
  writerId := ⟨lit "w", w_named⟩
  lamport := 2
  vv := s.observedFrontier
  onDeleteWithData := .cascade
  snapshotState := some s
  calls := [.removeNode (lit "x")]
  ownTick := 0
  sha := lit "bbbb"
  positive := lamport_two
  hex := bbbb_hex

theorem oneElement_of_pairs
    (unique : ∀ p ∈ orset.entries.entries.flatMap fun entry => entry.2.toList.map fun d => (entry.1, d),
      ∀ q ∈ orset.entries.entries.flatMap fun entry => entry.2.toList.map fun d => (entry.1, d),
        p.2 = q.2 → p.1 = q.1) : DiffCalculator.OneElement orset := fun x y d left right =>
  unique (x, d) ((DiffCalculator.mem_entryPairs orset).mpr left) (y, d)
    ((DiffCalculator.mem_entryPairs orset).mpr right) rfl

/-- The road itself goes with one of its ends. -/
theorem cascade_delete_exact_road :
    ∃ s : WarpState Nat, reducePatches [roadPatch] .empty = .ok s ∧
      ∃ patch t, (roadRemoval s).publish ⟨fun _ => 0, 0⟩ = .ok patch ∧
        applyFast s patch.entry = .ok t ∧ Cascaded s t (lit "x") := by
  refine ⟨_, rfl, ?_⟩
  apply cascade_delete_exact
  · refine ⟨[roadPatch], ?_, rfl⟩
    intro entry member
    exact mem_singleton.mp member ▸ roadPatch_wellFormed
  · exact oneElement_of_pairs (by decide +kernel)
  · exact oneElement_of_pairs (by decide +kernel)
  · decide +kernel
  · rfl
  · rfl
  · rfl

end GitWarp
