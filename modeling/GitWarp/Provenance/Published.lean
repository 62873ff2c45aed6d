import GitWarp.Provenance.Footprint

/-!
# Published patches

Publication lowers the property writes of a builder to the legacy operation, and
the reducer raises them again: a published patch holds exactly what its builder
recorded. So every reducer accepts it, and its footprint names what it adds,
writes and, for nodes, removes.
-/
namespace GitWarp

open Js Lib KeyCodec List

variable {V : Type}

/-! ### Lowering is undone -/

theorem Op.create_of_checked (op : Op V) (checked) : op.create = .ok ⟨op, checked⟩ := by
  unfold Op.create
  split
  next e failed =>
    rw [checked] at failed
    cases failed
  · rfl

theorem decodeLegacyEdgePropNode_encode (valid : e.Valid) :
    isLegacyEdgePropNode (encodeLegacyEdgePropNode e.src e.dst e.label) = true ∧
      decodeLegacyEdgePropNode (encodeLegacyEdgePropNode e.src e.dst e.label) = .ok e := by
  have prefixed : isLegacyEdgePropNode (encodeLegacyEdgePropNode e.src e.dst e.label) = true := by
    simp [isLegacyEdgePropNode, encodeLegacyEdgePropNode]
  constructor
  · exact prefixed
  · have parts : split fieldSeparator ((encodeLegacyEdgePropNode e.src e.dst e.label).drop 1) =
        [e.src, e.dst, e.label] := by
      simp only [encodeLegacyEdgePropNode, drop_succ_cons, drop_zero, encodeEdgeKey]
      rw [split_append_cons _ valid.src.separated, split_append_cons _ valid.dst.separated,
        split_of_not_mem valid.label.separated]
    rw [decodeLegacyEdgePropNode, if_pos prefixed, parts]
    simp [valid.src.nonempty, valid.dst.nonempty, valid.label.nonempty]

/-- The reducer finds in a lowered operation the one that was lowered. -/
theorem normalizeRawOp_lowered {rawOp : PatchOp V}
    (lowered : lowerCanonicalOp canonical = .ok rawOp) :
    normalizeRawOp rawOp = .ok (some canonical) ∧ assertKnownReducerOp rawOp = .ok () := by
  have ids := canonical.validIds
  obtain ⟨op, checked⟩ := canonical
  cases op with
  | nodePropSet node key value =>
    have validNode := ids node (by simp [Op.ids])
    have plain : isLegacyEdgePropNode node = false := by
      simpa [isLegacyEdgePropNode] using validNode.unprefixed
    simp only [lowerCanonicalOp] at lowered
    split at lowered
    · cases lowered
    · cases lowered
      rw [normalizeRawOp, normalizePropSet, plain]
      simp [Op.create_of_checked _ checked, assertKnownReducerOp, Functor.map, Except.map]
  | edgePropSet src dst label key value =>
    have valid : (⟨src, dst, label⟩ : EdgeParts).Valid :=
      ⟨ids src (by simp [Op.ids]), ids dst (by simp [Op.ids]), ids label (by simp [Op.ids])⟩
    obtain ⟨prefixed, decoded⟩ := decodeLegacyEdgePropNode_encode valid
    simp only [lowerCanonicalOp] at lowered
    split at lowered
    · cases lowered
    · cases lowered
      rw [normalizeRawOp, normalizePropSet, if_pos prefixed, decoded]
      simp [Op.create_of_checked _ checked, assertKnownReducerOp, Functor.map, Except.map, bind,
        Except.bind]
  | nodeAdd node dot | nodeRemove node dots | edgeAdd src dst label dot
  | edgeRemove src dst label dots | blobValue node oid =>
    cases lowered
    exact ⟨rfl, rfl⟩

/-! ### Contexts -/

theorem fromEntriesLoop_ok {entries : List (JsString × Nat)}
    (named : ∀ entry ∈ entries, entry.1 ≠ []) (vv : VersionVector) :
    ∃ read, vv.fromEntriesLoop (entries.map fun entry => (entry.1, .int entry.2)) = .ok read := by
  induction entries generalizing vv with
  | nil => exact ⟨vv, rfl⟩
  | cons entry rest ih =>
    obtain ⟨writerId, counter⟩ := entry
    have here : writerId ≠ [] := named _ mem_cons_self
    have later := fun other mem => named other (mem_cons_of_mem (writerId, counter) mem)
    have valid : VersionVector.validateEntry writerId (.int counter) = .ok counter := by
      simp [VersionVector.validateEntry, here]
    simp only [map_cons, VersionVector.fromEntriesLoop, valid, bind, Except.bind]
    split
    · exact ih later vv
    · simp only [VersionVector.set, here, dite_false]
      exact ih later _

theorem toVersionVector_published {vv : VersionVector} :
    ∃ read, (PatchContext.entries
      (vv.entries.entries.map fun entry => (entry.1, .int entry.2))).toVersionVector = .ok read :=
  fromEntriesLoop_ok vv.named_of_mem .empty

/-! ### What is known of a published patch -/

namespace ProvenancePatch

variable {forms : RecordingBuilder.ValueForms V} {p : ProvenancePatch V}

/-- The operations of a published patch are the lowered ones of a builder that recorded them. -/
theorem Built.session (built : p.Built forms) :
    ∃ (b : RecordingBuilder V) (rawOps : List (PatchOp V)) (ownTick : Int),
      b.Recorded ∧ b.builder.ops.mapM lowerCanonicalOp = .ok rawOps ∧
        p.entry.patch.ops = rawOps ∧ p.entry.patch.writer = b.builder.writerId ∧
        p.entry.patch.lamport = max b.builder.lamport (ownTick + 1) ∧
        p.entry.patch.context = .entries
          (b.builder.vv.entries.entries.map fun entry => (entry.1, .int entry.2)) ∧
        isHexOid p.entry.sha = true ∧ p.reads = sortBy id b.observedOperands.toList ∧
        p.writes = sortBy id b.writes.toList := by
  obtain ⟨session, published⟩ := built
  have start : session.start.Recorded := by
    constructor
    · intro canonOp mem
      cases mem
    · exact session.positive
  have recorded := RecordingBuilder.recorded_after forms session.calls session.start start
  simp only [PatchSession.publish, RecordingBuilder.commitPatch] at published
  split at published
  · cases published
  · simp only [bind_eq_ok] at published
    obtain ⟨rawOps, lowered, whole⟩ := published
    cases whole
    exact ⟨_, rawOps, session.ownTick, recorded, lowered, rfl, rfl, rfl, rfl, session.hex, rfl, rfl⟩

theorem Built.wellFormed (built : p.Built forms) : p.entry.WellFormed := by
  obtain ⟨b, rawOps, ownTick, recorded, lowered, ops, writer, lamport, context, hex, -, -⟩ :=
    built.session
  have raised : ∀ rawOp ∈ p.entry.patch.ops, ∃ canonical,
      normalizeRawOp rawOp = .ok (some canonical) ∧ assertKnownReducerOp rawOp = .ok () := by
    rw [ops]
    intro rawOp mem
    obtain ⟨canonical, -, same⟩ := mem_of_mapM_ok _ lowered rawOp mem
    exact ⟨canonical, normalizeRawOp_lowered same⟩
  constructor
  · intro rawOp mem
    obtain ⟨-, -, known⟩ := raised rawOp mem
    exact known
  · intro rawOp mem
    obtain ⟨canonical, normal, -⟩ := raised rawOp mem
    exact ⟨some canonical, normal⟩
  · have positive := recorded.positive
    omega
  · rw [writer]
    exact b.builder.writerId.property
  · exact hex
  · rw [context]
    exact toVersionVector_published

theorem Built.recorded (built : p.Built forms) (op) (held : p.entry.Holds op) :
    op.Recorded (· ∈ p.reads) (· ∈ p.writes) := by
  obtain ⟨b, rawOps, -, recorded, lowered, ops, -, -, -, -, reads, writes⟩ := built.session
  obtain ⟨rawOp, member, canonOp, normal, rfl⟩ := held
  rw [ops] at member
  obtain ⟨canonical, listed, same⟩ := mem_of_mapM_ok _ lowered rawOp member
  -- what the reducer finds is what was lowered
  have raised := (normalizeRawOp_lowered same).1
  rw [normal] at raised
  cases raised
  rw [reads, writes]
  apply (recorded.named canonOp listed).mono
  · intro x inside
    exact (mem_sortBy id _ x).mpr inside
  · intro x inside
    exact (mem_sortBy id _ x).mpr inside

end ProvenancePatch

end GitWarp
