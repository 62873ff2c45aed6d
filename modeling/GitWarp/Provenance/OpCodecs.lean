import GitWarp.Provenance.Published
import GitWarp.State.VisibleStateScope

/-!
# Operations and keys are read back

Operations are written to a patch in their lowered form and keys are written into
maps in their encoded form. Reading undoes writing, for operations as instances
and as the plain fields that come back from storage, and a key tells which kind
of register it names.
-/
namespace GitWarp

open Js Lib KeyCodec

variable {V : Type}

/-! ### Operations as plain fields -/

def Dot.persisted (dot : Dot) : DotLike := .raw ⟨some dot.writerId, some (.int dot.counter)⟩

/-- The plain fields of a canonical operation; those that carry no value are given any. -/
def Op.persisted (missing : V) : Op V → OpLike V
  | .nodeAdd node dot =>
    { OpLike.bare (lit "NodeAdd") missing with node := some node, dot := some dot.persisted }
  | .nodeRemove node observedDots =>
    { OpLike.bare (lit "NodeRemove") missing with
      node := some node, observedDots := some observedDots }
  | .edgeAdd src dst label dot =>
    { OpLike.bare (lit "EdgeAdd") missing with
      src := some src, dst := some dst, label := some label, dot := some dot.persisted }
  | .edgeRemove src dst label observedDots =>
    { OpLike.bare (lit "EdgeRemove") missing with
      src := some src, dst := some dst, label := some label, observedDots := some observedDots }
  | .nodePropSet node key value =>
    { OpLike.bare (lit "NodePropSet") value with node := some node, key := some key }
  | .edgePropSet src dst label key value =>
    { OpLike.bare (lit "EdgePropSet") value with
      src := some src, dst := some dst, label := some label, key := some key }
  | .blobValue node oid =>
    { OpLike.bare (lit "BlobValue") missing with node := some node, oid := some oid }

def PatchOp.persisted (missing : V) : PatchOp V → OpLike V
  | .runtime canonical => canonical.op.persisted missing
  | .propSet p _ =>
    { OpLike.bare (lit "PropSet") p.value with node := some p.node, key := some p.key }
  | .decoded rawOp => rawOp

theorem hydrateDot_persisted (dot opType) : hydrateDot (some dot.persisted) opType = .ok dot := by
  obtain ⟨writerId, counter, named, positive⟩ := dot
  have above : ¬ ((counter : Int) ≤ 0) := by omega
  simp only [hydrateDot, Dot.persisted, expectString, expectDotCounter, bind, Except.bind,
    Dot.create, dif_neg named, dif_neg above]
  rfl

theorem normalizeRawOp_named (type) {raw : OpLike V} (named : raw.type = type.name) :
    normalizeRawOp (.decoded raw) = hydrateDecodedOp type raw := by
  have known : OpType.ofName type.name = some type := by cases type <;> decide
  simp only [normalizeRawOp, named, known]

theorem normalizeRawOp_persisted {canonical : CanonicalOp V} :
    normalizeRawOp (.decoded (canonical.op.persisted missing)) = .ok (some canonical) := by
  -- a canonical operation is hydrated from its own fields
  obtain ⟨op, checked⟩ := canonical
  cases op with
  | nodeAdd node dot =>
    rw [normalizeRawOp_named .nodeAdd rfl]
    simp only [hydrateDecodedOp, Op.persisted, expectString, hydrateDot_persisted, bind,
      Except.bind, Op.create_of_checked _ checked]
    rfl
  | nodeRemove node dots =>
    rw [normalizeRawOp_named .nodeRemove rfl]
    simp only [hydrateDecodedOp, Op.persisted, expectObservedDots, bind, Except.bind,
      Op.create_of_checked _ checked]
    rfl
  | edgeAdd src dst label dot =>
    rw [normalizeRawOp_named .edgeAdd rfl]
    simp only [hydrateDecodedOp, Op.persisted, expectString, hydrateDot_persisted, bind,
      Except.bind, Op.create_of_checked _ checked]
    rfl
  | edgeRemove src dst label dots =>
    rw [normalizeRawOp_named .edgeRemove rfl]
    simp only [hydrateDecodedOp, Op.persisted, expectObservedDots, bind, Except.bind,
      Op.create_of_checked _ checked]
    rfl
  | nodePropSet node key value =>
    rw [normalizeRawOp_named .nodePropSet rfl]
    simp only [hydrateDecodedOp, Op.persisted, OpLike.bare, Op.create_of_checked _ checked]
    rfl
  | edgePropSet src dst label key value =>
    rw [normalizeRawOp_named .edgePropSet rfl]
    simp only [hydrateDecodedOp, Op.persisted, OpLike.bare, Op.create_of_checked _ checked]
    rfl
  | blobValue node oid =>
    rw [normalizeRawOp_named .blobValue rfl]
    simp only [hydrateDecodedOp, Op.persisted, Op.create_of_checked _ checked]
    rfl

theorem normalizeRawOp_persisted_propSet (p checked) :
    normalizeRawOp (.decoded ((PatchOp.propSet p checked).persisted missing)) =
      normalizeRawOp (.propSet p checked) := by
  rw [normalizeRawOp_named .propSet rfl]
  simp only [hydrateDecodedOp, PatchOp.persisted, expectString, OpLike.bare, bind, Except.bind,
    checked, normalizeRawOp]

theorem lowerCanonicalOp_ok {canonical : CanonicalOp V} :
    ∃ rawOp, lowerCanonicalOp canonical = .ok rawOp := by
  -- the constructor of the legacy write accepts what the canonical one accepted
  have ids := canonical.validIds
  obtain ⟨op, checked⟩ := canonical
  have lowers : ∀ p : PropSet V, p.node ≠ [] → ValidId p.key → p.check = .ok () := by
    intro p named valid
    rw [PropSet.check, check_then_eq_ok, assertNonEmptyString_ok, check_then_eq_ok,
      assertNonEmptyString_ok, assertNoReservedBytes_ok]
    exact ⟨named, valid.nonempty, valid.separated, valid.unprefixed⟩
  cases op with
  | nodePropSet node key value =>
    have accepted := lowers ⟨node, key, value⟩ (ids node (by simp [Op.ids])).nonempty
      (ids key (by simp [Op.ids]))
    refine ⟨.propSet ⟨node, key, value⟩ accepted, ?_⟩
    simp only [lowerCanonicalOp]
    split
    next failed => exact absurd (failed.symm.trans accepted) (by simp)
    · rfl
  | edgePropSet src dst label key value =>
    have accepted := lowers ⟨encodeLegacyEdgePropNode src dst label, key, value⟩
      (List.cons_ne_nil _ _) (ids key (by simp [Op.ids]))
    refine ⟨.propSet ⟨encodeLegacyEdgePropNode src dst label, key, value⟩ accepted, ?_⟩
    simp only [lowerCanonicalOp]
    split
    next failed => exact absurd (failed.symm.trans accepted) (by simp)
    · rfl
  | _ => exact ⟨_, rfl⟩

theorem normalizeRawOp_of_lowered {rawOp : PatchOp V}
    (lowered : lowerCanonicalOp canonical = .ok rawOp) :
    normalizeRawOp rawOp = .ok (some canonical) ∧
      normalizeRawOp (.decoded (rawOp.persisted missing)) = .ok (some canonical) := by
  have raised := (normalizeRawOp_lowered lowered).1
  refine ⟨raised, ?_⟩
  cases rawOp with
  | runtime own =>
    cases raised
    exact normalizeRawOp_persisted
  | propSet p checked => exact (normalizeRawOp_persisted_propSet p checked).trans raised
  | decoded rawOp => exact raised

/-! ### Keys -/

theorem encode_decode_keys (k) :
    (IsEdgeKey k → (decodeEdgeKey k).key = k) ∧
      (IsNodePropKey k → encodePropKey (decodePropKey k).nodeId (decodePropKey k).propKey = k) ∧
      (IsEdgePropKey k → ∃ edge key, decodeEdgePropKey k = .ok (edge, key) ∧ edge.propKey key = k) := by
  refine ⟨?_, ?_, ?_⟩
  · rintro ⟨src, dst, label, validSrc, validDst, validLabel, rfl⟩
    rw [decodeEdgeKey_encodeEdgeKey validSrc validDst validLabel]
    rfl
  · rintro ⟨node, key, validNode, validKey, rfl⟩
    rw [decodePropKey_encodePropKey validNode validKey]
  · rintro ⟨src, dst, label, key, validSrc, validDst, validLabel, validKey, rfl⟩
    have decoded := decodeEdgePropKey_propKey ⟨src, dst, label⟩ ⟨validSrc, validDst, validLabel⟩
      validKey
    exact ⟨_, _, decoded, rfl⟩

/-- Lowering and normalizing an operation gives it back, as an instance and from its plain fields;
keys of accepted identifiers decode to them and are encoded from what they decode to; and the keys
of node properties and of edge properties are apart, each telling its identifiers. -/
theorem codecs_inverse (missing : V) (canonical : CanonicalOp V) (edge edge' : EdgeParts)
    (node node' key key' : JsString) (validEdge : edge.Valid) (validEdge' : edge'.Valid)
    (validNode : ValidId node) (validNode' : ValidId node') (validKey : ValidId key)
    (validKey' : ValidId key') :
    (∃ rawOp, lowerCanonicalOp canonical = .ok rawOp ∧ normalizeRawOp rawOp = .ok (some canonical) ∧
      normalizeRawOp (.decoded (rawOp.persisted missing)) = .ok (some canonical)) ∧
    (decodeEdgeKey edge.key = edge ∧ decodePropKey (encodePropKey node key) = ⟨node, key⟩ ∧
      decodeEdgePropKey (edge.propKey key) = .ok (edge, key)) ∧
    (∀ k, (IsEdgeKey k → (decodeEdgeKey k).key = k) ∧
      (IsNodePropKey k → encodePropKey (decodePropKey k).nodeId (decodePropKey k).propKey = k) ∧
      (IsEdgePropKey k →
        ∃ edge key, decodeEdgePropKey k = .ok (edge, key) ∧ edge.propKey key = k)) ∧
    (isEdgePropKey (encodePropKey node key) = false ∧ isEdgePropKey (edge.propKey key') = true ∧
      edge.propKey key' ≠ encodePropKey node key) ∧
    (encodePropKey node key = encodePropKey node' key' → node = node' ∧ key = key') ∧
    (edge.propKey key = edge'.propKey key' → edge = edge' ∧ key = key') ∧
    (edge.key = edge'.key → edge = edge') := by
  obtain ⟨rawOp, lowered⟩ := lowerCanonicalOp_ok
  refine ⟨⟨rawOp, lowered, normalizeRawOp_of_lowered lowered⟩, ⟨?_, ?_, ?_⟩,
    encode_decode_keys, ⟨?_, ?_, ?_⟩, ?_, ?_, ?_⟩
  · exact decodeEdgeKey_encodeEdgeKey validEdge.src validEdge.dst validEdge.label
  · exact decodePropKey_encodePropKey validNode validKey
  · exact decodeEdgePropKey_propKey edge validEdge validKey
  · exact isEdgePropKey_encodePropKey key validNode
  · exact isEdgePropKey_encodeEdgePropKey _ _ _ _
  · exact encodeEdgePropKey_ne_encodePropKey validNode
  · exact encodePropKey_inj validNode validNode' validKey validKey'
  · exact edgePropKey_inj validEdge validEdge' validKey validKey'
  · exact edgeKey_inj validEdge validEdge'

/-- An edge property of a road: its key is none of the node `x`. -/
theorem codecs_inverse_road :
    (∃ rawOp, lowerCanonicalOp (V := Nat)
        ⟨.edgePropSet (lit "x") (lit "y") (lit "road") (lit "weight") 5, by decide⟩ = .ok rawOp ∧
      normalizeRawOp (.decoded (rawOp.persisted 0)) = .ok (some
        ⟨.edgePropSet (lit "x") (lit "y") (lit "road") (lit "weight") 5, by decide⟩)) ∧
    (⟨lit "x", lit "y", lit "road"⟩ : EdgeParts).propKey (lit "weight") ≠
      encodePropKey (lit "x") (lit "weight") := by
  have valid : ∀ text ∈ [lit "x", lit "y", lit "road", lit "weight"], ValidId text := by
    intro text member
    constructor
    · exact ne_of_mem_of_not_mem member (by decide)
    · revert text
      decide
    · revert text
      decide
  have road : (⟨lit "x", lit "y", lit "road"⟩ : EdgeParts).Valid :=
    ⟨valid _ (by decide), valid _ (by decide), valid _ (by decide)⟩
  have node := valid (lit "x") (by decide)
  have key := valid (lit "weight") (by decide)
  obtain ⟨⟨rawOp, lowered, -, raised⟩, -, -, ⟨-, -, apart⟩, -⟩ := codecs_inverse 0
    ⟨.edgePropSet (lit "x") (lit "y") (lit "road") (lit "weight") 5, by decide⟩
    ⟨lit "x", lit "y", lit "road"⟩ ⟨lit "x", lit "y", lit "road"⟩ _ _ _ _ road road node node key key
  exact ⟨⟨rawOp, lowered, raised⟩, apart⟩

end GitWarp
