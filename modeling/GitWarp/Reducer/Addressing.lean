import GitWarp.Reducer.Convergence

/-!
# The names in a reduced state

The constructors of the operations accept only identifiers without the
separator and the reserved first unit, so every key of a reduced state is the
encoding of such identifiers and decodes to them. Whatever a successful
reduction adds is what its patches say, well-formed or not.
-/
namespace GitWarp

open Js Lib KeyCodec List

variable {V : Type}

namespace KeyCodec

/-- `key[0] === EDGE_PROP_PREFIX`. -/
def isEdgePropKey (key : JsString) : Bool := key.head? = some edgePropPrefix

structure PropParts where
  nodeId : JsString
  propKey : JsString
  deriving DecidableEq

def decodePropKey (key : JsString) : PropParts :=
  let parts := split fieldSeparator key
  ⟨parts.getD 0 [], parts.getD 1 []⟩

end KeyCodec

/-! ### Keys of valid identifiers -/

def IsEdgeKey (k : JsString) : Prop :=
  ∃ src dst label, ValidId src ∧ ValidId dst ∧ ValidId label ∧ k = encodeEdgeKey src dst label

def IsNodePropKey (k : JsString) : Prop :=
  ∃ node key, ValidId node ∧ ValidId key ∧ k = encodePropKey node key

def IsEdgePropKey (k : JsString) : Prop :=
  ∃ src dst label key, ValidId src ∧ ValidId dst ∧ ValidId label ∧ ValidId key ∧
    k = encodeEdgePropKey src dst label key

theorem decodePropKey_encodePropKey (validNode : ValidId node) (validKey : ValidId key) :
    decodePropKey (encodePropKey node key) = ⟨node, key⟩ := by
  simp only [decodePropKey, encodePropKey]
  rw [split_append_cons _ validNode.separated, split_of_not_mem validKey.separated]
  rfl

theorem isEdgePropKey_encodePropKey (key) (validNode : ValidId node) :
    isEdgePropKey (encodePropKey node key) = false := by
  obtain ⟨u, rest, shape⟩ := exists_cons_of_ne_nil validNode.nonempty
  have head := validNode.unprefixed
  simpa [isEdgePropKey, encodePropKey, shape] using head

@[simp] theorem isEdgePropKey_encodeEdgePropKey (src dst label key) :
    isEdgePropKey (encodeEdgePropKey src dst label key) = true := by
  simp [isEdgePropKey, encodeEdgePropKey]

theorem split_encodeEdgePropKey (validSrc : ValidId src) (validDst : ValidId dst)
    (validLabel : ValidId label) (validKey : ValidId key) :
    split fieldSeparator ((encodeEdgePropKey src dst label key).drop 1) = [src, dst, label, key] := by
  have shape : (encodeEdgePropKey src dst label key).drop 1 =
      src ++ fieldSeparator :: (dst ++ fieldSeparator :: (label ++ fieldSeparator :: key)) := by
    simp [encodeEdgePropKey, encodeEdgeKey]
  rw [shape, split_append_cons _ validSrc.separated, split_append_cons _ validDst.separated,
    split_append_cons _ validLabel.separated, split_of_not_mem validKey.separated]

theorem encodePropKey_inj (validNode : ValidId node) (validNode' : ValidId node')
    (validKey : ValidId key) (validKey' : ValidId key')
    (same : encodePropKey node key = encodePropKey node' key') : node = node' ∧ key = key' := by
  have decoded := congrArg decodePropKey same
  rw [decodePropKey_encodePropKey validNode validKey,
    decodePropKey_encodePropKey validNode' validKey'] at decoded
  exact ⟨congrArg PropParts.nodeId decoded, congrArg PropParts.propKey decoded⟩

theorem IsEdgeKey.decode_inj (left : IsEdgeKey k) (right : IsEdgeKey k')
    (same : decodeEdgeKey k = decodeEdgeKey k') : k = k' := by
  obtain ⟨src, dst, label, validSrc, validDst, validLabel, rfl⟩ := left
  obtain ⟨src', dst', label', validSrc', validDst', validLabel', rfl⟩ := right
  rw [decodeEdgeKey_encodeEdgeKey validSrc validDst validLabel,
    decodeEdgeKey_encodeEdgeKey validSrc' validDst' validLabel'] at same
  simp only [EdgeParts.mk.injEq] at same
  rw [same.1, same.2.1, same.2.2]

theorem encodeEdgePropKey_ne_encodePropKey (valid : ValidId node) :
    encodeEdgePropKey src dst label edgeKey ≠ encodePropKey node key := by
  intro same
  have edge := isEdgePropKey_encodeEdgePropKey src dst label edgeKey
  rw [same, isEdgePropKey_encodePropKey key valid] at edge
  cases edge

/-- The identifiers of an edge are valid. -/
structure KeyCodec.EdgeParts.Valid (edge : EdgeParts) : Prop where
  src : ValidId edge.src
  dst : ValidId edge.dst
  label : ValidId edge.label

def KeyCodec.EdgeParts.key (edge : EdgeParts) : JsString :=
  encodeEdgeKey edge.src edge.dst edge.label

def KeyCodec.EdgeParts.propKey (edge : EdgeParts) (key : JsString) : JsString :=
  encodeEdgePropKey edge.src edge.dst edge.label key

theorem edgeKey_inj {edge edge' : EdgeParts} (left : edge.Valid) (right : edge'.Valid)
    (same : edge.key = edge'.key) : edge = edge' := by
  have decoded := congrArg decodeEdgeKey same
  rw [EdgeParts.key, EdgeParts.key, decodeEdgeKey_encodeEdgeKey left.src left.dst left.label,
    decodeEdgeKey_encodeEdgeKey right.src right.dst right.label] at decoded
  exact decoded

theorem edgePropKey_inj {edge edge' : EdgeParts} (left : edge.Valid) (right : edge'.Valid)
    (validKey : ValidId key) (validKey' : ValidId key')
    (same : edge.propKey key = edge'.propKey key') : edge = edge' ∧ key = key' := by
  have parts := split_encodeEdgePropKey left.src left.dst left.label validKey
  rw [EdgeParts.propKey, EdgeParts.propKey] at same
  rw [same, split_encodeEdgePropKey right.src right.dst right.label validKey'] at parts
  simp only [List.cons.injEq, and_true] at parts
  obtain ⟨src, dst, label, own⟩ := parts
  cases edge
  cases edge'
  simp_all

/-! ### Addressed facts -/

/-- The keys of a fact encode identifiers that the operations accept. -/
def Fact.Addressed : Fact V → Prop
  | .nodeTag x _ => ValidId x
  | .edgeTag k _ => IsEdgeKey k
  | .write k _ => IsNodePropKey k ∨ IsEdgePropKey k
  | .birth k _ => IsEdgeKey k
  | .nodeTomb _ | .edgeTomb _ | .seen _ _ => True

theorem CanonicalOp.facts_addressed (canonical : CanonicalOp V) (f) (mem : f ∈ canonical.op.facts e) :
    f.Addressed := by
  -- what the checks of a constructor say about the facts of its operation
  have valid := canonical.validIds
  obtain ⟨op, checked⟩ := canonical
  cases op with
  | nodeAdd node dot =>
    rw [mem]
    exact valid node (by simp [Op.ids])
  | nodeRemove node dots | edgeRemove src dst label dots =>
    obtain ⟨d, -, rfl⟩ := mem
    trivial
  | edgeAdd src dst label dot =>
    have key : IsEdgeKey (encodeEdgeKey src dst label) :=
      ⟨src, dst, label, valid src (by simp [Op.ids]), valid dst (by simp [Op.ids]),
        valid label (by simp [Op.ids]), rfl⟩
    rcases mem with rfl | rfl
    · exact key
    · exact key
  | nodePropSet node key value =>
    rw [mem]
    exact Or.inl ⟨node, key, valid node (by simp [Op.ids]), valid key (by simp [Op.ids]), rfl⟩
  | edgePropSet src dst label key value =>
    rw [mem]
    exact Or.inr ⟨src, dst, label, key, valid src (by simp [Op.ids]), valid dst (by simp [Op.ids]),
      valid label (by simp [Op.ids]), valid key (by simp [Op.ids]), rfl⟩
  | blobValue node oid => cases mem

variable (entries : List (PatchEntry V))

theorem historyFacts_addressed (f) (mem : f ∈ historyFacts entries) : f.Addressed := by
  obtain ⟨entry, -, effect, -, fact⟩ := mem
  rcases fact with ⟨event, -, inside⟩ | ⟨w, rfl⟩ | ⟨tick, -, rfl⟩
  · exact event.2.facts_addressed f inside
  · trivial
  · trivial

/-! ### The operations of a patch -/

/-- The operations that a patch holds in canonical form. -/
def PatchEntry.Holds (entry : PatchEntry V) (op : Op V) : Prop :=
  ∃ rawOp ∈ entry.patch.ops, ∃ canonOp, normalizeRawOp rawOp = .ok (some canonOp) ∧ canonOp.op = op

theorem PatchEntry.Holds.validIds {entry : PatchEntry V} (held : entry.Holds op) :
    ∀ id ∈ op.ids, ValidId id := by
  obtain ⟨-, -, canonOp, -, rfl⟩ := held
  exact canonOp.validIds

variable (entry : PatchEntry V)

theorem holds_of_event (i) (subset : ∀ op ∈ ops, op ∈ entry.patch.ops) (events)
    (found : entry.eventsFrom i ops = .ok events) : ∀ event ∈ events, entry.Holds event.2.op := by
  induction ops generalizing i events with
  | nil =>
    cases found
    simp
  | cons rawOp rest ih =>
    have later_subset := fun op mem => subset op (mem_cons_of_mem rawOp mem)
    rcases eventsFrom_cons entry found with ⟨-, found⟩ | ⟨e, canonOp, tail, same, -, later, rfl⟩
    · exact ih (i + 1) later_subset events found
    · intro event mem
      rcases mem_cons.mp mem with rfl | inside
      · exact ⟨rawOp, subset rawOp mem_cons_self, canonOp, same, rfl⟩
      · exact ih (i + 1) later_subset tail later event inside

theorem event_of_normalized (i) (events) (found : entry.eventsFrom i ops = .ok events)
    (mem : rawOp ∈ ops) (normal : normalizeRawOp rawOp = .ok (some canonOp)) :
    ∃ event ∈ events, event.2 = canonOp := by
  induction ops generalizing i events with
  | nil => cases mem
  | cons first rest ih =>
    rcases eventsFrom_cons entry found with ⟨same, found⟩ | ⟨e, other, tail, same, -, later, rfl⟩
    · rcases mem_cons.mp mem with rfl | inside
      · cases normal.symm.trans same
      · exact ih (i + 1) events found inside
    · rcases mem_cons.mp mem with rfl | inside
      · cases normal.symm.trans same
        exact ⟨(e, canonOp), mem_cons_self, rfl⟩
      · obtain ⟨event, listed, same⟩ := ih (i + 1) tail later inside
        exact ⟨event, mem_cons_of_mem _ listed, same⟩

theorem PatchEntry.event_of_holds {effect} (known : entry.effect = .ok effect)
    (held : entry.Holds op) : ∃ event ∈ effect.events, event.2.op = op := by
  obtain ⟨rawOp, member, canonOp, normal, rfl⟩ := held
  obtain ⟨event, listed, same⟩ :=
    event_of_normalized entry 0 _ (entry.effect_parts known).1 member normal
  exact ⟨event, listed, congrArg CanonicalOp.op same⟩

/-! ### Successful reductions -/

theorem represents_of_reduced (s F) (before : Represents s F)
    (reduced : reducePatches entries s = .ok t) : Represents t (F ∪ historyFacts entries) := by
  induction entries generalizing s F with
  | nil =>
    cases reduced
    simpa [historyFacts] using before
  | cons entry rest ih =>
    obtain ⟨next, applied, later⟩ := bind_eq_ok.mp reduced
    obtain ⟨effect, found, rfl⟩ := effect_of_applyFast applied
    rw [historyFacts_cons entry found, ← Set.union_assoc]
    exact ih _ _ (before.apply effect) later

theorem represents_history {entries} (reduced : reducePatches entries .empty = .ok s) :
    Represents s (historyFacts entries) := by
  have knows := represents_of_reduced entries .empty ∅ represents_empty reduced
  rwa [Set.empty_union] at knows

theorem effects_of_reduced (s t) (reduced : reducePatches entries s = .ok t) :
    ∀ entry ∈ entries, ∃ effect, entry.effect = .ok effect := by
  induction entries generalizing s with
  | nil => simp
  | cons first rest ih =>
    obtain ⟨next, applied, later⟩ := bind_eq_ok.mp reduced
    intro entry mem
    rcases mem_cons.mp mem with rfl | inside
    · obtain ⟨effect, found, -⟩ := effect_of_applyFast applied
      exact ⟨effect, found⟩
    · exact ih next later entry inside

/-- A state that some list of well-formed patches reduces to. -/
def Reachable (s : WarpState V) : Prop :=
  ∃ entries : List (PatchEntry V), (∀ entry ∈ entries, entry.WellFormed) ∧
    reducePatches entries .empty = .ok s

theorem reducePatches_append (A B) (s : WarpState V) :
    reducePatches (A ++ B) s = reducePatches A s >>= reducePatches B := by
  induction A generalizing s with
  | nil => rfl
  | cons entry rest ih =>
    simp only [cons_append, reducePatches, bind, Except.bind]
    cases applyFast s entry with
    | error e => rfl
    | ok next => exact ih next

theorem Reachable.apply (reachable : Reachable s) (entry) (valid : entry.WellFormed)
    (applied : applyFast s entry = .ok t) : Reachable t := by
  obtain ⟨entries, all, reduced⟩ := reachable
  refine ⟨entries ++ [entry], ?_, ?_⟩
  · intro e mem
    rcases mem_append.mp mem with old | new
    · exact all e old
    · exact mem_singleton.mp new ▸ valid
  · rw [reducePatches_append, reduced]
    simp only [bind, Except.bind, reducePatches, applied]

theorem Reachable.represents {s : WarpState V} (reachable : Reachable s) :
    ∃ F, Represents s F ∧ ∀ f ∈ F, f.Addressed := by
  obtain ⟨entries, -, reduced⟩ := reachable
  have knows := represents_history reduced
  exact ⟨historyFacts entries, knows, historyFacts_addressed entries⟩

/-- The keys of the components of a state encode valid identifiers. -/
structure WarpState.Keyed (s : WarpState V) : Prop where
  nodes : ∀ x d, d ∈ s.nodeAlive.dotsOf x → ValidId x
  edges : ∀ k d, d ∈ s.edgeAlive.dotsOf k → IsEdgeKey k
  props : ∀ k r, s.prop.get k = some r → IsNodePropKey k ∨ IsEdgePropKey k
  births : ∀ k e, s.edgeBirthEvent.get k = some e → IsEdgeKey k

theorem Represents.keyed {F : Set (Fact V)} (represents : Represents s F)
    (addressed : ∀ f ∈ F, f.Addressed) : s.Keyed where
  nodes := fun x d tagged => addressed _ ((represents.nodeTags x d).mp tagged)
  edges := fun k d tagged => addressed _ ((represents.edgeTags k d).mp tagged)
  props := fun k r found => by
    have wins := represents.writes k
    rw [found] at wins
    exact addressed _ wins.1
  births := fun k e found => by
    have wins := represents.births k
    rw [found] at wins
    exact addressed _ wins.1

theorem keyed_of_reduced (reduced : reducePatches entries .empty = .ok s) : s.Keyed := by
  have knows := represents_history reduced
  exact knows.keyed (historyFacts_addressed entries)

theorem Reachable.keyed {s : WarpState V} (reachable : Reachable s) : s.Keyed := by
  obtain ⟨F, represents, addressed⟩ := reachable.represents
  exact represents.keyed addressed

end GitWarp
