import GitWarp.State.GcObservation
import GitWarp.State.Survival

/-!
# Checkpoints of a state

A checkpoint carries the whole inner state with every list sorted. Dots are sorted by
what they decode to. The dots of an element always decode; a tombstone is whatever a
remove named.
-/
namespace GitWarp

open Js Lib KeyCodec

variable {V Bytes : Type}

/-! ### Sorted dots -/

/-- `Dot.compare`: by writer, then by counter. -/
def Dot.order (dot : Dot) : JsString ×ₗ ℕ := toLex (dot.writerId, dot.counter)

def decodedPair (encoded : JsString) : Except Failure (JsString × Dot) := do
  let decoded ← Dot.decode encoded
  pure (encoded, decoded)

def sortEncodedDots (encodedDots : List JsString) : Except Failure (List JsString) := do
  let pairs ← encodedDots.mapM decodedPair
  -- the sort compares decoded dots only and keeps the order of equal ones
  pure ((sortBy (fun pair : JsString × Dot => pair.2.order) pairs).map Prod.fst)

/-! ### The wire form -/

structure SerializedORSet where
  entries : List (JsString × List JsString)
  tombstones : List JsString
  deriving DecidableEq

def serializeEntry (entry : JsString × OrdSet JsString) :
    Except Failure (JsString × List JsString) := do
  let dots ← sortEncodedDots entry.2.toList
  pure (entry.1, dots)

def serializeEntries (entries : List (JsString × OrdSet JsString)) :
    Except Failure (List (JsString × List JsString)) := do
  let result ← entries.mapM serializeEntry
  pure (sortBy Prod.fst result)

def serializeORSet (set : ORSet) : Except Failure SerializedORSet := do
  let entries ← serializeEntries set.entries.entries
  let tombstones ← sortEncodedDots set.tombstones.toList
  pure ⟨entries, tombstones⟩

/-- The loop of `VersionVector.serialize` over the sorted writers: the object it fills. -/
def VersionVector.serializeKeys (vv : VersionVector) :
    List JsString → Except Failure (List (JsString × Nat))
  | [] => .ok []
  | key :: rest =>
    match vv.get key with
    | some (val + 1) => do
      let tail ← vv.serializeKeys rest
      -- assigning a number to `__proto__` runs the inherited setter, which ignores it
      pure (if key = protoKey then tail else (key, val + 1) :: tail)
    | _ => .error (crdtError "E_CRDT_ZERO_COUNTER"
        "VersionVector.serialize: VersionVector must not contain zero counters")

def VersionVector.serialize (vv : VersionVector) : Except Failure (List (JsString × Nat)) :=
  vv.serializeKeys (sortBy id vv.entries.keys)

structure SerializedEventId where
  lamport : Nat
  writerId : JsString
  patchSha : JsString
  opIndex : Nat
  deriving DecidableEq

def serializeEventId (e : EventId) : SerializedEventId :=
  ⟨e.lamport, e.writerId, e.patchSha, e.opIndex⟩

structure SerializedLWWRegister (V : Type) where
  eventId : SerializedEventId
  value : V
  deriving DecidableEq

def serializeLWWRegister (register : LWWRegister V) : SerializedLWWRegister V :=
  ⟨serializeEventId register.eventId, register.value⟩

def serializePropsArray (propEntries : List (JsString × LWWRegister V)) :
    List (JsString × SerializedLWWRegister V) :=
  sortBy Prod.fst (propEntries.map fun entry => (entry.1, serializeLWWRegister entry.2))

def serializeEdgeBirthArray (edgeBirthEvent : List (JsString × EventId)) :
    List (JsString × SerializedEventId) :=
  sortBy Prod.fst (edgeBirthEvent.map fun entry => (entry.1, serializeEventId entry.2))

structure SerializedFullState (V : Type) where
  version : JsString
  nodeAlive : SerializedORSet
  edgeAlive : SerializedORSet
  prop : List (JsString × SerializedLWWRegister V)
  observedFrontier : List (JsString × Nat)
  edgeBirthEvent : List (JsString × SerializedEventId)
  deriving DecidableEq

/-- The values that the checkpoint serializer hands to its codec. -/
inductive CheckpointWire (V : Type)
  | full (state : SerializedFullState V)
  | orSet (set : SerializedORSet)
  | prop (entries : List (JsString × SerializedLWWRegister V))
  | observedFrontier (counters : List (JsString × Nat))
  | edgeBirthEvent (entries : List (JsString × SerializedEventId))
  deriving DecidableEq

/-- The wire object of `serializeFullState`, its components in the order they are built. -/
def fullStateWire (state : WarpState V) : Except Failure (SerializedFullState V) := do
  let nodeAliveObj ← serializeORSet state.nodeAlive
  let edgeAliveObj ← serializeORSet state.edgeAlive
  let propArray := serializePropsArray state.prop.entries
  let observedFrontierObj ← state.observedFrontier.serialize
  let edgeBirthArray := serializeEdgeBirthArray state.edgeBirthEvent.entries
  pure ⟨lit "full-v5", nodeAliveObj, edgeAliveObj, propArray, observedFrontierObj, edgeBirthArray⟩

def serializeFullState (encode : CheckpointWire V → Bytes) (state : WarpState V) :
    Except Failure Bytes := do
  let wire ← fullStateWire state
  pure (encode (.full wire))

structure CheckpointStateEnvelopeBuffers (Bytes : Type) where
  nodeAlive : Bytes
  edgeAlive : Bytes
  prop : Bytes
  observedFrontier : Bytes
  edgeBirthEvent : Bytes

def serializeCheckpointStateEnvelope (encode : CheckpointWire V → Bytes) (state : WarpState V) :
    Except Failure (CheckpointStateEnvelopeBuffers Bytes) := do
  let nodeAlive ← serializeORSet state.nodeAlive
  let edgeAlive ← serializeORSet state.edgeAlive
  let observedFrontier ← state.observedFrontier.serialize
  pure {
    nodeAlive := encode (.orSet nodeAlive)
    edgeAlive := encode (.orSet edgeAlive)
    prop := encode (.prop (serializePropsArray state.prop.entries))
    observedFrontier := encode (.observedFrontier observedFrontier)
    edgeBirthEvent := encode (.edgeBirthEvent (serializeEdgeBirthArray state.edgeBirthEvent.entries))
  }

/-! ### When a serialization succeeds -/

/-- A text that the dot decoder accepts. -/
def Dot.Decodes (encoded : JsString) : Prop := ∃ dot, Dot.decode encoded = .ok dot

theorem sortEncodedDots_ok_iff :
    (∃ sorted, sortEncodedDots encodedDots = .ok sorted) ↔ ∀ d ∈ encodedDots, Dot.Decodes d := by
  constructor
  · rintro ⟨sorted, ok⟩ d mem
    obtain ⟨pairs, traversed, -⟩ := bind_eq_ok.mp ok
    obtain ⟨pair, here⟩ := each_of_mapM_ok pairs traversed d mem
    obtain ⟨dot, decoded, -⟩ := bind_eq_ok.mp here
    exact ⟨dot, decoded⟩
  · intro each
    have paired : ∀ d ∈ encodedDots, ∃ pair, decodedPair d = .ok pair := by
      intro d mem
      obtain ⟨dot, decoded⟩ := each d mem
      exact ⟨(d, dot), bind_eq_ok.mpr ⟨dot, decoded, rfl⟩⟩
    obtain ⟨pairs, traversed, -⟩ := mapM_ok_of_forall decodedPair paired
    exact ⟨_, bind_eq_ok.mpr ⟨pairs, traversed, rfl⟩⟩

theorem serializeEntries_ok (entries)
    (each : ∀ entry ∈ entries, ∀ d ∈ entry.2.toList, Dot.Decodes d) :
    ∃ result, serializeEntries entries = .ok result := by
  have serialized : ∀ entry ∈ entries, ∃ wire, serializeEntry entry = .ok wire := by
    intro entry mem
    obtain ⟨dots, sorted⟩ := sortEncodedDots_ok_iff.mpr (each entry mem)
    exact ⟨(entry.1, dots), bind_eq_ok.mpr ⟨dots, sorted, rfl⟩⟩
  obtain ⟨result, traversed, -⟩ := mapM_ok_of_forall serializeEntry serialized
  exact ⟨_, bind_eq_ok.mpr ⟨result, traversed, rfl⟩⟩

theorem serializeORSet_ok_iff {set} (decodable : set.Decodable) :
    (∃ wire, serializeORSet set = .ok wire) ↔ ∀ d ∈ set.tombstones, Dot.Decodes d := by
  constructor
  · rintro ⟨wire, ok⟩
    obtain ⟨entries, -, ok⟩ := bind_eq_ok.mp ok
    obtain ⟨tombstones, sorted, -⟩ := bind_eq_ok.mp ok
    exact sortEncodedDots_ok_iff.mp ⟨tombstones, sorted⟩
  · intro buried
    obtain ⟨entries, listed⟩ : ∃ entries, serializeEntries set.entries.entries = .ok entries := by
      apply serializeEntries_ok
      intro entry mem d tagged
      have dots : set.dotsOf entry.1 = entry.2 := by
        rw [ORSet.dotsOf, (OrdMap.mem_entries_iff _ _).mp mem]
        rfl
      exact decodable entry.1 d (dots ▸ tagged)
    obtain ⟨tombstones, sorted⟩ := sortEncodedDots_ok_iff.mpr buried
    refine ⟨⟨entries, tombstones⟩, ?_⟩
    simp only [serializeORSet, listed, sorted, bind, Except.bind]
    rfl

theorem VersionVector.serialize_ok (vv : VersionVector) :
    ∃ counters, vv.serialize = .ok counters := by
  have loop : ∀ keys : List JsString, (∀ key ∈ keys, key ∈ vv.entries.keys) →
      ∃ counters, vv.serializeKeys keys = .ok counters := by
    intro keys
    induction keys with
    | nil => exact fun _ => ⟨[], rfl⟩
    | cons key rest ih =>
      intro stored
      obtain ⟨tail, loops⟩ := ih (List.forall_mem_cons.mp stored).2
      have there := (OrdMap.mem_keys_iff _ _).mp (stored key List.mem_cons_self)
      obtain ⟨counter, found⟩ := Option.isSome_iff_exists.mp there
      obtain ⟨-, positive⟩ := vv.valid key counter found
      obtain ⟨val, rfl⟩ := Nat.exists_eq_succ_of_ne_zero (Nat.pos_iff_ne_zero.mp positive)
      refine ⟨if key = protoKey then tail else (key, val + 1) :: tail, ?_⟩
      simp only [serializeKeys, VersionVector.get, found, loops, bind, Except.bind]
      rfl
  exact loop _ fun key mem => (mem_sortBy id _ key).mp mem

theorem serializeFullState_ok_iff {encode : CheckpointWire V → Bytes} (s) (decodable : s.Decodable) :
    (∃ bytes, serializeFullState encode s = .ok bytes) ↔
      (∀ d ∈ s.nodeAlive.tombstones, Dot.Decodes d) ∧
        ∀ d ∈ s.edgeAlive.tombstones, Dot.Decodes d := by
  rw [← serializeORSet_ok_iff decodable.1, ← serializeORSet_ok_iff decodable.2]
  constructor
  · rintro ⟨bytes, ok⟩
    obtain ⟨wire, built, -⟩ := bind_eq_ok.mp ok
    obtain ⟨nodes, nodesOk, built⟩ := bind_eq_ok.mp built
    obtain ⟨edges, edgesOk, -⟩ := bind_eq_ok.mp built
    exact ⟨⟨nodes, nodesOk⟩, ⟨edges, edgesOk⟩⟩
  · rintro ⟨⟨nodes, nodesOk⟩, ⟨edges, edgesOk⟩⟩
    obtain ⟨counters, frontierOk⟩ := s.observedFrontier.serialize_ok
    simp only [serializeFullState, fullStateWire, nodesOk, edgesOk, frontierOk, bind, Except.bind]
    exact ⟨_, rfl⟩

theorem serializeEnvelope_ok_iff {encode : CheckpointWire V → Bytes} (s) (decodable : s.Decodable) :
    (∃ buffers, serializeCheckpointStateEnvelope encode s = .ok buffers) ↔
      (∀ d ∈ s.nodeAlive.tombstones, Dot.Decodes d) ∧
        ∀ d ∈ s.edgeAlive.tombstones, Dot.Decodes d := by
  rw [← serializeORSet_ok_iff decodable.1, ← serializeORSet_ok_iff decodable.2]
  constructor
  · rintro ⟨buffers, ok⟩
    obtain ⟨nodes, nodesOk, ok⟩ := bind_eq_ok.mp ok
    obtain ⟨edges, edgesOk, -⟩ := bind_eq_ok.mp ok
    exact ⟨⟨nodes, nodesOk⟩, ⟨edges, edgesOk⟩⟩
  · rintro ⟨⟨nodes, nodesOk⟩, ⟨edges, edgesOk⟩⟩
    obtain ⟨counters, frontierOk⟩ := s.observedFrontier.serialize_ok
    simp only [serializeCheckpointStateEnvelope, nodesOk, edgesOk, frontierOk, bind, Except.bind]
    exact ⟨_, rfl⟩

/-! ### What a history buries -/

/-- The dots that a remove names. -/
def Op.observedDots : Op V → List JsString
  | .nodeRemove _ observedDots => observedDots
  | .edgeRemove _ _ _ observedDots => observedDots
  | _ => []

/-- Every dot that a remove of the patches names decodes. -/
def ObservedDotsDecode (entries : List (PatchEntry V)) : Prop :=
  ∀ entry ∈ entries, ∀ op, entry.Holds op → ∀ d ∈ op.observedDots, Dot.Decodes d

theorem observedDotsDecode_iff (s) (reduced : reducePatches entries .empty = .ok s) :
    ObservedDotsDecode entries ↔ (∀ d ∈ s.nodeAlive.tombstones, Dot.Decodes d) ∧
      ∀ d ∈ s.edgeAlive.tombstones, Dot.Decodes d := by
  simp only [nodeTombs_iff entries s reduced, edgeTombs_iff entries s reduced]
  constructor
  · intro decode
    constructor
    · rintro d ⟨entry, member, node, dots, held, named⟩
      exact decode entry member _ held d named
    · rintro d ⟨entry, member, src, dst, label, dots, held, named⟩
      exact decode entry member _ held d named
  · rintro ⟨nodes, edges⟩ entry member op held d named
    cases op with
    | nodeRemove node dots => exact nodes d ⟨entry, member, node, dots, held, named⟩
    | edgeRemove src dst label dots =>
      exact edges d ⟨entry, member, src, dst, label, dots, held, named⟩
    | _ => cases named

/-- A state that patches reduce to is written as a checkpoint, flat or as an envelope, exactly when
every dot that a remove of the patches names decodes. -/
theorem checkpoint_serializes_iff (encode : CheckpointWire V → Bytes)
    (entries : List (PatchEntry V)) (s : WarpState V)
    (reduced : reducePatches entries .empty = .ok s) :
    ((∃ bytes, serializeFullState encode s = .ok bytes) ↔ ObservedDotsDecode entries) ∧
      ((∃ buffers, serializeCheckpointStateEnvelope encode s = .ok buffers) ↔
        ObservedDotsDecode entries) := by
  have decodable := (Replicated.empty.reduce reduced).decodable
  rw [observedDotsDecode_iff s reduced]
  exact ⟨serializeFullState_ok_iff s decodable, serializeEnvelope_ok_iff s decodable⟩

/-- A remove that observed the dot of the add leaves a state that is written. -/
theorem checkpoint_serializes_iff_observed :
    ∃ s, reducePatches [sampleAdd, sampleRemove] .empty = .ok s ∧
      ((∃ bytes, serializeFullState id s = .ok bytes) ↔
        ObservedDotsDecode [sampleAdd, sampleRemove]) := by
  obtain ⟨s, reduced⟩ : ∃ s, reducePatches [sampleAdd, sampleRemove] .empty = .ok s := ⟨_, rfl⟩
  exact ⟨s, reduced, (checkpoint_serializes_iff id _ s reduced).1⟩

def malformedRemove : PatchEntry Nat where
  patch := ⟨lit "w", 1, [.decoded { OpLike.bare (lit "NodeRemove") 0 with
    node := some (lit "n"), observedDots := some [lit "x"] }], .absent⟩
  sha := lit "aaaa"

/-- It is accepted and reduced, and the state can not be written. -/
theorem malformedRemove_blocks_checkpoint : ∃ s, reducePatches [malformedRemove] .empty = .ok s ∧
    ¬ ∃ bytes, serializeFullState id s = .ok bytes := by
  obtain ⟨s, reduced, refused⟩ : ∃ s, reducePatches [malformedRemove] .empty = .ok s ∧
      (serializeFullState id s).toOption.isNone = true := ⟨_, rfl, by decide +kernel⟩
  refine ⟨s, reduced, ?_⟩
  rintro ⟨bytes, written⟩
  rw [written] at refused
  cases refused

end GitWarp
