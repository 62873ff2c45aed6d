import Mathlib.Logic.Nontrivial.Defs
import GitWarp.Lib.SortBy
import GitWarp.Lib.Wire
import GitWarp.Reducer.Addressing
import GitWarp.Reducer.GarbageCollection

/-!
# The hash of a state

A state is hashed through its projection: the visible nodes and edges and the
properties of visible nodes, each sorted. The readers of a graph also see the
properties of visible edges, as far as they are not older than the edge. The
hash therefore tells apart what the projection shows and nothing else.
-/
namespace GitWarp

open Js Lib KeyCodec List

variable {V : Type}

/-! ### The projection -/

structure NodeProp (V : Type) where
  node : JsString
  key : JsString
  value : V
  deriving DecidableEq

structure StateProjection (V : Type) where
  nodes : List JsString
  edges : List EdgeParts
  props : List (NodeProp V)
  deriving DecidableEq

/-- `nodePropertiesFromState`: the registers whose key is not one of an edge. -/
def nodePropertiesFromState (s : WarpState V) : List (NodeProp V) :=
  (s.prop.entries.filter fun entry => !isEdgePropKey entry.1).map fun entry =>
    ⟨(decodePropKey entry.1).nodeId, (decodePropKey entry.1).propKey, entry.2.value⟩

def visibleEdges (s : WarpState V) : List EdgeParts :=
  (s.edgeAlive.elements.filter (visibleEdge s)).map decodeEdgeKey

def visibleProps (s : WarpState V) : List (NodeProp V) :=
  (nodePropertiesFromState s).filter fun prop => visibleNode s prop.node

/-- Edges are compared by source, then target, then label. -/
def edgeOrder (e : EdgeParts) : JsString ×ₗ JsString ×ₗ JsString :=
  toLex (e.src, toLex (e.dst, e.label))

/-- Properties are compared by node, then key. -/
def propOrder (p : NodeProp V) : JsString ×ₗ JsString := toLex (p.node, p.key)

def projectState (s : WarpState V) : StateProjection V where
  nodes := sortBy id s.nodeAlive.elements
  edges := sortBy edgeOrder (visibleEdges s)
  props := sortBy propOrder (visibleProps s)

/-- `computeStateHash`, over the codec and the hash function that the host was given. -/
def computeStateHash {Bytes : Type} (encode : StateProjection V → Bytes) (hash : Bytes → JsString)
    (s : WarpState V) : JsString := hash (encode (projectState s))

/-! ### Properties of edges -/

structure EdgeProp (V : Type) where
  owner : EdgeParts
  key : JsString
  value : V
  deriving DecidableEq

/-- `decodeVisibleEdgePropertyKey`: four non-empty segments, with endpoints that can be node ids. -/
def decodeVisibleEdgePropertyKey (encodedKey : JsString) : Option (EdgeParts × JsString) :=
  if isEdgePropKey encodedKey then
    match split fieldSeparator (encodedKey.drop 1) with
    | [src, dst, label, propKey] =>
      if src = [] ∨ dst = [] ∨ label = [] ∨ propKey = [] then none
      else if src.head? = some edgePropPrefix ∨ dst.head? = some edgePropPrefix then none
      else some (⟨src, dst, label⟩, propKey)
    | _ => none
  else none

/-- A register that is older than the latest birth of its edge is hidden. -/
def visibleEdgeRegister (register : LWWRegister V) (birthEvent : Option EventId) :
    Option (LWWRegister V) :=
  match birthEvent with
  | none => some register
  | some birth => if compareEventIds register.eventId birth < 0 then none else some register

/-- `edgePropertyRecordForRegister`. The owner is looked up among the visible edges by
its id, a length-prefixed encoding of its three parts. -/
def edgePropertyRecordForRegister (s : WarpState V) (encodedKey : JsString)
    (register : LWWRegister V) : Option (EdgeProp V) := do
  let (edge, propKey) ← decodeVisibleEdgePropertyKey encodedKey
  let birthEvent := s.edgeBirthEvent.get (encodeEdgeKey edge.src edge.dst edge.label)
  let visible ← visibleEdgeRegister register birthEvent
  if edge ∈ visibleEdges s then some ⟨edge, propKey, visible.value⟩ else none

/-- The visible edge properties, in the order of their registers. -/
def edgePropertyRecords (s : WarpState V) : List (EdgeProp V) :=
  s.prop.entries.filterMap fun entry => edgePropertyRecordForRegister s entry.1 entry.2

/-- The graphs that two states show are the same. -/
structure SameGraph (s t : WarpState V) : Prop where
  nodes : ∀ x, visibleNode s x = visibleNode t x
  edges : ∀ k, visibleEdge s k = visibleEdge t k
  nodeProps : ∀ p, p ∈ visibleProps s ↔ p ∈ visibleProps t
  edgeProps : ∀ p, p ∈ edgePropertyRecords s ↔ p ∈ edgePropertyRecords t

/-! ### Sort keys are distinct -/

variable (s : WarpState V)

theorem visibleEdge_isEdgeKey (keyed : s.Keyed) (visible : visibleEdge s k = true) :
    IsEdgeKey k := by
  simp only [visibleEdge, Bool.and_eq_true] at visible
  obtain ⟨d, tagged, -⟩ := s.edgeAlive.contains_iff.mp visible.1.1
  exact keyed.edges k d tagged

theorem mem_visibleEdges_iff (keyed : s.Keyed) (key : IsEdgeKey k) :
    decodeEdgeKey k ∈ visibleEdges s ↔ visibleEdge s k = true := by
  simp only [visibleEdges, mem_map, mem_filter]
  constructor
  · rintro ⟨k', ⟨-, visible⟩, same⟩
    have decoded := (visibleEdge_isEdgeKey s keyed visible).decode_inj key same
    exact decoded ▸ visible
  · intro visible
    have alive : k ∈ s.edgeAlive.elements := by
      rw [ORSet.mem_elements_iff]
      simp only [visibleEdge, Bool.and_eq_true] at visible
      exact visible.1.1
    exact ⟨k, ⟨alive, visible⟩, rfl⟩

theorem nodup_elements {s : ORSet} : s.elements.Nodup := s.entries.nodup.filter _

theorem edgeOrder_injective : Function.Injective edgeOrder := by
  intro a b same
  have fields : (a.src, a.dst, a.label) = (b.src, b.dst, b.label) := same
  cases a
  cases b
  simp_all

section

variable (keyed : s.Keyed)
include keyed

theorem nodup_visibleEdges : ((visibleEdges s).map edgeOrder).Nodup := by
  apply List.Nodup.map edgeOrder_injective
  apply List.Nodup.map_on ?_ (nodup_elements.filter _)
  intro k left k' right same
  have first := visibleEdge_isEdgeKey s keyed (mem_filter.mp left).2
  have second := visibleEdge_isEdgeKey s keyed (mem_filter.mp right).2
  exact first.decode_inj second same

theorem mem_nodePropertiesFromState_iff (p) :
    p ∈ nodePropertiesFromState s ↔ ValidId p.node ∧ ValidId p.key ∧
      ∃ r, s.prop.get (encodePropKey p.node p.key) = some r ∧ r.value = p.value := by
  simp only [nodePropertiesFromState, mem_filter, mem_map]
  constructor
  · rintro ⟨⟨k, r⟩, ⟨mem, notEdge⟩, rfl⟩
    have found := (s.prop.mem_entries_iff k).mp mem
    rcases keyed.props k r found with ⟨node, key, validNode, validKey, rfl⟩ | edgeKey
    · simp only [decodePropKey_encodePropKey validNode validKey]
      exact ⟨validNode, validKey, r, found, rfl⟩
    · obtain ⟨src, dst, label, key, -, -, -, -, rfl⟩ := edgeKey
      simp at notEdge
  · rintro ⟨validNode, validKey, r, found, value⟩
    refine ⟨(encodePropKey p.node p.key, r), ⟨(s.prop.mem_entries_iff _).mpr found, ?_⟩, ?_⟩
    · simp [isEdgePropKey_encodePropKey p.key validNode]
    · simp only [decodePropKey_encodePropKey validNode validKey, value]

theorem mem_visibleProps_iff (p) :
    p ∈ visibleProps s ↔ ValidId p.node ∧ ValidId p.key ∧ visibleNode s p.node = true ∧
      ∃ r, s.prop.get (encodePropKey p.node p.key) = some r ∧ r.value = p.value := by
  rw [visibleProps, mem_filter, mem_nodePropertiesFromState_iff s keyed]
  constructor
  · rintro ⟨⟨validNode, validKey, register⟩, visible⟩
    exact ⟨validNode, validKey, visible, register⟩
  · rintro ⟨validNode, validKey, visible, register⟩
    exact ⟨⟨validNode, validKey, register⟩, visible⟩

theorem nodup_nodePropertiesFromState : ((nodePropertiesFromState s).map propOrder).Nodup := by
  rw [nodePropertiesFromState, map_map]
  apply List.Nodup.map_on ?_ (s.prop.nodup.of_map.filter _)
  rintro ⟨k, r⟩ left ⟨k', r'⟩ right same
  simp only [mem_filter, Bool.not_eq_true'] at left right
  have found := (s.prop.mem_entries_iff k).mp left.1
  have found' := (s.prop.mem_entries_iff k').mp right.1
  rcases keyed.props k r found with ⟨node, key, validNode, validKey, rfl⟩ | edgeKey
  · rcases keyed.props k' r' found' with ⟨node', key', validNode', validKey', rfl⟩ | edgeKey
    · simp only [Function.comp_apply, propOrder, decodePropKey_encodePropKey validNode validKey,
        decodePropKey_encodePropKey validNode' validKey', toLex_inj,
        Prod.mk.injEq] at same
      obtain ⟨rfl, rfl⟩ := same
      rw [found] at found'
      exact congrArg _ (Option.some.inj found')
    · obtain ⟨src, dst, label, key, -, -, -, -, rfl⟩ := edgeKey
      simp at right
  · obtain ⟨src, dst, label, key, -, -, -, -, rfl⟩ := edgeKey
    simp at left

theorem nodup_visibleProps : ((visibleProps s).map propOrder).Nodup :=
  (nodup_nodePropertiesFromState s keyed).sublist (filter_sublist.map propOrder)

end

/-! ### What the hash tells apart -/

theorem visibleEdges_mem_congr {t : WarpState V} (left : s.Keyed) (right : t.Keyed) :
    (∀ e, e ∈ visibleEdges s ↔ e ∈ visibleEdges t) ↔ ∀ k, visibleEdge s k = visibleEdge t k := by
  constructor
  · intro same k
    rw [Bool.eq_iff_iff]
    constructor
    · intro visible
      have key := visibleEdge_isEdgeKey s left visible
      rw [← mem_visibleEdges_iff s left key, same] at visible
      exact (mem_visibleEdges_iff t right key).mp visible
    · intro visible
      have key := visibleEdge_isEdgeKey t right visible
      rw [← mem_visibleEdges_iff t right key, ← same] at visible
      exact (mem_visibleEdges_iff s left key).mp visible
  · intro same e
    have alive : ∀ k, visibleEdge s k = true → (k ∈ s.edgeAlive.elements ∧ k ∈ t.edgeAlive.elements) := by
      intro k visible
      have other := visible
      rw [same] at other
      simp only [visibleEdge, Bool.and_eq_true] at visible other
      exact ⟨s.edgeAlive.mem_elements_iff.mpr visible.1.1,
        t.edgeAlive.mem_elements_iff.mpr other.1.1⟩
    simp only [visibleEdges, mem_map, mem_filter]
    constructor
    · rintro ⟨k, ⟨-, visible⟩, rfl⟩
      exact ⟨k, ⟨(alive k visible).2, same k ▸ visible⟩, rfl⟩
    · rintro ⟨k, ⟨-, visible⟩, rfl⟩
      rw [← same] at visible
      exact ⟨k, ⟨(alive k visible).1, visible⟩, rfl⟩

theorem projectState_eq_iff {s t : WarpState V} (left : s.Keyed) (right : t.Keyed) :
    projectState s = projectState t ↔
      (∀ x, visibleNode s x = visibleNode t x) ∧ (∀ k, visibleEdge s k = visibleEdge t k) ∧
        ∀ p, p ∈ visibleProps s ↔ p ∈ visibleProps t := by
  have nodes : sortBy id s.nodeAlive.elements = sortBy id t.nodeAlive.elements ↔
      ∀ x, visibleNode s x = visibleNode t x := by
    rw [sortBy_eq_iff id (by simpa using nodup_elements)
      (by simpa using nodup_elements)]
    apply forall_congr'
    intro x
    rw [ORSet.mem_elements_iff, ORSet.mem_elements_iff, ← Bool.eq_iff_iff]
    rfl
  have edges := sortBy_eq_iff edgeOrder (nodup_visibleEdges s left) (nodup_visibleEdges t right)
  have props := sortBy_eq_iff propOrder (nodup_visibleProps s left) (nodup_visibleProps t right)
  simp only [projectState, StateProjection.mk.injEq, nodes, edges, props,
    visibleEdges_mem_congr s left right]

theorem computeStateHash_eq_iff {Bytes encode} {hash : Bytes → JsString}
    (encodes : Function.Injective encode) (hashes : Function.Injective hash) {s t : WarpState V}
    (left : s.Keyed) (right : t.Keyed) :
    computeStateHash encode hash s = computeStateHash encode hash t ↔
      (∀ x, visibleNode s x = visibleNode t x) ∧ (∀ k, visibleEdge s k = visibleEdge t k) ∧
        ∀ p, p ∈ visibleProps s ↔ p ∈ visibleProps t := by
  rw [computeStateHash, computeStateHash, hashes.eq_iff, encodes.eq_iff]
  exact projectState_eq_iff left right

theorem decodeVisibleEdgePropertyKey_encode (validSrc : ValidId src) (validDst : ValidId dst)
    (validLabel : ValidId label) (validKey : ValidId key) :
    decodeVisibleEdgePropertyKey (encodeEdgePropKey src dst label key) =
      some (⟨src, dst, label⟩, key) := by
  unfold decodeVisibleEdgePropertyKey
  rw [if_pos (isEdgePropKey_encodeEdgePropKey src dst label key),
    split_encodeEdgePropKey validSrc validDst validLabel validKey]
  simp [validSrc.nonempty, validDst.nonempty, validLabel.nonempty, validKey.nonempty,
    validSrc.unprefixed, validDst.unprefixed]

/-- A register is not older than the birth of its edge. -/
def Fresh (r : LWWRegister V) (birthEvent : Option EventId) : Prop :=
  ∀ birth, birthEvent = some birth → ¬ r.eventId < birth

theorem visibleEdgeRegister_eq_some_iff (r r' : LWWRegister V) (birthEvent) :
    visibleEdgeRegister r birthEvent = some r' ↔ r = r' ∧ Fresh r birthEvent := by
  cases birthEvent with
  | none => simp [visibleEdgeRegister, Fresh]
  | some birth => simp [visibleEdgeRegister, Fresh, compareEventIds_neg_iff, and_comm]

theorem edgePropertyRecordForRegister_encode (validSrc : ValidId src) (validDst : ValidId dst)
    (validLabel : ValidId label) (validKey : ValidId key) :
    edgePropertyRecordForRegister s (encodeEdgePropKey src dst label key) r = some p ↔
      Fresh r (s.edgeBirthEvent.get (encodeEdgeKey src dst label)) ∧
        ⟨src, dst, label⟩ ∈ visibleEdges s ∧ p = ⟨⟨src, dst, label⟩, key, r.value⟩ := by
  simp only [edgePropertyRecordForRegister, decodeVisibleEdgePropertyKey_encode
    validSrc validDst validLabel validKey, Option.bind_eq_bind, Option.bind_some,
    Option.bind_eq_some_iff, visibleEdgeRegister_eq_some_iff]
  constructor
  · rintro ⟨r', ⟨rfl, fresh⟩, shown⟩
    split at shown
    next visible => exact ⟨fresh, visible, (Option.some.inj shown).symm⟩
    · cases shown
  · rintro ⟨fresh, visible, rfl⟩
    exact ⟨r, ⟨rfl, fresh⟩, by rw [if_pos visible]⟩

/-- A visible edge shows the value of each of its registers that is not older than it. -/
theorem mem_edgePropertyRecords_iff (keyed : s.Keyed) (p) :
    p ∈ edgePropertyRecords s ↔
      p.owner ∈ visibleEdges s ∧ ∃ src dst label key r, ValidId src ∧ ValidId dst ∧ ValidId label ∧
        ValidId key ∧ s.prop.get (encodeEdgePropKey src dst label key) = some r ∧
        Fresh r (s.edgeBirthEvent.get (encodeEdgeKey src dst label)) ∧
        p = ⟨⟨src, dst, label⟩, key, r.value⟩ := by
  simp only [edgePropertyRecords, mem_filterMap]
  constructor
  · rintro ⟨⟨k, r⟩, member, shown⟩
    have found := (s.prop.mem_entries_iff k).mp member
    rcases keyed.props k r found with ⟨node, key, validNode, -, rfl⟩ | edgeKey
    · -- the key of a node property has no edge to decode
      simp [edgePropertyRecordForRegister, decodeVisibleEdgePropertyKey,
        isEdgePropKey_encodePropKey key validNode] at shown
    · obtain ⟨src, dst, label, key, validSrc, validDst, validLabel, validKey, rfl⟩ := edgeKey
      obtain ⟨fresh, visible, rfl⟩ := (edgePropertyRecordForRegister_encode s
        validSrc validDst validLabel validKey).mp shown
      exact ⟨visible, src, dst, label, key, r, validSrc, validDst, validLabel, validKey, found,
        fresh, rfl⟩
  · rintro ⟨visible, src, dst, label, key, r, validSrc, validDst, validLabel, validKey, found,
      fresh, rfl⟩
    refine ⟨(encodeEdgePropKey src dst label key, r), (s.prop.mem_entries_iff _).mpr found, ?_⟩
    exact (edgePropertyRecordForRegister_encode s validSrc validDst validLabel
      validKey).mpr ⟨fresh, visible, rfl⟩

/-! ### A later write to a visible edge -/

/-- A patch that sets one property of one edge, above every event up to a lamport. -/
def edgeWrite (src dst label : JsString) (value : V) (lamport : Nat)
    (checked : (Op.edgePropSet src dst label (lit "k") value).check = .ok ()) : PatchEntry V where
  patch := ⟨lit "a", lamport + 1, [.runtime ⟨_, checked⟩], .absent⟩
  sha := lit "aaaa"

theorem edgeWrite_wellFormed {value : V} (lamport) (checked) :
    (edgeWrite src dst label value lamport checked).WellFormed where
  known := by
    intro op mem
    rw [mem_singleton.mp mem]
    rfl
  normal := by
    intro op mem
    rw [mem_singleton.mp mem]
    exact ⟨_, rfl⟩
  positive := by
    change 0 < (lamport : Int) + 1
    omega
  named := by
    change lit "a" ≠ []
    decide
  hex := by
    change isHexOid (lit "aaaa") = true
    decide
  context := ⟨_, rfl⟩

theorem applyFast_edgeWrite (checked) :
    ∃ t e, applyFast s (edgeWrite src dst label value lamport checked) = .ok t ∧
      e.lamport = lamport + 1 ∧ t.nodeAlive = s.nodeAlive ∧ t.edgeAlive = s.edgeAlive ∧
      t.edgeBirthEvent = s.edgeBirthEvent ∧
      t.prop = (s.mutatePropLWW (encodeEdgePropKey src dst label (lit "k")) e value).prop := by
  -- the patch changes one register and the frontier
  have positive : ¬ ((lamport : Int) + 1 ≤ 0) := by omega
  have named : lit "a" ≠ [] := by decide
  have hex : isHexOid (lit "aaaa") = true := by decide
  let e : EventId := ⟨lamport + 1, lit "a", lit "aaaa", 0, Nat.succ_pos _, named, hex⟩
  have frame := s.mutatePropLWW_frame (encodeEdgePropKey src dst label (lit "k")) e value
  have created : EventId.create ((lamport : Int) + 1) (lit "a") (lit "aaaa") 0 = .ok e := by
    rfl
  obtain ⟨effect, found⟩ := (edgeWrite_wellFormed lamport checked).effect_ok
  have events : effect.events = [(e, ⟨_, checked⟩)] := by
    have listed : (edgeWrite src dst label value lamport checked).eventsFrom 0
        (edgeWrite src dst label value lamport checked).patch.ops = .ok [(e, ⟨_, checked⟩)] := by
      simp only [edgeWrite, PatchEntry.eventsFrom, assertKnownReducerOp, normalizeRawOp, created,
        bind, Except.bind, pure, Except.pure]
    exact Except.ok.inj ((PatchEntry.effect_parts _ found).1.symm.trans listed)
  refine ⟨effect.apply s, e, applyFast_ok found s, rfl, ?_⟩
  simp only [Effect.apply, events, applyEvents, foldl_cons, foldl_nil, Op.mutate]
  exact ⟨frame.1, frame.2.1, frame.2.2.2, trivial⟩

theorem exists_ne_value [Nontrivial V] (shown : Option (LWWRegister V)) :
    ∃ v : V, ∀ r, shown = some r → r.value ≠ v := by
  cases shown with
  | none =>
    obtain ⟨v, -⟩ := exists_pair_ne V
    exact ⟨v, by simp⟩
  | some r =>
    obtain ⟨v, differs⟩ := exists_ne r.value
    refine ⟨v, ?_⟩
    rintro r' same
    cases same
    exact differs.symm

theorem exists_lamport_above {r : Option (LWWRegister V)} {birth : Option EventId} :
    ∃ n : Nat, (∀ x, r = some x → x.eventId.lamport ≤ n) ∧ ∀ x, birth = some x → x.lamport ≤ n := by
  refine ⟨max ((r.map fun x => x.eventId.lamport).getD 0) ((birth.map EventId.lamport).getD 0),
    ?_, ?_⟩
  · rintro x rfl
    exact le_max_left _ _
  · rintro x rfl
    exact le_max_right _ _

theorem EventId.lt_of_lamport_lt {a b : EventId} (below : a.lamport < b.lamport) : a < b :=
  (EventId.lt_iff a b).mpr (Or.inl below)

theorem Reachable.twin [Nontrivial V] {s : WarpState V} (reachable : Reachable s) (k)
    (visible : visibleEdge s k = true) :
    ∃ t, Reachable t ∧ (∀ x, visibleNode s x = visibleNode t x) ∧
      (∀ k, visibleEdge s k = visibleEdge t k) ∧ (∀ p, p ∈ visibleProps s ↔ p ∈ visibleProps t) ∧
      ∃ p, p ∈ edgePropertyRecords t ∧ p ∉ edgePropertyRecords s := by
  -- a state that shows an edge shares its hash with a reachable state that shows another value
  -- of a property of that edge
  have keyed := reachable.keyed
  obtain ⟨src, dst, label, validSrc, validDst, validLabel, rfl⟩ :=
    visibleEdge_isEdgeKey s keyed visible
  have validKey : ValidId (lit "k") := ⟨by decide, by decide, by decide⟩
  obtain ⟨value, differs⟩ :=
    exists_ne_value (s.prop.get (encodeEdgePropKey src dst label (lit "k")))
  obtain ⟨lamport, aboveRegister, aboveBirth⟩ := exists_lamport_above
  have checked : (Op.edgePropSet src dst label (lit "k") value).check = .ok () := by
    simp only [Op.check, check_then_eq_ok, assertNonEmptyString_ok, assertNoReservedBytes_ok]
    exact ⟨validSrc.nonempty, validDst.nonempty, validLabel.nonempty, validKey.nonempty,
      ⟨validSrc.separated, validSrc.unprefixed⟩, ⟨validDst.separated, validDst.unprefixed⟩,
      ⟨validLabel.separated, validLabel.unprefixed⟩, ⟨validKey.separated, validKey.unprefixed⟩⟩
  obtain ⟨t, e, applied, stamp, nodes, edges, births, props⟩ :=
    applyFast_edgeWrite s checked
  have after : Reachable t :=
    reachable.apply _ (edgeWrite_wellFormed lamport checked) applied
  have sameNode : ∀ x, visibleNode s x = visibleNode t x := by
    intro x
    rw [visibleNode, visibleNode, nodes]
  have sameEdge : ∀ k, visibleEdge s k = visibleEdge t k := by
    intro k
    rw [visibleEdge, visibleEdge, nodes, edges]
  refine ⟨t, after, sameNode, sameEdge, ?_, ⟨⟨src, dst, label⟩, lit "k", value⟩, ?_, ?_⟩
  · -- the written key is one of an edge, so no node property moves
    intro p
    rw [mem_visibleProps_iff s keyed, mem_visibleProps_iff t after.keyed, ← sameNode]
    apply and_congr_right
    intro validNode
    have other : encodeEdgePropKey src dst label (lit "k") ≠ encodePropKey p.node p.key := by
      intro same
      have kind := isEdgePropKey_encodePropKey p.key validNode
      rw [← same, isEdgePropKey_encodeEdgePropKey] at kind
      cases kind
    rw [props, WarpState.get_mutatePropLWW, if_neg other]
  · rw [mem_edgePropertyRecords_iff t after.keyed]
    have shown : (⟨src, dst, label⟩ : EdgeParts) ∈ visibleEdges t := by
      have key : IsEdgeKey (encodeEdgeKey src dst label) :=
        ⟨src, dst, label, validSrc, validDst, validLabel, rfl⟩
      rw [← decodeEdgeKey_encodeEdgeKey validSrc validDst validLabel]
      rw [mem_visibleEdges_iff t after.keyed key, ← sameEdge]
      exact visible
    refine ⟨shown, src, dst, label, lit "k", ⟨e, value⟩, validSrc, validDst, validLabel, validKey,
      ?_, ?_, rfl⟩
    · -- the new write is above the register that was there
      rw [props, WarpState.get_mutatePropLWW, if_pos rfl]
      cases old : s.prop.get (encodeEdgePropKey src dst label (lit "k")) with
      | none => rfl
      | some r =>
        have below : r.eventId < e := EventId.lt_of_lamport_lt (by
          have bound := aboveRegister r old
          omega)
        simp [later, not_le.mpr below]
    · intro birth found
      rw [births] at found
      have bound := aboveBirth birth found
      exact not_lt_of_gt (EventId.lt_of_lamport_lt (by
        change birth.lamport < e.lamport
        omega))
  · rw [mem_edgePropertyRecords_iff s keyed]
    rintro ⟨-, src', dst', label', key', r, -, -, -, -, found, -, same⟩
    simp only [EdgeProp.mk.injEq, EdgeParts.mk.injEq] at same
    obtain ⟨⟨rfl, rfl, rfl⟩, rfl, shown⟩ := same
    exact differs r found shown.symm

/-! ### The hash and the visible graph -/

/-- The hash fixes the visible nodes, the visible edges and the node properties of a
reachable state, and it fixes the whole visible graph exactly for the states that show
no edge. -/
theorem stateHash_identifies_iff [Nontrivial V] {Bytes : Type} (encode : StateProjection V → Bytes)
    (hash : Bytes → JsString) (encodes : Function.Injective encode)
    (hashes : Function.Injective hash) (s : WarpState V) (reachable : Reachable s) :
    (∀ t, Reachable t → computeStateHash encode hash s = computeStateHash encode hash t →
      (∀ x, visibleNode s x = visibleNode t x) ∧ (∀ k, visibleEdge s k = visibleEdge t k) ∧
        ∀ p, p ∈ visibleProps s ↔ p ∈ visibleProps t) ∧
    ((∀ t, Reachable t → computeStateHash encode hash s = computeStateHash encode hash t →
      SameGraph s t) ↔ ∀ k, visibleEdge s k = false) := by
  have keyed := reachable.keyed
  have fixes := fun t (other : Reachable t) =>
    (computeStateHash_eq_iff encodes hashes keyed other.keyed).mp
  refine ⟨fixes, ?_, ?_⟩
  · intro identifies k
    by_contra shown
    obtain ⟨t, other, nodes, edges, props, p, inT, notInS⟩ :=
      reachable.twin k (Bool.not_eq_false _ ▸ shown)
    have same := (computeStateHash_eq_iff encodes hashes keyed other.keyed).mpr
      ⟨nodes, edges, props⟩
    exact notInS (((identifies t other same).edgeProps p).mpr inT)
  · intro bare t other same
    obtain ⟨nodes, edges, props⟩ := fixes t other same
    -- without a visible edge neither state has an edge property to show
    have none : ∀ u : WarpState V, (∀ k, visibleEdge u k = false) → ∀ p : EdgeProp V,
        p.owner ∉ visibleEdges u := by
      intro u hidden p member
      obtain ⟨k, inside, -⟩ := mem_map.mp member
      exact absurd ((mem_filter.mp inside).2) (by simp [hidden k])
    refine ⟨nodes, edges, props, ?_⟩
    intro p
    rw [mem_edgePropertyRecords_iff s keyed, mem_edgePropertyRecords_iff t other.keyed]
    constructor
    · exact fun shown => absurd shown.1 (none s bare p)
    · exact fun shown => absurd shown.1 (none t (fun k => edges k ▸ bare k) p)

/-! ### Two weights of one road -/

def rawDot (writerId : String) (counter : Int) : Option DotLike :=
  some (.raw ⟨some (lit writerId), some (.int counter)⟩)

/-- Adds the nodes `x` and `y` and an edge between them. -/
def roadPatch : PatchEntry Nat where
  patch := ⟨lit "a", 1, [
    .decoded { OpLike.bare (lit "NodeAdd") 0 with node := some (lit "x"), dot := rawDot "a" 1 },
    .decoded { OpLike.bare (lit "NodeAdd") 0 with node := some (lit "y"), dot := rawDot "a" 2 },
    .decoded { OpLike.bare (lit "EdgeAdd") 0 with
      src := some (lit "x"), dst := some (lit "y"), label := some (lit "road"), dot := rawDot "a" 3 }],
    .absent⟩
  sha := lit "aaaa"

def weightPatch (weight : Nat) : PatchEntry Nat where
  patch := ⟨lit "a", 2, [.decoded { OpLike.bare (lit "EdgePropSet") weight with
      src := some (lit "x"), dst := some (lit "y"), label := some (lit "road"),
      key := some (lit "weight") }], .absent⟩
  sha := lit "bbbb"

/-- Two histories that differ in the weight of a road give one hash, whatever the codec
and the hash function, and show different weights. -/
theorem road_weight_not_hashed :
    ∃ s t : WarpState Nat, reducePatches [roadPatch, weightPatch 1] .empty = .ok s ∧
      reducePatches [roadPatch, weightPatch 2] .empty = .ok t ∧
      (∀ (Bytes : Type) (encode : StateProjection Nat → Bytes) (hash : Bytes → JsString),
        computeStateHash encode hash s = computeStateHash encode hash t) ∧
      edgePropertyRecords s = [⟨⟨lit "x", lit "y", lit "road"⟩, lit "weight", 1⟩] ∧
      edgePropertyRecords t = [⟨⟨lit "x", lit "y", lit "road"⟩, lit "weight", 2⟩] ∧
      ¬ SameGraph s t := by
  refine ⟨_, _, rfl, rfl, ?_, by decide, by decide, ?_⟩
  · intro Bytes encode hash
    exact congrArg (fun projection => hash (encode projection)) (by decide)
  · intro same
    have moved := same.edgeProps ⟨⟨lit "x", lit "y", lit "road"⟩, lit "weight", 1⟩
    revert moved
    decide

/-- An encoding of projections with numeric values: each list marks its items and its end. -/
def projectionWire : Wire CodeUnit (StateProjection Nat) :=
  let text : Wire CodeUnit JsString := .list 1 0 (by decide) .symbol
  let edge := text.pair (text.pair text)
  let prop := text.pair (text.pair (.number 1 0 (by decide)))
  let lists := (Wire.list 1 0 (by decide) text).pair
    ((Wire.list 1 0 (by decide) edge).pair (Wire.list 1 0 (by decide) prop))
  lists.via
    (fun p => (p.nodes, p.edges.map fun e => (e.src, e.dst, e.label),
      p.props.map fun q => (q.node, q.key, q.value)))
    (fun x => ⟨x.1, x.2.1.map fun e => ⟨e.1, e.2.1, e.2.2⟩, x.2.2.map fun q => ⟨q.1, q.2.1, q.2.2⟩⟩)
    (by
      intro p
      simp [Function.comp_def])

theorem roadPatch_wellFormed : roadPatch.WellFormed :=
  .of_checks (by decide)

/-- The state of the road itself, hashed through a concrete codec. -/
theorem stateHash_identifies_iff_road :
    ∃ s : WarpState Nat, reducePatches [roadPatch] .empty = .ok s ∧
      visibleEdge s (encodeEdgeKey (lit "x") (lit "y") (lit "road")) = true ∧
      (∀ t, Reachable t →
        computeStateHash projectionWire.encode id s = computeStateHash projectionWire.encode id t →
        (∀ x, visibleNode s x = visibleNode t x) ∧ (∀ k, visibleEdge s k = visibleEdge t k) ∧
          ∀ p, p ∈ visibleProps s ↔ p ∈ visibleProps t) ∧
      ((∀ t, Reachable t →
        computeStateHash projectionWire.encode id s = computeStateHash projectionWire.encode id t →
        SameGraph s t) ↔ ∀ k, visibleEdge s k = false) := by
  refine ⟨_, rfl, by decide, ?_⟩
  apply stateHash_identifies_iff projectionWire.encode id projectionWire.encode_injective
    Function.injective_id
  refine ⟨[roadPatch], ?_, rfl⟩
  intro entry member
  exact mem_singleton.mp member ▸ roadPatch_wellFormed

end GitWarp
