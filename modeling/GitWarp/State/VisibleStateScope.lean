import GitWarp.Reducer.ExactDiff
import GitWarp.State.Slicing

/-!
# Visible-state scopes

A scope selects nodes by the prefixes of their ids. It can be applied to a finished
state, by key, or to the patches before they are reduced, by the elements that their
operations name. The two ways agree as long as removes name the element whose dots they
have observed.
-/
namespace GitWarp

open Js Lib KeyCodec List

variable {V : Type}

/-! ### Scopes -/

structure VisibleStateScopePrefixFilter where
  includes : List JsString
  excludes : List JsString

structure VisibleStateScope where
  nodeIdPrefixes : Option VisibleStateScopePrefixFilter

def matchesInclude (value : JsString) (includes : List JsString) : Bool :=
  includes.isEmpty || includes.any fun start => start.isPrefixOf value

def matchesExclude (value : JsString) (excludes : List JsString) : Bool :=
  excludes.any fun start => start.isPrefixOf value

def matchesPrefixFilter (value : JsString) : Option VisibleStateScopePrefixFilter → Bool
  | none => true
  | some rules => matchesInclude value rules.includes && !matchesExclude value rules.excludes

def nodeIdInVisibleStateScope (nodeId : JsString) : Option VisibleStateScope → Bool
  | none => true
  | some scope => matchesPrefixFilter nodeId scope.nodeIdPrefixes

def edgeInVisibleStateScope (edge : EdgeParts) (scope : Option VisibleStateScope) : Bool :=
  nodeIdInVisibleStateScope edge.src scope && nodeIdInVisibleStateScope edge.dst scope

/-! ### Scoping a state -/

def collectScopedNodeIds (s : WarpState V) (scope : VisibleStateScope) : OrdSet JsString :=
  .ofList (s.nodeAlive.elements.filter fun nodeId => nodeIdInVisibleStateScope nodeId (some scope))

def collectScopedEdgeKeys (s : WarpState V) (scopedNodeIds : OrdSet JsString) : OrdSet JsString :=
  .ofList (s.edgeAlive.elements.filter fun edgeKey =>
    scopedNodeIds.has (decodeEdgeKey edgeKey).src && scopedNodeIds.has (decodeEdgeKey edgeKey).dst)

def decodeEdgePropKey (encoded : JsString) : Except Failure (EdgeParts × JsString) :=
  if isEdgePropKey encoded then
    match split fieldSeparator (encoded.drop 1) with
    | [src, dst, label, propKey] => .ok (⟨src, dst, label⟩, propKey)
    | _ => .error ⟨.warpError, lit "E_KEYCODEC_EDGE_PROP_BAD_SEGMENTS",
        lit "Invalid edge property key: expected 4 segments"⟩
  else .error ⟨.warpError, lit "E_KEYCODEC_EDGE_PROP_NO_PREFIX",
    lit "Invalid edge property key: missing prefix"⟩

/-- The second loop of `collectScopedProps`, over `edgeProperties`. -/
def collectEdgeProps (scopedEdgeKeys : OrdSet JsString) :
    List (JsString × LWWRegister V) → Except Failure (List (JsString × LWWRegister V))
  | [] => .ok []
  | (encodedKey, register) :: rest =>
    if isEdgePropKey encodedKey then do
      let (edge, _) ← decodeEdgePropKey encodedKey
      let others ← collectEdgeProps scopedEdgeKeys rest
      if scopedEdgeKeys.has (encodeEdgeKey edge.src edge.dst edge.label) then
        pure ((encodedKey, register) :: others)
      else pure others
    else collectEdgeProps scopedEdgeKeys rest

def collectScopedProps (s : WarpState V) (scopedNodeIds scopedEdgeKeys : OrdSet JsString) :
    Except Failure (OrdMap JsString (LWWRegister V)) := do
  let nodeProps := s.prop.entries.filter fun entry =>
    !isEdgePropKey entry.1 && scopedNodeIds.has (decodePropKey entry.1).nodeId
  let edgeProps ← collectEdgeProps scopedEdgeKeys s.prop.entries
  pure (OrdMap.ofList (nodeProps ++ edgeProps))

def scopeMaterializedState (s : WarpState V) :
    Option VisibleStateScope → Except Failure (WarpState V)
  | none => .ok s
  | some scope => do
    let scopedNodeIds := collectScopedNodeIds s scope
    let scopedEdgeKeys := collectScopedEdgeKeys s scopedNodeIds
    let props ← collectScopedProps s scopedNodeIds scopedEdgeKeys
    pure
      { nodeAlive := s.nodeAlive.scopedClone scopedNodeIds.has
        edgeAlive := s.edgeAlive.scopedClone scopedEdgeKeys.has
        prop := props
        observedFrontier := s.observedFrontier
        edgeBirthEvent := s.edgeBirthEvent.filterKeys scopedEdgeKeys.has }

/-! ### Scoping patches -/

/-- `normalizedOpAffectsScope` of an operation in canonical form. -/
def Op.affectsScope (scope : Option VisibleStateScope) : Op V → Bool
  | .nodeAdd node _ => nodeIdInVisibleStateScope node scope
  | .nodeRemove node _ => nodeIdInVisibleStateScope node scope
  | .nodePropSet node _ _ => nodeIdInVisibleStateScope node scope
  | .edgeAdd src dst label _ => edgeInVisibleStateScope ⟨src, dst, label⟩ scope
  | .edgeRemove src dst label _ => edgeInVisibleStateScope ⟨src, dst, label⟩ scope
  | .edgePropSet src dst label _ _ => edgeInVisibleStateScope ⟨src, dst, label⟩ scope
  | .blobValue _ _ => false

/-- The same of an operation that passed through without an identity. -/
def OpLike.affectsScope (scope : Option VisibleStateScope) (raw : OpLike V) : Bool :=
  match OpType.ofName raw.type with
  | some .nodeAdd | some .nodeRemove | some .nodePropSet =>
    raw.node.any fun node => nodeIdInVisibleStateScope node scope
  | some .edgeAdd | some .edgeRemove | some .edgePropSet =>
    match raw.src, raw.dst with
    | some src, some dst => edgeInVisibleStateScope ⟨src, dst, raw.label.getD []⟩ scope
    | _, _ => false
  | some .blobValue => false
  | some .propSet | none => true

def opAffectsScope (scope : Option VisibleStateScope) (rawOp : PatchOp V) :
    Except Failure Bool := do
  match ← normalizeRawOp rawOp with
  | some canonOp => pure (canonOp.op.affectsScope scope)
  | none =>
    match rawOp with
    | .decoded raw => pure (raw.affectsScope scope)
    | _ => pure true

/-- `patchAffectsScope`: stops at the first operation in scope. -/
def patchAffectsScope (scope : Option VisibleStateScope) : List (PatchOp V) → Except Failure Bool
  | [] => .ok false
  | rawOp :: rest => do
    if ← opAffectsScope scope rawOp then pure true
    else patchAffectsScope scope rest

/-- The filter loop of `scopePatchEntries`. -/
def filterEntries (scope : Option VisibleStateScope) :
    List (PatchEntry V) → Except Failure (List (PatchEntry V))
  | [] => .ok []
  | entry :: rest => do
    let affects ← patchAffectsScope scope entry.patch.ops
    let others ← filterEntries scope rest
    pure (if affects then entry :: others else others)

def scopePatchEntries (entries : List (PatchEntry V)) :
    Option VisibleStateScope → Except Failure (List (PatchEntry V))
  | none => .ok entries
  | some scope => filterEntries (some scope) entries

/-! ### What a scoped state shows -/

theorem decodeEdgePropKey_propKey (e) (valid : e.Valid) (validKey : ValidId key) :
    decodeEdgePropKey (e.propKey key) = .ok (e, key) := by
  unfold decodeEdgePropKey EdgeParts.propKey
  rw [if_pos (isEdgePropKey_encodeEdgePropKey _ _ _ _),
    split_encodeEdgePropKey valid.src valid.dst valid.label validKey]

theorem collectEdgeProps_spec (scopedEdgeKeys) {entries : List (JsString × LWWRegister V)}
    (keyed : ∀ entry ∈ entries, IsNodePropKey entry.1 ∨ IsEdgePropKey entry.1) :
    ∃ found, collectEdgeProps scopedEdgeKeys entries = .ok found ∧ found.Sublist entries ∧
      ∀ entry, entry ∈ found ↔ entry ∈ entries ∧ ∃ (e : EdgeParts) (key : JsString), e.Valid ∧ ValidId key ∧
        entry.1 = e.propKey key ∧ e.key ∈ scopedEdgeKeys := by
  induction entries with
  | nil => exact ⟨[], rfl, List.Sublist.slnil, by simp⟩
  | cons entry rest ih =>
    obtain ⟨encodedKey, register⟩ := entry
    obtain ⟨others, later, inside, members⟩ :=
      ih (forall_mem_cons.mp keyed).2
    rcases keyed _ mem_cons_self with nodeKey | edgeKey
    · -- the register of a node is passed over
      obtain ⟨node, key, validNode, validKey, same⟩ := nodeKey
      subst same
      refine ⟨others, ?_, inside.cons _, ?_⟩
      · rw [collectEdgeProps, isEdgePropKey_encodePropKey key validNode]
        exact later
      · intro other
        rw [members, mem_cons]
        constructor
        · exact fun ⟨listed, own⟩ => ⟨Or.inr listed, own⟩
        · rintro ⟨rfl | listed, own⟩
          · obtain ⟨e, key', -, -, same, -⟩ := own
            exact absurd same.symm
              (encodeEdgePropKey_ne_encodePropKey validNode)
          · exact ⟨listed, own⟩
    · obtain ⟨src, dst, label, key, validSrc, validDst, validLabel, validKey, same⟩ := edgeKey
      have valid : (⟨src, dst, label⟩ : EdgeParts).Valid := ⟨validSrc, validDst, validLabel⟩
      change encodedKey = (⟨src, dst, label⟩ : EdgeParts).propKey key at same
      subst same
      have decoded := decodeEdgePropKey_propKey ⟨src, dst, label⟩ valid validKey
      have isEdge : isEdgePropKey ((⟨src, dst, label⟩ : EdgeParts).propKey key) = true :=
        isEdgePropKey_encodeEdgePropKey _ _ _ _
      by_cases chosen : (⟨src, dst, label⟩ : EdgeParts).key ∈ scopedEdgeKeys
      · refine ⟨(_, register) :: others, ?_, inside.cons_cons _, ?_⟩
        · have taken : scopedEdgeKeys.has (encodeEdgeKey src dst label) = true :=
            (OrdSet.has_iff _ _).mpr chosen
          simp only [collectEdgeProps, isEdge, if_true, decoded, later, bind, Except.bind, taken]
          rfl
        · intro other
          rw [mem_cons, mem_cons, members]
          constructor
          · rintro (rfl | ⟨listed, own⟩)
            · exact ⟨Or.inl rfl, _, key, valid, validKey, rfl, chosen⟩
            · exact ⟨Or.inr listed, own⟩
          · rintro ⟨rfl | listed, own⟩
            · exact Or.inl rfl
            · exact Or.inr ⟨listed, own⟩
      · refine ⟨others, ?_, inside.cons _, ?_⟩
        · have left : scopedEdgeKeys.has (encodeEdgeKey src dst label) = false :=
            (OrdSet.has_eq_false_iff _ _).mpr chosen
          simp only [collectEdgeProps, isEdge, if_true, decoded, later, bind, Except.bind, left]
          rfl
        · intro other
          rw [members, mem_cons]
          constructor
          · exact fun ⟨listed, own⟩ => ⟨Or.inr listed, own⟩
          · rintro ⟨rfl | listed, own⟩
            · obtain ⟨e, key', valid', validKey', same, mem⟩ := own
              rw [← (edgePropKey_inj valid valid' validKey validKey' same).1] at mem
              exact absurd mem chosen
            · exact ⟨listed, own⟩

/-- The key of a property whose owner is kept. -/
def KeptKey (nodeIds edgeKeys : OrdSet JsString) (k : JsString) : Prop :=
  (∃ node key, ValidId node ∧ ValidId key ∧ k = encodePropKey node key ∧ node ∈ nodeIds) ∨
    ∃ (e : EdgeParts) (key : JsString), e.Valid ∧ ValidId key ∧ k = e.propKey key ∧ e.key ∈ edgeKeys

theorem collectScopedProps_spec (s : WarpState V) (keyed : s.Keyed) (nodeIds edgeKeys) :
    ∃ props, collectScopedProps s nodeIds edgeKeys = .ok props ∧
      ∀ k r, props.get k = some r ↔ s.prop.get k = some r ∧ KeptKey nodeIds edgeKeys k := by
  obtain ⟨edgeProps, collected, inside, members⟩ := collectEdgeProps_spec edgeKeys
    fun entry member => keyed.props entry.1 entry.2 ((s.prop.mem_entries_iff _).mp member)
  have distinct : ((s.prop.entries.filter (fun entry =>
      !isEdgePropKey entry.1 && nodeIds.has (decodePropKey entry.1).nodeId) ++
      edgeProps).map Prod.fst).Nodup := by
    rw [map_append, nodup_append]
    refine ⟨s.prop.nodup.sublist (filter_sublist.map _), s.prop.nodup.sublist (inside.map _), ?_⟩
    -- the keys of the two kinds differ in their first unit
    intro k ofNode k' ofEdge same
    obtain ⟨entry, member, rfl⟩ := mem_map.mp ofNode
    obtain ⟨entry', member', rfl⟩ := mem_map.mp ofEdge
    obtain ⟨-, e, key, -, -, shape, -⟩ := (members entry').mp member'
    have plain := (mem_filter.mp member).2
    rw [same, shape, EdgeParts.propKey, isEdgePropKey_encodeEdgePropKey] at plain
    simp at plain
  have whole : collectScopedProps s nodeIds edgeKeys =
      .ok (OrdMap.ofList (s.prop.entries.filter (fun entry =>
        !isEdgePropKey entry.1 && nodeIds.has (decodePropKey entry.1).nodeId) ++ edgeProps)) := by
    simp only [collectScopedProps, collected]
    rfl
  refine ⟨_, whole, ?_⟩
  intro k r
  rw [OrdMap.get_ofList_of_nodup _ distinct, mem_append, members, mem_filter,
    s.prop.mem_entries_iff]
  constructor
  · rintro (⟨found, plain⟩ | ⟨found, own⟩)
    · rcases keyed.props k r found with nodeKey | edgeKey
      · obtain ⟨node, key, validNode, validKey, rfl⟩ := nodeKey
        simp only [decodePropKey_encodePropKey validNode validKey, Bool.and_eq_true,
          OrdSet.has_iff] at plain
        exact ⟨found, Or.inl ⟨node, key, validNode, validKey, rfl, plain.2⟩⟩
      · obtain ⟨src, dst, label, key, -, -, -, -, rfl⟩ := edgeKey
        simp at plain
    · exact ⟨found, Or.inr own⟩
  · rintro ⟨found, ofNode | ofEdge⟩
    · obtain ⟨node, key, validNode, validKey, rfl, member⟩ := ofNode
      apply Or.inl
      simp [found, decodePropKey_encodePropKey validNode validKey,
        isEdgePropKey_encodePropKey key validNode, member]
    · exact Or.inr ⟨found, ofEdge⟩

/-- The first state shows the part of the second one that is in scope. -/
structure ShowsScope (scope : Option VisibleStateScope) (s t : WarpState V) : Prop where
  nodes : ∀ x, visibleNode s x = (visibleNode t x && nodeIdInVisibleStateScope x scope)
  edges : ∀ e, e ∈ visibleEdges s ↔ e ∈ visibleEdges t ∧ edgeInVisibleStateScope e scope = true
  nodeProps : ∀ p, p ∈ visibleProps s ↔
    p ∈ visibleProps t ∧ nodeIdInVisibleStateScope p.node scope = true
  edgeProps : ∀ p, p ∈ edgePropertyRecords s ↔
    p ∈ edgePropertyRecords t ∧ edgeInVisibleStateScope p.owner scope = true

theorem mem_collectScopedNodeIds (s : WarpState V) :
    x ∈ collectScopedNodeIds s scope ↔
      visibleNode s x = true ∧ nodeIdInVisibleStateScope x (some scope) = true := by
  rw [collectScopedNodeIds, OrdSet.mem_ofList, mem_filter, ORSet.mem_elements_iff]
  rfl

theorem mem_collectScopedEdgeKeys {s : WarpState V} :
    k ∈ collectScopedEdgeKeys s (collectScopedNodeIds s scope) ↔
      visibleEdge s k = true ∧ edgeInVisibleStateScope (decodeEdgeKey k) (some scope) = true := by
  rw [collectScopedEdgeKeys, OrdSet.mem_ofList, mem_filter, ORSet.mem_elements_iff]
  simp only [visibleEdge, edgeInVisibleStateScope, Bool.and_eq_true, OrdSet.has_iff,
    mem_collectScopedNodeIds]
  constructor
  · rintro ⟨alive, ⟨src, srcIn⟩, dst, dstIn⟩
    exact ⟨⟨⟨alive, src⟩, dst⟩, srcIn, dstIn⟩
  · rintro ⟨⟨⟨alive, src⟩, dst⟩, srcIn, dstIn⟩
    exact ⟨alive, ⟨src, srcIn⟩, dst, dstIn⟩

theorem exists_key_of_mem_visibleEdges (s : WarpState V) (e) :
    e ∈ visibleEdges s ↔ ∃ k, visibleEdge s k = true ∧ decodeEdgeKey k = e := by
  simp only [visibleEdges, mem_map, mem_filter, ORSet.mem_elements_iff]
  constructor
  · rintro ⟨k, ⟨-, visible⟩, same⟩
    exact ⟨k, visible, same⟩
  · rintro ⟨k, visible, same⟩
    have alive := visible
    simp only [visibleEdge, Bool.and_eq_true] at alive
    exact ⟨k, ⟨alive.1.1, visible⟩, same⟩

theorem valid_of_mem_edgePropertyRecords (keyed : s.Keyed) {p : EdgeProp V}
    (shown : p ∈ edgePropertyRecords s) : p.owner.Valid := by
  obtain ⟨-, src, dst, label, key, r, validSrc, validDst, validLabel, -, -, -, rfl⟩ :=
    (mem_edgePropertyRecords_iff s keyed p).mp shown
  exact ⟨validSrc, validDst, validLabel⟩

/-- The parts of a state whose owners are kept. -/
structure Restricts (nodeIds edgeKeys : OrdSet JsString) (s t : WarpState V) : Prop where
  nodeTags : ∀ x d, d ∈ t.nodeAlive.dotsOf x ↔ x ∈ nodeIds ∧ d ∈ s.nodeAlive.dotsOf x
  nodeTombs : t.nodeAlive.tombstones = s.nodeAlive.tombstones
  edgeTags : ∀ k d, d ∈ t.edgeAlive.dotsOf k ↔ k ∈ edgeKeys ∧ d ∈ s.edgeAlive.dotsOf k
  edgeTombs : t.edgeAlive.tombstones = s.edgeAlive.tombstones
  props : ∀ k r, t.prop.get k = some r ↔ s.prop.get k = some r ∧ KeptKey nodeIds edgeKeys k
  births : ∀ k e, t.edgeBirthEvent.get k = some e ↔ k ∈ edgeKeys ∧ s.edgeBirthEvent.get k = some e

theorem scopeMaterializedState_restricts (s : WarpState V) (keyed : s.Keyed) :
    ∃ t, scopeMaterializedState s (some scope) = .ok t ∧ Restricts (collectScopedNodeIds s scope)
        (collectScopedEdgeKeys s (collectScopedNodeIds s scope)) s t := by
  obtain ⟨props, collected, kept⟩ := collectScopedProps_spec s keyed (collectScopedNodeIds s scope)
    (collectScopedEdgeKeys s (collectScopedNodeIds s scope))
  refine ⟨_, by simp only [scopeMaterializedState, collected]; rfl, ?_⟩
  constructor
  · intro x d
    rw [ORSet.mem_dotsOf_scopedClone, OrdSet.has_iff]
  · rfl
  · intro k d
    rw [ORSet.mem_dotsOf_scopedClone, OrdSet.has_iff]
  · rfl
  · exact kept
  · intro k e
    by_cases mem : (collectScopedEdgeKeys s (collectScopedNodeIds s scope)).has k = true
    · simp [(OrdSet.has_iff _ _).mp mem]
    · simp [mt (OrdSet.has_iff _ _).mpr mem]

namespace Restricts

variable {nodeIds edgeKeys : OrdSet JsString} {s t : WarpState V}

section

variable (restricts : Restricts nodeIds edgeKeys s t)
include restricts

theorem keyed (whole : s.Keyed) : t.Keyed where
  nodes := fun x d tagged => whole.nodes x d ((restricts.nodeTags x d).mp tagged).2
  edges := fun k d tagged => whole.edges k d ((restricts.edgeTags k d).mp tagged).2
  props := fun k r found => whole.props k r ((restricts.props k r).mp found).1
  births := fun k e found => whole.births k e ((restricts.births k e).mp found).2

theorem containsNode (x) :
    t.nodeAlive.contains x = true ↔ x ∈ nodeIds ∧ s.nodeAlive.contains x = true := by
  simp only [ORSet.contains_iff, restricts.nodeTags, restricts.nodeTombs]
  constructor
  · rintro ⟨d, ⟨kept, tagged⟩, alive⟩
    exact ⟨kept, d, tagged, alive⟩
  · rintro ⟨kept, d, tagged, alive⟩
    exact ⟨d, ⟨kept, tagged⟩, alive⟩

theorem containsEdge :
    t.edgeAlive.contains k = true ↔ k ∈ edgeKeys ∧ s.edgeAlive.contains k = true := by
  simp only [ORSet.contains_iff, restricts.edgeTags, restricts.edgeTombs]
  constructor
  · rintro ⟨d, ⟨kept, tagged⟩, alive⟩
    exact ⟨kept, d, tagged, alive⟩
  · rintro ⟨kept, d, tagged, alive⟩
    exact ⟨d, ⟨kept, tagged⟩, alive⟩

theorem nodeProp (validNode : ValidId node) (validKey : ValidId key) :
    t.prop.get (encodePropKey node key) = some r ↔
      s.prop.get (encodePropKey node key) = some r ∧ node ∈ nodeIds := by
  rw [restricts.props]
  apply and_congr_right
  intro _
  constructor
  · rintro (⟨node', key', validNode', validKey', same, mem⟩ | ⟨e, key', -, -, same, -⟩)
    · rw [(encodePropKey_inj validNode validNode' validKey validKey' same).1]
      exact mem
    · exact absurd same.symm (encodeEdgePropKey_ne_encodePropKey validNode)
  · intro mem
    exact Or.inl ⟨node, key, validNode, validKey, rfl, mem⟩

theorem edgeProp {e : EdgeParts} (valid : e.Valid) (validKey : ValidId key) :
    t.prop.get (e.propKey key) = some r ↔
      s.prop.get (e.propKey key) = some r ∧ e.key ∈ edgeKeys := by
  rw [restricts.props]
  apply and_congr_right
  intro _
  constructor
  · rintro (⟨node, key', validNode, -, same, -⟩ | ⟨e', key', valid', validKey', same, mem⟩)
    · exact absurd same (encodeEdgePropKey_ne_encodePropKey validNode)
    · rw [(edgePropKey_inj valid valid' validKey validKey' same).1]
      exact mem
  · intro mem
    exact Or.inr ⟨e, key, valid, validKey, rfl, mem⟩

end

section

variable {scope : VisibleStateScope}
  (restricts : Restricts (collectScopedNodeIds s scope)
    (collectScopedEdgeKeys s (collectScopedNodeIds s scope)) s t)
include restricts

theorem visibleNode_iff : visibleNode t x = true ↔
    visibleNode s x = true ∧ nodeIdInVisibleStateScope x (some scope) = true := by
  rw [visibleNode, restricts.containsNode, mem_collectScopedNodeIds]
  exact ⟨fun both => both.1, fun both => ⟨both, both.1⟩⟩

theorem visibleEdge_iff (k) : visibleEdge t k = true ↔
    visibleEdge s k = true ∧ edgeInVisibleStateScope (decodeEdgeKey k) (some scope) = true := by
  rw [← mem_collectScopedEdgeKeys]
  constructor
  · intro visible
    simp only [visibleEdge, Bool.and_eq_true] at visible
    exact (restricts.containsEdge.mp visible.1.1).1
  · intro kept
    obtain ⟨visible, inScope⟩ := mem_collectScopedEdgeKeys.mp kept
    simp only [edgeInVisibleStateScope, Bool.and_eq_true] at inScope
    simp only [visibleEdge, Bool.and_eq_true] at visible ⊢
    have alive := restricts.containsEdge.mpr ⟨kept, visible.1.1⟩
    have src := restricts.visibleNode_iff.mpr ⟨visible.1.2, inScope.1⟩
    have dst := restricts.visibleNode_iff.mpr ⟨visible.2, inScope.2⟩
    exact ⟨⟨alive, src⟩, dst⟩

theorem mem_visibleEdges_iff (e) : e ∈ visibleEdges t ↔
    e ∈ visibleEdges s ∧ edgeInVisibleStateScope e (some scope) = true := by
  simp only [exists_key_of_mem_visibleEdges, restricts.visibleEdge_iff]
  constructor
  · rintro ⟨k, ⟨visible, inScope⟩, rfl⟩
    exact ⟨⟨k, visible, rfl⟩, inScope⟩
  · rintro ⟨⟨k, visible, rfl⟩, inScope⟩
    exact ⟨k, ⟨visible, inScope⟩, rfl⟩

theorem mem_visibleProps_iff (keyed : s.Keyed) (p) : p ∈ visibleProps t ↔
    p ∈ visibleProps s ∧ nodeIdInVisibleStateScope p.node (some scope) = true := by
  rw [GitWarp.mem_visibleProps_iff t (restricts.keyed keyed), GitWarp.mem_visibleProps_iff s keyed,
    restricts.visibleNode_iff]
  constructor
  · rintro ⟨validNode, validKey, ⟨visible, inScope⟩, r, found, value⟩
    have held := ((restricts.nodeProp validNode validKey).mp found).1
    exact ⟨⟨validNode, validKey, visible, r, held, value⟩, inScope⟩
  · rintro ⟨⟨validNode, validKey, visible, r, held, value⟩, inScope⟩
    have kept := (mem_collectScopedNodeIds s).mpr ⟨visible, inScope⟩
    have found := (restricts.nodeProp validNode validKey).mpr ⟨held, kept⟩
    exact ⟨validNode, validKey, ⟨visible, inScope⟩, r, found, value⟩

theorem mem_edgePropertyRecords_iff (keyed : s.Keyed) (p) :
    p ∈ edgePropertyRecords t ↔
      p ∈ edgePropertyRecords s ∧ edgeInVisibleStateScope p.owner (some scope) = true := by
  have keyed' := restricts.keyed keyed
  constructor
  · intro shown
    have valid := valid_of_mem_edgePropertyRecords keyed' shown
    rw [mem_edgePropertyRecords_key keyed' valid, restricts.visibleEdge_iff] at shown
    obtain ⟨⟨visible, inScope⟩, r, validKey, found, fresh, value⟩ := shown
    obtain ⟨held, kept⟩ := (restricts.edgeProp valid validKey).mp found
    -- the birth of a kept edge is kept as well
    have fresh' : Fresh r (s.edgeBirthEvent.get p.owner.key) :=
      fun birth born => fresh birth ((restricts.births _ _).mpr ⟨kept, born⟩)
    rw [decodeEdgeKey_key valid] at inScope
    exact ⟨(mem_edgePropertyRecords_key keyed valid).mpr
      ⟨visible, r, validKey, held, fresh', value⟩, inScope⟩
  · rintro ⟨shown, inScope⟩
    have valid := valid_of_mem_edgePropertyRecords keyed shown
    rw [mem_edgePropertyRecords_key keyed valid] at shown
    obtain ⟨visible, r, validKey, held, fresh, value⟩ := shown
    rw [← decodeEdgeKey_key valid] at inScope
    have kept := mem_collectScopedEdgeKeys.mpr ⟨visible, inScope⟩
    have fresh' : Fresh r (t.edgeBirthEvent.get p.owner.key) :=
      fun birth born => fresh birth ((restricts.births _ _).mp born).2
    rw [mem_edgePropertyRecords_key keyed' valid, restricts.visibleEdge_iff]
    exact ⟨⟨visible, inScope⟩, r, validKey,
      (restricts.edgeProp valid validKey).mpr ⟨held, kept⟩, fresh', value⟩

end

end Restricts

theorem ShowsScope.all {s : WarpState V} : ShowsScope none s s := by
  constructor
  · simp [nodeIdInVisibleStateScope]
  · simp [edgeInVisibleStateScope, nodeIdInVisibleStateScope]
  · simp [nodeIdInVisibleStateScope]
  · simp [edgeInVisibleStateScope, nodeIdInVisibleStateScope]

theorem scopeMaterializedState_shows (s : WarpState V) (keyed : s.Keyed) (scope) :
    ∃ t, scopeMaterializedState s scope = .ok t ∧ ShowsScope scope t s := by
  cases scope with
  | none => exact ⟨s, rfl, ShowsScope.all⟩
  | some scope =>
    obtain ⟨t, scopes, restricts⟩ := scopeMaterializedState_restricts s keyed
    refine ⟨t, scopes, ?_, restricts.mem_visibleEdges_iff, restricts.mem_visibleProps_iff keyed,
      restricts.mem_edgePropertyRecords_iff keyed⟩
    intro x
    rw [Bool.eq_iff_iff, Bool.and_eq_true]
    exact restricts.visibleNode_iff

/-! ### Which patches are kept -/

theorem patchAffectsScope_of_events {entry : PatchEntry V} (i) (events)
    (found : entry.eventsFrom i ops = .ok events) :
    ∃ affects, patchAffectsScope scope ops = .ok affects ∧ (affects = false →
      ∀ rawOp ∈ ops, ∀ canonOp, normalizeRawOp rawOp = .ok (some canonOp) →
        canonOp.op.affectsScope scope = false) := by
  -- every operation of an applied patch normalizes, so its patch is kept or dropped for a
  -- reason
  induction ops generalizing i events with
  | nil => exact ⟨false, rfl, by simp⟩
  | cons rawOp rest ih =>
    obtain ⟨normalized, same, i', events', later⟩ : ∃ normalized,
        normalizeRawOp rawOp = .ok normalized ∧ ∃ i events, entry.eventsFrom i rest = .ok events := by
      rcases eventsFrom_cons entry found with ⟨same, later⟩ | ⟨_, canonOp, tail, same, -, later, -⟩
      · exact ⟨none, same, i + 1, events, later⟩
      · exact ⟨some canonOp, same, i + 1, tail, later⟩
    obtain ⟨others, decided, spares⟩ := ih i' events' later
    obtain ⟨own, first, reason⟩ : ∃ own, opAffectsScope scope rawOp = .ok own ∧
        ∀ canonOp, normalized = some canonOp → canonOp.op.affectsScope scope = own := by
      simp only [opAffectsScope, same, bind, Except.bind]
      cases normalized with
      | some canonOp =>
        refine ⟨canonOp.op.affectsScope scope, rfl, ?_⟩
        rintro _ ⟨⟩
        rfl
      | none =>
        cases rawOp with
        | decoded raw => exact ⟨raw.affectsScope scope, rfl, by simp⟩
        | runtime op | propSet p value => exact ⟨true, rfl, by simp⟩
    simp only [patchAffectsScope, first, bind, Except.bind]
    cases own with
    | true => exact ⟨true, rfl, by simp⟩
    | false =>
      refine ⟨others, decided, ?_⟩
      intro none_affects op mem canonOp hydrated
      rcases mem_cons.mp mem with rfl | inside
      · rw [same] at hydrated
        cases hydrated
        exact reason canonOp rfl
      · exact spares none_affects op inside canonOp hydrated

/-- The patches that `scopePatchEntries` keeps. -/
def affectsScope (scope : VisibleStateScope) (entry : PatchEntry V) : Bool :=
  (patchAffectsScope (some scope) entry.patch.ops).toOption.getD false

theorem filterEntries_of_reduced (scope s t) (reduced : reducePatches entries s = .ok t) :
    filterEntries (some scope) entries = .ok (entries.filter (affectsScope scope)) ∧
      ∀ entry ∈ entries, affectsScope scope entry = false → ∀ op, entry.Holds op →
        op.affectsScope (some scope) = false := by
  -- of patches that reduce, the filter drops those without an operation in scope
  induction entries generalizing s with
  | nil => exact ⟨rfl, by simp⟩
  | cons entry rest ih =>
    simp only [reducePatches, bind_eq_ok] at reduced
    obtain ⟨middle, applied, later⟩ := reduced
    obtain ⟨filtered, spared⟩ := ih middle later
    obtain ⟨effect, known, -, -⟩ := effect_of_applied applied
    obtain ⟨affects, decided, reason⟩ :=
      patchAffectsScope_of_events 0 _ (entry.effect_parts known).1
    have own : affectsScope scope entry = affects := by
      rw [affectsScope, decided]
      rfl
    constructor
    · simp only [filterEntries, decided, filtered, bind, Except.bind, filter_cons, own]
      rfl
    · intro other mem dropped op held
      rcases mem_cons.mp mem with rfl | inside
      · obtain ⟨rawOp, listed, canonOp, normalized, rfl⟩ := held
        exact reason (own.symm.trans dropped) rawOp listed canonOp normalized
      · exact spared other inside dropped op held

/-! ### Scoping before and after reduction -/

/-- Every remove names the element that the dots it has observed were added with. -/
structure RemovesOwn (entries : List (PatchEntry V)) : Prop where
  nodes : ∀ entry ∈ entries, ∀ node dots, entry.Holds (.nodeRemove node dots) →
    ∀ other ∈ entries, ∀ x dot, other.Holds (.nodeAdd x dot) → dot.encode ∈ dots → x = node
  edges : ∀ entry ∈ entries, ∀ src dst label dots, entry.Holds (.edgeRemove src dst label dots) →
    ∀ other ∈ entries, ∀ src' dst' label' dot, other.Holds (.edgeAdd src' dst' label' dot) →
      dot.encode ∈ dots → (⟨src', dst', label'⟩ : EdgeParts) = ⟨src, dst, label⟩

def scopeFocus (scope : VisibleStateScope) : Focus where
  nodes := fun x => ValidId x ∧ nodeIdInVisibleStateScope x (some scope) = true
  edges := fun e => e.Valid ∧ edgeInVisibleStateScope e (some scope) = true
  validNodes := fun _ member => member.1
  validEdges := fun _ member => member.1

/-- The dots that removes of elements out of scope have observed. -/
def lostOutside (scope : VisibleStateScope) (entries : List (PatchEntry V)) : LostDots where
  node := fun d => ∃ entry ∈ entries, ∃ node dots, entry.Holds (.nodeRemove node dots) ∧
    nodeIdInVisibleStateScope node (some scope) = false ∧ d ∈ dots
  edge := fun d => ∃ entry ∈ entries, ∃ src dst label dots,
    entry.Holds (.edgeRemove src dst label dots) ∧
      edgeInVisibleStateScope ⟨src, dst, label⟩ (some scope) = false ∧ d ∈ dots

theorem spares_of_not_affects (member : entry ∈ entries) (op : Op V) (held : entry.Holds op)
    (outside : op.affectsScope (some scope) = false) :
    ¬ op.Touches (scopeFocus scope) ∧ op.Loses (lostOutside scope entries) := by
  cases op with
  | nodeAdd node dot | nodePropSet node key value | edgeAdd src dst label dot
  | edgePropSet src dst label key value =>
    exact ⟨fun touched => by simp [Op.affectsScope, touched.2] at outside, trivial⟩
  | nodeRemove node dots =>
    exact ⟨id, fun d observed => ⟨entry, member, node, dots, held, outside, observed⟩⟩
  | edgeRemove src dst label dots =>
    exact ⟨id, fun d observed => ⟨entry, member, src, dst, label, dots, held, outside, observed⟩⟩
  | blobValue node oid => exact ⟨id, trivial⟩

theorem scoped_reduction_sameOn (own : RemovesOwn entries) (s)
    (reduced : reducePatches entries .empty = .ok s) :
    ∃ t, reducePatches (entries.filter (affectsScope scope)) .empty = .ok t ∧
      SameOn (scopeFocus scope) s t := by
  -- reducing the patches of a scope shows the same in the scope as reducing all of them
  have spared := (filterEntries_of_reduced scope .empty s reduced).2
  obtain ⟨t, reduced', agree⟩ := reducePatches_filter_agrees .empty .empty s
    (fun entry mem dropped op held => spares_of_not_affects mem op held
      (spared entry mem dropped op held)) (AgreeOn.refl _ _ _) reduced
  refine ⟨t, reduced', agree.sameOn (keyed_of_reduced entries reduced)
    (keyed_of_reduced _ reduced') ?_ ?_ ?_⟩
  · intro e mem
    have inScope := mem.2
    simp only [edgeInVisibleStateScope, Bool.and_eq_true] at inScope
    exact ⟨⟨mem.1.src, inScope.1⟩, mem.1.dst, inScope.2⟩
  · -- the dots of a node in scope are observed by removes of that node only
    intro x mem d tagged lost
    obtain ⟨entry, listed, node, dots, held, outside, observed⟩ := lost
    obtain ⟨other, listed', dot, added, rfl⟩ := nodeAdd_of_tag reduced tagged
    rw [← own.nodes entry listed node dots held other listed' x dot added observed,
      mem.2] at outside
    cases outside
  · intro e mem d tagged lost
    obtain ⟨entry, listed, src, dst, label, dots, held, outside, observed⟩ := lost
    obtain ⟨other, listed', src', dst', label', dot, added, key, rfl⟩ :=
      edgeAdd_of_tag reduced tagged
    have ids := added.validIds
    have valid : (⟨src', dst', label'⟩ : EdgeParts).Valid :=
      ⟨ids src' (by simp [Op.ids]), ids dst' (by simp [Op.ids]), ids label' (by simp [Op.ids])⟩
    have same : e = ⟨src', dst', label'⟩ := edgeKey_inj mem.1 valid key
    rw [← own.edges entry listed src dst label dots held other listed' src' dst' label' dot added
      observed, ← same, mem.2] at outside
    cases outside

theorem ShowsScope.of_sameOn {s s' t : WarpState V} (part : ShowsScope (some scope) s' s)
    (same : SameOn (scopeFocus scope) s t) (left : s.Keyed) (right : t.Keyed) :
    ShowsScope (some scope) s' t := by
  have validNode : ∀ (u : WarpState V), u.Keyed → ∀ x, visibleNode u x = true → ValidId x := by
    intro u keyed x visible
    obtain ⟨d, tagged, -⟩ := u.nodeAlive.contains_iff.mp visible
    exact keyed.nodes x d tagged
  have validEdge : ∀ (u : WarpState V), u.Keyed → ∀ e, e ∈ visibleEdges u → e.Valid := by
    intro u keyed e visible
    obtain ⟨k, shown, rfl⟩ := (exists_key_of_mem_visibleEdges u e).mp visible
    obtain ⟨src, dst, label, a, b, c, rfl⟩ := visibleEdge_isEdgeKey u keyed shown
    rw [decodeEdgeKey_encodeEdgeKey a b c]
    exact ⟨a, b, c⟩
  constructor
  · intro x
    rw [part.nodes, Bool.eq_iff_iff, Bool.and_eq_true, Bool.and_eq_true]
    apply and_congr_left
    intro inScope
    constructor
    · intro visible
      exact same.nodes x ⟨validNode s left x visible, inScope⟩ ▸ visible
    · intro visible
      exact (same.nodes x ⟨validNode t right x visible, inScope⟩).symm ▸ visible
  · intro e
    rw [part.edges]
    apply and_congr_left
    intro inScope
    have agrees : e.Valid → (e ∈ visibleEdges s ↔ e ∈ visibleEdges t) := by
      intro valid
      rw [mem_visibleEdges_key left valid, mem_visibleEdges_key right valid,
        same.edges e ⟨valid, inScope⟩]
    exact ⟨fun visible => (agrees (validEdge s left e visible)).mp visible,
      fun visible => (agrees (validEdge t right e visible)).mpr visible⟩
  · intro p
    rw [part.nodeProps]
    apply and_congr_left
    intro inScope
    constructor
    · intro shown
      have valid := ((mem_visibleProps_iff s left p).mp shown).1
      exact (same.nodeProps p ⟨valid, inScope⟩).mp shown
    · intro shown
      have valid := ((mem_visibleProps_iff t right p).mp shown).1
      exact (same.nodeProps p ⟨valid, inScope⟩).mpr shown
  · intro p
    rw [part.edgeProps]
    apply and_congr_left
    intro inScope
    constructor
    · intro shown
      have valid := valid_of_mem_edgePropertyRecords left shown
      exact (same.edgeProps p ⟨valid, inScope⟩).mp shown
    · intro shown
      have valid := valid_of_mem_edgePropertyRecords right shown
      exact (same.edgeProps p ⟨valid, inScope⟩).mpr shown

/-- If removes observe only dots of the elements that they name, a scope can be applied to the
patches as well as to the state that they reduce to. -/
theorem scoping_commutes (scope : Option VisibleStateScope) (entries : List (PatchEntry V))
    (own : RemovesOwn entries) (s : WarpState V) (reduced : reducePatches entries .empty = .ok s) :
    ∃ s' kept t, scopeMaterializedState s scope = .ok s' ∧
      scopePatchEntries entries scope = .ok kept ∧ reducePatches kept .empty = .ok t ∧
      ShowsScope scope s' t := by
  have keyed := keyed_of_reduced entries reduced
  obtain ⟨s', scopes, shown⟩ := scopeMaterializedState_shows s keyed scope
  cases scope with
  | none =>
    cases scopes
    exact ⟨s, entries, s, rfl, rfl, reduced, ShowsScope.all⟩
  | some scope =>
    obtain ⟨t, reduced', same⟩ := scoped_reduction_sameOn own s reduced
    have filtered := (filterEntries_of_reduced scope .empty s reduced).1
    exact ⟨s', _, t, scopes, filtered, reduced',
      shown.of_sameOn same keyed (keyed_of_reduced _ reduced')⟩

/-! ### Two nodes -/

theorem holds_runtime_iff {entry : PatchEntry V} (ops : List (CanonicalOp V))
    (listed : entry.patch.ops = ops.map .runtime) :
    entry.Holds op ↔ ∃ canonOp ∈ ops, canonOp.op = op := by
  rw [PatchEntry.Holds, listed]
  constructor
  · rintro ⟨rawOp, member, canonOp, normalized, rfl⟩
    obtain ⟨canonOp', member', rfl⟩ := mem_map.mp member
    cases normalized
    exact ⟨canonOp, member', rfl⟩
  · rintro ⟨canonOp, member, rfl⟩
    exact ⟨.runtime canonOp, mem_map_of_mem member, canonOp, rfl, rfl⟩

def innerScope : VisibleStateScope := ⟨some ⟨[lit "in"], []⟩⟩

def innerDot : Dot := ⟨lit "w", 1, w_named, Nat.one_pos⟩

def innerAdd : PatchEntry Nat where
  patch := ⟨lit "w", 1, [.runtime ⟨.nodeAdd (lit "in") innerDot, by decide⟩], .absent⟩
  sha := lit "aaaa"

/-- Names a node out of scope, with the dot of the other one. -/
def crossRemove : PatchEntry Nat where
  patch := ⟨lit "w", 2, [.runtime ⟨.nodeRemove (lit "out") [innerDot.encode], by decide⟩], .absent⟩
  sha := lit "bbbb"

/-- Two patches, one that adds the node in scope and one that removes some node. -/
theorem ops_of_addThenRemove {removal : PatchEntry Nat} {node proof}
    (listed : removal.patch.ops = [.runtime ⟨.nodeRemove node [innerDot.encode], proof⟩]) :
    ∀ entry ∈ [innerAdd, removal], ∀ op, entry.Holds op →
      op = .nodeAdd (lit "in") innerDot ∨ op = .nodeRemove node [innerDot.encode] := by
  intro entry member op held
  simp only [mem_cons, not_mem_nil, or_false] at member
  rcases member with rfl | rfl
  · obtain ⟨canonOp, listed, rfl⟩ := (holds_runtime_iff [⟨_, _⟩] rfl).mp held
    cases mem_singleton.mp listed
    exact Or.inl rfl
  · obtain ⟨canonOp, member, rfl⟩ := (holds_runtime_iff [⟨_, _⟩] listed).mp held
    cases mem_singleton.mp member
    exact Or.inr rfl

theorem crossing_tags_one : OneElementPerDot (historyFacts [innerAdd, crossRemove]) := by
  -- the two patches tag nothing but the node in scope
  obtain ⟨s, reduced⟩ : ∃ s, reducePatches [innerAdd, crossRemove] .empty = .ok s := ⟨_, rfl⟩
  have knows := represents_history reduced
  have ops := @ops_of_addThenRemove crossRemove _ _ rfl
  constructor
  · have only : ∀ x d, Fact.nodeTag x d ∈ historyFacts [innerAdd, crossRemove] →
        x = lit "in" := by
      intro x d tagged
      obtain ⟨entry, member, dot, added, -⟩ :=
        nodeAdd_of_tag reduced ((knows.nodeTags x d).mpr tagged)
      rcases ops entry member _ added with same | same
      · exact (Op.nodeAdd.inj same).1
      · cases same
    intro x y d left right
    rw [only x d left, only y d right]
  · intro x y d left
    obtain ⟨entry, member, src, dst, label, dot, added, -⟩ :=
      edgeAdd_of_tag reduced ((knows.edgeTags x d).mpr left)
    rcases ops entry member _ added with same | same
    · cases same
    · cases same

/-- A remove that names a node out of scope can remove one in scope, and only from the state. -/
theorem scoping_drops_crossing_remove :
    OneElementPerDot (historyFacts [innerAdd, crossRemove]) ∧
      ∃ s s' kept t, reducePatches [innerAdd, crossRemove] .empty = .ok s ∧
        scopeMaterializedState s (some innerScope) = .ok s' ∧
        scopePatchEntries [innerAdd, crossRemove] (some innerScope) = .ok kept ∧
        reducePatches kept .empty = .ok t ∧ visibleNode s' (lit "in") = false ∧
        visibleNode t (lit "in") = true ∧
        nodeIdInVisibleStateScope (lit "in") (some innerScope) = true := by
  exact ⟨crossing_tags_one, _, _, _, _, rfl, rfl, rfl, rfl, by decide, by decide, by decide⟩

def ownRemove : PatchEntry Nat where
  patch := ⟨lit "w", 2, [.runtime ⟨.nodeRemove (lit "in") [innerDot.encode], by decide⟩], .absent⟩
  sha := lit "bbbb"

theorem scoping_commutes_sample :
    ∃ s s' kept t, reducePatches [innerAdd, ownRemove] .empty = .ok s ∧
      scopeMaterializedState s (some innerScope) = .ok s' ∧
      scopePatchEntries [innerAdd, ownRemove] (some innerScope) = .ok kept ∧
      reducePatches kept .empty = .ok t ∧ ShowsScope (some innerScope) s' t := by
  have own : RemovesOwn [innerAdd, ownRemove] := by
    have ops := @ops_of_addThenRemove ownRemove _ _ rfl
    constructor
    · intro entry member node dots held other member' x dot added observed
      have removed := ops entry member _ held
      have tagged := ops other member' _ added
      simp only [reduceCtorEq, false_or, or_false, Op.nodeRemove.injEq, Op.nodeAdd.injEq]
        at removed tagged
      rw [removed.1, tagged.1]
    · intro entry member src dst label dots held
      have removed := ops entry member _ held
      simp at removed
  obtain ⟨s', kept, t, rest⟩ := scoping_commutes (some innerScope) [innerAdd, ownRemove] own _ rfl
  exact ⟨_, s', kept, t, rfl, rest⟩

end GitWarp
