import GitWarp.State.StateSerializer
import GitWarp.State.ValueEquality

/-!
# The difference of two states

A diff compares two states component by component: the live nodes, the edges
between live nodes, and the registers of node properties. Registers are compared
whether or not their node is alive, and registers of edges are passed over. The
diff of the states the other way round is the mirror image.
-/
namespace GitWarp

open Js Lib KeyCodec List

/-! ### Changes -/

/-- A property that is set: anew, or over an old value. -/
structure PropSetChange (V : Type) where
  key : JsString
  nodeId : JsString
  propKey : JsString
  oldValue : Option V
  newValue : V

structure PropRemoved (V : Type) where
  key : JsString
  nodeId : JsString
  propKey : JsString
  oldValue : V

structure StateDiffResult (V : Type) where
  nodesAdded : List JsString
  nodesRemoved : List JsString
  edgesAdded : List EdgeParts
  edgesRemoved : List EdgeParts
  propsSet : List (PropSetChange V)
  propsRemoved : List (PropRemoved V)

def isEmptyDiff {V : Type} (diff : StateDiffResult V) : Bool :=
  diff.nodesAdded.isEmpty && diff.nodesRemoved.isEmpty && diff.edgesAdded.isEmpty &&
    diff.edgesRemoved.isEmpty && diff.propsSet.isEmpty && diff.propsRemoved.isEmpty

/-! ### Nodes and edges -/

def setAdded (before after : List JsString) : List JsString :=
  after.filter fun item => !before.contains item

section Elements

variable {V : Type}

def diffNodes : Option (WarpState V) → List JsString
  | none => []
  | some s => s.nodeAlive.elements

/-- The edges whose endpoints are both among the live nodes. -/
def diffEdges : Option (WarpState V) → List JsString
  | none => []
  | some s => s.edgeAlive.elements.filter fun edgeKey =>
      s.nodeAlive.elements.contains (decodeEdgeKey edgeKey).src &&
        s.nodeAlive.elements.contains (decodeEdgeKey edgeKey).dst

def diffRegisters : Option (WarpState V) → OrdMap JsString (LWWRegister V)
  | none => .empty
  | some s => s.prop

end Elements

/-! ### Properties -/

inductive PropChange (V : Type)
  | set (change : PropSetChange V)
  | removed (change : PropRemoved V)

/-- What `classifyPropChange` is given: a key with its parts and the two registers under it. -/
structure PropComparison where
  key : JsString
  nodeId : JsString
  propKey : JsString
  beforeReg : Option (LWWRegister PlainData)
  afterReg : Option (LWWRegister PlainData)

namespace PropComparison

def classifyPropAddition (opts : PropComparison) : Option (PropChange PlainData) :=
  match opts.afterReg, opts.beforeReg with
  | some afterReg, none =>
    some (.set ⟨opts.key, opts.nodeId, opts.propKey, none, afterReg.value⟩)
  | _, _ => none

def classifyPropRemoval (opts : PropComparison) : Option (PropChange PlainData) :=
  match opts.afterReg, opts.beforeReg with
  | none, some beforeReg =>
    some (.removed ⟨opts.key, opts.nodeId, opts.propKey, beforeReg.value⟩)
  | _, _ => none

def classifyPropUpdate (opts : PropComparison) (beforeReg afterReg : LWWRegister PlainData) :
    Option (PropChange PlainData) :=
  if stateDiffValuesEqual beforeReg.value.val afterReg.value.val then none
  else some (.set ⟨opts.key, opts.nodeId, opts.propKey, some beforeReg.value, afterReg.value⟩)

def classifyPropUpdateIfComplete (opts : PropComparison) : Option (PropChange PlainData) :=
  match opts.beforeReg, opts.afterReg with
  | some beforeReg, some afterReg => opts.classifyPropUpdate beforeReg afterReg
  | _, _ => none

end PropComparison

def classifyPropChange (key : JsString) (beforeProps afterProps : OrdMap JsString (LWWRegister PlainData)) :
    Option (PropChange PlainData) :=
  let parts := decodePropKey key
  let opts : PropComparison :=
    ⟨key, parts.nodeId, parts.propKey, beforeProps.get key, afterProps.get key⟩
  match opts.classifyPropAddition with
  | some addition => some addition
  | none =>
    match opts.classifyPropRemoval with
    | some removal => some removal
    | none => opts.classifyPropUpdateIfComplete

/-- All changes, key after key; registers of edges are passed over. -/
def diffProps (beforeProps afterProps : OrdMap JsString (LWWRegister PlainData)) :
    List (PropChange PlainData) :=
  let allPropKeys := OrdSet.ofList (beforeProps.keys ++ afterProps.keys)
  (allPropKeys.toList.filter fun key => !isEdgePropKey key).filterMap fun key =>
    classifyPropChange key beforeProps afterProps

def PropChange.asSet {V : Type} : PropChange V → Option (PropSetChange V)
  | .set change => some change
  | .removed _ => none

def PropChange.asRemoved {V : Type} : PropChange V → Option (PropRemoved V)
  | .set _ => none
  | .removed change => some change

def diffStates (before : Option (WarpState PlainData)) (after : WarpState PlainData) :
    StateDiffResult PlainData :=
  let changes := diffProps (diffRegisters before) after.prop
  let beforeNodes := diffNodes before
  let afterNodes := diffNodes (some after)
  let beforeEdges := diffEdges before
  let afterEdges := diffEdges (some after)
  { nodesAdded := sortBy id (setAdded beforeNodes afterNodes)
    nodesRemoved := sortBy id (setAdded afterNodes beforeNodes)
    edgesAdded := sortBy edgeOrder ((setAdded beforeEdges afterEdges).map decodeEdgeKey)
    edgesRemoved := sortBy edgeOrder ((setAdded afterEdges beforeEdges).map decodeEdgeKey)
    propsSet := sortBy PropSetChange.key (changes.filterMap PropChange.asSet)
    propsRemoved := sortBy PropRemoved.key (changes.filterMap PropChange.asRemoved) }

/-! ### Members of a diff -/

theorem mem_setAdded (before after) (x) : x ∈ setAdded before after ↔ x ∈ after ∧ x ∉ before := by
  simp [setAdded]

theorem mem_diffNodes (s : WarpState V) (x) :
    x ∈ diffNodes (some s) ↔ visibleNode s x = true := s.nodeAlive.mem_elements_iff

theorem diffEdges_eq (s : WarpState V) :
    diffEdges (some s) = s.edgeAlive.elements.filter (visibleEdge s) := by
  apply filter_congr
  intro k mem
  have alive := s.edgeAlive.mem_elements_iff.mp mem
  have listed : ∀ x, s.nodeAlive.elements.contains x = s.nodeAlive.contains x := by
    intro x
    rw [Bool.eq_iff_iff, contains_iff_mem, ORSet.mem_elements_iff]
  simp only [visibleEdge, alive, Bool.true_and, listed]

theorem map_diffEdges {s : WarpState V} :
    (diffEdges (some s)).map decodeEdgeKey = visibleEdges s := by
  rw [diffEdges_eq, visibleEdges]

theorem mem_edgesAdded {s t : WarpState V} (left : s.Keyed) (right : t.Keyed) (e) :
    e ∈ (setAdded (diffEdges (some s)) (diffEdges (some t))).map decodeEdgeKey ↔
      e ∈ visibleEdges t ∧ e ∉ visibleEdges s := by
  have visible : ∀ (u : WarpState V) k, k ∈ diffEdges (some u) → visibleEdge u k = true := by
    intro u k mem
    rw [diffEdges_eq] at mem
    exact (mem_filter.mp mem).2
  rw [← map_diffEdges, ← map_diffEdges]
  simp only [mem_map, mem_setAdded]
  constructor
  · rintro ⟨k, ⟨here, missing⟩, rfl⟩
    refine ⟨⟨k, here, rfl⟩, ?_⟩
    rintro ⟨k', there, same⟩
    have key := visibleEdge_isEdgeKey t right (visible t k here)
    have key' := visibleEdge_isEdgeKey s left (visible s k' there)
    exact missing (key'.decode_inj key same ▸ there)
  · rintro ⟨⟨k, here, rfl⟩, missing⟩
    exact ⟨k, ⟨here, fun there => missing ⟨k, there, rfl⟩⟩, rfl⟩

theorem nodup_edgesAdded {s t : WarpState V} (right : t.Keyed) :
    (((setAdded (diffEdges (some s)) (diffEdges (some t))).map decodeEdgeKey).map edgeOrder).Nodup := by
  have below : ((setAdded (diffEdges (some s)) (diffEdges (some t))).map decodeEdgeKey).Sublist
      (visibleEdges t) := by
    rw [← map_diffEdges]
    exact filter_sublist.map decodeEdgeKey
  exact (nodup_visibleEdges t right).sublist (below.map edgeOrder)

/-! ### Members of the property diff -/

section Registers

variable (beforeProps afterProps : OrdMap JsString (LWWRegister PlainData))

theorem classifyPropChange_eq (key) : classifyPropChange key beforeProps afterProps =
    match beforeProps.get key, afterProps.get key with
    | none, none => none
    | none, some afterReg => some (.set
        ⟨key, (decodePropKey key).nodeId, (decodePropKey key).propKey, none, afterReg.value⟩)
    | some beforeReg, none => some (.removed
        ⟨key, (decodePropKey key).nodeId, (decodePropKey key).propKey, beforeReg.value⟩)
    | some beforeReg, some afterReg =>
      if stateDiffValuesEqual beforeReg.value.val afterReg.value.val then none
      else some (.set ⟨key, (decodePropKey key).nodeId, (decodePropKey key).propKey,
        some beforeReg.value, afterReg.value⟩) := by
  simp only [classifyPropChange, PropComparison.classifyPropAddition,
    PropComparison.classifyPropRemoval, PropComparison.classifyPropUpdateIfComplete,
    PropComparison.classifyPropUpdate]
  cases beforeProps.get key <;> cases afterProps.get key <;> rfl

def PropChange.key {V : Type} : PropChange V → JsString
  | .set change => change.key
  | .removed change => change.key

theorem key_of_classified {key}
    (classified : classifyPropChange key beforeProps afterProps = some change) :
    change.key = key := by
  rw [classifyPropChange_eq] at classified
  split at classified
  · cases classified
  · cases classified
    rfl
  · cases classified
    rfl
  · split at classified
    · cases classified
    · cases classified
      rfl

theorem mem_diffProps (change) :
    change ∈ diffProps beforeProps afterProps ↔ isEdgePropKey change.key = false ∧
      classifyPropChange change.key beforeProps afterProps = some change := by
  simp only [diffProps, mem_filterMap, mem_filter, OrdSet.mem_toList, OrdSet.mem_ofList,
    mem_append, OrdMap.mem_keys_iff, Bool.not_eq_true']
  constructor
  · rintro ⟨key, ⟨-, ofNode⟩, classified⟩
    have same := key_of_classified beforeProps afterProps classified
    subst same
    exact ⟨ofNode, classified⟩
  · rintro ⟨ofNode, classified⟩
    refine ⟨change.key, ⟨?_, ofNode⟩, classified⟩
    rw [classifyPropChange_eq] at classified
    cases before : beforeProps.get change.key <;> cases after : afterProps.get change.key <;>
      simp_all

theorem nodup_diffProps : ((diffProps beforeProps afterProps).map PropChange.key).Nodup := by
  have distinct := ((OrdSet.ofList (beforeProps.keys ++ afterProps.keys)).nodup.filter
    fun key => !isEdgePropKey key)
  rw [diffProps]
  apply List.Nodup.sublist ?_ distinct
  -- each key gives at most one change, and the change carries it
  generalize List.filter _ _ = keys
  induction keys with
  | nil => exact List.Sublist.refl _
  | cons key rest ih =>
    rw [filterMap_cons]
    split
    · exact ih.cons key
    next change classified =>
      rw [map_cons, key_of_classified beforeProps afterProps classified]
      exact ih.cons_cons key

end Registers

/-! ### What a diff says -/

/-- No register of the state holds a `NaN`, which no comparison finds equal to itself. -/
def WarpState.Comparable (s : WarpState PlainData) : Prop :=
  ∀ k r, s.prop.get k = some r → r.value.val.comparable = true

/-- The register that is set was absent, or held other data. -/
def PropSetChange.ChangedFrom (change : PropSetChange PlainData) (s : WarpState PlainData) : Prop :=
  match change.oldValue with
  | none => ∀ value, (⟨change.nodeId, change.propKey, value⟩ : NodeProp PlainData) ∉
      nodePropertiesFromState s
  | some old => (⟨change.nodeId, change.propKey, old⟩ : NodeProp PlainData) ∈
      nodePropertiesFromState s ∧ ¬ SameData old change.newValue

/-- The diff lists the differences of two states, sorted and without repetition. -/
structure StateDiffResult.Exact (diff : StateDiffResult PlainData) (s t : WarpState PlainData) :
    Prop where
  nodesAdded : diff.nodesAdded.Pairwise (· < ·) ∧
    ∀ x, x ∈ diff.nodesAdded ↔ visibleNode t x = true ∧ visibleNode s x = false
  nodesRemoved : diff.nodesRemoved.Pairwise (· < ·) ∧
    ∀ x, x ∈ diff.nodesRemoved ↔ visibleNode s x = true ∧ visibleNode t x = false
  edgesAdded : diff.edgesAdded.Pairwise (fun e f => edgeOrder e < edgeOrder f) ∧
    ∀ e, e ∈ diff.edgesAdded ↔ e ∈ visibleEdges t ∧ e ∉ visibleEdges s
  edgesRemoved : diff.edgesRemoved.Pairwise (fun e f => edgeOrder e < edgeOrder f) ∧
    ∀ e, e ∈ diff.edgesRemoved ↔ e ∈ visibleEdges s ∧ e ∉ visibleEdges t
  propsSet : diff.propsSet.Pairwise (fun c d => c.key < d.key) ∧
    ∀ c, c ∈ diff.propsSet ↔ c.key = encodePropKey c.nodeId c.propKey ∧
      ⟨c.nodeId, c.propKey, c.newValue⟩ ∈ nodePropertiesFromState t ∧ c.ChangedFrom s
  propsRemoved : diff.propsRemoved.Pairwise (fun c d => c.key < d.key) ∧
    ∀ c, c ∈ diff.propsRemoved ↔ c.key = encodePropKey c.nodeId c.propKey ∧
      ⟨c.nodeId, c.propKey, c.oldValue⟩ ∈ nodePropertiesFromState s ∧
      ∀ value, (⟨c.nodeId, c.propKey, value⟩ : NodeProp PlainData) ∉ nodePropertiesFromState t

theorem pairwise_lt_sortBy {A K} [LinearOrder K] (key : A → K) (members)
    (distinct : (members.map key).Nodup) :
    (sortBy key members).Pairwise fun a b => key a < key b := by
  have apart : ((sortBy key members).map key).Nodup :=
    (((perm_sortBy key members).map key).nodup_iff).mpr distinct
  rw [List.Nodup, pairwise_map] at apart
  exact ((pairwise_sortBy key members).and apart).imp fun both => lt_of_le_of_ne both.1 both.2

theorem nodeProperty_iff (keyed : s.Keyed) {key} (validNode : ValidId node) (validKey : ValidId key) :
    (⟨node, key, value⟩ : NodeProp PlainData) ∈ nodePropertiesFromState s ↔
      ∃ r, s.prop.get (encodePropKey node key) = some r ∧ r.value = value := by
  rw [mem_nodePropertiesFromState_iff s keyed]
  exact ⟨fun held => held.2.2, fun found => ⟨validNode, validKey, found⟩⟩

theorem nodeKey_of_found {s : WarpState PlainData} (keyed : s.Keyed) (found : s.prop.get k = some r)
    (ofNode : isEdgePropKey k = false) :
    ValidId (decodePropKey k).nodeId ∧ ValidId (decodePropKey k).propKey ∧
      k = encodePropKey (decodePropKey k).nodeId (decodePropKey k).propKey := by
  rcases keyed.props k r found with ⟨node, key, validNode, validKey, rfl⟩ | edgeKey
  · rw [decodePropKey_encodePropKey validNode validKey]
    exact ⟨validNode, validKey, rfl⟩
  · obtain ⟨src, dst, label, key, -, -, -, -, rfl⟩ := edgeKey
    simp at ofNode

theorem set_mem_diffProps (left : s.Keyed) (right : t.Keyed) (comparable : s.Comparable) (c) :
    .set c ∈ diffProps s.prop t.prop ↔ c.key = encodePropKey c.nodeId c.propKey ∧
      ⟨c.nodeId, c.propKey, c.newValue⟩ ∈ nodePropertiesFromState t ∧ c.ChangedFrom s := by
  rw [mem_diffProps, classifyPropChange_eq]
  obtain ⟨k, nodeId, propKey, oldValue, newValue⟩ := c
  simp only [PropChange.key, PropSetChange.ChangedFrom]
  constructor
  · rintro ⟨ofNode, classified⟩
    cases after : t.prop.get k with
    | none => cases before : s.prop.get k <;> simp [before, after] at classified
    | some afterReg =>
      obtain ⟨validNode, validKey, parts⟩ := nodeKey_of_found right after ofNode
      cases before : s.prop.get k with
      | none =>
        -- the register is new
        simp only [before, after, Option.some.injEq, PropChange.set.injEq,
          PropSetChange.mk.injEq] at classified
        obtain ⟨-, rfl, rfl, rfl, rfl⟩ := classified
        refine ⟨parts, ?_, ?_⟩
        · exact (nodeProperty_iff right validNode validKey).mpr ⟨afterReg, parts ▸ after, rfl⟩
        · intro value held
          obtain ⟨r, found, -⟩ := (nodeProperty_iff left validNode validKey).mp held
          rw [← parts, before] at found
          cases found
      | some beforeReg =>
        -- both sides hold a register; the values are compared
        simp only [before, after] at classified
        split at classified
        · cases classified
        next differ =>
          obtain ⟨-, rfl, rfl, rfl, rfl⟩ := classified
          refine ⟨parts, ?_, ?_, ?_⟩
          · exact (nodeProperty_iff right validNode validKey).mpr ⟨afterReg, parts ▸ after, rfl⟩
          · exact (nodeProperty_iff left validNode validKey).mpr ⟨beforeReg, parts ▸ before, rfl⟩
          · intro same
            exact differ ((stateDiffValuesEqual_of_comparable (comparable k beforeReg before)).mpr same)
  · rintro ⟨rfl, held, changed⟩
    obtain ⟨validNode, validKey, afterReg, after, rfl⟩ :=
      (mem_nodePropertiesFromState_iff t right _).mp held
    refine ⟨isEdgePropKey_encodePropKey propKey validNode, ?_⟩
    simp only [decodePropKey_encodePropKey validNode validKey, after]
    cases before : s.prop.get (encodePropKey nodeId propKey) with
    | none =>
      cases oldValue with
      | none => rfl
      | some old =>
        obtain ⟨r, found, -⟩ := (nodeProperty_iff left validNode validKey).mp changed.1
        rw [before] at found
        cases found
    | some beforeReg =>
      have here := (nodeProperty_iff left validNode validKey).mpr
        ⟨beforeReg, before, rfl⟩
      cases oldValue with
      | none => exact absurd here (changed beforeReg.value)
      | some old =>
        obtain ⟨r, found, rfl⟩ := (nodeProperty_iff left validNode validKey).mp changed.1
        cases before.symm.trans found
        have differ : stateDiffValuesEqual beforeReg.value.val afterReg.value.val ≠ true := by
          rw [ne_eq, stateDiffValuesEqual_of_comparable (comparable _ beforeReg before)]
          exact changed.2
        simp only [if_neg differ]

theorem removed_mem_diffProps (left : s.Keyed) (right : t.Keyed) (c) :
    .removed c ∈ diffProps s.prop t.prop ↔ c.key = encodePropKey c.nodeId c.propKey ∧
      ⟨c.nodeId, c.propKey, c.oldValue⟩ ∈ nodePropertiesFromState s ∧
      ∀ value, (⟨c.nodeId, c.propKey, value⟩ : NodeProp PlainData) ∉ nodePropertiesFromState t := by
  rw [mem_diffProps, classifyPropChange_eq]
  obtain ⟨k, nodeId, propKey, oldValue⟩ := c
  simp only [PropChange.key]
  constructor
  · rintro ⟨ofNode, classified⟩
    cases before : s.prop.get k with
    | none => cases after : t.prop.get k <;> simp [before, after] at classified
    | some beforeReg =>
      cases after : t.prop.get k with
      | some afterReg =>
        simp only [before, after] at classified
        split at classified <;> cases classified
      | none =>
        obtain ⟨validNode, validKey, parts⟩ := nodeKey_of_found left before ofNode
        simp only [before, after, Option.some.injEq, PropChange.removed.injEq,
          PropRemoved.mk.injEq] at classified
        obtain ⟨-, rfl, rfl, rfl⟩ := classified
        refine ⟨parts, ?_, ?_⟩
        · exact (nodeProperty_iff left validNode validKey).mpr ⟨beforeReg, parts ▸ before, rfl⟩
        · intro value held
          obtain ⟨r, found, -⟩ := (nodeProperty_iff right validNode validKey).mp held
          rw [← parts, after] at found
          cases found
  · rintro ⟨rfl, held, missing⟩
    obtain ⟨validNode, validKey, beforeReg, before, rfl⟩ :=
      (mem_nodePropertiesFromState_iff s left _).mp held
    refine ⟨isEdgePropKey_encodePropKey propKey validNode, ?_⟩
    simp only [decodePropKey_encodePropKey validNode validKey, before]
    cases after : t.prop.get (encodePropKey nodeId propKey) with
    | none => rfl
    | some afterReg =>
      have here := (nodeProperty_iff right validNode validKey).mpr
        ⟨afterReg, after, rfl⟩
      exact absurd here (missing afterReg.value)

variable (changes : List (PropChange PlainData))

theorem mem_asSet (c) : c ∈ changes.filterMap PropChange.asSet ↔ .set c ∈ changes := by
  rw [mem_filterMap]
  constructor
  · rintro ⟨change, member, same⟩
    cases change with
    | set own => exact Option.some.inj same ▸ member
    | removed own => cases same
  · exact fun member => ⟨_, member, rfl⟩

theorem mem_asRemoved (c) : c ∈ changes.filterMap PropChange.asRemoved ↔ .removed c ∈ changes := by
  rw [mem_filterMap]
  constructor
  · rintro ⟨change, member, same⟩
    cases change with
    | set own => cases same
    | removed own => exact Option.some.inj same ▸ member
  · exact fun member => ⟨_, member, rfl⟩

theorem keys_asSet :
    ((changes.filterMap PropChange.asSet).map PropSetChange.key).Sublist
      (changes.map PropChange.key) := by
  induction changes with
  | nil => exact List.Sublist.refl _
  | cons change rest ih =>
    cases change with
    | set own => exact ih.cons_cons own.key
    | removed own => exact ih.cons own.key

theorem keys_asRemoved :
    ((changes.filterMap PropChange.asRemoved).map PropRemoved.key).Sublist
      (changes.map PropChange.key) := by
  induction changes with
  | nil => exact List.Sublist.refl _
  | cons change rest ih =>
    cases change with
    | set own => exact ih.cons own.key
    | removed own => exact ih.cons_cons own.key

theorem diffStates_nodes {s t : WarpState PlainData} :
    (sortBy id (setAdded (diffNodes (some s)) (diffNodes (some t)))).Pairwise (· < ·) ∧
      ∀ x, x ∈ sortBy id (setAdded (diffNodes (some s)) (diffNodes (some t))) ↔
        visibleNode t x = true ∧ visibleNode s x = false := by
  refine ⟨?_, fun x => ?_⟩
  · apply pairwise_lt_sortBy id
    rw [map_id]
    exact nodup_elements.filter _
  · rw [mem_sortBy, mem_setAdded, mem_diffNodes, mem_diffNodes, Bool.not_eq_true]

theorem diffStates_edges {s t : WarpState PlainData} (left : s.Keyed) (right : t.Keyed) :
    (sortBy edgeOrder ((setAdded (diffEdges (some s)) (diffEdges (some t))).map
        decodeEdgeKey)).Pairwise (fun e f => edgeOrder e < edgeOrder f) ∧
      ∀ e, e ∈ sortBy edgeOrder ((setAdded (diffEdges (some s)) (diffEdges (some t))).map
        decodeEdgeKey) ↔ e ∈ visibleEdges t ∧ e ∉ visibleEdges s := by
  refine ⟨pairwise_lt_sortBy edgeOrder _ (nodup_edgesAdded right), fun e => ?_⟩
  rw [mem_sortBy, mem_edgesAdded left right]

theorem diffStates_lists (left : s.Keyed) (right : t.Keyed) (comparable : s.Comparable) :
    (diffStates (some s) t).Exact s t where
  nodesAdded := diffStates_nodes
  nodesRemoved := diffStates_nodes
  edgesAdded := diffStates_edges left right
  edgesRemoved := diffStates_edges right left
  propsSet := by
    -- the lists of properties are the sorted differences of the node property registers
    refine ⟨pairwise_lt_sortBy _ _ ((nodup_diffProps _ _).sublist (keys_asSet _)), fun c => ?_⟩
    rw [← set_mem_diffProps left right comparable, ← mem_asSet]
    exact mem_sortBy PropSetChange.key _ c
  propsRemoved := by
    refine ⟨pairwise_lt_sortBy _ _ ((nodup_diffProps _ _).sublist (keys_asRemoved _)), fun c => ?_⟩
    rw [← removed_mem_diffProps left right, ← mem_asRemoved]
    exact mem_sortBy PropRemoved.key _ c

/-! ### The mirror image -/

/-- A removal undone: the property is set anew. -/
def PropRemoved.undone {V : Type} (change : PropRemoved V) : PropSetChange V :=
  ⟨change.key, change.nodeId, change.propKey, none, change.oldValue⟩

/-- A change undone: the old value is set over the new one. -/
def PropSetChange.restored {V : Type} (change : PropSetChange V) : Option (PropSetChange V) :=
  change.oldValue.map fun old =>
    ⟨change.key, change.nodeId, change.propKey, some change.newValue, old⟩

def PropSetChange.withdrawn {V : Type} (change : PropSetChange V) : Option (PropRemoved V) :=
  match change.oldValue with
  | none => some ⟨change.key, change.nodeId, change.propKey, change.newValue⟩
  | some _ => none

/-- What was added is removed, what was removed is added, and changed values go back. -/
def StateDiffResult.mirror {V : Type} (diff : StateDiffResult V) : StateDiffResult V where
  nodesAdded := diff.nodesRemoved
  nodesRemoved := diff.nodesAdded
  edgesAdded := diff.edgesRemoved
  edgesRemoved := diff.edgesAdded
  propsSet := sortBy PropSetChange.key
    (diff.propsRemoved.map PropRemoved.undone ++ diff.propsSet.filterMap PropSetChange.restored)
  propsRemoved := sortBy PropRemoved.key (diff.propsSet.filterMap PropSetChange.withdrawn)

theorem eq_of_pairwise_lt {A K : Type} [LinearOrder K] {key : A → K} {left right : List A}
    (leftSorted : left.Pairwise fun a b => key a < key b)
    (rightSorted : right.Pairwise fun a b => key a < key b) (same : ∀ a, a ∈ left ↔ a ∈ right) :
    left = right := by
  have nodup : ∀ members : List A, (members.Pairwise fun a b => key a < key b) → members.Nodup :=
    fun members sorted => sorted.imp fun below same => absurd (congrArg key same) (ne_of_lt below)
  have perm := (perm_ext_iff_of_nodup (nodup left leftSorted) (nodup right rightSorted)).mpr same
  apply perm.eq_of_pairwise ?_ leftSorted rightSorted
  intro a b _ _ below above
  exact absurd above (lt_asymm below)

theorem mem_restored (changes : List (PropSetChange PlainData)) (c) :
    c ∈ changes.filterMap PropSetChange.restored ↔ ∃ old, c.oldValue = some old ∧
      ⟨c.key, c.nodeId, c.propKey, some c.newValue, old⟩ ∈ changes := by
  obtain ⟨k, nodeId, propKey, oldValue, newValue⟩ := c
  simp only [mem_filterMap, PropSetChange.restored, Option.map_eq_some_iff, PropSetChange.mk.injEq]
  constructor
  · rintro ⟨⟨k', nodeId', propKey', oldValue', newValue'⟩, member, old, rfl, rfl, rfl, rfl, rfl, rfl⟩
    exact ⟨newValue', rfl, member⟩
  · rintro ⟨old, rfl, member⟩
    exact ⟨_, member, newValue, rfl, rfl, rfl, rfl, rfl, rfl⟩

theorem mem_withdrawn (changes : List (PropSetChange PlainData)) (c) :
    c ∈ changes.filterMap PropSetChange.withdrawn ↔
      ⟨c.key, c.nodeId, c.propKey, none, c.oldValue⟩ ∈ changes := by
  rw [mem_filterMap]
  constructor
  · rintro ⟨⟨k, nodeId, propKey, oldValue, newValue⟩, member, same⟩
    cases oldValue with
    | none =>
      cases Option.some.inj same
      exact member
    | some old => cases same
  · exact fun member => ⟨_, member, rfl⟩

theorem mem_undone (changes : List (PropRemoved PlainData)) (c) :
    c ∈ changes.map PropRemoved.undone ↔ c.oldValue = none ∧
      ⟨c.key, c.nodeId, c.propKey, c.newValue⟩ ∈ changes := by
  obtain ⟨k, nodeId, propKey, oldValue, newValue⟩ := c
  simp only [mem_map, PropRemoved.undone, PropSetChange.mk.injEq]
  constructor
  · rintro ⟨own, member, rfl, rfl, rfl, rfl, rfl⟩
    exact ⟨rfl, member⟩
  · rintro ⟨rfl, member⟩
    exact ⟨_, member, rfl, rfl, rfl, rfl, rfl⟩

theorem nodup_keys_of_pairwise_lt {A K : Type} [LinearOrder K] {key : A → K} {members : List A}
    (sorted : members.Pairwise fun a b => key a < key b) : (members.map key).Nodup := by
  rw [List.Nodup, pairwise_map]
  exact sorted.imp fun below => ne_of_lt below

variable (diff : StateDiffResult PlainData)

theorem nodup_mirrored (right : t.Keyed) (left : s.Keyed) (exactly : diff.Exact s t) :
    ((diff.propsRemoved.map PropRemoved.undone ++
      diff.propsSet.filterMap PropSetChange.restored).map PropSetChange.key).Nodup := by
  -- no property is both set and removed, so the keys of the mirrored list are distinct
  have restoredKeys : ((diff.propsSet.filterMap PropSetChange.restored).map
      PropSetChange.key).Sublist (diff.propsSet.map PropSetChange.key) := by
    induction diff.propsSet with
    | nil => exact List.Sublist.refl _
    | cons change rest ih =>
      obtain ⟨k, nodeId, propKey, oldValue, newValue⟩ := change
      cases oldValue with
      | none => exact ih.cons k
      | some old => exact ih.cons_cons k
  have undoneKeys : (diff.propsRemoved.map PropRemoved.undone).map PropSetChange.key =
      diff.propsRemoved.map PropRemoved.key := by
    rw [map_map]
    rfl
  rw [map_append, undoneKeys, nodup_append]
  refine ⟨nodup_keys_of_pairwise_lt exactly.propsRemoved.1,
    (nodup_keys_of_pairwise_lt exactly.propsSet.1).sublist restoredKeys, ?_⟩
  rintro k inRemoved k' inSet rfl
  obtain ⟨r, removed, rfl⟩ := mem_map.mp inRemoved
  obtain ⟨c, set, same⟩ := mem_map.mp (restoredKeys.subset inSet)
  obtain ⟨removedKey, inS, missing⟩ := (exactly.propsRemoved.2 r).mp removed
  obtain ⟨setKey, inT, -⟩ := (exactly.propsSet.2 c).mp set
  -- one key names one property, which the later state would hold and not hold
  obtain ⟨validNode, validKey, -⟩ := (mem_nodePropertiesFromState_iff s left _).mp inS
  obtain ⟨validNode', validKey', -⟩ := (mem_nodePropertiesFromState_iff t right _).mp inT
  obtain ⟨node, key⟩ := encodePropKey_inj validNode' validNode validKey' validKey
    (setKey.symm.trans (same.trans removedKey))
  have here : (⟨r.nodeId, r.propKey, c.newValue⟩ : NodeProp PlainData) ∈
      nodePropertiesFromState t := by
    simp only at node key
    rw [← node, ← key]
    exact inT
  exact missing c.newValue here

theorem diffStates_mirror (left : s.Keyed) (right : t.Keyed) (leftComparable : s.Comparable)
    (rightComparable : t.Comparable) : diffStates (some t) s = (diffStates (some s) t).mirror := by
  have forth := diffStates_lists left right leftComparable
  have back := diffStates_lists right left rightComparable
  have sets : (diffStates (some t) s).propsSet = (diffStates (some s) t).mirror.propsSet := by
    apply eq_of_pairwise_lt back.propsSet.1
    · exact pairwise_lt_sortBy _ _ (nodup_mirrored _ right left forth)
    · intro c
      rw [back.propsSet.2, StateDiffResult.mirror, mem_sortBy, mem_append, mem_undone, mem_restored]
      simp only [forth.propsSet.2, forth.propsRemoved.2, PropSetChange.ChangedFrom]
      cases c.oldValue with
      | none => simp
      | some old =>
        simp only [reduceCtorEq, false_and, false_or, Option.some.injEq, exists_eq_left']
        constructor
        · rintro ⟨key, new, held, differ⟩
          exact ⟨key, held, new, fun same => differ same.symm⟩
        · rintro ⟨key, held, new, differ⟩
          exact ⟨key, new, held, fun same => differ same.symm⟩
  have removals : (diffStates (some t) s).propsRemoved =
      (diffStates (some s) t).mirror.propsRemoved := by
    have keys : (((diffStates (some s) t).propsSet.filterMap PropSetChange.withdrawn).map
        PropRemoved.key).Sublist ((diffStates (some s) t).propsSet.map PropSetChange.key) := by
      induction (diffStates (some s) t).propsSet with
      | nil => exact List.Sublist.refl _
      | cons change rest ih =>
        obtain ⟨k, nodeId, propKey, oldValue, newValue⟩ := change
        cases oldValue with
        | none => exact ih.cons_cons k
        | some old => exact ih.cons k
    apply eq_of_pairwise_lt back.propsRemoved.1
    · exact pairwise_lt_sortBy _ _
        ((nodup_keys_of_pairwise_lt forth.propsSet.1).sublist keys)
    · intro c
      rw [back.propsRemoved.2, StateDiffResult.mirror, mem_sortBy, mem_withdrawn, forth.propsSet.2]
      rfl
  -- nodes and edges are computed by the same expressions with the states swapped
  exact congrArg₂ (fun sets removals => (⟨_, _, _, _, sets, removals⟩ : StateDiffResult PlainData))
    sets removals

/-! ### Empty diffs -/

/-- The node property registers of two states hold the same data. -/
def SameNodeRegisters (s t : WarpState PlainData) : Prop :=
  ∀ node key, (∀ value, (⟨node, key, value⟩ : NodeProp PlainData) ∈ nodePropertiesFromState s →
      ∃ other, ⟨node, key, other⟩ ∈ nodePropertiesFromState t ∧ SameData value other) ∧
    ∀ value, (⟨node, key, value⟩ : NodeProp PlainData) ∈ nodePropertiesFromState t →
      ∃ other, ⟨node, key, other⟩ ∈ nodePropertiesFromState s ∧ SameData other value

theorem isEmptyDiff_iff : isEmptyDiff diff = true ↔
    diff.nodesAdded = [] ∧ diff.nodesRemoved = [] ∧ diff.edgesAdded = [] ∧ diff.edgesRemoved = [] ∧
      diff.propsSet = [] ∧ diff.propsRemoved = [] := by
  simp only [isEmptyDiff, Bool.and_eq_true, List.isEmpty_iff, and_assoc]

theorem props_empty_iff (left : s.Keyed) (exactly : diff.Exact s t) :
    diff.propsSet = [] ∧ diff.propsRemoved = [] ↔ SameNodeRegisters s t := by
  -- nothing is set or removed exactly when the registers hold the same data
  simp only [eq_nil_iff_forall_not_mem, exactly.propsSet.2, exactly.propsRemoved.2]
  constructor
  · rintro ⟨noSet, noRemoved⟩ node key
    constructor
    · intro value held
      by_contra missing
      push Not at missing
      -- either nothing is there any more, or other data
      by_cases gone : ∃ other, (⟨node, key, other⟩ : NodeProp PlainData) ∈ nodePropertiesFromState t
      · obtain ⟨other, there⟩ := gone
        exact noSet ⟨encodePropKey node key, node, key, some value, other⟩
          ⟨rfl, there, held, missing other there⟩
      · exact noRemoved ⟨encodePropKey node key, node, key, value⟩
          ⟨rfl, held, fun other there => gone ⟨other, there⟩⟩
    · intro value held
      by_contra missing
      push Not at missing
      by_cases known : ∃ other, (⟨node, key, other⟩ : NodeProp PlainData) ∈ nodePropertiesFromState s
      · obtain ⟨other, there⟩ := known
        exact noSet ⟨encodePropKey node key, node, key, some other, value⟩
          ⟨rfl, held, there, missing other there⟩
      · exact noSet ⟨encodePropKey node key, node, key, none, value⟩
          ⟨rfl, held, fun other there => known ⟨other, there⟩⟩
  · intro same
    constructor
    · rintro ⟨k, nodeId, propKey, oldValue, newValue⟩ ⟨-, held, changed⟩
      obtain ⟨other, there, equal⟩ := (same nodeId propKey).2 newValue held
      cases oldValue with
      | none => exact changed other there
      | some old =>
        obtain ⟨had, differ⟩ := changed
        obtain ⟨validNode, validKey, r, found, rfl⟩ := (mem_nodePropertiesFromState_iff s left _).mp had
        obtain ⟨-, -, r', found', rfl⟩ := (mem_nodePropertiesFromState_iff s left _).mp there
        cases found.symm.trans found'
        exact differ equal
    · rintro ⟨k, nodeId, propKey, oldValue⟩ ⟨-, held, missing⟩
      obtain ⟨other, there, -⟩ := (same nodeId propKey).1 oldValue held
      exact missing other there

theorem isEmptyDiff_of_exact (left : s.Keyed) (exactly : diff.Exact s t) :
    isEmptyDiff diff = true ↔ (∀ x, visibleNode s x = visibleNode t x) ∧
      (∀ e, e ∈ visibleEdges s ↔ e ∈ visibleEdges t) ∧ SameNodeRegisters s t := by
  have nodes : diff.nodesAdded = [] ∧ diff.nodesRemoved = [] ↔
      ∀ x, visibleNode s x = visibleNode t x := by
    simp only [eq_nil_iff_forall_not_mem, exactly.nodesAdded.2, exactly.nodesRemoved.2,
      ← forall_and]
    apply forall_congr'
    intro x
    cases visibleNode s x <;> cases visibleNode t x <;> simp
  have edges : diff.edgesAdded = [] ∧ diff.edgesRemoved = [] ↔
      ∀ e, e ∈ visibleEdges s ↔ e ∈ visibleEdges t := by
    simp only [eq_nil_iff_forall_not_mem, exactly.edgesAdded.2, exactly.edgesRemoved.2,
      ← forall_and]
    apply forall_congr'
    intro e
    tauto
  rw [isEmptyDiff_iff, ← nodes, ← edges, ← props_empty_iff diff left exactly]
  tauto

/-- For reachable states without `NaN`: the lists of a diff are exactly the sorted differences of
the visible nodes, the visible edges and the node property registers; the diff the other way round
is the mirror image; and a diff is empty exactly when there is no difference. -/
theorem diffStates_exact (s t : WarpState PlainData) (left : Reachable s) (right : Reachable t)
    (leftComparable : s.Comparable) (rightComparable : t.Comparable) :
    (diffStates (some s) t).Exact s t ∧ diffStates (some t) s = (diffStates (some s) t).mirror ∧
      (isEmptyDiff (diffStates (some s) t) = true ↔ (∀ x, visibleNode s x = visibleNode t x) ∧
          (∀ e, e ∈ visibleEdges s ↔ e ∈ visibleEdges t) ∧ SameNodeRegisters s t) := by
  have exactly := diffStates_lists left.keyed right.keyed leftComparable
  exact ⟨exactly, diffStates_mirror left.keyed right.keyed leftComparable rightComparable,
    isEmptyDiff_of_exact _ left.keyed exactly⟩

/-! ### Histories of a bridge -/

def plainNumber (n : Int) : PlainData := ⟨.number (.int n), rfl⟩

/-- Adds the nodes `x` and `y` with a bridge between them. -/
def bridgePatch : PatchEntry PlainData where
  patch := ⟨lit "a", 1, [
    .decoded { OpLike.bare (lit "NodeAdd") (plainNumber 0) with
      node := some (lit "x"), dot := rawDot "a" 1 },
    .decoded { OpLike.bare (lit "NodeAdd") (plainNumber 0) with
      node := some (lit "y"), dot := rawDot "a" 2 },
    .decoded { OpLike.bare (lit "EdgeAdd") (plainNumber 0) with
      src := some (lit "x"), dst := some (lit "y"), label := some (lit "bridge"),
      dot := rawDot "a" 3 }], .absent⟩
  sha := lit "aaaa"

def lengthPatch (length : Int) : PatchEntry PlainData where
  patch := ⟨lit "a", 2, [.decoded { OpLike.bare (lit "EdgePropSet") (plainNumber length) with
      src := some (lit "x"), dst := some (lit "y"), label := some (lit "bridge"),
      key := some (lit "length") }], .absent⟩
  sha := lit "bbbb"

/-- Sets a property of the node `x`. -/
def namePatch (value : PlainData) : PatchEntry PlainData where
  patch := ⟨lit "a", 3, [.decoded { OpLike.bare (lit "NodePropSet") value with
      node := some (lit "x"), key := some (lit "name") }], .absent⟩
  sha := lit "cccc"

theorem bridgePatch_wellFormed : bridgePatch.WellFormed :=
  .of_checks (by decide)

theorem namePatch_wellFormed (value) : (namePatch value).WellFormed where
  known := by
    intro op mem
    rw [mem_singleton.mp mem]
    rfl
  normal := by
    intro op mem
    rw [mem_singleton.mp mem]
    exact ⟨_, rfl⟩
  positive := by
    change (0 : Int) < 3
    decide
  named := by
    change lit "a" ≠ []
    decide
  hex := by
    change isHexOid (lit "cccc") = true
    decide
  context := ⟨_, rfl⟩

/-- The diff from the bridge to a named node: one property is set anew. -/
theorem diffStates_exact_named :
    ∃ s t, reducePatches [bridgePatch] .empty = .ok s ∧
      reducePatches [bridgePatch, namePatch (plainNumber 5)] .empty = .ok t ∧
      (diffStates (some s) t).propsSet.map PropSetChange.nodeId = [lit "x"] ∧
      (diffStates (some s) t).Exact s t ∧
      diffStates (some t) s = (diffStates (some s) t).mirror := by
  obtain ⟨s, t, before, after, set, small⟩ : ∃ s t, reducePatches [bridgePatch] .empty = .ok s ∧
      reducePatches [bridgePatch, namePatch (plainNumber 5)] .empty = .ok t ∧
      (diffStates (some s) t).propsSet.map PropSetChange.nodeId = [lit "x"] ∧
      (∀ entry ∈ s.prop.entries, entry.2.value.val.comparable = true) ∧
      ∀ entry ∈ t.prop.entries, entry.2.value.val.comparable = true :=
    ⟨_, _, rfl, rfl, by decide +kernel, by decide +kernel, by decide +kernel⟩
  obtain ⟨exactly, mirrored, -⟩ := diffStates_exact s t
    ⟨_, by simpa using bridgePatch_wellFormed, before⟩
    ⟨_, by simpa using ⟨bridgePatch_wellFormed, namePatch_wellFormed _⟩, after⟩
    (fun k r found => small.1 (k, r) ((s.prop.mem_entries_iff k).mpr found))
    (fun k r found => small.2 (k, r) ((t.prop.mem_entries_iff k).mpr found))
  exact ⟨s, t, before, after, set, exactly, mirrored⟩

def shownLength (p : EdgeProp PlainData) : Int :=
  match p.value.val with
  | .number (.int n) => n
  | _ => 0

theorem bridge_lengths_not_compared :
    ∃ s t, reducePatches [bridgePatch, lengthPatch 1] .empty = .ok s ∧
      reducePatches [bridgePatch, lengthPatch 2] .empty = .ok t ∧
      isEmptyDiff (diffStates (some s) t) = true ∧ ¬ SameGraph s t := by
  obtain ⟨s, t, before, after, empty, shorter, longer⟩ :
      ∃ s t, reducePatches [bridgePatch, lengthPatch 1] .empty = .ok s ∧
        reducePatches [bridgePatch, lengthPatch 2] .empty = .ok t ∧
        isEmptyDiff (diffStates (some s) t) = true ∧
        (edgePropertyRecords s).map shownLength = [1] ∧
        (edgePropertyRecords t).map shownLength = [2] :=
    ⟨_, _, rfl, rfl, by decide +kernel, by decide +kernel, by decide +kernel⟩
  refine ⟨s, t, before, after, empty, ?_⟩
  intro same
  obtain ⟨p, shown, one⟩ := mem_map.mp (shorter ▸ mem_singleton_self (1 : Int))
  have two : shownLength p ∈ (edgePropertyRecords t).map shownLength :=
    mem_map_of_mem ((same.edgeProps p).mp shown)
  rw [longer, mem_singleton, one] at two
  cases two

theorem absent_node_compared :
    ∃ s : WarpState PlainData, reducePatches [namePatch (plainNumber 5)] .empty = .ok s ∧
      isEmptyDiff (diffStates (some .empty) s) = false ∧ SameGraph .empty s := by
  obtain ⟨s, reduced, changed, nodes, edges, nodeProps, edgeProps⟩ :
      ∃ s : WarpState PlainData, reducePatches [namePatch (plainNumber 5)] .empty = .ok s ∧
        isEmptyDiff (diffStates (some .empty) s) = false ∧ s.nodeAlive = .empty ∧
        s.edgeAlive = .empty ∧ (visibleProps s).isEmpty = true ∧
        (edgePropertyRecords s).isEmpty = true :=
    ⟨_, rfl, by decide +kernel, rfl, rfl, by decide +kernel, by decide +kernel⟩
  rw [List.isEmpty_iff] at nodeProps edgeProps
  refine ⟨s, reduced, changed, ?_⟩
  constructor
  · intro x
    rw [visibleNode, visibleNode, nodes]
    rfl
  · intro k
    simp only [visibleEdge, nodes, edges]
    rfl
  · rw [nodeProps]
    exact fun p => Iff.rfl
  · rw [edgeProps]
    exact fun p => Iff.rfl

/-- Two lengths of a bridge show different graphs with an empty diff; a name for a node that was
never added shows the same graph with a diff that is not empty; and so does a name that is `NaN`
compared with itself. -/
theorem diff_is_not_the_visible_difference :
    (∃ s t, reducePatches [bridgePatch, lengthPatch 1] .empty = .ok s ∧
      reducePatches [bridgePatch, lengthPatch 2] .empty = .ok t ∧
      isEmptyDiff (diffStates (some s) t) = true ∧ ¬ SameGraph s t) ∧
    (∃ s : WarpState PlainData, reducePatches [namePatch (plainNumber 5)] .empty = .ok s ∧
      isEmptyDiff (diffStates (some .empty) s) = false ∧ SameGraph .empty s) ∧
    ∃ s, reducePatches [bridgePatch, namePatch ⟨.number (.other (lit "NaN")), rfl⟩] .empty = .ok s ∧
      isEmptyDiff (diffStates (some s) s) = false := by
  refine ⟨bridge_lengths_not_compared, absent_node_compared, _, rfl, ?_⟩
  decide +kernel

end GitWarp
