import GitWarp.State.StateReader

/-!
# Readers of snapshots

A state of property values comes back from its snapshot, so its readers answer
alike. Their bags hold the registers that are shown as long as no shown register
has the key `__proto__`: such a register is in no bag, and its value can stop the
reader from being built.
-/
namespace GitWarp

open Js Lib KeyCodec List

/-! ### What a reader should show -/

def NodeShows (s : WarpState JsData) (nodeId key : JsString) (data : JsData) : Prop :=
  (⟨nodeId, key, data⟩ : NodeProp JsData) ∈ visibleProps s

def EdgeShows (s : WarpState JsData) (edge : EdgeParts) (key : JsString) (data : JsData) : Prop :=
  (⟨edge, key, data⟩ : EdgeProp JsData) ∈ edgePropertyRecords s

/-- The own properties of the bag are the values that are shown. -/
def PropertyBag.Holds (bag : PropertyBag) (shown : JsString → JsData → Prop) : Prop :=
  ∀ key value, bag.own.get key = some value ↔
    ∃ data, shown key data ∧ createSnapshotPropValue data = value

/-- Every bag that the reader returns holds the visible registers of its element, and every
visible element has one. -/
structure VisibleStateReader.Exact (reader : VisibleStateReader) (s : WarpState JsData) : Prop where
  nodeProps : ∀ nodeId, visibleNode s nodeId = true →
    ∃ bag, reader.getNodeProps nodeId = .ok (some bag) ∧ bag.Holds (NodeShows s nodeId)
  hiddenNode : ∀ nodeId, visibleNode s nodeId = false →
    reader.getNodeProps nodeId = .ok none ∧ reader.inspectNode nodeId = .ok none
  inspected : ∀ nodeId, visibleNode s nodeId = true →
    ∃ view, reader.inspectNode nodeId = .ok (some view) ∧ view.props.Holds (NodeShows s nodeId)
  edgeProps : ∀ edge ∈ visibleEdges s,
    ∃ bag, reader.getEdgeProps edge = .ok (some bag) ∧ bag.Holds (EdgeShows s edge)
  hiddenEdge : ∀ edge, edge ∉ visibleEdges s → reader.getEdgeProps edge = .ok none
  edges : ∃ views, reader.getEdges = .ok views ∧
    views.map VisibleEdgeView.edge = sortBy edgeOrder (visibleEdges s) ∧
    ∀ view ∈ views, view.props.Holds (EdgeShows s view.edge)

/-! ### Records -/

theorem legacyPropertyRecords_of_accepted {value : R → JsData}
    (accepted : ∀ entry ∈ entries, ∀ record, select entry.1 entry.2 = some record →
      isPropValue (value record) = true) :
    legacyPropertyRecords select value entries =
      .ok (entries.filterMap fun entry => select entry.1 entry.2) := by
  induction entries with
  | nil => rfl
  | cons entry rest ih =>
    rw [forall_mem_cons] at accepted
    rw [legacyPropertyRecords]
    cases selected : select entry.1 entry.2 with
    | none =>
      simp only [ih accepted.2, filterMap_cons, selected]
    | some record =>
      simp only [accepted.1 record selected, if_true, ih accepted.2, filterMap_cons, selected]
      rfl

theorem nodePropertyRecordForRegister_eq_some_iff (keyed : s.Keyed) (found : s.prop.get k = some r) :
    nodePropertyRecordForRegister s k r = some p ↔
      ∃ node key, ValidId node ∧ ValidId key ∧ k = encodePropKey node key ∧
        visibleNode s node = true ∧ p = ⟨node, key, r.value⟩ := by
  simp only [nodePropertyRecordForRegister, Option.bind_eq_bind, Option.bind_eq_some_iff,
    Option.guard_eq_some', exists_const, Option.pure_def, Option.some.injEq]
  constructor
  · rintro ⟨parts, decoded, visible, rfl⟩
    rcases keyed.props k r found with ⟨node, key, validNode, validKey, rfl⟩ | edgeKey
    · rw [decodeVisibleNodePropertyKey_encode validNode validKey] at decoded
      cases decoded
      exact ⟨node, key, validNode, validKey, rfl, visible, rfl⟩
    · -- the key of an edge property names no node
      obtain ⟨src, dst, label, key, -, -, -, -, rfl⟩ := edgeKey
      simp [decodeVisibleNodePropertyKey] at decoded
  · rintro ⟨node, key, validNode, validKey, rfl, visible, rfl⟩
    exact ⟨⟨node, key⟩, decodeVisibleNodePropertyKey_encode validNode validKey, visible, rfl⟩

theorem nodup_filterMap_of_selects {R K : Type} {s : WarpState JsData}
    (select : JsString → LWWRegister JsData → Option R) (tag) (encode : K → JsString)
    (encodes : ∀ k r p, s.prop.get k = some r → select k r = some p → encode (tag p) = k) :
    ((s.prop.entries.filterMap fun entry => select entry.1 entry.2).map tag).Nodup := by
  -- records selected from different registers differ in owner or key
  -- the key of the register can be read off the record
  apply List.Nodup.of_map encode
  rw [map_map]
  have keys : (s.prop.entries.filterMap fun entry => select entry.1 entry.2).map (encode ∘ tag) =
      (s.prop.entries.filter fun entry => (select entry.1 entry.2).isSome).map Prod.fst := by
    have each : ∀ entry ∈ s.prop.entries, ∀ p, select entry.1 entry.2 = some p →
        encode (tag p) = entry.1 := by
      intro entry mem p selected
      exact encodes _ _ p ((s.prop.mem_entries_iff _).mp mem) selected
    generalize s.prop.entries = entries at each
    induction entries with
    | nil => rfl
    | cons entry rest ih =>
      rw [forall_mem_cons] at each
      cases selected : select entry.1 entry.2 with
      | none => simpa [selected] using ih each.2
      | some p =>
        have here := each.1 p selected
        simpa [selected, here] using ih each.2
  rw [keys]
  exact s.prop.nodup.sublist (filter_sublist.map Prod.fst)

theorem mem_nodePropertyRecords_iff (s) (keyed : s.Keyed) (p) :
    (p ∈ s.prop.entries.filterMap fun entry => nodePropertyRecordForRegister s entry.1 entry.2) ↔
      p ∈ visibleProps s := by
  rw [mem_visibleProps_iff s keyed, mem_filterMap]
  constructor
  · rintro ⟨⟨k, r⟩, member, selected⟩
    have found := (s.prop.mem_entries_iff k).mp member
    obtain ⟨node, key, validNode, validKey, rfl, visible, rfl⟩ :=
      (nodePropertyRecordForRegister_eq_some_iff keyed found).mp selected
    exact ⟨validNode, validKey, visible, r, found, rfl⟩
  · rintro ⟨validNode, validKey, visible, r, found, value⟩
    refine ⟨(encodePropKey p.node p.key, r), (s.prop.mem_entries_iff _).mpr found, ?_⟩
    exact (nodePropertyRecordForRegister_eq_some_iff keyed found).mpr
      ⟨p.node, p.key, validNode, validKey, rfl, visible, by rw [value]⟩

/-! ### Copies -/

variable {shown : JsString → JsData → Prop} {bag : PropertyBag}

theorem PropertyBag.Holds.own_proto (holds : bag.Holds shown)
    (plain : ∀ data, ¬ shown protoKey data) : bag.own.get protoKey = none := by
  cases found : bag.own.get protoKey with
  | none => rfl
  | some value =>
    obtain ⟨data, present, -⟩ := (holds protoKey value).mp found
    exact absurd present (plain data)

theorem PropertyBag.Holds.clone (holds : bag.Holds shown) (plain : ∀ data, ¬ shown protoKey data) :
    ∃ copy, bag.clone = .ok copy ∧ copy.Holds shown := by
  obtain ⟨copy, cloned, same⟩ := bag.clone_of_plain (holds.own_proto plain)
  refine ⟨copy, cloned, ?_⟩
  intro key value
  rw [same key]
  exact holds key value

theorem viewEdges_of_holds {A : Type} {s edge} (props : A → PropertyBag) (items : List A)
    (holds : ∀ a ∈ items, (props a).Holds (EdgeShows s (edge a)))
    (plain : ∀ p ∈ edgePropertyRecords s, p.key ≠ protoKey) :
    ∃ views, items.mapM (fun a => viewEdge (edge a) (props a)) = .ok views ∧
      views.map VisibleEdgeView.edge = items.map edge ∧
      ∀ view ∈ views, view.props.Holds (EdgeShows s view.edge) := by
  -- the views of a traversal, edge by edge
  have copied : ∀ a ∈ items, ∃ copy, (props a).clone = .ok copy ∧
      copy.Holds (EdgeShows s (edge a)) := fun a mem =>
    (holds a mem).clone fun data shown => plain _ shown rfl
  obtain ⟨views, traversed, pairs⟩ := mapM_ok_of_forall
    (fun a => viewEdge (edge a) (props a)) (by
      intro a mem
      obtain ⟨copy, cloned, -⟩ := copied a mem
      exact ⟨⟨edge a, copy⟩, by rw [viewEdge, cloned]; rfl⟩)
  refine ⟨views, traversed, ?_, ?_⟩
  · clear traversed copied holds
    induction pairs with
    | nil => rfl
    | cons viewed later ih =>
      rw [viewEdge, bind_eq_ok] at viewed
      obtain ⟨copy, -, whole⟩ := viewed
      cases whole
      rw [map_cons, map_cons, ih]
  · intro view mem
    obtain ⟨a, listed, viewed⟩ := mem_of_mapM_ok views traversed view mem
    obtain ⟨copy, cloned, exact_⟩ := copied a listed
    rw [viewEdge, cloned] at viewed
    cases viewed
    exact exact_

/-! ### Keys of edges -/

theorem valid_of_visible {s : WarpState JsData} (keyed : s.Keyed) (visible : edge ∈ visibleEdges s) :
    edge.Valid := by
  simp only [visibleEdges, mem_map, mem_filter] at visible
  obtain ⟨k, ⟨-, shown⟩, rfl⟩ := visible
  obtain ⟨src, dst, label, validSrc, validDst, validLabel, rfl⟩ :=
    visibleEdge_isEdgeKey s keyed shown
  rw [decodeEdgeKey_encodeEdgeKey validSrc validDst validLabel]
  exact ⟨validSrc, validDst, validLabel⟩

theorem edgeKey_inj_of_valid {edge edge' : EdgeParts} (valid : edge'.Valid)
    (same : edge.key = edge'.key) : edge = edge' := by
  -- the key of a valid edge has two separators, so there is none in the parts
  have counts := congrArg (List.count fieldSeparator) same
  have none' : ∀ text : JsString, ValidId text → List.count fieldSeparator text = 0 :=
    fun text held => count_eq_zero.mpr held.separated
  simp only [EdgeParts.key, encodeEdgeKey, count_append, count_cons_self,
    none' _ valid.src, none' _ valid.dst, none' _ valid.label] at counts
  have src : fieldSeparator ∉ edge.src := count_eq_zero.mp (by omega)
  have dst : fieldSeparator ∉ edge.dst := count_eq_zero.mp (by omega)
  have label : fieldSeparator ∉ edge.label := count_eq_zero.mp (by omega)
  have parts := congrArg (split fieldSeparator) same
  simp only [EdgeParts.key, encodeEdgeKey] at parts
  rw [split_append_cons _ src, split_append_cons _ dst, split_of_not_mem label,
    split_append_cons _ valid.src.separated, split_append_cons _ valid.dst.separated,
    split_of_not_mem valid.label.separated] at parts
  cases edge
  cases edge'
  simp_all

/-! ### Populated bags -/

theorem populateVisibleProps_holds {A R : Type} (idOf) (shown : List A) {owner key}
    (value : R → JsData) {records}
    (distinct : (records.map fun record => (owner record, key record)).Nodup)
    (plain : ∀ record ∈ records, key record ≠ protoKey) :
    ∃ filled, populateVisibleProps owner key value
        (OrdMap.ofList (shown.map fun a => (idOf a, .empty))) records = .ok filled ∧
      (∀ id, id ∉ shown.map idOf → filled.get id = none) ∧
      ∀ id ∈ shown.map idOf, ∃ bag, filled.get id = some bag ∧
        bag.Holds fun k data => ∃ record ∈ records, owner record = id ∧ key record = k ∧
          value record = data := by
  -- the bags of the shown elements, filled from distinct records with plain keys
  have blank := OrdMap.get_ofList_const idOf PropertyBag.empty shown
  obtain ⟨filled, populated, bags⟩ := populateVisibleProps_of_plain owner key value distinct
    plain (OrdMap.ofList (shown.map fun a => (idOf a, .empty))) (by
      intro id bag found
      rw [blank] at found
      split at found
      · cases found
        rfl
      · cases found)
  refine ⟨filled, populated, ?_, ?_⟩
  · intro id hidden
    exact (bags id).1 (by rw [blank, if_neg hidden])
  · intro id listed
    obtain ⟨bag, here, holds⟩ := (bags id).2 .empty (by rw [blank, if_pos listed])
    refine ⟨bag, here, ?_⟩
    intro k v
    rw [holds k v]
    -- the bag was empty before, so only the records count
    simp only [PropertyBag.empty, OrdMap.get_empty, reduceCtorEq, and_false, or_false]
    constructor
    · rintro ⟨record, member, own, named, same⟩
      exact ⟨value record, ⟨record, member, own, named, rfl⟩, same⟩
    · rintro ⟨data, ⟨record, member, own, named, rfl⟩, same⟩
      exact ⟨record, member, own, named, same⟩

theorem PropertyBag.Holds.congr (holds : bag.Holds shown)
    (same : ∀ key data, shown key data ↔ shown' key data) : bag.Holds shown' := by
  intro key value
  rw [holds key value]
  simp only [same]

section Contexts

variable (s : WarpState JsData) (keyed : s.Keyed)
  (accepted : ∀ key register, s.prop.get key = some register → isPropValue register.value = true)

include keyed accepted

theorem createNodePropertyRecords_of_accepted :
    ∃ records, createNodePropertyRecords s = .ok records ∧ (∀ p, p ∈ records ↔ p ∈ visibleProps s) ∧
      (records.map fun p => (p.node, p.key)).Nodup := by
  have values : ∀ entry ∈ s.prop.entries, ∀ p,
      nodePropertyRecordForRegister s entry.1 entry.2 = some p → isPropValue p.value = true := by
    intro entry mem p selected
    have found := (s.prop.mem_entries_iff entry.1).mp mem
    obtain ⟨node, key, -, -, -, -, rfl⟩ :=
      (nodePropertyRecordForRegister_eq_some_iff keyed found).mp selected
    exact accepted _ _ found
  have nodup := nodup_filterMap_of_selects (nodePropertyRecordForRegister s)
    (fun p => (p.node, p.key)) (fun tag => encodePropKey tag.1 tag.2) (by
      intro k r p found selected
      obtain ⟨node, key, -, -, rfl, -, rfl⟩ :=
        (nodePropertyRecordForRegister_eq_some_iff keyed found).mp selected
      rfl)
  refine ⟨_, by rw [createNodePropertyRecords,
    legacyPropertyRecords_of_accepted values]; rfl, ?_, ?_⟩
  · intro p
    rw [mem_sortBy, mem_nodePropertyRecords_iff s keyed]
  · exact ((perm_sortBy _ _).map _).nodup_iff.mpr nodup

theorem createEdgePropertyRecords_of_accepted :
    ∃ records, createEdgePropertyRecords s = .ok records ∧
      (∀ p, p ∈ records ↔ p ∈ edgePropertyRecords s) ∧
      (records.map fun p => (p.owner.key, p.key)).Nodup := by
  -- the edge records are the visible edge properties, one for each edge and key
  -- a register that is selected has the key of its record
  have decoded : ∀ k r p, s.prop.get k = some r → edgePropertyRecordForRegister s k r = some p →
      k = p.owner.propKey p.key ∧ p.value = r.value := by
    intro k r p found selected
    rcases keyed.props k r found with ⟨node, key, validNode, -, rfl⟩ | edgeKey
    · simp [edgePropertyRecordForRegister, decodeVisibleEdgePropertyKey,
        isEdgePropKey_encodePropKey key validNode] at selected
    · obtain ⟨src, dst, label, key, validSrc, validDst, validLabel, validKey, rfl⟩ := edgeKey
      obtain ⟨-, -, rfl⟩ := (edgePropertyRecordForRegister_encode s validSrc
        validDst validLabel validKey).mp selected
      exact ⟨rfl, rfl⟩
  have values : ∀ entry ∈ s.prop.entries, ∀ p,
      edgePropertyRecordForRegister s entry.1 entry.2 = some p → isPropValue p.value = true := by
    intro entry mem p selected
    have found := (s.prop.mem_entries_iff entry.1).mp mem
    rw [(decoded _ _ p found selected).2]
    exact accepted _ _ found
  have nodup := nodup_filterMap_of_selects (edgePropertyRecordForRegister s)
    (fun p => (p.owner.key, p.key))
    (fun tag => edgePropPrefix :: (tag.1 ++ fieldSeparator :: tag.2)) (by
      intro k r p found selected
      rw [(decoded k r p found selected).1]
      rfl)
  refine ⟨_, by rw [createEdgePropertyRecords,
    legacyPropertyRecords_of_accepted values]; rfl, ?_, ?_⟩
  · intro p
    rw [mem_sortBy]
    rfl
  · exact ((perm_sortBy _ _).map _).nodup_iff.mpr nodup

/-! ### Bags of a context -/

theorem buildReaderContext_of_plain (nodesPlain : ∀ p ∈ visibleProps s, p.key ≠ protoKey)
    (edgesPlain : ∀ p ∈ edgePropertyRecords s, p.key ≠ protoKey) :
    ∃ context, buildReaderContext (.live s) = .ok context ∧
      context.projection.nodes = (projectState s).nodes ∧
      (∀ nodeId, visibleNode s nodeId = true → ∃ bag,
        context.nodePropsById.get nodeId = some bag ∧ bag.Holds (NodeShows s nodeId)) ∧
      (∀ edge ∈ visibleEdges s, ∃ bag,
        context.edgePropsByKey.get edge.key = some bag ∧ bag.Holds (EdgeShows s edge)) ∧
      (∀ key, key ∉ (visibleEdges s).map EdgeParts.key → context.edgePropsByKey.get key = none) ∧
      context.edges.map VisibleEdgeView.edge = (projectState s).edges ∧
      ∀ view ∈ context.edges, view.props.Holds (EdgeShows s view.edge) := by
  -- without `__proto__` among the shown keys the context is built, and its bags hold what is
  -- shown
  obtain ⟨nodeRecords, nodesFound, nodeMem, nodeDistinct⟩ :=
    createNodePropertyRecords_of_accepted s keyed accepted
  obtain ⟨edgeRecords, edgesFound, edgeMem, edgeDistinct⟩ :=
    createEdgePropertyRecords_of_accepted s keyed accepted
  obtain ⟨nodeBags, nodesFilled, -, nodesHold⟩ := populateVisibleProps_holds
    (fun nodeId : JsString => nodeId) (projectState s).nodes
    NodeProp.value nodeDistinct fun p member => nodesPlain p ((nodeMem p).mp member)
  obtain ⟨edgeBags, edgesFilled, edgesHidden, edgesHold⟩ := populateVisibleProps_holds EdgeParts.key
    (projectState s).edges EdgeProp.value
    edgeDistinct fun p member => edgesPlain p ((edgeMem p).mp member)
  -- the bag of an edge is found under its key, and its records are those of the edge
  have edgeBag : ∀ edge ∈ visibleEdges s, ∃ bag, edgeBags.get edge.key = some bag ∧
      bag.Holds (EdgeShows s edge) := by
    intro edge visible
    have listed : edge.key ∈ (projectState s).edges.map EdgeParts.key :=
      mem_map_of_mem ((mem_sortBy _ _ _).mpr visible)
    obtain ⟨bag, found, holds⟩ := edgesHold edge.key listed
    refine ⟨bag, found, holds.congr ?_⟩
    intro key data
    constructor
    · rintro ⟨record, member, own, rfl, rfl⟩
      have shown := (edgeMem record).mp member
      have mine := ((mem_edgePropertyRecords_iff s keyed record).mp shown).1
      have same := edgeKey_inj (valid_of_visible keyed mine)
        (valid_of_visible keyed visible) own
      rw [EdgeShows, ← same]
      exact shown
    · intro shown
      exact ⟨_, (edgeMem _).mpr shown, rfl, rfl, rfl⟩
  obtain ⟨views, viewed, listed, exact_⟩ := viewEdges_of_holds
    (fun edge => (edgeBags.get edge.key).getD .empty) (projectState s).edges (by
      intro edge member
      obtain ⟨bag, found, holds⟩ := edgeBag edge ((mem_sortBy _ _ _).mp member)
      rw [found]
      exact holds) edgesPlain
  refine ⟨_, by simp only [buildReaderContext, createStateReaderProjectionState, nodesFound,
    edgesFound, nodesFilled, edgesFilled, viewed, bind, Except.bind, pure, Except.pure]; rfl, rfl,
    ?_, edgeBag, ?_, listed.trans (map_id' _), exact_⟩
  · intro nodeId visible
    have listed : nodeId ∈ (projectState s).nodes.map fun nodeId => nodeId := by
      rw [map_id']
      exact (mem_sortBy _ _ _).mpr ((ORSet.mem_elements_iff _).mpr visible)
    obtain ⟨bag, found, holds⟩ := nodesHold nodeId listed
    refine ⟨bag, found, holds.congr ?_⟩
    intro key data
    constructor
    · rintro ⟨record, member, rfl, rfl, rfl⟩
      exact (nodeMem record).mp member
    · intro shown
      exact ⟨_, (nodeMem _).mpr shown, rfl, rfl, rfl⟩
  · intro key hidden
    apply edgesHidden
    intro member
    obtain ⟨edge, listed, rfl⟩ := mem_map.mp member
    exact hidden (mem_map_of_mem ((mem_sortBy _ _ _).mp listed))

end Contexts

/-! ### Exact readers -/

theorem visibleNode_iff_listed (s : WarpState JsData) (nodeId) :
    visibleNode s nodeId = true ↔ nodeId ∈ (projectState s).nodes := by
  rw [projectState, mem_sortBy, ORSet.mem_elements_iff]
  rfl

theorem createStateReader_exact (s) (keyed : s.Keyed)
    (accepted : ∀ key register, s.prop.get key = some register →
      isPropValue register.value = true) (nodesPlain : ∀ p ∈ visibleProps s, p.key ≠ protoKey)
    (edgesPlain : ∀ p ∈ edgePropertyRecords s, p.key ≠ protoKey) :
    ∃ reader, createStateReader (.live s) = .ok reader ∧ reader.Exact s := by
  -- without `__proto__` among the shown keys the reader shows the registers exactly
  obtain ⟨context, built, nodes, nodeBags, edgeBags, hiddenEdges, listed, views⟩ :=
    buildReaderContext_of_plain s keyed accepted nodesPlain edgesPlain
  have nodeCopy : ∀ nodeId, visibleNode s nodeId = true → ∃ copy,
      ((context.nodePropsById.get nodeId).getD .empty).clone = .ok copy ∧
        copy.Holds (NodeShows s nodeId) := by
    intro nodeId visible
    obtain ⟨bag, found, holds⟩ := nodeBags nodeId visible
    rw [found]
    exact holds.clone fun data shown => nodesPlain _ shown rfl
  have has : ∀ nodeId, context.hasVisibleNode nodeId = visibleNode s nodeId := by
    intro nodeId
    rw [Bool.eq_iff_iff, visibleNode_iff_listed, StateReaderContext.hasVisibleNode, nodes,
      decide_eq_true_eq]
  refine ⟨buildReaderApi context, by rw [createStateReader, built]; rfl, ?_⟩
  constructor
  · intro nodeId visible
    obtain ⟨copy, cloned, holds⟩ := nodeCopy nodeId visible
    refine ⟨copy, ?_, holds⟩
    simp only [buildReaderApi, StateReaderContext.getVisibleNodeProps, has, visible, if_true, cloned,
      bind, Except.bind, pure, Except.pure]
  · intro nodeId hidden
    simp only [buildReaderApi, StateReaderContext.getVisibleNodeProps,
      StateReaderContext.inspectVisibleNode, has, hidden, Bool.false_eq_true, if_false, and_self]
  · intro nodeId visible
    obtain ⟨copy, cloned, holds⟩ := nodeCopy nodeId visible
    refine ⟨⟨nodeId, copy, (context.outgoingByNode.get nodeId).getD [],
      (context.incomingByNode.get nodeId).getD [], (context.nodeContentMetaById.get nodeId).join⟩,
      ?_, holds⟩
    simp only [buildReaderApi, StateReaderContext.inspectVisibleNode, has, visible, if_true, cloned,
      bind, Except.bind, pure, Except.pure]
  · intro edge visible
    obtain ⟨bag, found, holds⟩ := edgeBags edge visible
    obtain ⟨copy, cloned, exact_⟩ := holds.clone fun data shown => edgesPlain _ shown rfl
    refine ⟨copy, ?_, exact_⟩
    simp only [buildReaderApi, StateReaderContext.getVisibleEdgeProps, found, cloned, bind,
      Except.bind, pure, Except.pure]
  · intro edge hidden
    have absent : context.edgePropsByKey.get edge.key = none := by
      apply hiddenEdges
      intro mem
      obtain ⟨other, visible, same⟩ := mem_map.mp mem
      have equal := edgeKey_inj_of_valid (valid_of_visible keyed visible) same.symm
      exact hidden (equal ▸ visible)
    simp only [buildReaderApi, StateReaderContext.getVisibleEdgeProps, absent]
  · obtain ⟨copies, traversed, same, exact_⟩ := viewEdges_of_holds
      VisibleEdgeView.props context.edges views edgesPlain
    exact ⟨copies, traversed, same.trans listed, exact_⟩

/-- A bag that a reader returns never has a property `__proto__`, so an exact reader has no
such register to show. -/
theorem VisibleStateReader.Exact.plain (s) (keyed : s.Keyed)
    (built : createStateReader (.live s) = .ok reader) (exact_ : reader.Exact s) :
    (∀ p ∈ visibleProps s, p.key ≠ protoKey) ∧ ∀ p ∈ edgePropertyRecords s, p.key ≠ protoKey := by
  rw [createStateReader, bind_eq_ok] at built
  obtain ⟨context, -, whole⟩ := built
  cases whole
  constructor
  · intro p shown named
    have visible := ((mem_visibleProps_iff s keyed p).mp shown).2.2.1
    obtain ⟨bag, found, holds⟩ := exact_.nodeProps p.node visible
    simp only [buildReaderApi, StateReaderContext.getVisibleNodeProps] at found
    split at found
    · rw [bind_eq_ok] at found
      obtain ⟨copy, cloned, whole⟩ := found
      cases whole
      have absent := PropertyBag.own_proto_clone _ bag cloned
      have held := (holds p.key _).mpr ⟨p.value, shown, rfl⟩
      rw [named, absent] at held
      cases held
    · cases found
  · intro p shown named
    have visible := ((mem_edgePropertyRecords_iff s keyed p).mp shown).1
    obtain ⟨bag, found, holds⟩ := exact_.edgeProps p.owner visible
    simp only [buildReaderApi, StateReaderContext.getVisibleEdgeProps] at found
    split at found
    · rw [bind_eq_ok] at found
      obtain ⟨copy, cloned, whole⟩ := found
      cases whole
      have absent := PropertyBag.own_proto_clone _ bag cloned
      have held := (holds p.key _).mpr ⟨p.value, shown, rfl⟩
      rw [named, absent] at held
      cases held
    · cases found

def describedNode (props : List (JsString × JsData)) : PatchEntry JsData where
  patch := ⟨lit "a", 1,
    .decoded { OpLike.bare (lit "NodeAdd") .null with
      node := some (lit "x"), dot := rawDot "a" 1 } ::
    props.map fun prop => .decoded { OpLike.bare (lit "NodePropSet") prop.2 with
      node := some (lit "x"), key := some prop.1 }, .absent⟩
  sha := lit "aaaa"

/-- An object under `__proto__` keeps a property of the same name as one of its entries from
being set, and no reader is built. -/
example : (do
      let s ← reducePatches [describedNode [(protoKey, .object [(lit "name", .null)]),
        (lit "name", .string (lit "n"))]] .empty
      let reader ← createStateReader (.live s)
      pure reader.getNodes) = .error readOnlyProperty := by
  decide +kernel

end GitWarp
