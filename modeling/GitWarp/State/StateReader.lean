import GitWarp.Provenance.Footprint
import GitWarp.State.PropertyBag
import GitWarp.State.TargetedReplay

/-!
# State readers

A reader is built over a live state or over a snapshot of one. It sorts what is
visible into indexes once and answers every query out of them, with copies of the
property bags.
-/
namespace GitWarp

open Js Lib KeyCodec
open RecordingBuilder (contentKey contentMimeKey contentSizeKey)

/-! ### Records -/

/-- The loop of a projection over the registers: what is selected becomes a record, unless
its value is no property value. -/
def legacyPropertyRecords {R : Type} (select : JsString → LWWRegister JsData → Option R)
    (value : R → JsData) : List (JsString × LWWRegister JsData) → Except Failure (List R)
  | [] => .ok []
  | (encodedKey, register) :: rest =>
    match select encodedKey register with
    | none => legacyPropertyRecords select value rest
    | some record =>
      if isPropValue (value record) then do
        let others ← legacyPropertyRecords select value rest
        pure (record :: others)
      else .error ⟨.warpError, lit "E_VALIDATION", lit "LegacyPropertyValue must wrap a PropValue"⟩

/-- `nodePropertyRecordForRegister`. -/
def nodePropertyRecordForRegister (s : WarpState JsData) (encodedKey : JsString)
    (register : LWWRegister JsData) : Option (NodeProp JsData) := do
  let keyParts ← decodeVisibleNodePropertyKey encodedKey
  guard (visibleNode s keyParts.nodeId)
  pure ⟨keyParts.nodeId, keyParts.propKey, register.value⟩

/-- `NodePropertyProjection.fromState`. -/
def createNodePropertyRecords (s : WarpState JsData) : Except Failure (List (NodeProp JsData)) := do
  let records ← legacyPropertyRecords (nodePropertyRecordForRegister s) NodeProp.value s.prop.entries
  pure (sortBy (fun record => record.node ++ lit ":" ++ record.key) records)

/-- `EdgePropertyProjection.fromState`. -/
def createEdgePropertyRecords (s : WarpState JsData) : Except Failure (List (EdgeProp JsData)) := do
  let records ← legacyPropertyRecords (edgePropertyRecordForRegister s) EdgeProp.value s.prop.entries
  pure (sortBy (fun record => legacyEdgeIdValue record.owner ++ lit ":" ++ record.key) records)

/-! ### Content -/

structure ContentMeta where
  handle : JsString
  mime : Option JsString
  size : Option Int
  deriving DecidableEq

/-- `isProjectableContentHandleValue` and `isProjectableMimeValue`: a non-empty text without the
separator. -/
def projectableText : JsData → Option JsString
  | .string text => if text = [] ∨ fieldSeparator ∈ text then none else some text
  | _ => none

def projectableSize : JsData → Option Int
  | .number (.int value) => if 0 ≤ value then some value else none
  | _ => none

/-- `isSameLineage`: two registers that one patch has written. -/
def isSameLineage (left right : EventId) : Bool :=
  decide (left.lamport = right.lamport) && decide (left.writerId = right.writerId) &&
    decide (left.patchSha = right.patchSha)

/-- Metadata counts where it comes from the patch that wrote the handle. -/
def contentMetaFromRegisters (content : LWWRegister JsData) (mime size : Option (LWWRegister JsData)) :
    Option ContentMeta := do
  let handle ← projectableText content.value
  let written := fun register : LWWRegister JsData =>
    isSameLineage content.eventId register.eventId
  pure ⟨handle, (mime.filter written).bind fun register => projectableText register.value,
    (size.filter written).bind fun register => projectableSize register.value⟩

def contentRecordForNode (s : WarpState JsData) (nodeId : JsString) : Option ContentMeta := do
  let content ← s.prop.get (encodePropKey nodeId contentKey)
  contentMetaFromRegisters content (s.prop.get (encodePropKey nodeId contentMimeKey))
    (s.prop.get (encodePropKey nodeId contentSizeKey))

def contentRecordForEdge (s : WarpState JsData) (edge : EdgeParts) : Option ContentMeta := do
  let birthEvent := s.edgeBirthEvent.get edge.key
  let visible := fun key : JsString =>
    (s.prop.get (edge.propKey key)).bind fun register => visibleEdgeRegister register birthEvent
  let content ← visible contentKey
  contentMetaFromRegisters content (visible contentMimeKey) (visible contentSizeKey)

/-- The index of the elements that are shown, with the content of those that have some. -/
def createContentMetaIndex {A : Type} (id : A → JsString) (content : A → Option ContentMeta)
    (shown : List A) : OrdMap JsString (Option ContentMeta) :=
  let blank := OrdMap.ofList (shown.map fun element => (id element, none))
  shown.foldl (fun index element =>
    match content element with
    | some found => index.set (id element) (some found)
    | none => index) blank

/-! ### Neighbors -/

inductive NeighborDirection
  | outgoing | incoming | both
  deriving DecidableEq

structure NeighborEntry where
  nodeId : JsString
  label : JsString
  direction : NeighborDirection
  deriving DecidableEq

abbrev NeighborIndex := OrdMap JsString (List NeighborEntry)

/-- `index.get(nodeId)?.push(entry)`. -/
def pushNeighbor (index : NeighborIndex) (nodeId : JsString) (entry : NeighborEntry) :
    NeighborIndex :=
  match index.get nodeId with
  | some entries => index.set nodeId (entries ++ [entry])
  | none => index

def createNeighborIndex (nodeIds : List JsString) (edges : List EdgeParts) :
    NeighborIndex × NeighborIndex :=
  let blank : NeighborIndex := OrdMap.ofList (nodeIds.map fun nodeId => (nodeId, []))
  (edges.foldl (fun index edge => pushNeighbor index edge.src ⟨edge.dst, edge.label, .outgoing⟩) blank,
    edges.foldl (fun index edge => pushNeighbor index edge.dst ⟨edge.src, edge.label, .incoming⟩) blank)

/-! ### Contexts -/

structure VisibleEdgeView where
  edge : EdgeParts
  props : PropertyBag

structure StateReaderContext where
  projection : StateProjection JsData
  nodePropsById : OrdMap JsString PropertyBag
  edgePropsByKey : OrdMap JsString PropertyBag
  edges : List VisibleEdgeView
  outgoingByNode : NeighborIndex
  incomingByNode : NeighborIndex
  nodeContentMetaById : OrdMap JsString (Option ContentMeta)
  edgeContentMetaByKey : OrdMap JsString (Option ContentMeta)

inductive StateReaderSource
  | live (state : WarpState JsData)
  | snapshot (state : SnapshotWarpState)

def createStateReaderProjectionState : StateReaderSource → Except Failure (WarpState JsData)
  | .live state => .ok state
  | .snapshot state => warpStateFromSnapshot state

/-- A view of an edge gets a copy of its bag. -/
def viewEdge (edge : EdgeParts) (props : PropertyBag) : Except Failure VisibleEdgeView := do
  let copy ← props.clone
  pure ⟨edge, copy⟩

def buildReaderContext (source : StateReaderSource) : Except Failure StateReaderContext := do
  let s ← createStateReaderProjectionState source
  let baseProjection := projectState s
  let nodePropertyRecords ← createNodePropertyRecords s
  let edgePropertyRecords ← createEdgePropertyRecords s
  let nodes := baseProjection.nodes
  let visible := baseProjection.edges
  let nodePropsById ← populateVisibleProps NodeProp.node NodeProp.key NodeProp.value
    (OrdMap.ofList (nodes.map fun nodeId => (nodeId, .empty))) nodePropertyRecords
  let edgePropsByKey ← populateVisibleProps (fun record => record.owner.key) EdgeProp.key
    EdgeProp.value (OrdMap.ofList (visible.map fun edge => (edge.key, .empty))) edgePropertyRecords
  let edges ← visible.mapM fun edge => viewEdge edge ((edgePropsByKey.get edge.key).getD .empty)
  pure {
    projection := ⟨nodes, visible, nodePropertyRecords⟩
    nodePropsById := nodePropsById
    edgePropsByKey := edgePropsByKey
    edges := edges
    outgoingByNode := (createNeighborIndex nodes visible).1
    incomingByNode := (createNeighborIndex nodes visible).2
    nodeContentMetaById := createContentMetaIndex id (contentRecordForNode s) nodes
    edgeContentMetaByKey := createContentMetaIndex EdgeParts.key (contentRecordForEdge s) visible }

/-! ### Queries -/

structure VisibleNodeView where
  nodeId : JsString
  props : PropertyBag
  outgoing : List NeighborEntry
  incoming : List NeighborEntry
  content : Option ContentMeta

namespace StateReaderContext

variable (context : StateReaderContext)

def hasVisibleNode (nodeId : JsString) : Bool := decide (nodeId ∈ context.projection.nodes)

def getVisibleEdges : Except Failure (List VisibleEdgeView) :=
  context.edges.mapM fun view => viewEdge view.edge view.props

def getVisibleNodeProps (nodeId : JsString) : Except Failure (Option PropertyBag) :=
  if context.hasVisibleNode nodeId then do
    let copy ← ((context.nodePropsById.get nodeId).getD .empty).clone
    pure (some copy)
  else .ok none

def getVisibleEdgeProps (edge : EdgeParts) : Except Failure (Option PropertyBag) :=
  match context.edgePropsByKey.get edge.key with
  | some props => do
    let copy ← props.clone
    pure (some copy)
  | none => .ok none

def getVisibleNeighbors (nodeId : JsString) (direction : NeighborDirection)
    (edgeLabel : Option JsString) : List NeighborEntry :=
  let wanted := fun entry : NeighborEntry => edgeLabel.all fun label => decide (entry.label = label)
  let outgoing := ((context.outgoingByNode.get nodeId).getD []).filter wanted
  let incoming := ((context.incomingByNode.get nodeId).getD []).filter wanted
  if context.hasVisibleNode nodeId then
    match direction with
    | .outgoing => outgoing
    | .incoming => incoming
    | .both => outgoing ++ incoming
  else []

def getVisibleNodeContentMeta (nodeId : JsString) : Option ContentMeta :=
  if context.hasVisibleNode nodeId then (context.nodeContentMetaById.get nodeId).join else none

def getVisibleEdgeContentMeta (edge : EdgeParts) : Option ContentMeta :=
  (context.edgeContentMetaByKey.get edge.key).join

def inspectVisibleNode (nodeId : JsString) : Except Failure (Option VisibleNodeView) :=
  if context.hasVisibleNode nodeId then do
    let copy ← ((context.nodePropsById.get nodeId).getD .empty).clone
    pure (some ⟨nodeId, copy, (context.outgoingByNode.get nodeId).getD [],
      (context.incomingByNode.get nodeId).getD [], (context.nodeContentMetaById.get nodeId).join⟩)
  else .ok none

end StateReaderContext

structure VisibleStateReader where
  project : StateProjection JsData
  hasNode : JsString → Bool
  getNodes : List JsString
  getEdges : Except Failure (List VisibleEdgeView)
  getNodeProps : JsString → Except Failure (Option PropertyBag)
  getEdgeProps : EdgeParts → Except Failure (Option PropertyBag)
  neighbors : JsString → NeighborDirection → Option JsString → List NeighborEntry
  getNodeContentMeta : JsString → Option ContentMeta
  getEdgeContentMeta : EdgeParts → Option ContentMeta
  inspectNode : JsString → Except Failure (Option VisibleNodeView)

/-- `buildReaderApi`. -/
def buildReaderApi (context : StateReaderContext) : VisibleStateReader where
  project := context.projection
  hasNode := context.hasVisibleNode
  getNodes := context.projection.nodes
  getEdges := context.getVisibleEdges
  getNodeProps := context.getVisibleNodeProps
  getEdgeProps := context.getVisibleEdgeProps
  neighbors := context.getVisibleNeighbors
  getNodeContentMeta := context.getVisibleNodeContentMeta
  getEdgeContentMeta := context.getVisibleEdgeContentMeta
  inspectNode := context.inspectVisibleNode

def createStateReader (source : StateReaderSource) : Except Failure VisibleStateReader := do
  let context ← buildReaderContext source
  pure (buildReaderApi context)

end GitWarp
