import GitWarp.Lib.Attempt
import GitWarp.State.Slicing
import GitWarp.Writing.PatchHost

/-!
# The footprint of a patch

A builder writes down by hand, next to each operation, which entities it has
observed and which it writes; the published patch carries both lists. Nodes are
named by their ids, edges by their encoded keys. A call that throws keeps what
it has pushed and recorded before.
-/
namespace GitWarp

open Js Lib KeyCodec List

variable {V : Type}

/-! ### The builder -/

inductive DeletePolicy
  | reject | cascade | warn
  deriving DecidableEq

/-- A patch builder with what it keeps besides its operations and dots. -/
structure RecordingBuilder (V : Type) where
  builder : PatchBuilder V
  onDeleteWithData : DeletePolicy
  /-- `getCurrentState`, read once. -/
  snapshotState : Option (WarpState V)
  nodesAdded : OrdSet JsString
  edgesAdded : OrdSet JsString
  observedOperands : OrdSet JsString
  writes : OrdSet JsString

/-- The values that a stored content attachment is written as. -/
structure ContentPayload (V : Type) where
  handle : V
  size : V
  mime : V

namespace RecordingBuilder

abbrev Call (V : Type) := Attempt Failure (RecordingBuilder V)

def assertNotCommitted : Call V := .check fun b => b.builder.assertNotCommitted

def assertNoReservedBytes (value : JsString) (label : String) : Call V :=
  .check fun _ => PatchBuilder.assertNoReservedBytes value label

def validation (message : JsString) : Failure := ⟨.warpError, lit "E_VALIDATION", message⟩

/-- The constructors of the write intents; reserved bytes have been refused before. -/
def requireNonEmpty (value : JsString) (noun : String) : Call V :=
  .check fun _ =>
    if value = [] then .error (validation (lit noun ++ lit " must be a non-empty string")) else .ok ()

def record (b : RecordingBuilder V) (observed written : List JsString) : RecordingBuilder V :=
  { b with
    observedOperands := b.observedOperands.addAll observed
    writes := b.writes.addAll written }

/-- Pushes an operation that its constructor accepts and records its operands. -/
def push (op : Op V) (observed written : List JsString) : Call V := fun b =>
  match op.create with
  | .error e => (.error e, b)
  | .ok created =>
    (.ok (), { b with builder := { b.builder with ops := b.builder.ops ++ [created] } }.record
      observed written)

/-! ### Graph operations -/

def addNode (nodeId : JsString) : Call V := fun b =>
  match b.builder.addNode nodeId with
  | (.error e, builder) => (.error e, { b with builder := builder })
  | (.ok (), builder) =>
    (.ok (), { b with builder := builder, nodesAdded := b.nodesAdded.add nodeId }.record [] [nodeId])

structure AttachedData where
  edges : List JsString
  props : List JsString

/-- `findAttachedData`: alive edges and property keys that name the node. -/
def findAttachedData (state : WarpState V) (nodeId : JsString) : AttachedData where
  edges := state.edgeAlive.elements.filter fun key =>
    (nodeId ++ [fieldSeparator]).isPrefixOf key ||
      includes (fieldSeparator :: (nodeId ++ [fieldSeparator])) key
  props := state.prop.keys.filter fun key => (nodeId ++ [fieldSeparator]).isPrefixOf key

def attachedSummary (attached : AttachedData) : JsString :=
  let edges := if attached.edges.length > 0 then
    [numberText attached.edges.length ++ lit " edge(s)"] else []
  let props := if attached.props.length > 0 then
    [numberText attached.props.length ++ lit " propert" ++
      (if attached.props.length = 1 then lit "y" else lit "ies")] else []
  List.intercalate (lit " and ") (edges ++ props)

def rejectAttachedData (state : WarpState V) (nodeId : JsString) : Call V :=
  .check fun _ =>
    let attached := findAttachedData state nodeId
    if attached.edges = [] ∧ attached.props = [] then .ok ()
    else .error ⟨.patchError, lit "E_PATCH_DELETE_WITH_DATA",
      lit "Cannot delete node '" ++ nodeId ++ lit "': node has attached data (" ++
        attachedSummary attached ++ lit "). Remove edges and properties first, or set " ++
        lit "onDeleteWithData to 'cascade'."⟩

/-- An edge that goes with its node; its parts are those of its key. -/
def removeAttachedEdge (state : WarpState V) (edgeKey : JsString) : Call V :=
  let parts := decodeEdgeKey edgeKey
  push (.edgeRemove parts.src parts.dst parts.label (state.edgeAlive.getDots edgeKey).toList)
    [edgeKey] []

def assertObservedDotsForRemove (observedDots : List JsString) (targetKind target : JsString) :
    Call V :=
  .check fun _ =>
    if observedDots = [] then
      .error ⟨.patchError, lit "E_PATCH_ENTITY_NOT_FOUND",
        lit "Cannot remove missing " ++ targetKind ++ lit " '" ++ target ++
          lit "': entity is not alive in current state"⟩
    else .ok ()

def removeNode (nodeId : JsString) : Call V :=
  assertNotCommitted.andThen <| .choose fun b =>
    match b.snapshotState with
    | none => .fail ⟨.patchError, lit "E_PATCH_NO_STATE", lit "Cannot remove node '" ++ nodeId ++
          lit "': graph must be materialized before removing nodes"⟩
    | some state =>
      let attached : Call V := match b.onDeleteWithData with
        | .cascade => .forEach (removeAttachedEdge state) (findAttachedData state nodeId).edges
        | .reject => rejectAttachedData state nodeId
        | .warn => .check fun _ => .ok ()
      let observedDots := (state.nodeAlive.getDots nodeId).toList
      attached.andThen <|
        (assertObservedDotsForRemove observedDots (lit "node") nodeId).andThen <|
          push (.nodeRemove nodeId observedDots) [nodeId] []

def addEdge (src dst label : JsString) : Call V := fun b =>
  match b.builder.addEdge src dst label with
  | (.error e, builder) => (.error e, { b with builder := builder })
  | (.ok (), builder) =>
    let edgeKey := encodeEdgeKey src dst label
    (.ok (), { b with builder := builder, edgesAdded := b.edgesAdded.add edgeKey }.record
      [src, dst] [edgeKey])

def removeEdge (src dst label : JsString) : Call V :=
  assertNotCommitted.andThen <| .choose fun b =>
    let edgeKey := encodeEdgeKey src dst label
    match b.snapshotState with
    | none => .fail ⟨.patchError, lit "E_PATCH_NO_STATE",
        lit "Cannot remove edge '" ++ src ++ lit "->" ++ dst ++ lit "' (" ++ label ++
          lit "): graph must be materialized before removing edges"⟩
    | some state =>
      let observedDots := (state.edgeAlive.getDots edgeKey).toList
      (assertObservedDotsForRemove observedDots (lit "edge") edgeKey).andThen <|
        push (.edgeRemove src dst label observedDots) [edgeKey] []

def setProperty (nodeId key : JsString) (value : V) : Call V :=
  assertNotCommitted.andThen <| (assertNoReservedBytes nodeId "nodeId").andThen <|
    (assertNoReservedBytes key "key").andThen <| (requireNonEmpty nodeId "NodeId").andThen <|
      (requireNonEmpty key "LegacyNodePropertyKey").andThen <|
        push (.nodePropSet nodeId key value) [nodeId] [nodeId]

def assertEdgeExists (src dst label : JsString) : Call V :=
  .check fun b =>
    let edgeKey := encodeEdgeKey src dst label
    if b.edgesAdded.has edgeKey ∨
        (b.snapshotState.any fun state => state.edgeAlive.contains edgeKey) = true then .ok ()
    else .error ⟨.patchError, lit "E_PATCH_EDGE_PROP_UNKNOWN_EDGE",
      lit "Cannot set property on unknown edge (" ++ src ++ lit " → " ++ dst ++ lit " [" ++ label ++
        lit "]): add the edge first"⟩

def setEdgeProperty (src dst label key : JsString) (value : V) : Call V :=
  assertNotCommitted.andThen <| (assertNoReservedBytes src "from node ID").andThen <|
    (assertNoReservedBytes dst "to node ID").andThen <|
      (assertNoReservedBytes label "edge label").andThen <|
        (assertNoReservedBytes key "key").andThen <| (requireNonEmpty src "NodeId").andThen <|
          (requireNonEmpty dst "NodeId").andThen <| (requireNonEmpty label "EdgeTypeId").andThen <|
            (requireNonEmpty key "LegacyEdgePropertyKey").andThen <|
              (assertEdgeExists src dst label).andThen <|
                push (.edgePropSet src dst label key value) [encodeEdgeKey src dst label]
                  [encodeEdgeKey src dst label]

/-! ### Content and effects -/

def contentKey : JsString := lit "_content"

def contentSizeKey : JsString := lit "_content.size"

def contentMimeKey : JsString := lit "_content.mime"

def assertNodeExistsForContent (nodeId : JsString) : Call V :=
  .check fun b =>
    if b.nodesAdded.has nodeId ∨
        (b.snapshotState.any fun state => state.nodeAlive.contains nodeId) = true then .ok ()
    else .error ⟨.patchError, lit "E_PATCH_CONTENT_UNKNOWN_NODE",
      lit "Cannot attach content to unknown node '" ++ nodeId ++ lit "': add the node first"⟩

/-- The three properties that hold an attachment of a node. -/
def setNodeContent (nodeId : JsString) (payload : ContentPayload V) : Call V :=
  (setProperty nodeId contentKey payload.handle).andThen <|
    (setProperty nodeId contentSizeKey payload.size).andThen <|
      setProperty nodeId contentMimeKey payload.mime

def setEdgeContent (src dst label : JsString) (payload : ContentPayload V) : Call V :=
  (setEdgeProperty src dst label contentKey payload.handle).andThen <|
    (setEdgeProperty src dst label contentSizeKey payload.size).andThen <|
      setEdgeProperty src dst label contentMimeKey payload.mime

/-- What the asset storage answers when content is staged. -/
abbrev Staged (V : Type) := Except Failure (ContentPayload V)

def attachContent (nodeId : JsString) (staged : Staged V) : Call V :=
  assertNotCommitted.andThen <| (assertNoReservedBytes nodeId "nodeId").andThen <|
    (assertNodeExistsForContent nodeId).andThen <|
      match staged with
      | .error e => .fail e
      | .ok payload => setNodeContent nodeId payload

def clearContent (null : V) (nodeId : JsString) : Call V :=
  assertNotCommitted.andThen <| (assertNoReservedBytes nodeId "nodeId").andThen <|
    (assertNodeExistsForContent nodeId).andThen <| setNodeContent nodeId ⟨null, null, null⟩

def attachEdgeContent (src dst label : JsString) (staged : Staged V) : Call V :=
  assertNotCommitted.andThen <| (assertNoReservedBytes src "from").andThen <|
    (assertNoReservedBytes dst "to").andThen <| (assertNoReservedBytes label "label").andThen <|
      (assertEdgeExists src dst label).andThen <|
        match staged with
        | .error e => .fail e
        | .ok payload => setEdgeContent src dst label payload

def clearEdgeContent (null : V) (src dst label : JsString) : Call V :=
  assertNotCommitted.andThen <| (assertNoReservedBytes src "from").andThen <|
    (assertNoReservedBytes dst "to").andThen <| (assertNoReservedBytes label "label").andThen <|
      (assertEdgeExists src dst label).andThen <| setEdgeContent src dst label ⟨null, null, null⟩

def effectNodePrefix : JsString := lit "@warp/effect:"

def effectId (b : RecordingBuilder V) : JsString :=
  effectNodePrefix ++ b.builder.writerId.val ++ lit "-" ++ numberText b.builder.lamport.toNat ++
    lit "-" ++ numberText b.builder.ops.length

/-- `emitEffect`; `text` embeds strings into property values, and the payload is stringified. -/
def emitEffect (text : JsString → V) (kind : JsString) (payload given : Option JsString) :
    Call V :=
  assertNotCommitted.andThen <| .choose fun b =>
    if kind = [] then
      .fail ⟨.patchError, lit "E_EFFECT_INVALID_KIND",
        lit "emitEffect: kind must be a non-empty string"⟩
    else
      let id := (givenId given).getD b.effectId
      let properties : Call V := (setProperty id (lit "kind") (text kind)).andThen <|
        (setProperty id (lit "writer") (text b.builder.writerId.val)).andThen <|
          match payload with
          | none => .check fun _ => .ok ()
          | some payload => setProperty id (lit "payload") (text payload)
      (addNode id).andThen properties
where
  givenId (given : Option JsString) : Option JsString := given.filter fun id => decide (id ≠ [])

/-! ### Publication -/

/-- Every call of the builder that adds to the patch. -/
inductive BuilderCall (V : Type)
  | addNode (nodeId : JsString)
  | removeNode (nodeId : JsString)
  | addEdge (src dst label : JsString)
  | removeEdge (src dst label : JsString)
  | setProperty (nodeId key : JsString) (value : V)
  | setEdgeProperty (src dst label key : JsString) (value : V)
  | emitEffect (kind : JsString) (payload given : Option JsString)
  | attachContent (nodeId : JsString) (staged : Staged V)
  | clearContent (nodeId : JsString)
  | attachEdgeContent (src dst label : JsString) (staged : Staged V)
  | clearEdgeContent (src dst label : JsString)

/-- How strings and `null` are property values. -/
structure ValueForms (V : Type) where
  text : JsString → V
  null : V

def perform (forms : ValueForms V) : BuilderCall V → Call V
  | .addNode nodeId => addNode nodeId
  | .removeNode nodeId => removeNode nodeId
  | .addEdge src dst label => addEdge src dst label
  | .removeEdge src dst label => removeEdge src dst label
  | .setProperty nodeId key value => setProperty nodeId key value
  | .setEdgeProperty src dst label key value => setEdgeProperty src dst label key value
  | .emitEffect kind payload given => emitEffect forms.text kind payload given
  | .attachContent nodeId staged => attachContent nodeId staged
  | .clearContent nodeId => clearContent forms.null nodeId
  | .attachEdgeContent src dst label staged => attachEdgeContent src dst label staged
  | .clearEdgeContent src dst label => clearEdgeContent forms.null src dst label

/-- A builder after the calls that were made on it, those that threw included. -/
def after (forms : ValueForms V) (calls : List (BuilderCall V)) (b : RecordingBuilder V) :
    RecordingBuilder V :=
  calls.foldl (fun b call => (perform forms call b).2) b

end RecordingBuilder

/-- `encodeLegacyEdgePropNode`. -/
def encodeLegacyEdgePropNode (src dst label : JsString) : JsString :=
  edgePropPrefix :: encodeEdgeKey src dst label

/-- What a canonical operation looks like in a patch: property writes become the legacy one. -/
def lowerCanonicalOp (canonical : CanonicalOp V) : Except Failure (PatchOp V) :=
  let lower (p : PropSet V) : Except Failure (PatchOp V) :=
    match checked : p.check with
    | .error e => .error e
    | .ok () => .ok (.propSet p checked)
  match canonical.op with
  | .nodePropSet node key value => lower ⟨node, key, value⟩
  | .edgePropSet src dst label key value => lower ⟨encodeLegacyEdgePropNode src dst label, key, value⟩
  | _ => .ok (.runtime canonical)

/-- A published patch with its footprint. -/
structure ProvenancePatch (V : Type) where
  entry : PatchEntry V
  reads : List JsString
  writes : List JsString

/-- The patch reads or writes the entity. -/
def ProvenancePatch.Names (p : ProvenancePatch V) (entityId : JsString) : Prop :=
  entityId ∈ p.reads ∨ entityId ∈ p.writes

/-- `commitPatch`, with the lamport at the tip of the chain and the sha of the new commit. -/
def RecordingBuilder.commitPatch (b : RecordingBuilder V) (ownTick : Int) (sha : JsString) :
    Except Failure (ProvenancePatch V) :=
  if b.builder.ops = [] then
    .error ⟨.patchError, lit "E_PATCH_EMPTY", lit "Cannot commit empty patch: no operations added"⟩
  else do
    let rawOps ← b.builder.ops.mapM lowerCanonicalOp
    pure
      { entry := ⟨{
          writer := b.builder.writerId
          lamport := max b.builder.lamport (ownTick + 1)
          ops := rawOps
          context := .entries (b.builder.vv.entries.entries.map fun entry =>
            (entry.1, .int entry.2)) }, sha⟩
        reads := sortBy id b.observedOperands.toList
        writes := sortBy id b.writes.toList }

/-- How a patch came about: who built it, on which state, by which calls, and its commit. -/
structure PatchSession (V : Type) where
  writerId : WriterId
  lamport : Int
  vv : VersionVector
  onDeleteWithData : DeletePolicy
  snapshotState : Option (WarpState V)
  calls : List (RecordingBuilder.BuilderCall V)
  ownTick : Int
  sha : JsString
  positive : 0 < lamport
  hex : isHexOid sha = true

def PatchSession.start (session : PatchSession V) : RecordingBuilder V where
  builder := ⟨session.writerId, session.lamport, session.vv, none, [], false, 0⟩
  onDeleteWithData := session.onDeleteWithData
  snapshotState := session.snapshotState
  nodesAdded := .empty
  edgesAdded := .empty
  observedOperands := .empty
  writes := .empty

def PatchSession.publish (forms : RecordingBuilder.ValueForms V) (session : PatchSession V) :
    Except Failure (ProvenancePatch V) :=
  (session.start.after forms session.calls).commitPatch session.ownTick session.sha

/-- A patch that some builder has published. -/
def ProvenancePatch.Built (forms : RecordingBuilder.ValueForms V) (p : ProvenancePatch V) : Prop :=
  ∃ session : PatchSession V, session.publish forms = .ok p

/-! ### Operations are recorded -/

/-- Which entities of an operation a footprint has to name. -/
def Op.Recorded (observed written : JsString → Prop) : Op V → Prop
  | .nodeAdd node _ => written node
  | .nodeRemove node _ => observed node
  | .edgeAdd src dst label _ =>
    observed src ∧ observed dst ∧ written (encodeEdgeKey src dst label)
  | .edgeRemove _ _ _ _ => True
  | .nodePropSet node _ _ => observed node ∧ written node
  | .edgePropSet src dst label _ _ =>
    observed (encodeEdgeKey src dst label) ∧ written (encodeEdgeKey src dst label)
  | .blobValue _ _ => True

theorem Op.Recorded.mono {written} (more : ∀ x, observed x → observed' x)
    (further : ∀ x, written x → written' x) (op : Op V) (recorded : op.Recorded observed written) :
    op.Recorded observed' written' := by
  cases op with
  | nodeAdd node dot => exact further node recorded
  | nodeRemove node dots => exact more node recorded
  | edgeAdd src dst label dot =>
    exact ⟨more src recorded.1, more dst recorded.2.1, further _ recorded.2.2⟩
  | edgeRemove src dst label dots | blobValue node oid => trivial
  | nodePropSet node key value => exact ⟨more node recorded.1, further node recorded.2⟩
  | edgePropSet src dst label key value => exact ⟨more _ recorded.1, further _ recorded.2⟩

theorem Op.create_op (op : Op V) (ok : op.create = .ok created) : created.op = op := by
  unfold Op.create at ok
  split at ok
  · cases ok
  · cases ok
    rfl

variable (b : PatchBuilder V) (nodeId : JsString)

namespace RecordingBuilder

/-- Every operation of the builder is in its footprint, and its lamport is a possible one. -/
structure Recorded (b : RecordingBuilder V) : Prop where
  named : ∀ canonOp ∈ b.builder.ops, canonOp.op.Recorded (· ∈ b.observedOperands) (· ∈ b.writes)
  positive : 0 < b.builder.lamport

theorem Recorded.append {b : RecordingBuilder V} (recorded : b.Recorded) (builder)
    (ops : builder.ops = b.builder.ops ++ [created]) (lamport : builder.lamport = b.builder.lamport)
    (nodesAdded edgesAdded observed written)
    (named : created.op.Recorded (· ∈ observed) (· ∈ written)) :
    ({ b with builder := builder, nodesAdded := nodesAdded, edgesAdded := edgesAdded }.record
      observed written).Recorded := by
  constructor
  · intro canonOp mem
    simp only [record, ops, mem_append, mem_singleton] at mem
    rcases mem with old | rfl
    · -- both sets only grow
      apply (recorded.named canonOp old).mono
      · exact fun x inside => (OrdSet.mem_addAll _).mpr (Or.inl inside)
      · exact fun x inside => (OrdSet.mem_addAll _).mpr (Or.inl inside)
    · apply named.mono
      · exact fun x inside => (OrdSet.mem_addAll _).mpr (Or.inr inside)
      · exact fun x inside => (OrdSet.mem_addAll _).mpr (Or.inr inside)
  · simp only [record, lamport]
    exact recorded.positive

theorem Recorded.spent {b : RecordingBuilder V} (recorded : b.Recorded) {builder}
    (ops : builder.ops = b.builder.ops) (lamport : builder.lamport = b.builder.lamport) :
    ({ b with builder := builder } : RecordingBuilder V).Recorded := by
  constructor
  · dsimp only
    rw [ops]
    exact recorded.named
  · dsimp only
    rw [lamport]
    exact recorded.positive

theorem keeps_push {op : Op V} (named : op.Recorded (· ∈ observed) (· ∈ written)) :
    Attempt.Keeps Recorded (push op observed written) := by
  refine ⟨fun b recorded => ?_⟩
  unfold push
  split
  · exact recorded
  next created ok =>
    have own : created.op.Recorded (· ∈ observed) (· ∈ written) := by
      rw [op.create_op ok]
      exact named
    exact recorded.append { b.builder with ops := b.builder.ops ++ [created] } rfl rfl
      b.nodesAdded b.edgesAdded observed written own

theorem pushAdd_ops :
    ((∃ e, (b.pushAdd op).1 = .error e) ∧ (b.pushAdd op).2.ops = b.ops) ∨
      ∃ created, (b.pushAdd op).1 = .ok () ∧ (b.pushAdd op).2.ops = b.ops ++ [created] ∧
        created.op = op b.nextDot.1 := by
  unfold PatchBuilder.pushAdd
  split
  next created ok => exact Or.inr ⟨created, rfl, rfl, (op b.nextDot.1).create_op ok⟩
  next e failed => exact Or.inl ⟨⟨e, rfl⟩, rfl⟩

@[simp] theorem pushAdd_lamport (op) : (b.pushAdd op).2.lamport = b.lamport := by
  unfold PatchBuilder.pushAdd
  split <;> rfl

@[simp] theorem addNode_lamport : (b.addNode nodeId).2.lamport = b.lamport := by
  unfold PatchBuilder.addNode
  dsimp only
  split <;> simp

@[simp] theorem addEdge_lamport (src dst label) :
    (b.addEdge src dst label).2.lamport = b.lamport := by
  unfold PatchBuilder.addEdge
  dsimp only
  split <;> simp

theorem addNode_ops :
    ((∃ e, (b.addNode nodeId).1 = .error e) ∧ (b.addNode nodeId).2.ops = b.ops) ∨
      ∃ created dot, (b.addNode nodeId).1 = .ok () ∧
        (b.addNode nodeId).2.ops = b.ops ++ [created] ∧ created.op = .nodeAdd nodeId dot := by
  unfold PatchBuilder.addNode
  dsimp only
  split
  next e refused => exact Or.inl ⟨⟨e, rfl⟩, rfl⟩
  next =>
    rcases pushAdd_ops b with failed | ⟨created, ok, ops, op⟩
    · exact Or.inl failed
    · exact Or.inr ⟨created, b.nextDot.1, ok, ops, op⟩

theorem addEdge_ops (src dst label) :
    ((∃ e, (b.addEdge src dst label).1 = .error e) ∧ (b.addEdge src dst label).2.ops = b.ops) ∨
      ∃ created dot, (b.addEdge src dst label).1 = .ok () ∧
        (b.addEdge src dst label).2.ops = b.ops ++ [created] ∧
        created.op = .edgeAdd src dst label dot := by
  unfold PatchBuilder.addEdge
  dsimp only
  split
  next e refused => exact Or.inl ⟨⟨e, rfl⟩, rfl⟩
  next =>
    rcases pushAdd_ops b with failed | ⟨created, ok, ops, op⟩
    · exact Or.inl failed
    · exact Or.inr ⟨created, b.nextDot.1, ok, ops, op⟩

theorem keeps_addNode : Attempt.Keeps Recorded (addNode nodeId : Call V) := by
  refine ⟨fun b recorded => ?_⟩
  have pushed := addNode_ops b.builder nodeId
  have lamport := addNode_lamport b.builder nodeId
  unfold addNode
  split
  next e builder ran =>
    rw [ran] at pushed lamport
    rcases pushed with ⟨-, ops⟩ | ⟨_, _, ok, -⟩
    · -- the dot is spent, and no operation was pushed
      exact recorded.spent ops lamport
    · cases ok
  next builder ran =>
    rw [ran] at pushed lamport
    rcases pushed with ⟨⟨_, failed⟩, -⟩ | ⟨created, dot, -, ops, op⟩
    · cases failed
    · apply recorded.append builder ops lamport
      rw [op]
      exact mem_singleton_self nodeId

theorem keeps_addEdge : Attempt.Keeps Recorded (addEdge src dst label : Call V) := by
  refine ⟨fun b recorded => ?_⟩
  have pushed := addEdge_ops b.builder src dst label
  have lamport := addEdge_lamport b.builder src dst label
  unfold addEdge
  split
  next e builder ran =>
    rw [ran] at pushed lamport
    rcases pushed with ⟨-, ops⟩ | ⟨_, _, ok, -⟩
    · exact recorded.spent ops lamport
    · cases ok
  next builder ran =>
    rw [ran] at pushed lamport
    rcases pushed with ⟨⟨_, failed⟩, -⟩ | ⟨created, dot, -, ops, op⟩
    · cases failed
    · apply recorded.append builder ops lamport
      rw [op]
      exact ⟨by simp, by simp, by simp⟩

theorem keeps_removeNode : Attempt.Keeps Recorded (removeNode nodeId : Call V) := by
  apply Attempt.keeps_check.andThen
  apply Attempt.Keeps.choose
  intro b
  split
  · exact Attempt.keeps_fail
  next state _ =>
    have removal : Attempt.Keeps Recorded ((assertObservedDotsForRemove
        (state.nodeAlive.getDots nodeId).toList (lit "node") nodeId).andThen
          (push (.nodeRemove nodeId (state.nodeAlive.getDots nodeId).toList) [nodeId] []) :
            Call V) :=
      Attempt.keeps_check.andThen (keeps_push (mem_singleton_self nodeId))
    apply Attempt.Keeps.andThen _ removal
    split
    · apply Attempt.Keeps.forEach
      exact fun edgeKey => keeps_push trivial
    · exact Attempt.keeps_check
    · exact Attempt.keeps_check

theorem keeps_removeEdge : Attempt.Keeps Recorded (removeEdge src dst label : Call V) := by
  apply Attempt.keeps_check.andThen
  apply Attempt.Keeps.choose
  intro b
  split
  · exact Attempt.keeps_fail
  · exact Attempt.keeps_check.andThen (keeps_push trivial)

theorem keeps_setProperty {value : V} : Attempt.Keeps Recorded (setProperty nodeId key value) := by
  repeat apply Attempt.keeps_check.andThen
  exact keeps_push ⟨mem_singleton_self nodeId, mem_singleton_self nodeId⟩

theorem keeps_setEdgeProperty {value : V} :
    Attempt.Keeps Recorded (setEdgeProperty src dst label key value) := by
  repeat apply Attempt.keeps_check.andThen
  exact keeps_push ⟨mem_singleton_self _, mem_singleton_self _⟩

theorem keeps_setNodeContent {payload : ContentPayload V} :
    Attempt.Keeps Recorded (setNodeContent nodeId payload) :=
  (keeps_setProperty nodeId).andThen <|
    (keeps_setProperty nodeId).andThen <|
      keeps_setProperty nodeId

theorem keeps_setEdgeContent {payload : ContentPayload V} :
    Attempt.Keeps Recorded (setEdgeContent src dst label payload) :=
  keeps_setEdgeProperty.andThen <|
    keeps_setEdgeProperty.andThen <|
      keeps_setEdgeProperty

theorem keeps_emitEffect {text : JsString → V} :
    Attempt.Keeps Recorded (emitEffect text kind payload given) := by
  apply Attempt.keeps_check.andThen
  apply Attempt.Keeps.choose
  intro b
  split
  · exact Attempt.keeps_fail
  · apply (keeps_addNode _).andThen
    apply (keeps_setProperty _).andThen
    apply (keeps_setProperty _).andThen
    cases payload with
    | none => exact Attempt.keeps_check
    | some payload => exact keeps_setProperty _

theorem keeps_perform {call : BuilderCall V} : Attempt.Keeps Recorded (perform forms call) := by
  -- every call records the operations that it pushes
  unfold perform
  cases call with
  | addNode nodeId => exact keeps_addNode nodeId
  | removeNode nodeId => exact keeps_removeNode nodeId
  | addEdge src dst label => exact keeps_addEdge
  | removeEdge src dst label => exact keeps_removeEdge
  | setProperty nodeId key value => exact keeps_setProperty nodeId
  | setEdgeProperty src dst label key value => exact keeps_setEdgeProperty
  | emitEffect kind payload given => exact keeps_emitEffect
  | attachContent nodeId staged =>
    repeat apply Attempt.keeps_check.andThen
    cases staged with
    | error e => exact Attempt.keeps_fail
    | ok payload => exact keeps_setNodeContent nodeId
  | clearContent nodeId =>
    repeat apply Attempt.keeps_check.andThen
    exact keeps_setNodeContent nodeId
  | attachEdgeContent src dst label staged =>
    repeat apply Attempt.keeps_check.andThen
    cases staged with
    | error e => exact Attempt.keeps_fail
    | ok payload => exact keeps_setEdgeContent
  | clearEdgeContent src dst label =>
    repeat apply Attempt.keeps_check.andThen
    exact keeps_setEdgeContent

theorem recorded_after (forms calls) (b : RecordingBuilder V) (recorded : b.Recorded) :
    (b.after forms calls).Recorded := by
  induction calls generalizing b with
  | nil => exact recorded
  | cons call rest ih => exact ih _ (keeps_perform.kept b recorded)

end RecordingBuilder

end GitWarp
