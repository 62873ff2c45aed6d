import GitWarp.Crdt.LWW
import GitWarp.Crdt.VersionVector

/-!
# Patch operations

The operations of a patch as its runtime classes hold them, the checks their
constructors make, and the normalization of decoded operations into canonical
ones. A decoded operation that lacks an identity passes through unhydrated; the
reducers skip it.
-/
namespace GitWarp

open Js Lib

/-! ### Keys -/

namespace KeyCodec

def fieldSeparator : CodeUnit := 0

def edgePropPrefix : CodeUnit := 1

def encodeEdgeKey (src dst label : JsString) : JsString :=
  src ++ fieldSeparator :: (dst ++ fieldSeparator :: label)

structure EdgeParts where
  src : JsString
  dst : JsString
  label : JsString
  deriving DecidableEq

def decodeEdgeKey (key : JsString) : EdgeParts :=
  let parts := split fieldSeparator key
  ⟨parts.getD 0 [], parts.getD 1 [], parts.getD 2 []⟩

def encodePropKey (nodeId propKey : JsString) : JsString := nodeId ++ fieldSeparator :: propKey

def encodeEdgePropKey (src dst label propKey : JsString) : JsString :=
  edgePropPrefix :: (encodeEdgeKey src dst label ++ fieldSeparator :: propKey)

def isLegacyEdgePropNode (node : JsString) : Bool := node.head? = some edgePropPrefix

def decodeLegacyEdgePropNode (node : JsString) : Except Failure EdgeParts :=
  if isLegacyEdgePropNode node then
    match split fieldSeparator (node.drop 1) with
    | [src, dst, label] =>
      if src = [] ∨ dst = [] ∨ label = [] then
        .error ⟨.warpError, lit "E_KEYCODEC_LEGACY_EMPTY_SEGMENT",
          lit "Invalid legacy edge-property node: empty segment in decoded parts"⟩
      else .ok ⟨src, dst, label⟩
    | parts =>
      .error ⟨.warpError, lit "E_KEYCODEC_LEGACY_BAD_SEGMENTS",
        lit "Invalid legacy edge-property node: expected 3 segments, got " ++
          numberText parts.length⟩
  else
    .error ⟨.warpError, lit "E_KEYCODEC_LEGACY_NO_PREFIX",
      lit "Invalid legacy edge-property node: missing \\x01 prefix"⟩

end KeyCodec

open KeyCodec

variable {V : Type}

/-! ### Runtime operations -/

/-- A canonical operation. Edge operations name their endpoints and label. -/
inductive Op (V : Type)
  | nodeAdd (node : JsString) (dot : Dot)
  | nodeRemove (node : JsString) (observedDots : List JsString)
  | edgeAdd (src dst label : JsString) (dot : Dot)
  | edgeRemove (src dst label : JsString) (observedDots : List JsString)
  | nodePropSet (node key : JsString) (value : V)
  | edgePropSet (src dst label key : JsString) (value : V)
  | blobValue (node oid : JsString)
  deriving DecidableEq

def assertNonEmptyString (opName : String) (field : JsString) (value : JsString) :
    Except Failure Unit :=
  if value = [] then
    .error (patchError (lit opName ++ lit " requires '" ++ field ++ lit "' to be a non-empty string"))
  else .ok ()

def assertNoReservedBytes (opName field : String) (value : JsString) : Except Failure Unit :=
  if fieldSeparator ∈ value then
    .error (patchError (lit opName ++ lit " '" ++ lit field ++
      lit "' must not contain NUL (\\x00) bytes"))
  else if value.head? = some edgePropPrefix then
    .error (patchError (lit opName ++ lit " '" ++ lit field ++
      lit "' must not start with reserved prefix \\x01"))
  else .ok ()

/-- The loop over `observedDots`, which names the index in its message. -/
def assertObservedDots (opName : String) : Nat → List JsString → Except Failure Unit
  | _, [] => .ok ()
  | i, dot :: rest => do
    assertNonEmptyString opName (lit "observedDots[" ++ numberText i ++ lit "]") dot
    assertObservedDots opName (i + 1) rest

/-- Both endpoints and the label: first non-empty, then free of reserved bytes. -/
def assertEdge (opName : String) (src dst label : JsString) : Except Failure Unit := do
  assertNonEmptyString opName (lit "from") src
  assertNonEmptyString opName (lit "to") dst
  assertNonEmptyString opName (lit "label") label
  assertNoReservedBytes opName "from" src
  assertNoReservedBytes opName "to" dst
  assertNoReservedBytes opName "label" label

/-- The checks of the operation's constructor, in its order. -/
def Op.check : Op V → Except Failure Unit
  | .nodeAdd node _ => do
    assertNonEmptyString "NodeAdd" (lit "node") node
    assertNoReservedBytes "NodeAdd" "node" node
  | .nodeRemove node observedDots => do
    assertNonEmptyString "NodeRemove" (lit "node") node
    assertNoReservedBytes "NodeRemove" "node" node
    assertObservedDots "NodeRemove" 0 observedDots
  | .edgeAdd src dst label _ => assertEdge "EdgeAdd" src dst label
  | .edgeRemove src dst label observedDots => do
    assertEdge "EdgeRemove" src dst label
    assertObservedDots "EdgeRemove" 0 observedDots
  | .nodePropSet node key _ => do
    assertNonEmptyString "NodePropSet" (lit "node") node
    assertNonEmptyString "NodePropSet" (lit "key") key
    assertNoReservedBytes "NodePropSet" "node" node
    assertNoReservedBytes "NodePropSet" "key" key
  | .edgePropSet src dst label key _ => do
    assertNonEmptyString "EdgePropSet" (lit "from") src
    assertNonEmptyString "EdgePropSet" (lit "to") dst
    assertNonEmptyString "EdgePropSet" (lit "label") label
    assertNonEmptyString "EdgePropSet" (lit "key") key
    assertNoReservedBytes "EdgePropSet" "from" src
    assertNoReservedBytes "EdgePropSet" "to" dst
    assertNoReservedBytes "EdgePropSet" "label" label
    assertNoReservedBytes "EdgePropSet" "key" key
  | .blobValue node oid => do
    assertNonEmptyString "BlobValue" (lit "node") node
    assertNonEmptyString "BlobValue" (lit "oid") oid
    assertNoReservedBytes "BlobValue" "node" node

theorem sampleWrite_check : (Op.nodePropSet (lit "n") (lit "k") 7 : Op Nat).check = .ok () := by
  decide

/-- An operation that its constructor accepted. -/
structure CanonicalOp (V : Type) where
  op : Op V
  checked : op.check = .ok ()

/-- Runs the constructor of an operation. -/
def Op.create (op : Op V) : Except Failure (CanonicalOp V) :=
  match checked : op.check with
  | .error e => .error e
  | .ok () => .ok ⟨op, checked⟩

/-- The legacy property write, whose node may carry an encoded edge. -/
structure PropSet (V : Type) where
  node : JsString
  key : JsString
  value : V

def PropSet.check (p : PropSet V) : Except Failure Unit := do
  assertNonEmptyString "PropSet" (lit "node") p.node
  assertNonEmptyString "PropSet" (lit "key") p.key
  assertNoReservedBytes "PropSet" "key" p.key

/-! ### Decoded operations -/

structure RawDotLike where
  writerId : Option JsString
  counter : Option JsNumber

inductive DotLike
  | dot (dot : Dot)
  | raw (fields : RawDotLike)

/-- A decoded operation: a type and whatever fields came with it. -/
structure OpLike (V : Type) where
  type : JsString
  node : Option JsString
  dot : Option DotLike
  observedDots : Option (List JsString)
  src : Option JsString
  dst : Option JsString
  label : Option JsString
  key : Option JsString
  value : V
  oid : Option JsString

/-- What a patch may list: an instance of a runtime class, or a decoded operation. -/
inductive PatchOp (V : Type)
  | runtime (op : CanonicalOp V)
  | propSet (p : PropSet V) (checked : p.check = .ok ())
  | decoded (rawOp : OpLike V)

def requiresField (opType field expected actual : JsString) : Failure :=
  patchError (opType ++ lit " op requires '" ++ field ++ lit "' to be " ++ expected ++
    lit ", got " ++ actual)

def expectString (value : Option JsString) (opType : JsString) (field : String) :
    Except Failure JsString :=
  match value with
  | some text => .ok text
  | none => .error (requiresField opType (lit field) (lit "a string") (lit "undefined"))

def expectObservedDots (value : Option (List JsString)) (opType : JsString) :
    Except Failure (List JsString) :=
  match value with
  | some dots => .ok dots
  | none => .error (requiresField opType (lit "observedDots") (lit "iterable") (lit "undefined"))

def expectDotCounter (counter : Option JsNumber) (opType : JsString) : Except Failure Int :=
  match counter with
  | some (.int value) => .ok value
  | some (.other _) =>
    .error (requiresField opType (lit "dot.counter") (lit "an integer") (lit "number"))
  | none =>
    .error (requiresField opType (lit "dot.counter") (lit "an integer") (lit "undefined"))

def hydrateDot (dot : Option DotLike) (opType : JsString) : Except Failure Dot :=
  match dot with
  | some (.dot dot) => .ok dot
  | some (.raw fields) => do
    let writerId ← expectString fields.writerId opType "dot.writerId"
    let counter ← expectDotCounter fields.counter opType
    Dot.create writerId counter
  | none =>
    .error (requiresField opType (lit "dot") (lit "a Dot-compatible object") (lit "undefined"))

/-- The operation types with a hydrator. They are also the types the reducer knows. -/
inductive OpType
  | nodeAdd | nodeRemove | edgeAdd | edgeRemove | propSet | nodePropSet | edgePropSet | blobValue
  deriving DecidableEq

def OpType.name : OpType → JsString
  | .nodeAdd => lit "NodeAdd"
  | .nodeRemove => lit "NodeRemove"
  | .edgeAdd => lit "EdgeAdd"
  | .edgeRemove => lit "EdgeRemove"
  | .propSet => lit "PropSet"
  | .nodePropSet => lit "NodePropSet"
  | .edgePropSet => lit "EdgePropSet"
  | .blobValue => lit "BlobValue"

def OpType.all : List OpType :=
  [.nodeAdd, .nodeRemove, .edgeAdd, .edgeRemove, .propSet, .nodePropSet, .edgePropSet, .blobValue]

def OpType.ofName (type : JsString) : Option OpType := OpType.all.find? fun t => t.name = type

def normalizePropSet (p : PropSet V) : Except Failure (CanonicalOp V) :=
  if isLegacyEdgePropNode p.node then do
    let edge ← decodeLegacyEdgePropNode p.node
    (Op.edgePropSet edge.src edge.dst edge.label p.key p.value).create
  else (Op.nodePropSet p.node p.key p.value).create

/-- Hydrates and normalizes a decoded operation of a known type. `none` is an
operation that passes through without an identity. -/
def hydrateDecodedOp (type : OpType) (raw : OpLike V) : Except Failure (Option (CanonicalOp V)) :=
  match type with
  | .nodeAdd => do
    let node ← expectString raw.node raw.type "node"
    let dot ← hydrateDot raw.dot raw.type
    some <$> (Op.nodeAdd node dot).create
  | .nodeRemove =>
    match raw.node with
    | none => .ok none
    | some node => do
      let dots ← expectObservedDots raw.observedDots raw.type
      some <$> (Op.nodeRemove node dots).create
  | .edgeAdd => do
    let src ← expectString raw.src raw.type "from"
    let dst ← expectString raw.dst raw.type "to"
    let label ← expectString raw.label raw.type "label"
    let dot ← hydrateDot raw.dot raw.type
    some <$> (Op.edgeAdd src dst label dot).create
  | .edgeRemove =>
    match raw.src, raw.dst, raw.label with
    | some src, some dst, some label => do
      let dots ← expectObservedDots raw.observedDots raw.type
      some <$> (Op.edgeRemove src dst label dots).create
    | _, _, _ => .ok none
  | .propSet => do
    let node ← expectString raw.node raw.type "node"
    let key ← expectString raw.key raw.type "key"
    let p : PropSet V := ⟨node, key, raw.value⟩
    p.check
    some <$> normalizePropSet p
  | .nodePropSet =>
    match raw.node, raw.key with
    | some node, some key => some <$> (Op.nodePropSet node key raw.value).create
    | _, _ => .ok none
  | .edgePropSet =>
    match raw.src, raw.dst, raw.label, raw.key with
    | some src, some dst, some label, some key =>
      some <$> (Op.edgePropSet src dst label key raw.value).create
    | _, _, _, _ => .ok none
  | .blobValue =>
    match raw.node, raw.oid with
    | some node, some oid => some <$> (Op.blobValue node oid).create
    | _, _ => .ok none

/-- `normalizeRawOp`: an unknown type passes through unhydrated. -/
def normalizeRawOp : PatchOp V → Except Failure (Option (CanonicalOp V))
  | .runtime op => .ok (some op)
  | .propSet p _ => some <$> normalizePropSet p
  | .decoded raw =>
    match OpType.ofName raw.type with
    | some type => hydrateDecodedOp type raw
    | none => .ok none

/-- `assertKnownReducerOp`. -/
def assertKnownReducerOp : PatchOp V → Except Failure Unit
  | .runtime _ => .ok ()
  | .propSet _ _ => .ok ()
  | .decoded raw =>
    if (OpType.ofName raw.type).isSome then .ok ()
    else .error ⟨.patchError, lit "E_PATCH_UNKNOWN_OP", lit "Unknown patch op type: " ++ raw.type⟩

/-! ### What the checks guarantee -/

/-- An identifier that every operation accepts. -/
structure ValidId (text : JsString) : Prop where
  nonempty : text ≠ []
  separated : fieldSeparator ∉ text
  unprefixed : text.head? ≠ some edgePropPrefix

theorem assertNonEmptyString_ok {field} :
    assertNonEmptyString opName field value = .ok () ↔ value ≠ [] := by
  unfold assertNonEmptyString
  split <;> simp_all

theorem assertNoReservedBytes_ok (opName field value) :
    assertNoReservedBytes opName field value = .ok () ↔
      fieldSeparator ∉ value ∧ value.head? ≠ some edgePropPrefix := by
  unfold assertNoReservedBytes
  split
  · simp_all
  · split <;> simp_all

theorem assertEdge_ok :
    assertEdge opName src dst label = .ok () ↔ ValidId src ∧ ValidId dst ∧ ValidId label := by
  simp only [assertEdge, check_then_eq_ok, assertNonEmptyString_ok, assertNoReservedBytes_ok]
  constructor
  · rintro ⟨a, b, c, d, e, f⟩
    exact ⟨⟨a, d.1, d.2⟩, ⟨b, e.1, e.2⟩, ⟨c, f.1, f.2⟩⟩
  · rintro ⟨a, b, c⟩
    exact ⟨a.nonempty, b.nonempty, c.nonempty, ⟨a.separated, a.unprefixed⟩,
      ⟨b.separated, b.unprefixed⟩, ⟨c.separated, c.unprefixed⟩⟩

/-- The identifiers of an operation that its constructor checks in full. -/
def Op.ids : Op V → List JsString
  | .nodeAdd node _ => [node]
  | .nodeRemove node _ => [node]
  | .edgeAdd src dst label _ => [src, dst, label]
  | .edgeRemove src dst label _ => [src, dst, label]
  | .nodePropSet node key _ => [node, key]
  | .edgePropSet src dst label key _ => [src, dst, label, key]
  | .blobValue node _ => [node]

theorem CanonicalOp.validIds (canonical : CanonicalOp V) : ∀ id ∈ canonical.op.ids, ValidId id := by
  obtain ⟨op, checked⟩ := canonical
  cases op <;> simp only [Op.check, check_then_eq_ok, assertEdge_ok, assertNonEmptyString_ok,
    assertNoReservedBytes_ok] at checked <;> simp only [Op.ids, List.forall_mem_cons]
  case nodeAdd => exact ⟨⟨checked.1, checked.2.1, checked.2.2⟩, by simp⟩
  case nodeRemove => exact ⟨⟨checked.1, checked.2.1.1, checked.2.1.2⟩, by simp⟩
  case edgeAdd => exact ⟨checked.1, checked.2.1, checked.2.2, by simp⟩
  case edgeRemove => exact ⟨checked.1.1, checked.1.2.1, checked.1.2.2, by simp⟩
  case nodePropSet =>
    obtain ⟨node, key, freeNode, freeKey⟩ := checked
    exact ⟨⟨node, freeNode.1, freeNode.2⟩, ⟨key, freeKey.1, freeKey.2⟩, by simp⟩
  case edgePropSet =>
    obtain ⟨a, b, c, d, freeA, freeB, freeC, freeD⟩ := checked
    exact ⟨⟨a, freeA.1, freeA.2⟩, ⟨b, freeB.1, freeB.2⟩, ⟨c, freeC.1, freeC.2⟩,
      ⟨d, freeD.1, freeD.2⟩, by simp⟩
  case blobValue => exact ⟨⟨checked.1, checked.2.2.1, checked.2.2.2⟩, by simp⟩

theorem decodeEdgeKey_encodeEdgeKey (validSrc : ValidId src) (validDst : ValidId dst)
    (validLabel : ValidId label) :
    decodeEdgeKey (encodeEdgeKey src dst label) = ⟨src, dst, label⟩ := by
  simp only [decodeEdgeKey, encodeEdgeKey]
  rw [split_append_cons _ validSrc.separated, split_append_cons _ validDst.separated,
    split_of_not_mem validLabel.separated]
  rfl

end GitWarp
