import GitWarp.Codec.CborCodec
import GitWarp.Lib.Agree
import GitWarp.State.ValueEquality
import GitWarp.Index.Coherence

/-!
# The property index

Visible properties are regrouped by shard and by node. The legacy schema stores the
properties of a node as a record, the current one as a list of entries; the codec
sorts the keys of records. A reader refuses a shard that is not well formed.
-/
namespace GitWarp

open Js Lib

/-- What the value of a property is: data that a register accepts, with distinct keys in
every object. -/
abbrev IndexedValue :=
  {data : JsData // isPropValue data = true ∧ data.distinctKeys = true}

namespace PropertyIndex

open IndexTree (isIndexableName)

abbrev Bytes := List Cbor.Byte

/-! ### The builder -/

/-- The schema versions 1 and 2. -/
inductive SchemaVersion
  | legacy
  | current
  deriving DecidableEq

/-- A record without a prototype, so that every key is an own property. -/
abbrev PropertyBag := OrdMap JsString IndexedValue

/-- How an index writes its shards: the schema, the shard of a node, and the limits that
the bytes of a shard are checked against when they are written and when they are read. -/
structure Profile where
  schemaVersion : SchemaVersion
  shardKey : JsString → JsString
  accepts : Bytes → Except Failure Unit

/-- The profile of `LogicalIndexBuildService`. -/
def legacyProfile : Profile :=
  ⟨.legacy, fun nodeId => shardText (computeShardKey nodeId), fun _ => .ok ()⟩

/-- The profile of a retained property root, over the hash that routes elements. -/
def retainedProfile (routeKeyHex : JsString → JsString) (accepts : Bytes → Except Failure Unit) :
    Profile := ⟨.current, routeKeyHex, accepts⟩

/-- `PropertyIndexBuilder`: shard key, then node, then properties. -/
abbrev PropertyIndexBuilder := OrdMap JsString (OrdMap JsString PropertyBag)

def addProperty (profile : Profile) (b : PropertyIndexBuilder) (nodeId key : JsString)
    (value : IndexedValue) : PropertyIndexBuilder :=
  let shardKey := profile.shardKey nodeId
  let shard := (b.get shardKey).getD .empty
  let nodeProps := (shard.get nodeId).getD .empty
  b.set shardKey (shard.set nodeId (nodeProps.set key value))

structure PropertyShard where
  shardKey : JsString
  schemaVersion : SchemaVersion
  entries : List (JsString × PropertyBag)

def yieldShards (profile : Profile) (b : PropertyIndexBuilder) : List PropertyShard :=
  b.entries.map fun entry =>
    ⟨entry.1, profile.schemaVersion, sortBy Prod.fst entry.2.entries⟩

/-- The builder after all properties that the state shows. -/
def buildPropertyIndex (profile : Profile) (s : WarpState IndexedValue) : PropertyIndexBuilder :=
  (visibleProps s).foldl (fun b p => addProperty profile b p.node p.key p.value) .empty

/-! ### Writing -/

def bagEntries (bag : PropertyBag) : List (JsString × JsData) :=
  bag.entries.map fun entry => (entry.1, entry.2.val)

/-- One property as an array of its key and its value. -/
def pairData (entry : JsString × JsData) : JsData := .array [.string entry.1, entry.2]

def bagData : SchemaVersion → PropertyBag → JsData
  | .legacy, bag => .object (bagEntries bag)
  | .current, bag => .array ((sortBy Prod.fst (bagEntries bag)).map pairData)

def entryData (version : SchemaVersion) (entry : JsString × PropertyBag) : JsData :=
  .array [.string entry.1, bagData version entry.2]

def propertyShardPayload (shard : PropertyShard) : JsData :=
  let entries := .array (shard.entries.map (entryData shard.schemaVersion))
  match shard.schemaVersion with
  | .legacy => entries
  | .current => .object [(lit "schemaVersion", numberData 2), (lit "entries", entries)]

def shardPath (shardKey : JsString) : JsString := lit "props_" ++ shardKey ++ lit ".cbor"

/-- `encode` and `decode` of the library behind the codec. What it decodes has no own key
`__proto__`, an array is decoded as an array, and data without that key is given back. -/
structure CborLibrary extends CborX where
  decode : Bytes → Except Failure JsData
  ownKeys : ∀ bytes data, decode bytes = .ok data → hasOwnKeys data = true
  arrays : ∀ items bytes data, encode (.array items) = .ok bytes → decode bytes = .ok data →
    ∃ items', data = .array items'
  roundTrip : ∀ data bytes, hasOwnKeys data = true → encode (sortKeys data) = .ok bytes →
    decode bytes = .ok (sortKeys data)

variable (codec : CborLibrary) (profile : Profile)

def encodeShard (shard : PropertyShard) : Except Failure (JsString × Bytes) := do
  let bytes ← codec.encodeSorted (propertyShardPayload shard)
  profile.accepts bytes
  pure (shardPath shard.shardKey, bytes)

/-- The shards of the index of a state, by their paths. -/
def writeShards (s : WarpState IndexedValue) : Except Failure (OrdMap JsString Bytes) := do
  let members ← (yieldShards profile (buildPropertyIndex profile s)).mapM (encodeShard codec profile)
  pure (OrdMap.ofList members)

/-! ### Reading -/

abbrev IndexedPropertyBag := OrdMap JsString JsData

abbrev DecodedShard := OrdMap JsString IndexedPropertyBag

def malformedPropertyShard (path : JsString) (reason : String) : Failure :=
  ⟨.indexError, lit "E_INDEX_SHARD_MALFORMED",
    lit "PropertyIndexReader: invalid shard '" ++ path ++ lit "' (" ++ lit reason ++ lit ")"⟩

def isIndexedEntry (entry : JsString × JsData) : Bool :=
  isIndexableName entry.1 && isPropValue entry.2

def addPropertyBagEntry (path : JsString) (bag : IndexedPropertyBag) :
    JsData → Except Failure IndexedPropertyBag
  | .array [.string key, value] =>
    if !isIndexedEntry (key, value) then
      .error (malformedPropertyShard path "invalid property entry")
    else if bag.has key then .error (malformedPropertyShard path "duplicate property entry")
    else .ok (bag.set key value)
  | _ => .error (malformedPropertyShard path "invalid property entry")

def createPropertyBag (path : JsString) (entries : List JsData) :
    Except Failure IndexedPropertyBag :=
  entries.foldlM (addPropertyBagEntry path) .empty

def decodePropertyBag (path : JsString) : SchemaVersion → JsData → Except Failure IndexedPropertyBag
  | .legacy, .object entries =>
    if entries.all isIndexedEntry then createPropertyBag path (entries.map pairData)
    else .error (malformedPropertyShard path "legacy property bag must be an object")
  | .legacy, _ => .error (malformedPropertyShard path "legacy property bag must be an object")
  | .current, .array entries => createPropertyBag path entries
  | .current, _ =>
    .error (malformedPropertyShard path "current property bag must be an entry array")

def addPropertyShardEntry (path : JsString) (version : SchemaVersion) (data : DecodedShard) :
    JsData → Except Failure DecodedShard
  | .array [.string nodeId, bag] =>
    if !isIndexableName nodeId then .error (malformedPropertyShard path "invalid node entry")
    else if data.has nodeId then .error (malformedPropertyShard path "duplicate node entry")
    else do
      let decoded ← decodePropertyBag path version bag
      pure (data.set nodeId decoded)
  | _ => .error (malformedPropertyShard path "invalid node entry")

/-- The envelope of the current schema has its two keys and no other. -/
def decodeCurrentPropertyShardPayload (path : JsString) (fields : List (JsString × JsData)) :
    Except Failure (SchemaVersion × List JsData) :=
  if sortBy id (fields.map Prod.fst) ≠ [lit "entries", lit "schemaVersion"] then
    .error (malformedPropertyShard path "invalid current property shard envelope")
  else
    match assocGet fields (lit "schemaVersion"), assocGet fields (lit "entries") with
    | some (.number version), some entries =>
      if version ≠ .int 2 then
        .error (malformedPropertyShard path "unsupported property shard schema version")
      else
        match entries with
        | .array entries => .ok (.current, entries)
        | _ => .error
          (malformedPropertyShard path "current property shard entries must be an array")
    | _, _ => .error (malformedPropertyShard path "unsupported property shard schema version")

def decodePropertyShardPayload (path : JsString) : JsData →
    Except Failure (SchemaVersion × List JsData)
  | .array entries => .ok (.legacy, entries)
  | .object fields => decodeCurrentPropertyShardPayload path fields
  | _ => .error
    (malformedPropertyShard path "expected a legacy entry array or current schema envelope")

def decodePropertyShardArtifact (path : JsString) (decoded : JsData) :
    Except Failure DecodedShard := do
  let payload ← decodePropertyShardPayload path decoded
  payload.2.foldlM (addPropertyShardEntry path payload.1) .empty

/-- `decodePropertyShard`: every node of a shard is routed to it. -/
def decodePropertyShard (path : JsString) (decoded : JsData) : Except Failure DecodedShard := do
  let data ← decodePropertyShardArtifact path decoded
  if data.keys.all fun nodeId => decide (path = shardPath (profile.shardKey nodeId)) then pure data
  else .error (malformedPropertyShard path "node entry belongs to another shard")

/-- The bytes of a shard as the reader takes them. -/
def readShard (path : JsString) (bytes : Bytes) : Except Failure DecodedShard := do
  profile.accepts bytes
  requireBoundedCbor bytes
  let decoded ← codec.decode bytes
  decodePropertyShard profile path decoded

def getNodeProps (tree : OrdMap JsString Bytes) (nodeId : JsString) :
    Except Failure (Option IndexedPropertyBag) :=
  let path := shardPath (profile.shardKey nodeId)
  match tree.get path with
  | none => .ok none
  | some bytes => do
    let shard ← readShard codec profile path bytes
    pure (shard.get nodeId)

def getProperty (tree : OrdMap JsString Bytes) (nodeId key : JsString) :
    Except Failure (Option JsData) := do
  let props ← getNodeProps codec profile tree nodeId
  pure (props.bind fun bag => bag.get key)

end PropertyIndex
end GitWarp
