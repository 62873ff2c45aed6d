import GitWarp.Codec.PropValue
import GitWarp.Provenance.Footprint

/-!
# Patches as plain data

A patch is an instance of a class that lists instances of other classes; to the
codec all of them are objects with their own fields. What such an object holds
besides property values is flat, and none of its keys is lost when the keys are
sorted.
-/
namespace GitWarp

open Js Lib KeyCodec List

/-! ### Patches as plain data -/

def numberData (value : Int) : JsData := .number (.int value)

def stringsData (texts : List JsString) : JsData := .array (texts.map .string)

def dotData (dot : Dot) : JsData :=
  .object [(lit "writerId", .string dot.writerId), (lit "counter", numberData dot.counter)]

/-- The fields of an instance of an operation class: those of its base class first. -/
def opData (type receiptName : String) (scope : Int) (fields : List (JsString × JsData)) :
    JsData :=
  .object ([(lit "type", .string (lit type)), (lit "scope", numberData scope),
    (lit "receiptName", .string (lit receiptName))] ++ fields)

def edgeFields (src dst label : JsString) : List (JsString × JsData) :=
  [(lit "from", .string src), (lit "to", .string dst), (lit "label", .string label)]

def Op.data : Op PropValue → JsData
  | .nodeAdd node dot =>
    opData "NodeAdd" "NodeAdd" 3 [(lit "node", .string node), (lit "dot", dotData dot)]
  | .nodeRemove node observedDots =>
    opData "NodeRemove" "NodeTombstone" 3
      [(lit "node", .string node), (lit "observedDots", stringsData observedDots)]
  | .edgeAdd src dst label dot =>
    opData "EdgeAdd" "EdgeAdd" 3 (edgeFields src dst label ++ [(lit "dot", dotData dot)])
  | .edgeRemove src dst label observedDots =>
    opData "EdgeRemove" "EdgeTombstone" 3
      (edgeFields src dst label ++ [(lit "observedDots", stringsData observedDots)])
  | .nodePropSet node key value =>
    opData "NodePropSet" "NodePropSet" 1
      [(lit "node", .string node), (lit "key", .string key), (lit "value", value.val)]
  | .edgePropSet src dst label key value =>
    opData "EdgePropSet" "EdgePropSet" 1
      (edgeFields src dst label ++ [(lit "key", .string key), (lit "value", value.val)])
  | .blobValue node oid =>
    opData "BlobValue" "BlobValue" 3 [(lit "node", .string node), (lit "oid", .string oid)]

def PropSet.data (p : PropSet PropValue) : JsData :=
  opData "PropSet" "PropSet" 2
    [(lit "node", .string p.node), (lit "key", .string p.key), (lit "value", p.value.val)]

/-- A field that is present. -/
def field (name : String) (value : Option JsData) : List (JsString × JsData) :=
  match value with
  | some value => [(lit name, value)]
  | none => []

def DotLike.data : DotLike → JsData
  | .dot value => dotData value
  | .raw fields => .object (field "writerId" (fields.writerId.map .string) ++
      field "counter" (fields.counter.map .number))

def OpLike.data (rawOp : OpLike PropValue) : JsData :=
  .object ([(lit "type", .string rawOp.type)] ++ field "node" (rawOp.node.map .string) ++
    field "dot" (rawOp.dot.map DotLike.data) ++
    field "observedDots" (rawOp.observedDots.map stringsData) ++
    field "from" (rawOp.src.map .string) ++ field "to" (rawOp.dst.map .string) ++
    field "label" (rawOp.label.map .string) ++ field "key" (rawOp.key.map .string) ++
    [(lit "value", rawOp.value.val)] ++ field "oid" (rawOp.oid.map .string))

def PatchOp.data : PatchOp PropValue → JsData
  | .runtime canonical => canonical.op.data
  | .propSet p _ => p.data
  | .decoded rawOp => rawOp.data

/-- `VersionVector.serialize` on the entries of a vector; a vector has no own properties. -/
def PatchContext.data : PatchContext → JsData
  | .vector _ => .object []
  | .entries source =>
    .object (assignAll (sortBy Prod.fst (source.map fun entry => (entry.1, .number entry.2))))
  | .absent => .undefined

/-- `_nonEmpty`. -/
def nonEmptyStrings (texts : List JsString) : JsData :=
  if texts = [] then .undefined else stringsData texts

/-- The write of an edge property, which asks for the later schema. -/
def PatchOp.isEdgeProp : PatchOp PropValue → Bool
  | .propSet p _ => isLegacyEdgePropNode p.node
  | _ => false

def ProvenancePatch.data (p : ProvenancePatch PropValue) : JsData :=
  .object
    [(lit "schema", numberData (if p.entry.patch.ops.any PatchOp.isEdgeProp then 3 else 2)),
      (lit "writer", .string p.entry.patch.writer),
      (lit "lamport", numberData p.entry.patch.lamport),
      (lit "context", p.entry.patch.context.data),
      (lit "ops", .array (p.entry.patch.ops.map PatchOp.data)),
      (lit "reads", nonEmptyStrings p.reads), (lit "writes", nonEmptyStrings p.writes)]

/-! ### How deep a patch nests -/

def Op.value : Op PropValue → Option PropValue
  | .nodePropSet _ _ value => some value
  | .edgePropSet _ _ _ _ value => some value
  | _ => none

/-- The property value that an operation carries. -/
def PatchOp.value : PatchOp PropValue → Option PropValue
  | .runtime canonical => canonical.op.value
  | .propSet p _ => some p.value
  | .decoded rawOp => some rawOp.value

def ProvenancePatch.values (p : ProvenancePatch PropValue) : List PropValue :=
  p.entry.patch.ops.filterMap PatchOp.value

theorem depth_object_le_iff (entries) (bound) :
    (JsData.object entries).depth ≤ bound ↔ ∀ entry ∈ entries, entry.2.depth + 1 ≤ bound :=
  entryDepths_le_iff entries

theorem depth_array_le_iff (items) (bound) :
    (JsData.array items).depth ≤ bound ↔ ∀ item ∈ items, item.depth + 1 ≤ bound := by
  rw [JsData.depth]
  induction items with
  | nil => simp [depths]
  | cons item rest ih => rw [depths, Nat.max_le, ih, forall_mem_cons]

variable (texts : List JsString)

theorem depth_stringsData : (stringsData texts).depth ≤ 1 := by
  rw [stringsData, depth_array_le_iff]
  intro item mem
  obtain ⟨text, -, rfl⟩ := mem_map.mp mem
  exact Nat.le_refl 1

theorem depth_dotData (dot) : (dotData dot).depth = 1 := rfl

theorem depth_field_le (name) (value) (bound)
    (low : ∀ data, value = some data → data.depth + 1 ≤ bound) :
    ∀ entry ∈ field name value, entry.2.depth + 1 ≤ bound := by
  intro entry mem
  cases value with
  | none => cases mem
  | some data =>
    rw [mem_singleton.mp mem]
    exact low data rfl

theorem depth_nonEmptyStrings : (nonEmptyStrings texts).depth ≤ 1 := by
  unfold nonEmptyStrings
  split
  · exact Nat.zero_le 1
  · exact depth_stringsData texts

theorem depth_context (context : PatchContext) : context.data.depth ≤ 1 := by
  cases context with
  | vector vv | absent => exact Nat.zero_le 1
  | entries source =>
    rw [PatchContext.data, depth_object_le_iff]
    intro entry mem
    have listed := mem_of_mem_filter ((perm_enumerationOrder _).mem_iff.mp mem)
    obtain ⟨original, -, rfl⟩ := mem_map.mp ((mem_sortBy _ _ _).mp listed)
    exact Nat.le_refl 1

theorem depth_string (text) : (JsData.string text).depth = 0 := rfl

theorem depth_numberData (value) : (numberData value).depth = 0 := rfl

theorem depth_opData_le_iff (type receiptName scope) (fields) (bound) :
    (opData type receiptName scope fields).depth ≤ bound + 1 ↔
      ∀ entry ∈ fields, entry.2.depth ≤ bound := by
  rw [opData, depth_object_le_iff]
  simp only [forall_mem_append, forall_mem_cons, depth_string, depth_numberData,
    Nat.add_le_add_iff_right]
  simp

theorem depth_edgeFields (src dst label) (fields) (bound) :
    (∀ entry ∈ edgeFields src dst label ++ fields, entry.2.depth ≤ bound) ↔
      ∀ entry ∈ fields, entry.2.depth ≤ bound := by
  simp [edgeFields, depth_string]

theorem depth_op_le_iff {op : Op PropValue} :
    op.data.depth ≤ 30 ↔ ∀ value ∈ op.value, value.val.depth ≤ 29 := by
  -- what an operation holds besides its value is flat
  cases op with
  | nodeAdd node dot =>
    rw [Op.data, depth_opData_le_iff]
    simp [Op.value, depth_string, depth_dotData]
  | nodeRemove node observedDots =>
    have := depth_stringsData observedDots
    rw [Op.data, depth_opData_le_iff]
    simp [Op.value, depth_string]
    omega
  | edgeAdd src dst label dot =>
    rw [Op.data, depth_opData_le_iff, depth_edgeFields]
    simp [Op.value, depth_dotData]
  | edgeRemove src dst label observedDots =>
    have := depth_stringsData observedDots
    rw [Op.data, depth_opData_le_iff, depth_edgeFields]
    simp [Op.value]
    omega
  | nodePropSet node key value | blobValue node oid =>
    rw [Op.data, depth_opData_le_iff]
    simp [Op.value, depth_string]
  | edgePropSet src dst label key value =>
    rw [Op.data, depth_opData_le_iff, depth_edgeFields]
    simp [Op.value, depth_string]

theorem depth_dotLike (dot : DotLike) : dot.data.depth ≤ 1 := by
  cases dot with
  | dot value => exact Nat.le_refl 1
  | raw fields =>
    rw [DotLike.data, depth_object_le_iff, forall_mem_append]
    constructor
    · apply depth_field_le
      intro data present
      obtain ⟨text, -, rfl⟩ := Option.map_eq_some_iff.mp present
      exact Nat.le_refl 1
    · apply depth_field_le
      intro data present
      obtain ⟨counter, -, rfl⟩ := Option.map_eq_some_iff.mp present
      exact Nat.le_refl 1

theorem depth_decoded_le_iff (rawOp : OpLike PropValue) :
    rawOp.data.depth ≤ 30 ↔ rawOp.value.val.depth ≤ 29 := by
  have flat (name : String) (value : Option JsString) :
      ∀ entry ∈ field name (value.map .string), entry.2.depth + 1 ≤ 30 := by
    apply depth_field_le
    intro data present
    obtain ⟨text, -, rfl⟩ := Option.map_eq_some_iff.mp present
    exact Nat.le_add_left 1 29
  have dot : ∀ entry ∈ field "dot" (rawOp.dot.map DotLike.data), entry.2.depth + 1 ≤ 30 := by
    apply depth_field_le
    intro data present
    obtain ⟨fields, -, rfl⟩ := Option.map_eq_some_iff.mp present
    have := depth_dotLike fields
    omega
  have dots : ∀ entry ∈ field "observedDots" (rawOp.observedDots.map stringsData),
      entry.2.depth + 1 ≤ 30 := by
    apply depth_field_le
    intro data present
    obtain ⟨texts, -, rfl⟩ := Option.map_eq_some_iff.mp present
    have := depth_stringsData texts
    omega
  rw [OpLike.data, depth_object_le_iff]
  simp only [forall_mem_append]
  constructor
  · rintro ⟨⟨-, value⟩, -⟩
    exact Nat.le_of_succ_le_succ (value _ (mem_singleton_self _))
  · intro low
    have type : ∀ entry ∈ [(lit "type", JsData.string rawOp.type)], entry.2.depth + 1 ≤ 30 := by
      simp [depth_string]
    have value : ∀ entry ∈ [(lit "value", rawOp.value.val)], entry.2.depth + 1 ≤ 30 := by
      intro entry mem
      rw [mem_singleton.mp mem]
      exact Nat.succ_le_succ low
    exact ⟨⟨⟨⟨⟨⟨⟨⟨⟨type, flat _ _⟩, dot⟩, dots⟩, flat _ _⟩, flat _ _⟩, flat _ _⟩, flat _ _⟩, value⟩,
      flat _ _⟩

theorem depth_patchOp_le_iff (op : PatchOp PropValue) :
    op.data.depth ≤ 30 ↔ ∀ value ∈ op.value, value.val.depth ≤ 29 := by
  cases op with
  | runtime canonical => exact depth_op_le_iff
  | propSet p checked =>
    rw [PatchOp.data, PropSet.data, depth_opData_le_iff]
    simp [PatchOp.value, depth_string]
  | decoded rawOp =>
    rw [PatchOp.data, depth_decoded_le_iff]
    simp [PatchOp.value]

/-- A patch stays within the depth of the decoder when its property values do, three levels up. -/
theorem depth_patch_le_iff (p : ProvenancePatch PropValue) :
    p.data.depth ≤ 32 ↔ ∀ value ∈ p.values, value.val.depth ≤ 29 := by
  have context := depth_context p.entry.patch.context
  have reads := depth_nonEmptyStrings p.reads
  have writes := depth_nonEmptyStrings p.writes
  have ops : (JsData.array (p.entry.patch.ops.map PatchOp.data)).depth ≤ 31 ↔
      ∀ value ∈ p.values, value.val.depth ≤ 29 := by
    rw [depth_array_le_iff, forall_mem_map]
    constructor
    · intro low value mem
      obtain ⟨op, listed, carried⟩ := mem_filterMap.mp mem
      exact (depth_patchOp_le_iff op).mp (Nat.le_of_succ_le_succ (low op listed)) value carried
    · intro low op listed
      apply Nat.succ_le_succ
      rw [depth_patchOp_le_iff]
      exact fun value carried => low value (mem_filterMap.mpr ⟨op, listed, carried⟩)
  rw [← ops, ProvenancePatch.data, depth_object_le_iff]
  simp only [forall_mem_cons, depth_numberData, depth_string]
  constructor
  · rintro ⟨-, -, -, -, deep, -⟩
    exact Nat.le_of_succ_le_succ deep
  · intro deep
    exact ⟨by omega, by omega, by omega, by omega, Nat.succ_le_succ deep, by omega, by omega,
      fun _ none => absurd none not_mem_nil⟩

/-! ### No key is lost -/

theorem entriesHaveOwnKeys_append (first later) :
    entriesHaveOwnKeys (first ++ later) =
      (entriesHaveOwnKeys first && entriesHaveOwnKeys later) := by
  induction first with
  | nil => rfl
  | cons entry rest ih =>
    rw [cons_append, entriesHaveOwnKeys, ih, entriesHaveOwnKeys, Bool.and_assoc,
      Bool.and_assoc, Bool.and_assoc]

theorem haveOwnKeys_map {A : Type} (f) (items : List A)
    (each : ∀ a ∈ items, hasOwnKeys (f a) = true) : hasOwnKeys (.array (items.map f)) = true := by
  rw [hasOwnKeys]
  induction items with
  | nil => rfl
  | cons a rest ih =>
    rw [forall_mem_cons] at each
    rw [map_cons, haveOwnKeys, each.1, ih each.2]
    rfl

theorem hasOwnKeys_stringsData : hasOwnKeys (stringsData texts) = true :=
  haveOwnKeys_map .string texts fun _ _ => rfl

theorem hasOwnKeys_nonEmptyStrings : hasOwnKeys (nonEmptyStrings texts) = true := by
  unfold nonEmptyStrings
  split
  · rfl
  · exact hasOwnKeys_stringsData texts

theorem hasOwnKeys_field (own : lit name ≠ protoKey)
    (inside : ∀ data, value = some data → hasOwnKeys data = true) :
    entriesHaveOwnKeys (field name value) = true := by
  cases value with
  | none => rfl
  | some data => simp [field, entriesHaveOwnKeys, own, inside data rfl]

theorem hasOwnKeys_opData (type receiptName scope) (fields) :
    hasOwnKeys (opData type receiptName scope fields) = entriesHaveOwnKeys fields := by
  rfl

theorem hasOwnKeys_edgeFields (src dst label) (fields) :
    entriesHaveOwnKeys (edgeFields src dst label ++ fields) = entriesHaveOwnKeys fields := by
  rfl

theorem entriesHaveOwnKeys_cons (own : key ≠ protoKey) (here : hasOwnKeys value = true)
    (later : entriesHaveOwnKeys rest = true) :
    entriesHaveOwnKeys ((key, value) :: rest) = true := by
  rw [entriesHaveOwnKeys, here, later]
  simpa using own

theorem hasOwnKeys_op {op : Op PropValue} : hasOwnKeys op.data = true := by
  cases op with
  | nodeAdd node dot | edgeAdd src dst label dot =>
    rfl
  | nodeRemove node observedDots =>
    rw [Op.data, hasOwnKeys_opData]
    apply entriesHaveOwnKeys_cons (by decide) rfl
    exact entriesHaveOwnKeys_cons (by decide) (hasOwnKeys_stringsData observedDots) rfl
  | edgeRemove src dst label observedDots =>
    rw [Op.data, hasOwnKeys_opData, hasOwnKeys_edgeFields]
    exact entriesHaveOwnKeys_cons (by decide) (hasOwnKeys_stringsData observedDots) rfl
  | nodePropSet node key value =>
    rw [Op.data, hasOwnKeys_opData]
    apply entriesHaveOwnKeys_cons (by decide) rfl
    apply entriesHaveOwnKeys_cons (by decide) rfl
    exact entriesHaveOwnKeys_cons (by decide)
      (hasOwnKeys_of_isPropValue value.val value.property) rfl
  | edgePropSet src dst label key value =>
    rw [Op.data, hasOwnKeys_opData, hasOwnKeys_edgeFields]
    apply entriesHaveOwnKeys_cons (by decide) rfl
    exact entriesHaveOwnKeys_cons (by decide)
      (hasOwnKeys_of_isPropValue value.val value.property) rfl
  | blobValue node oid =>
    rw [Op.data, hasOwnKeys_opData]
    rfl

theorem hasOwnKeys_dotLike {dot : DotLike} : hasOwnKeys dot.data = true := by
  cases dot with
  | dot value => rfl
  | raw fields =>
    rw [DotLike.data, hasOwnKeys, entriesHaveOwnKeys_append,
      hasOwnKeys_field (by decide) ?_, hasOwnKeys_field (by decide) ?_]
    · rfl
    · intro data present
      obtain ⟨counter, -, rfl⟩ := Option.map_eq_some_iff.mp present
      rfl
    · intro data present
      obtain ⟨text, -, rfl⟩ := Option.map_eq_some_iff.mp present
      rfl

theorem hasOwnKeys_decoded {rawOp : OpLike PropValue} : hasOwnKeys rawOp.data = true := by
  have text (name : String) (value : Option JsString) (own : lit name ≠ protoKey) :
      entriesHaveOwnKeys (field name (value.map .string)) = true := by
    apply hasOwnKeys_field own
    intro data present
    obtain ⟨text, -, rfl⟩ := Option.map_eq_some_iff.mp present
    rfl
  have dot : entriesHaveOwnKeys (field "dot" (rawOp.dot.map DotLike.data)) = true := by
    apply hasOwnKeys_field (by decide)
    intro data present
    obtain ⟨fields, -, rfl⟩ := Option.map_eq_some_iff.mp present
    exact hasOwnKeys_dotLike
  have dots :
      entriesHaveOwnKeys (field "observedDots" (rawOp.observedDots.map stringsData)) = true := by
    apply hasOwnKeys_field (by decide)
    intro data present
    obtain ⟨texts, -, rfl⟩ := Option.map_eq_some_iff.mp present
    exact hasOwnKeys_stringsData texts
  have value : entriesHaveOwnKeys [(lit "value", rawOp.value.val)] = true :=
    entriesHaveOwnKeys_cons (by decide)
      (hasOwnKeys_of_isPropValue rawOp.value.val rawOp.value.property) rfl
  have type : entriesHaveOwnKeys [(lit "type", JsData.string rawOp.type)] = true := rfl
  rw [OpLike.data, hasOwnKeys]
  simp only [entriesHaveOwnKeys_append]
  rw [type, text "node" _ (by decide), dot, dots, text "from" _ (by decide),
    text "to" _ (by decide), text "label" _ (by decide), text "key" _ (by decide), value,
    text "oid" _ (by decide)]
  rfl

theorem hasOwnKeys_patchOp (op : PatchOp PropValue) : hasOwnKeys op.data = true := by
  cases op with
  | runtime canonical => exact hasOwnKeys_op
  | decoded rawOp => exact hasOwnKeys_decoded
  | propSet p checked =>
    rw [PatchOp.data, PropSet.data, hasOwnKeys_opData]
    apply entriesHaveOwnKeys_cons (by decide) rfl
    apply entriesHaveOwnKeys_cons (by decide) rfl
    exact entriesHaveOwnKeys_cons (by decide)
      (hasOwnKeys_of_isPropValue p.value.val p.value.property) rfl

theorem entriesHaveOwnKeys_of_forall (entries)
    (own : ∀ entry ∈ entries, entry.1 ≠ protoKey ∧ hasOwnKeys entry.2 = true) :
    entriesHaveOwnKeys entries = true := by
  induction entries with
  | nil => rfl
  | cons entry rest ih =>
    rw [forall_mem_cons] at own
    exact entriesHaveOwnKeys_cons own.1.1 own.1.2 (ih own.2)

theorem hasOwnKeys_context (context : PatchContext) : hasOwnKeys context.data = true := by
  cases context with
  | vector vv | absent => rfl
  | entries source =>
    apply entriesHaveOwnKeys_of_forall
    intro entry mem
    have kept := (perm_enumerationOrder _).mem_iff.mp mem
    obtain ⟨listed, own⟩ := mem_filter.mp kept
    obtain ⟨original, -, rfl⟩ := mem_map.mp ((mem_sortBy _ _ _).mp listed)
    exact ⟨of_decide_eq_true own, rfl⟩

theorem hasOwnKeys_patch (p : ProvenancePatch PropValue) : hasOwnKeys p.data = true := by
  apply entriesHaveOwnKeys_cons (by decide) rfl
  apply entriesHaveOwnKeys_cons (by decide) rfl
  apply entriesHaveOwnKeys_cons (by decide) rfl
  apply entriesHaveOwnKeys_cons (by decide) (hasOwnKeys_context _)
  apply entriesHaveOwnKeys_cons (by decide)
    (haveOwnKeys_map PatchOp.data _ fun op _ => hasOwnKeys_patchOp op)
  apply entriesHaveOwnKeys_cons (by decide) (hasOwnKeys_nonEmptyStrings _)
  exact entriesHaveOwnKeys_cons (by decide) (hasOwnKeys_nonEmptyStrings _) rfl

end GitWarp
