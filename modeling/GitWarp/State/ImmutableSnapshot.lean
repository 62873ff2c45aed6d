import GitWarp.Codec.PropValue
import GitWarp.Reducer.JoinReducer

/-!
# Immutable snapshots

A snapshot holds frozen copies of what a state holds. Readers of a snapshot turn
it back into a state first; that refuses values under keys that could change a
prototype. Property values have no such keys, so they come back as they were.
-/
namespace GitWarp

open Js Lib

/-! ### Values -/

/-- A frozen copy of a value. -/
inductive SnapshotPropValue
  | null
  | undefined
  | boolean (value : Bool)
  | number (value : JsNumber)
  | string (text : JsString)
  | immutableBytes (payload : List Cbor.Byte)
  | array (items : List SnapshotPropValue)
  | object (entries : List (JsString × SnapshotPropValue))

mutual

def createSnapshotPropValue : JsData → SnapshotPropValue
  | .null => .null
  | .undefined => .undefined
  | .boolean value => .boolean value
  | .number value => .number value
  | .string text => .string text
  | .bytes payload => .immutableBytes payload
  | .array items => .array (createSnapshotPropValueArray items)
  | .object entries => .object (createSnapshotPropValueObject entries)

def createSnapshotPropValueArray : List JsData → List SnapshotPropValue
  | [] => []
  | value :: rest => createSnapshotPropValue value :: createSnapshotPropValueArray rest

/-- Every entry becomes an own property, also under `__proto__`. -/
def createSnapshotPropValueObject : List (JsString × JsData) → List (JsString × SnapshotPropValue)
  | [] => []
  | (key, value) :: rest => (key, createSnapshotPropValue value) :: createSnapshotPropValueObject rest

end

def invalidSnapshotPropertyValueError : Failure :=
  ⟨.warpError, lit "E_STATE_READER_INVALID_SNAPSHOT_PROPERTY_VALUE",
    lit "Snapshot property value must be property-compatible data"⟩

/-- `requireSnapshotPropertyValueKey`. -/
def requireSnapshotPropertyValueKey (key : JsString) : Except Failure Unit :=
  if forbiddenPropertyValueKeys.contains key then .error invalidSnapshotPropertyValueError
  else .ok ()

mutual

def propValueFromSnapshot : SnapshotPropValue → Except Failure JsData
  | .null => .ok .null
  | .undefined => .ok .undefined
  | .boolean value => .ok (.boolean value)
  | .number value => .ok (.number value)
  | .string text => .ok (.string text)
  | .immutableBytes payload => .ok (.bytes payload)
  | .array items => do
    let values ← propValueArrayFromSnapshot items
    pure (.array values)
  | .object entries => do
    let values ← propValueObjectFromSnapshot entries
    pure (.object values)

def propValueArrayFromSnapshot : List SnapshotPropValue → Except Failure (List JsData)
  | [] => .ok []
  | entry :: rest => do
    let value ← propValueFromSnapshot entry
    let others ← propValueArrayFromSnapshot rest
    pure (value :: others)

/-- No key that is left can run a setter, so every entry becomes an own property. -/
def propValueObjectFromSnapshot : List (JsString × SnapshotPropValue) →
    Except Failure (List (JsString × JsData))
  | [] => .ok []
  | (key, entry) :: rest => do
    requireSnapshotPropertyValueKey key
    let value ← propValueFromSnapshot entry
    let others ← propValueObjectFromSnapshot rest
    pure ((key, value) :: others)

end

/-! ### States -/

/-- The entries and tombstones of a set, frozen. -/
structure SnapshotORSet where
  entries : OrdMap JsString (OrdSet JsString)
  tombstones : OrdSet JsString
  inhabited : ∀ element dots, entries.get element = some dots → dots.toList ≠ []

structure SnapshotWarpState where
  nodeAlive : SnapshotORSet
  edgeAlive : SnapshotORSet
  prop : List (JsString × LWWRegister SnapshotPropValue)
  observedFrontier : VersionVector
  edgeBirthEvent : OrdMap JsString EventId

def createSnapshotORSet (value : ORSet) : SnapshotORSet :=
  ⟨value.entries, value.tombstones, value.inhabited⟩

def createLwwRegisterSnapshot (source : LWWRegister JsData) : LWWRegister SnapshotPropValue :=
  ⟨source.eventId, createSnapshotPropValue source.value⟩

def createImmutableWarpStateSnapshot (state : WarpState JsData) : SnapshotWarpState where
  nodeAlive := createSnapshotORSet state.nodeAlive
  edgeAlive := createSnapshotORSet state.edgeAlive
  prop := state.prop.entries.map fun entry => (entry.1, createLwwRegisterSnapshot entry.2)
  observedFrontier := state.observedFrontier
  edgeBirthEvent := state.edgeBirthEvent

def orsetFromSnapshot (snapshot : SnapshotORSet) : ORSet :=
  ⟨snapshot.entries, snapshot.tombstones, snapshot.inhabited⟩

/-- `propMapFromSnapshot`, the loop with the map that it fills. -/
def propMapFromSnapshot (props : OrdMap JsString (LWWRegister JsData)) :
    List (JsString × LWWRegister SnapshotPropValue) →
      Except Failure (OrdMap JsString (LWWRegister JsData))
  | [] => .ok props
  | (key, register) :: rest => do
    let value ← propValueFromSnapshot register.value
    propMapFromSnapshot (props.set key ⟨register.eventId, value⟩) rest

def warpStateFromSnapshot (snapshot : SnapshotWarpState) : Except Failure (WarpState JsData) := do
  let prop ← propMapFromSnapshot .empty snapshot.prop
  pure ⟨orsetFromSnapshot snapshot.nodeAlive, orsetFromSnapshot snapshot.edgeAlive, prop,
    snapshot.observedFrontier, snapshot.edgeBirthEvent⟩

/-! ### Round trips -/

mutual

theorem propValueFromSnapshot_create : (value : JsData) → isPropValue value = true →
    propValueFromSnapshot (createSnapshotPropValue value) = .ok value
  | .null, _ | .boolean _, _ | .number _, _ | .string _, _ | .bytes _, _ => rfl
  | .undefined, valid => by
    rw [isPropValue] at valid
    cases valid
  | .array items, valid => by
    rw [isPropValue] at valid
    rw [createSnapshotPropValue, propValueFromSnapshot,
      propValueArrayFromSnapshot_create items valid]
    rfl
  | .object entries, valid => by
    rw [isPropValue] at valid
    rw [createSnapshotPropValue, propValueFromSnapshot,
      propValueObjectFromSnapshot_create entries valid]
    rfl

theorem propValueArrayFromSnapshot_create : (items : List JsData) → arePropValues items = true →
    propValueArrayFromSnapshot (createSnapshotPropValueArray items) = .ok items
  | [], _ => rfl
  | item :: rest, valid => by
    rw [arePropValues, Bool.and_eq_true] at valid
    rw [createSnapshotPropValueArray, propValueArrayFromSnapshot,
      propValueFromSnapshot_create item valid.1, propValueArrayFromSnapshot_create rest valid.2]
    rfl

theorem propValueObjectFromSnapshot_create : (entries : List (JsString × JsData)) →
    propValueObjectEntriesAreValid entries = true →
      propValueObjectFromSnapshot (createSnapshotPropValueObject entries) = .ok entries
  | [], _ => rfl
  | (key, value) :: rest, valid => by
    rw [propValueObjectEntriesAreValid, Bool.and_eq_true, Bool.and_eq_true] at valid
    obtain ⟨⟨allowed, here⟩, later⟩ := valid
    -- the reader refuses exactly the keys that a property value cannot have
    have passes : requireSnapshotPropertyValueKey key = .ok () := by
      rw [requireSnapshotPropertyValueKey, if_neg (by simpa using allowed)]
    rw [createSnapshotPropValueObject, propValueObjectFromSnapshot, passes,
      propValueFromSnapshot_create value here, propValueObjectFromSnapshot_create rest later]
    rfl

end

theorem propMapFromSnapshot_create {entries : List (JsString × LWWRegister JsData)}
    (accepted : ∀ entry ∈ entries, isPropValue entry.2.value = true) (props) :
    propMapFromSnapshot props
        (entries.map fun entry => (entry.1, createLwwRegisterSnapshot entry.2)) =
      .ok (entries.foldl (fun m entry => m.set entry.1 entry.2) props) := by
  induction entries generalizing props with
  | nil => rfl
  | cons entry rest ih =>
    rw [List.forall_mem_cons] at accepted
    rw [List.map_cons, propMapFromSnapshot, createLwwRegisterSnapshot,
      propValueFromSnapshot_create entry.2.value accepted.1]
    exact ih accepted.2 (props.set entry.1 entry.2)

theorem warpStateFromSnapshot_create (s)
    (accepted : ∀ key register, s.prop.get key = some register →
      isPropValue register.value = true) :
    warpStateFromSnapshot (createImmutableWarpStateSnapshot s) = .ok s := by
  have values : ∀ entry ∈ s.prop.entries, isPropValue entry.2.value = true := by
    intro entry mem
    exact accepted entry.1 entry.2 ((s.prop.mem_entries_iff _).mp mem)
  have rebuilt : s.prop.entries.foldl (fun m entry => m.set entry.1 entry.2) .empty = s.prop := by
    apply OrdMap.ext_entries
    have listed := OrdMap.entries_foldl_set (fun entry => entry) .empty
      s.prop.nodup (fun _ _ => rfl)
    simpa [OrdMap.empty] using listed
  rw [warpStateFromSnapshot, createImmutableWarpStateSnapshot,
    propMapFromSnapshot_create values, rebuilt]
  rfl

end GitWarp
