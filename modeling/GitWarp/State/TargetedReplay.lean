import GitWarp.Lib.Agree
import GitWarp.State.StateSerializer

/-!
# Replaying the properties of one element

A live read can replay the patches for one node or one edge only, keeping the
registers of that element and the birth of the edge. The replay does not look at
liveness: its callers have found the element alive before they ask.
-/
namespace GitWarp

open Js Lib KeyCodec List

variable {V : Type}

/-! ### Projections of a state -/

/-- `decodeVisibleNodePropertyKey`: two non-empty segments. -/
def decodeVisibleNodePropertyKey (encodedKey : JsString) : Option PropParts :=
  if isEdgePropKey encodedKey then none
  else
    match split fieldSeparator encodedKey with
    | [nodeId, propKey] => if nodeId = [] ∨ propKey = [] then none else some ⟨nodeId, propKey⟩
    | _ => none

def isLegacyEdgeTypeSegment (value : JsString) : Bool :=
  decide (value ≠ [] ∧ fieldSeparator ∉ value)

def isLegacyNodeSegment (value : JsString) : Bool :=
  isLegacyEdgeTypeSegment value && decide (value.head? ≠ some edgePropPrefix)

def isLegacyEdgePropertyProjectionTarget (edge : EdgeParts) : Bool :=
  isLegacyNodeSegment edge.src && isLegacyNodeSegment edge.dst && isLegacyEdgeTypeSegment edge.label

/-- `nodePropertyRecordForOwnerRegister`, for the keys with the owner's prefix. -/
def nodeOwnerRegister (owner encodedKey : JsString) (register : LWWRegister V) :
    Option (JsString × V) := do
  guard ((encodePropKey owner []).isPrefixOf encodedKey)
  let parts ← decodeVisibleNodePropertyKey encodedKey
  guard (parts.nodeId = owner)
  pure (parts.propKey, register.value)

/-- `edgePropertyRecordForOwnerRegister`, for the keys with the owner's prefix. -/
def edgeOwnerRegister (s : WarpState V) (owner : EdgeParts) (encodedKey : JsString)
    (register : LWWRegister V) : Option (JsString × V) := do
  guard ((encodeEdgePropKey owner.src owner.dst owner.label []).isPrefixOf encodedKey)
  let (edge, propKey) ← decodeVisibleEdgePropertyKey encodedKey
  guard (edge = owner)
  let visible ← visibleEdgeRegister register
    (s.edgeBirthEvent.get (encodeEdgeKey edge.src edge.dst edge.label))
  pure (propKey, visible.value)

section

variable (isPropValue : V → Bool)

/-- The loop over the registers; a value that is not a property value is refused. -/
def projectRegisters (select : JsString → LWWRegister V → Option (JsString × V)) :
    List (JsString × LWWRegister V) → Except Failure (List (JsString × V))
  | [] => .ok []
  | (encodedKey, register) :: rest =>
    match select encodedKey register with
    | none => projectRegisters select rest
    | some (key, value) =>
      if isPropValue value then do
        let others ← projectRegisters select rest
        pure ((key, value) :: others)
      else .error ⟨.warpError, lit "E_VALIDATION", lit "LegacyPropertyValue must wrap a PropValue"⟩

/-- Records are compared by the owner's id and the key. -/
def recordSortKey (ownerId : JsString) (record : JsString × V) : JsString :=
  ownerId ++ lit ":" ++ record.1

/-- `NodePropertyProjection.forNode`. -/
def nodePropertyProjection (s : WarpState V) (nodeId : JsString) :
    Except Failure (List (NodeProp V)) :=
  if isLegacyNodeSegment nodeId && visibleNode s nodeId then do
    let records ← projectRegisters isPropValue (nodeOwnerRegister nodeId) s.prop.entries
    pure ((sortBy (recordSortKey nodeId) records).map fun record => ⟨nodeId, record.1, record.2⟩)
  else .ok []

/-- `legacyEdgeIdValue`, with length-prefixed segments. -/
def legacyEdgeIdValue (edge : EdgeParts) : JsString :=
  let segment := fun value : JsString => numberText value.length ++ lit ":" ++ value
  lit "legacy-edge:" ++ segment edge.src ++ lit ":" ++ segment edge.dst ++ lit ":" ++
    segment edge.label

/-- `EdgePropertyProjection.forEdge`; the owner is one of the visible edges. -/
def edgePropertyProjection (s : WarpState V) (edge : EdgeParts) :
    Except Failure (List (EdgeProp V)) :=
  if isLegacyEdgePropertyProjectionTarget edge && decide (edge ∈ visibleEdges s) then do
    let records ← projectRegisters isPropValue (edgeOwnerRegister s edge) s.prop.entries
    pure ((sortBy (recordSortKey (legacyEdgeIdValue edge)) records).map
      fun record => ⟨edge, record.1, record.2⟩)
  else .ok []

/-! ### The replays -/

/-- The loop over the operations of a patch: those that are wanted get their event and are
taken, the others are left out. -/
def replayOps {R : Type} (wants : Op V → Bool) (take : R → Op V → EventId → Except Failure R)
    (entry : PatchEntry V) : Nat → List (PatchOp V) → R → Except Failure R
  | _, [], replay => .ok replay
  | i, rawOp :: rest, replay => do
    match ← normalizeRawOp rawOp with
    | none => replayOps wants take entry (i + 1) rest replay
    | some canonOp =>
      if wants canonOp.op then do
        let eventId ← EventId.create entry.patch.lamport entry.patch.writer entry.sha i
        let next ← take replay canonOp.op eventId
        replayOps wants take entry (i + 1) rest next
      else replayOps wants take entry (i + 1) rest replay

def replayEntries {R : Type} (wants : Op V → Bool) (take : R → Op V → EventId → Except Failure R) :
    List (PatchEntry V) → R → Except Failure R
  | [], replay => .ok replay
  | entry :: rest, replay => do
    let next ← replayOps wants take entry 0 entry.patch.ops replay
    replayEntries wants take rest next

abbrev PropertyRegisters (V : Type) := OrdMap JsString (LWWRegister V)

/-- Keeps the greater register of a key; `element` names the element kind in the message. -/
def recordProperty (element : String) (registers : PropertyRegisters V) (key : JsString)
    (eventId : EventId) (value : V) : Except Failure (PropertyRegisters V) :=
  if isPropValue value then
    match lwwMax (registers.get key) (some ⟨eventId, value⟩) with
    | some winner => .ok (registers.set key winner)
    | none => .ok registers
  else .error (patchError (lit "Targeted " ++ lit element ++
    lit "-property replay encountered an invalid property value"))

/-- The registers as a property bag, sorted by key. -/
def freezePropertyBag (registers : List (JsString × LWWRegister V)) : List (JsString × V) :=
  (sortBy Prod.fst registers).map fun entry => (entry.1, entry.2.value)

def setsPropertyOf (nodeId : JsString) : Op V → Bool
  | .nodePropSet node _ _ => decide (node = nodeId)
  | _ => false

def takeNodeOp (registers : PropertyRegisters V) (op : Op V) (eventId : EventId) :
    Except Failure (PropertyRegisters V) :=
  match op with
  | .nodePropSet _ key value => recordProperty isPropValue "node" registers key eventId value
  | _ => .ok registers

def replayTargetedNodeProperties (entries : List (PatchEntry V)) (nodeId : JsString) :
    Except Failure (List (JsString × V)) := do
  let registers ← replayEntries (setsPropertyOf nodeId) (takeNodeOp isPropValue) entries .empty
  pure (freezePropertyBag registers.entries)

structure TargetedEdgeReplay (V : Type) where
  birthEvent : Option EventId
  registers : PropertyRegisters V

def targetsEdge (edge : EdgeParts) : Op V → Bool
  | .edgeAdd src dst label _ => decide (⟨src, dst, label⟩ = edge)
  | .edgePropSet src dst label _ _ => decide (⟨src, dst, label⟩ = edge)
  | _ => false

def recordBirthEvent (birthEvent : Option EventId) (eventId : EventId) : Option EventId :=
  match birthEvent with
  | none => some eventId
  | some birth => if 0 < compareEventIds eventId birth then some eventId else some birth

def takeEdgeOp (replay : TargetedEdgeReplay V) (op : Op V) (eventId : EventId) :
    Except Failure (TargetedEdgeReplay V) :=
  match op with
  | .edgeAdd _ _ _ _ =>
    .ok { replay with birthEvent := recordBirthEvent replay.birthEvent eventId }
  | .edgePropSet _ _ _ key value =>
    (recordProperty isPropValue "edge" replay.registers key eventId value).map
      fun registers => { replay with registers := registers }
  | _ => .ok replay

def isVisibleAfterBirth (register : LWWRegister V) (birthEvent : Option EventId) : Bool :=
  match birthEvent with
  | none => true
  | some birth => decide (0 ≤ compareEventIds register.eventId birth)

def replayTargetedEdgeProperties (entries : List (PatchEntry V)) (edge : EdgeParts) :
    Except Failure (List (JsString × V)) := do
  let replay ← replayEntries (targetsEdge edge) (takeEdgeOp isPropValue) entries ⟨none, .empty⟩
  pure (freezePropertyBag (replay.registers.entries.filter
    fun entry => isVisibleAfterBirth entry.2 replay.birthEvent))

/-! ### A replay follows the reducer -/

omit isPropValue in
theorem replayOps_eq {take} (i) (ops) (events : List (Event V))
    (found : entry.eventsFrom i ops = .ok events) (replay : R) :
    replayOps wants take entry i ops replay = (events.filter fun event => wants event.2.op).foldlM
        (fun replay event => take replay event.2.op event.1) replay := by
  induction ops generalizing i events replay with
  | nil =>
    cases found
    rfl
  | cons rawOp rest ih =>
    rcases eventsFrom_cons entry found with
      ⟨same, found⟩ | ⟨eventId, canonOp, tail, same, created, later, rfl⟩
    · simp only [replayOps, same, ok_bind]
      exact ih (i + 1) events found replay
    · simp only [replayOps, same, ok_bind]
      rw [filter_cons]
      by_cases wanted : wants canonOp.op = true
      · simp only [wanted, if_true, created, ok_bind, foldlM_cons]
        cases take replay canonOp.op eventId with
        | error e => rfl
        | ok next => exact ih (i + 1) tail later next
      · simp only [wanted]
        exact ih (i + 1) tail later replay

section

variable {R : Type} {wants : Op V → Bool} {take : R → Op V → EventId → Except Failure R}

/-- The replay has kept its relation to a state, or it was refused for a reason. -/
def Carries (Follows : R → WarpState V → Prop) (s : WarpState V) (reason : Prop) :
    Except Failure R → Prop
  | .ok replay => Follows replay s
  | .error _ => reason

/-- What a replay must keep about the state that the reducer builds: the operations it leaves
out do not disturb it, those it takes carry it on or are refused. -/
structure Shadow (wants : Op V → Bool) (take : R → Op V → EventId → Except Failure R)
    (Follows : R → WarpState V → Prop) (Refused : Op V → Prop) : Prop where
  frontier : ∀ replay s vv, Follows replay s → Follows replay { s with observedFrontier := vv }
  other : ∀ replay s (canonOp : CanonicalOp V) eventId, wants canonOp.op = false →
    Follows replay s → Follows replay (canonOp.op.mutate s eventId)
  wanted : ∀ replay s (canonOp : CanonicalOp V) eventId, wants canonOp.op = true →
    Follows replay s → Carries Follows (canonOp.op.mutate s eventId) (Refused canonOp.op)
      (take replay canonOp.op eventId)

variable {Follows : R → WarpState V → Prop} {Refused : Op V → Prop}

theorem Carries.bind {s t reason later first next} (carried : Carries Follows s reason first)
    (implies : reason → later)
    (step : ∀ replay, Follows replay s → Carries Follows t later (next replay)) :
    Carries Follows t later (first >>= next) := by
  cases first with
  | error e => exact implies carried
  | ok replay => exact step replay carried

theorem Carries.mono {s reason later result} (carried : Carries Follows s reason result)
    (implies : reason → later) : Carries Follows s later result := by
  cases result with
  | error e => exact implies carried
  | ok replay => exact carried

theorem Shadow.events (shadow : Shadow wants take Follows Refused) (events) (replay : R) (s)
    (init : Follows replay s) :
    Carries Follows (applyEvents s events) (∃ event ∈ events, Refused event.2.op)
      ((events.filter fun event => wants event.2.op).foldlM
        (fun replay event => take replay event.2.op event.1) replay) := by
  induction events generalizing replay s with
  | nil => exact init
  | cons event rest ih =>
    have later : (∃ event ∈ rest, Refused event.2.op) → ∃ other ∈ event :: rest, Refused other.2.op :=
      fun ⟨other, member, bad⟩ => ⟨other, mem_cons_of_mem _ member, bad⟩
    rw [filter_cons]
    by_cases chosen : wants event.2.op = true
    · rw [if_pos chosen, foldlM_cons]
      apply (shadow.wanted replay s event.2 event.1 chosen init).bind
      · exact fun bad => ⟨event, mem_cons_self, bad⟩
      · intro next kept
        exact (ih next _ kept).mono later
    · rw [if_neg chosen]
      have kept := shadow.other replay s event.2 event.1 (Bool.eq_false_iff.mpr chosen) init
      exact (ih replay _ kept).mono later

/-- Over a stream that the reducer accepts, the replay ends with the reduced state, or it has
refused an operation of the stream. -/
theorem Shadow.entries (shadow : Shadow wants take Follows Refused) (entries) (replay : R) (s t)
    (reduced : reducePatches entries s = .ok t) (init : Follows replay s) :
    Carries Follows t (∃ entry ∈ entries, ∃ op, entry.Holds op ∧ Refused op)
      (replayEntries wants take entries replay) := by
  induction entries generalizing replay s with
  | nil =>
    cases reduced
    exact init
  | cons entry rest ih =>
    simp only [reducePatches, bind_eq_ok] at reduced
    obtain ⟨middle, applied, later⟩ := reduced
    -- the reducer has computed the events of this patch
    obtain ⟨effect, known, rfl⟩ := effect_of_applyFast applied
    have found := (entry.effect_parts known).1
    have held := holds_of_event entry 0 (fun _ => id) effect.events found
    rw [replayEntries, replayOps_eq 0 _ effect.events found]
    apply (shadow.events effect.events replay s init).bind
    · rintro ⟨event, member, bad⟩
      exact ⟨entry, mem_cons_self, event.2.op, held event member, bad⟩
    · intro next kept
      -- folding the patch into the frontier is left for last
      have folded := shadow.frontier next _
        (foldFrontier effect.context effect.tick (applyEvents s effect.events).observedFrontier)
        kept
      apply (ih next (effect.apply s) later folded).mono
      rintro ⟨other, listed, bad⟩
      exact ⟨other, mem_cons_of_mem _ listed, bad⟩

end

/-! ### Registers of one element -/

/-- The registers of an element under their own keys; `keyOf` encodes its property keys. -/
structure Mirrors (keyOf : JsString → JsString) (registers : PropertyRegisters V)
    (s : WarpState V) : Prop where
  lookups : ∀ key, ValidId key → registers.get key = s.prop.get (keyOf key)
  entries : ∀ key r, registers.get key = some r → ValidId key ∧ isPropValue r.value = true

variable {isPropValue} {keyOf : JsString → JsString}

theorem Mirrors.empty (isPropValue) :
    Mirrors isPropValue keyOf OrdMap.empty (WarpState.empty : WarpState V) where
  lookups := fun key _ => rfl
  entries := fun key r found => by simp at found

theorem Mirrors.congr (mirrors : Mirrors isPropValue keyOf registers s) (same : t.prop = s.prop) :
    Mirrors isPropValue keyOf registers t where
  lookups := fun key valid => by rw [same, mirrors.lookups key valid]
  entries := mirrors.entries

theorem Mirrors.frame (mirrors : Mirrors isPropValue keyOf registers s) (encodedKey eventId)
    (value : V) (apart : ∀ key, ValidId key → encodedKey ≠ keyOf key) :
    Mirrors isPropValue keyOf registers (s.mutatePropLWW encodedKey eventId value) where
  lookups := fun key valid => by
    rw [WarpState.get_mutatePropLWW, if_neg (apart key valid), mirrors.lookups key valid]
  entries := mirrors.entries

/-- A write of the element, on both sides. -/
theorem Mirrors.record (mirrors : Mirrors isPropValue keyOf registers s)
    (inj : ∀ key key', ValidId key → ValidId key' → keyOf key = keyOf key' → key = key') (element)
    (valid : ValidId key) (eventId) (value : V) :
    Carries (Mirrors isPropValue keyOf) (s.mutatePropLWW (keyOf key) eventId value)
      (isPropValue value = false) (recordProperty isPropValue element registers key eventId value) := by
  unfold recordProperty
  by_cases good : isPropValue value = true
  · have wins : ∃ winner, lwwMax (registers.get key) (some ⟨eventId, value⟩) = some winner ∧
        isPropValue winner.value = true := by
      cases old : registers.get key with
      | none => exact ⟨⟨eventId, value⟩, rfl, good⟩
      | some r =>
        simp only [lwwMax]
        split
        · exact ⟨r, rfl, (mirrors.entries key r old).2⟩
        · exact ⟨_, rfl, good⟩
    obtain ⟨winner, chosen, good_winner⟩ := wins
    rw [if_pos good, chosen]
    constructor
    · intro other valid_other
      rw [OrdMap.get_set, WarpState.get_mutatePropLWW]
      by_cases same : key = other
      · subst same
        rw [if_pos rfl, if_pos rfl, ← mirrors.lookups key valid, ← lwwMax_eq_later, chosen]
      · rw [if_neg same, if_neg fun encoded => same (inj key other valid valid_other encoded),
          mirrors.lookups other valid_other]
    · exact OrdMap.forall_set ⟨valid, good_winner⟩ mirrors.entries
  · rw [if_neg good]
    exact Bool.eq_false_iff.mpr good

/-! ### Projected registers -/

theorem projectRegisters_ok
    (good : ∀ entry ∈ entries, ∀ record, select entry.1 entry.2 = some record →
      isPropValue record.2 = true) :
    projectRegisters isPropValue select entries =
      .ok (entries.filterMap fun entry => select entry.1 entry.2) := by
  induction entries with
  | nil => rfl
  | cons entry rest ih =>
    have later := ih (forall_mem_cons.mp good).2
    rw [filterMap_cons, projectRegisters]
    cases chosen : select entry.1 entry.2 with
    | none => exact later
    | some record =>
      simp only [good entry mem_cons_self record chosen, if_true, later, ok_bind]
      rfl

theorem recordSortKey_le_iff (a b : JsString × V) :
    recordSortKey ownerId a ≤ recordSortKey ownerId b ↔ a.1 ≤ b.1 := by
  constructor
  · intro below
    by_contra above
    have strict : ownerId ++ lit ":" ++ b.1 < ownerId ++ lit ":" ++ a.1 :=
      append_left_lt (not_le.mp above)
    exact absurd below (not_le.mpr strict)
  · intro below
    rcases lt_or_eq_of_le below with strict | same
    · exact le_of_lt (append_left_lt strict)
    · rw [recordSortKey, recordSortKey, same]

theorem freezePropertyBag_eq (registers : List (JsString × LWWRegister V)) :
    freezePropertyBag registers =
      sortBy Prod.fst (registers.map fun entry => (entry.1, entry.2.value)) :=
  map_sortBy Prod.fst _

/-- The bag of the replayed registers that are shown lists what a projection selects. -/
theorem Mirrors.projected (mirrors : Mirrors isPropValue keyOf registers s)
    {shown : LWWRegister V → Bool}
    (selects : ∀ k r, s.prop.get k = some r → ∀ record, select k r = some record ↔
      ∃ key, ValidId key ∧ k = keyOf key ∧ shown r = true ∧ record = (key, r.value)) :
    ∃ records, projectRegisters isPropValue select s.prop.entries = .ok records ∧
      sortBy (recordSortKey ownerId) records =
        freezePropertyBag (registers.entries.filter fun entry => shown entry.2) := by
  have members : ∀ record, (record ∈ s.prop.entries.filterMap fun entry => select entry.1 entry.2) ↔
      record ∈ (registers.entries.filter fun entry => shown entry.2).map
        fun entry => (entry.1, entry.2.value) := by
    intro record
    simp only [mem_filterMap, mem_map, mem_filter, Prod.exists, OrdMap.mem_entries_iff]
    constructor
    · rintro ⟨k, r, found, chosen⟩
      obtain ⟨key, valid, rfl, visible, rfl⟩ := (selects k r found record).mp chosen
      exact ⟨key, r, ⟨(mirrors.lookups key valid).trans found, visible⟩, rfl⟩
    · rintro ⟨key, r, ⟨found, visible⟩, rfl⟩
      have valid := (mirrors.entries key r found).1
      have stored := (mirrors.lookups key valid).symm.trans found
      exact ⟨keyOf key, r, stored, (selects _ r stored _).mpr ⟨key, valid, rfl, visible, rfl⟩⟩
  have good : ∀ entry ∈ s.prop.entries, ∀ record, select entry.1 entry.2 = some record →
      isPropValue record.2 = true := by
    rintro ⟨k, r⟩ stored record chosen
    rw [OrdMap.mem_entries_iff] at stored
    obtain ⟨key, valid, rfl, -, rfl⟩ := (selects k r stored record).mp chosen
    exact (mirrors.entries key r ((mirrors.lookups key valid).trans stored)).2
  -- a key is selected from one register only
  have distinct : ((s.prop.entries.filterMap fun entry => select entry.1 entry.2).map
      Prod.fst).Nodup := by
    rw [List.Nodup, pairwise_map, pairwise_filterMap]
    apply s.prop.nodup.of_map.imp_of_mem
    rintro ⟨k, r⟩ ⟨k', r'⟩ stored stored' apart record chosen record' chosen' same
    rw [OrdMap.mem_entries_iff] at stored stored'
    obtain ⟨key, -, rfl, -, rfl⟩ := (selects k r stored record).mp chosen
    obtain ⟨key', -, rfl, -, rfl⟩ := (selects k' r' stored' record').mp chosen'
    have one : key = key' := same
    subst one
    rw [stored] at stored'
    exact apart (congrArg _ (Option.some.inj stored'))
  have listed : ((((registers.entries.filter fun entry => shown entry.2).map
      fun entry => (entry.1, entry.2.value))).map Prod.fst).Nodup := by
    rw [map_map]
    exact registers.nodup.sublist (filter_sublist.map _)
  refine ⟨_, projectRegisters_ok good, ?_⟩
  rw [sortBy_congr (recordSortKey ownerId) recordSortKey_le_iff,
    freezePropertyBag_eq, sortBy_eq_iff Prod.fst distinct listed]
  exact members

/-! ### Nodes -/

theorem nodeKey_inj (valid : ValidId x) (key key') (left : ValidId key) (right : ValidId key')
    (same : encodePropKey x key = encodePropKey x key') : key = key' :=
  (encodePropKey_inj valid valid left right same).2

/-- A write of a property of `x` that is not a property value. -/
def InvalidNodeWrite (isPropValue : V → Bool) (x : JsString) (op : Op V) : Prop :=
  ∃ key value, op = .nodePropSet x key value ∧ isPropValue value = false

theorem node_shadow (x) (valid : ValidId x) :
    Shadow (setsPropertyOf x) (takeNodeOp isPropValue)
      (Mirrors isPropValue (encodePropKey x)) (InvalidNodeWrite isPropValue x) where
  frontier := fun registers s vv mirrors => mirrors.congr rfl
  other := fun registers s canonOp eventId unwanted mirrors => by
    have ids := canonOp.validIds
    cases shape : canonOp.op with
    | nodePropSet node key value =>
      rw [shape] at ids unwanted
      have apart : node ≠ x := by simpa [setsPropertyOf] using unwanted
      apply mirrors.frame
      intro own valid_own same
      exact apart (encodePropKey_inj (ids node (by simp [Op.ids])) valid
        (ids key (by simp [Op.ids])) valid_own same).1
    | edgePropSet src dst label key value =>
      apply mirrors.frame
      exact fun own _ => encodeEdgePropKey_ne_encodePropKey valid
    | nodeAdd node dot | nodeRemove node dots | edgeAdd src dst label dot
    | edgeRemove src dst label dots | blobValue node oid => exact mirrors.congr rfl
  wanted := fun registers s canonOp eventId wanted mirrors => by
    have ids := canonOp.validIds
    cases shape : canonOp.op with
    | nodePropSet node key value =>
      rw [shape] at ids wanted
      have own : node = x := by simpa [setsPropertyOf] using wanted
      subst own
      have carried := mirrors.record (nodeKey_inj valid) "node"
        (ids key (by simp [Op.ids])) eventId value
      exact carried.mono fun bad => ⟨key, value, rfl, bad⟩
    | nodeAdd node dot | nodeRemove node dots | edgeAdd src dst label dot
    | edgeRemove src dst label dots | edgePropSet src dst label key value | blobValue node oid =>
      simp [shape, setsPropertyOf] at wanted

theorem isLegacyNodeSegment_of_valid (valid : ValidId x) : isLegacyNodeSegment x = true := by
  simp [isLegacyNodeSegment, isLegacyEdgeTypeSegment, valid.nonempty, valid.separated,
    valid.unprefixed]

theorem decodeVisibleNodePropertyKey_encode (validNode : ValidId node) (validKey : ValidId key) :
    decodeVisibleNodePropertyKey (encodePropKey node key) = some ⟨node, key⟩ := by
  unfold decodeVisibleNodePropertyKey
  rw [isEdgePropKey_encodePropKey key validNode, encodePropKey,
    split_append_cons _ validNode.separated, split_of_not_mem validKey.separated]
  simp [validNode.nonempty, validKey.nonempty]

theorem nodeOwnerRegister_eq_some_iff (s : WarpState V) (keyed : s.Keyed) (x) (valid : ValidId x)
    (k) (r) (found : s.prop.get k = some r) (record) :
    nodeOwnerRegister x k r = some record ↔
      ∃ key, ValidId key ∧ k = encodePropKey x key ∧ true = true ∧ record = (key, r.value) := by
  simp only [nodeOwnerRegister, Option.bind_eq_bind, Option.bind_eq_some_iff,
    Option.guard_eq_some', exists_const, Option.pure_def, Option.some.injEq]
  constructor
  · rintro ⟨-, parts, decoded, own, rfl⟩
    rcases keyed.props k r found with ⟨node, key, validNode, validKey, rfl⟩ | edgeKey
    · rw [decodeVisibleNodePropertyKey_encode validNode validKey] at decoded
      cases decoded
      exact ⟨key, validKey, by rw [← own], trivial, rfl⟩
    · -- the key of an edge property names no node
      obtain ⟨src, dst, label, key, -, -, -, -, rfl⟩ := edgeKey
      simp [decodeVisibleNodePropertyKey] at decoded
  · rintro ⟨key, validKey, rfl, -, rfl⟩
    have starts : (encodePropKey x []).isPrefixOf (encodePropKey x key) = true := by
      rw [ isPrefixOf_iff_prefix]
      exact ⟨key, by simp [encodePropKey]⟩
    exact ⟨starts, _, decodeVisibleNodePropertyKey_encode valid validKey, rfl, rfl⟩

/-! ### Edges -/

/-- A write of a property of the edge that is not a property value. -/
def InvalidEdgeWrite (isPropValue : V → Bool) (edge : EdgeParts) (op : Op V) : Prop :=
  ∃ key value, op = .edgePropSet edge.src edge.dst edge.label key value ∧ isPropValue value = false

/-- The birth and the registers of one edge. -/
structure FollowsEdge (isPropValue : V → Bool) (edge : EdgeParts) (replay : TargetedEdgeReplay V)
    (s : WarpState V) : Prop where
  birth : replay.birthEvent = s.edgeBirthEvent.get edge.key
  mirrors : Mirrors isPropValue edge.propKey replay.registers s

theorem FollowsEdge.congr (follows : FollowsEdge isPropValue edge replay s)
    (births : t.edgeBirthEvent = s.edgeBirthEvent) (props : t.prop = s.prop) :
    FollowsEdge isPropValue edge replay t where
  birth := by rw [births, follows.birth]
  mirrors := follows.mirrors.congr props

theorem FollowsEdge.frame (follows : FollowsEdge isPropValue edge replay s) (encodedKey eventId)
    (value : V) (apart : ∀ key, ValidId key → encodedKey ≠ edge.propKey key) :
    FollowsEdge isPropValue edge replay (s.mutatePropLWW encodedKey eventId value) where
  birth := by
    rw [(s.mutatePropLWW_frame encodedKey eventId value).2.2.2, follows.birth]
  mirrors := follows.mirrors.frame encodedKey eventId value apart

theorem recordBirthEvent_eq_later (birthEvent) (eventId) :
    recordBirthEvent birthEvent eventId = later id birthEvent (some eventId) := by
  cases birthEvent with
  | none => rfl
  | some birth =>
    simp only [recordBirthEvent, later, compareEventIds_pos_iff, id]
    by_cases newer : birth < eventId
    · rw [if_pos newer, if_neg (not_le.mpr newer)]
    · rw [if_neg newer, if_pos (not_lt.mp newer)]

theorem edge_shadow (valid : edge.Valid) :
    Shadow (targetsEdge edge) (takeEdgeOp isPropValue) (FollowsEdge isPropValue edge)
      (InvalidEdgeWrite isPropValue edge) where
  frontier := fun replay s vv follows => follows.congr rfl rfl
  other := fun replay s canonOp eventId unwanted follows => by
    have ids := canonOp.validIds
    cases shape : canonOp.op with
    | nodePropSet node key value =>
      rw [shape] at ids
      apply follows.frame
      exact fun own _ same =>
        encodeEdgePropKey_ne_encodePropKey (ids node (by simp [Op.ids])) same.symm
    | edgePropSet src dst label key value =>
      rw [shape] at ids unwanted
      have apart : (⟨src, dst, label⟩ : EdgeParts) ≠ edge := by simpa [targetsEdge] using unwanted
      have other : (⟨src, dst, label⟩ : EdgeParts).Valid :=
        ⟨ids src (by simp [Op.ids]), ids dst (by simp [Op.ids]), ids label (by simp [Op.ids])⟩
      apply follows.frame
      intro own valid_own same
      exact apart (edgePropKey_inj other valid (ids key (by simp [Op.ids])) valid_own same).1
    | edgeAdd src dst label dot =>
      rw [shape] at ids unwanted
      have apart : (⟨src, dst, label⟩ : EdgeParts) ≠ edge := by simpa [targetsEdge] using unwanted
      have other : (⟨src, dst, label⟩ : EdgeParts).Valid :=
        ⟨ids src (by simp [Op.ids]), ids dst (by simp [Op.ids]), ids label (by simp [Op.ids])⟩
      constructor
      · have elsewhere : encodeEdgeKey src dst label ≠ edge.key :=
          fun same => apart (edgeKey_inj other valid same)
        simp only [Op.mutate, WarpState.get_bumpBirthEvent]
        rw [if_neg elsewhere, follows.birth]
      · exact follows.mirrors.congr rfl
    | nodeAdd node dot | nodeRemove node dots | edgeRemove src dst label dots
    | blobValue node oid => exact follows.congr rfl rfl
  wanted := fun replay s canonOp eventId wanted follows => by
    have ids := canonOp.validIds
    cases shape : canonOp.op with
    | edgeAdd src dst label dot =>
      rw [shape] at wanted
      have own : (⟨src, dst, label⟩ : EdgeParts) = edge := by simpa [targetsEdge] using wanted
      subst own
      constructor
      · simp only [Op.mutate, WarpState.get_bumpBirthEvent, EdgeParts.key, if_true]
        rw [recordBirthEvent_eq_later, follows.birth]
        rfl
      · exact follows.mirrors.congr rfl
    | edgePropSet src dst label key value =>
      rw [shape] at ids wanted
      have own : (⟨src, dst, label⟩ : EdgeParts) = edge := by simpa [targetsEdge] using wanted
      subst own
      have carried := follows.mirrors.record
        (fun a b left right same => (edgePropKey_inj valid valid left right same).2)
        "edge" (ids key (by simp [Op.ids])) eventId value
      simp only [takeEdgeOp]
      cases taken : recordProperty isPropValue "edge" replay.registers key eventId value with
      | error e =>
        rw [taken] at carried
        exact ⟨key, value, rfl, carried⟩
      | ok registers =>
        rw [taken] at carried
        constructor
        · rw [Op.mutate, (s.mutatePropLWW_frame _ eventId value).2.2.2]
          exact follows.birth
        · exact carried
    | nodeAdd node dot | nodeRemove node dots | edgeRemove src dst label dots
    | nodePropSet node key value | blobValue node oid => simp [shape, targetsEdge] at wanted

theorem isVisibleAfterBirth_iff (r : LWWRegister V) (birthEvent) :
    isVisibleAfterBirth r birthEvent = true ↔ Fresh r birthEvent := by
  cases birthEvent with
  | none => simp [isVisibleAfterBirth, Fresh]
  | some birth =>
    have order := compareEventIds_neg_iff r.eventId birth
    simp only [isVisibleAfterBirth, decide_eq_true_eq, Fresh, Option.some.injEq, forall_eq', ← order]
    exact Int.not_lt.symm

theorem edgeOwnerRegister_eq_some_iff (s) (keyed : s.Keyed) (valid : edge.Valid) (k) (r)
    (found : s.prop.get k = some r) (record : JsString × V) :
    edgeOwnerRegister s edge k r = some record ↔ ∃ key, ValidId key ∧ k = edge.propKey key ∧
        isVisibleAfterBirth r (s.edgeBirthEvent.get edge.key) = true ∧ record = (key, r.value) := by
  simp only [edgeOwnerRegister, Option.bind_eq_bind, Option.bind_eq_some_iff,
    Option.guard_eq_some', exists_const, Option.pure_def, Option.some.injEq,
    visibleEdgeRegister_eq_some_iff, isVisibleAfterBirth_iff]
  constructor
  · rintro ⟨-, ⟨owner, propKey⟩, decoded, rfl, r', ⟨rfl, fresh⟩, rfl⟩
    rcases keyed.props k r found with nodeKey | edgeKey
    · -- the key of a node property names no edge
      obtain ⟨node, key, validNode, -, rfl⟩ := nodeKey
      simp [decodeVisibleEdgePropertyKey, isEdgePropKey_encodePropKey key validNode] at decoded
    · obtain ⟨src, dst, label, key, a, b, c, validKey, rfl⟩ := edgeKey
      rw [decodeVisibleEdgePropertyKey_encode a b c validKey] at decoded
      cases decoded
      exact ⟨propKey, validKey, rfl, fresh, rfl⟩
  · rintro ⟨key, validKey, rfl, fresh, rfl⟩
    have starts : (encodeEdgePropKey edge.src edge.dst edge.label []).isPrefixOf
        (edge.propKey key) = true := by
      rw [ isPrefixOf_iff_prefix]
      exact ⟨key, by simp [encodeEdgePropKey, EdgeParts.propKey]⟩
    exact ⟨starts, _, decodeVisibleEdgePropertyKey_encode valid.src valid.dst valid.label
      validKey, rfl, r, ⟨rfl, fresh⟩, rfl⟩

/-! ### The replays and the projections -/

/-- A replay agrees with the projection of the reduced state, or the stream holds a write that
it refuses. -/
def AgreesUnlessRefused {A : Type} (replayed : Except Failure (List (JsString × V)))
    (projected : Except Failure (List A)) (asRecord : JsString × V → A) (refused : Prop) : Prop :=
  match replayed with
  | .ok bag => projected = .ok (bag.map asRecord)
  | .error _ => refused

theorem node_replay_agrees (s) (reduced : reducePatches entries .empty = .ok s) (x)
    (alive : visibleNode s x = true) :
    AgreesUnlessRefused (replayTargetedNodeProperties isPropValue entries x)
      (nodePropertyProjection isPropValue s x) (fun record => ⟨x, record.1, record.2⟩)
      (∃ entry ∈ entries, ∃ op, entry.Holds op ∧ InvalidNodeWrite isPropValue x op) := by
  have keyed := keyed_of_reduced entries reduced
  have valid : ValidId x := by
    obtain ⟨d, tagged, -⟩ := s.nodeAlive.contains_iff.mp alive
    exact keyed.nodes x d tagged
  have carried := (node_shadow x valid).entries entries .empty .empty s reduced
    (Mirrors.empty isPropValue)
  unfold replayTargetedNodeProperties
  cases replayed : replayEntries (setsPropertyOf x) (takeNodeOp isPropValue) entries .empty with
  | error e =>
    rw [replayed] at carried
    exact carried
  | ok registers =>
    rw [replayed] at carried
    obtain ⟨records, projected, sorted⟩ := Mirrors.projected carried (nodeOwnerRegister_eq_some_iff s keyed x valid)
    have whole : (registers.entries.filter fun _ => true) = registers.entries := filter_true _
    simp only [AgreesUnlessRefused, pure, Except.pure, nodePropertyProjection,
      isLegacyNodeSegment_of_valid valid, alive, Bool.and_true, if_true, projected, ok_bind]
    rw [sorted, whole]

theorem edge_replay_agrees (s) (reduced : reducePatches entries .empty = .ok s)
    (visible : edge ∈ visibleEdges s) :
    AgreesUnlessRefused (replayTargetedEdgeProperties isPropValue entries edge)
      (edgePropertyProjection isPropValue s edge) (fun record => ⟨edge, record.1, record.2⟩)
      (∃ entry ∈ entries, ∃ op, entry.Holds op ∧ InvalidEdgeWrite isPropValue edge op) := by
  have keyed := keyed_of_reduced entries reduced
  have valid : edge.Valid := by
    obtain ⟨k, listed, rfl⟩ := mem_map.mp visible
    obtain ⟨src, dst, label, a, b, c, rfl⟩ :=
      visibleEdge_isEdgeKey s keyed (mem_filter.mp listed).2
    rw [decodeEdgeKey_encodeEdgeKey a b c]
    exact ⟨a, b, c⟩
  have target : isLegacyEdgePropertyProjectionTarget edge = true := by
    have label : isLegacyEdgeTypeSegment edge.label = true := by
      simp [isLegacyEdgeTypeSegment, valid.label.nonempty, valid.label.separated]
    simp [isLegacyEdgePropertyProjectionTarget, isLegacyNodeSegment_of_valid valid.src,
      isLegacyNodeSegment_of_valid valid.dst, label]
  have carried := (edge_shadow valid).entries entries ⟨none, .empty⟩ .empty s reduced
    ⟨rfl, Mirrors.empty isPropValue⟩
  unfold replayTargetedEdgeProperties
  cases replayed : replayEntries (targetsEdge edge) (takeEdgeOp isPropValue) entries
      ⟨none, .empty⟩ with
  | error e =>
    rw [replayed] at carried
    exact carried
  | ok replay =>
    rw [replayed] at carried
    obtain ⟨records, projected, sorted⟩ := Mirrors.projected carried.mirrors
      (edgeOwnerRegister_eq_some_iff s keyed valid)
    simp only [AgreesUnlessRefused, pure, Except.pure, edgePropertyProjection, target, visible,
      decide_true, Bool.and_true, if_true, projected, ok_bind]
    rw [sorted, carried.birth]

/-- For the elements that are alive in the reduced state, the replays compute what the
projections report, unless the stream writes something to them that is no property value. -/
theorem targeted_replays_agree (isPropValue : V → Bool) (entries : List (PatchEntry V))
    (s : WarpState V) (reduced : reducePatches entries .empty = .ok s) :
    (∀ x, visibleNode s x = true →
      AgreesUnlessRefused (replayTargetedNodeProperties isPropValue entries x)
        (nodePropertyProjection isPropValue s x) (fun record => ⟨x, record.1, record.2⟩)
        (∃ entry ∈ entries, ∃ op, entry.Holds op ∧ InvalidNodeWrite isPropValue x op)) ∧
    ∀ edge ∈ visibleEdges s,
      AgreesUnlessRefused (replayTargetedEdgeProperties isPropValue entries edge)
        (edgePropertyProjection isPropValue s edge) (fun record => ⟨edge, record.1, record.2⟩)
        (∃ entry ∈ entries, ∃ op, entry.Holds op ∧ InvalidEdgeWrite isPropValue edge op) := by
  constructor
  · intro x alive
    exact node_replay_agrees s reduced x alive
  · intro edge visible
    exact edge_replay_agrees s reduced visible

end

/-! ### An element that is gone -/

def goneDot : Dot := ⟨lit "w", 1, w_named, Nat.one_pos⟩

/-- A patch that adds a node, writes one of its properties and removes it again. -/
def goneEntry : PatchEntry Nat where
  patch :=
    { writer := lit "w"
      lamport := 1
      ops := [.runtime ⟨.nodeAdd (lit "n") goneDot, by decide⟩,
        .runtime ⟨.nodePropSet (lit "n") (lit "k") 7, sampleWrite_check⟩,
        .runtime ⟨.nodeRemove (lit "n") [goneDot.encode], by decide⟩]
      context := .absent }
  sha := lit "abcd"

/-- The replay still answers for a removed node; the projection has nothing to report. -/
theorem targeted_replay_answers_for_removed_node :
    ∃ s, reducePatches [goneEntry] .empty = .ok s ∧
      replayTargetedNodeProperties (fun _ => true) [goneEntry] (lit "n") = .ok [(lit "k", 7)] ∧
      nodePropertyProjection (fun _ => true) s (lit "n") = .ok [] :=
  ⟨_, rfl, rfl, rfl⟩

def livingEntry : PatchEntry Nat where
  patch :=
    { writer := lit "w"
      lamport := 1
      ops := [.runtime ⟨.nodeAdd (lit "n") goneDot, by decide⟩,
        .runtime ⟨.nodePropSet (lit "n") (lit "k") 7, sampleWrite_check⟩]
      context := .absent }
  sha := lit "abcd"

theorem targeted_replays_agree_sample :
    ∃ s, reducePatches [livingEntry] .empty = .ok s ∧ visibleNode s (lit "n") = true ∧
      AgreesUnlessRefused (replayTargetedNodeProperties (fun _ => true) [livingEntry] (lit "n"))
        (nodePropertyProjection (fun _ => true) s (lit "n"))
        (fun record => ⟨lit "n", record.1, record.2⟩)
        (∃ entry ∈ [livingEntry], ∃ op, entry.Holds op ∧
          InvalidNodeWrite (fun _ => true) (lit "n") op) :=
  ⟨_, rfl, by decide, (targeted_replays_agree (fun _ => true) [livingEntry] _ rfl).1 (lit "n")
    (by decide)⟩

end GitWarp
