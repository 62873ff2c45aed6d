import GitWarp.Crdt.ORSet
import GitWarp.Reducer.Op

/-!
# The state and its in-memory reducer

`WarpState` with its component-wise join, the mutation each canonical operation
makes, and the reducer that applies patches one after another. A patch that
throws leaves no state behind, so every reducer returns an `Except`.
-/
namespace GitWarp

open Js Lib KeyCodec List

variable {V : Type}

structure WarpState (V : Type) where
  nodeAlive : ORSet
  edgeAlive : ORSet
  prop : OrdMap JsString (LWWRegister V)
  observedFrontier : VersionVector
  edgeBirthEvent : OrdMap JsString EventId

namespace WarpState

def empty : WarpState V := ⟨.empty, .empty, .empty, .empty, .empty⟩

/-! ### Join -/

/-- `_mergeProps`. -/
def mergeProps (result : OrdMap JsString (LWWRegister V)) :
    List (JsString × LWWRegister V) → OrdMap JsString (LWWRegister V)
  | [] => result
  | (key, regB) :: rest =>
    match lwwMax (result.get key) (some regB) with
    | some winner => mergeProps (result.set key winner) rest
    | none => mergeProps result rest

/-- Keeps the greater of the stored event and a new one. -/
def bumpBirthEvent (births : OrdMap JsString EventId) (edgeKey : JsString) (eventId : EventId) :
    OrdMap JsString EventId :=
  match births.get edgeKey with
  | none => births.set edgeKey eventId
  | some prev => if 0 < compareEventIds eventId prev then births.set edgeKey eventId else births

/-- `_mergeEdgeBirthEvent`. -/
def mergeEdgeBirthEvent (result : OrdMap JsString EventId) :
    List (JsString × EventId) → OrdMap JsString EventId
  | [] => result
  | (key, eventId) :: rest => mergeEdgeBirthEvent (bumpBirthEvent result key eventId) rest

def join (s other : WarpState V) : WarpState V where
  nodeAlive := s.nodeAlive.join other.nodeAlive
  edgeAlive := s.edgeAlive.join other.edgeAlive
  prop := mergeProps s.prop other.prop.entries
  observedFrontier := s.observedFrontier.merge other.observedFrontier
  edgeBirthEvent := mergeEdgeBirthEvent s.edgeBirthEvent other.edgeBirthEvent.entries

/-! ### Mutations -/

def mutatePropLWW (s : WarpState V) (encodedKey : JsString) (eventId : EventId) (value : V) :
    WarpState V :=
  match lwwMax (s.prop.get encodedKey) (some ⟨eventId, value⟩) with
  | some winner => { s with prop := s.prop.set encodedKey winner }
  | none => s

end WarpState

/-- The state change of a canonical operation; a blob value has none. -/
def Op.mutate (op : Op V) (s : WarpState V) (eventId : EventId) : WarpState V :=
  match op with
  | .nodeAdd node dot => { s with nodeAlive := s.nodeAlive.add node dot }
  | .nodeRemove _ observedDots =>
    { s with nodeAlive := s.nodeAlive.remove (OrdSet.ofList observedDots) }
  | .edgeAdd src dst label dot =>
    { s with
      edgeAlive := s.edgeAlive.add (encodeEdgeKey src dst label) dot
      edgeBirthEvent :=
        WarpState.bumpBirthEvent s.edgeBirthEvent (encodeEdgeKey src dst label) eventId }
  | .edgeRemove _ _ _ observedDots =>
    { s with edgeAlive := s.edgeAlive.remove (OrdSet.ofList observedDots) }
  | .nodePropSet node key value => s.mutatePropLWW (encodePropKey node key) eventId value
  | .edgePropSet src dst label key value =>
    s.mutatePropLWW (encodeEdgePropKey src dst label key) eventId value
  | .blobValue _ _ => s

/-! ### Patches -/

inductive PatchContext
  | vector (vv : VersionVector)
  | entries (source : List (JsString × JsNumber))
  | absent

def PatchContext.toVersionVector : PatchContext → Except Failure VersionVector
  | .vector vv => .ok vv
  | .entries source => VersionVector.fromEntries source
  | .absent => VersionVector.fromEntries []

structure PatchLike (V : Type) where
  writer : JsString
  lamport : Int
  ops : List (PatchOp V)
  context : PatchContext

/-- A patch with the sha of the commit that carries it. -/
structure PatchEntry (V : Type) where
  patch : PatchLike V
  sha : JsString

def WarpState.foldPatch (s : WarpState V) (patch : PatchLike V) :
    Except Failure (WarpState V) := do
  let contextVV ← patch.context.toVersionVector
  let merged := s.observedFrontier.merge contextVV
  if (merged.counter patch.writer : Int) < patch.lamport then
    let advanced ← merged.set patch.writer patch.lamport.toNat
    pure { s with observedFrontier := advanced }
  else pure { s with observedFrontier := merged }

/-- The operation loop of `applyFast`, from index `i` on. -/
def applyOps (entry : PatchEntry V) : Nat → List (PatchOp V) → WarpState V →
    Except Failure (WarpState V)
  | _, [], s => .ok s
  | i, rawOp :: rest, s => do
    assertKnownReducerOp rawOp
    match ← normalizeRawOp rawOp with
    | none => applyOps entry (i + 1) rest s
    | some canonOp =>
      let eventId ← EventId.create entry.patch.lamport entry.patch.writer entry.sha i
      applyOps entry (i + 1) rest (canonOp.op.mutate s eventId)

def applyFast (s : WarpState V) (entry : PatchEntry V) : Except Failure (WarpState V) := do
  let mutated ← applyOps entry 0 entry.patch.ops s
  mutated.foldPatch entry.patch

/-- `reducePatches` without options, from an initial state. -/
def reducePatches : List (PatchEntry V) → WarpState V → Except Failure (WarpState V)
  | [], s => .ok s
  | entry :: rest, s => do
    let next ← applyFast s entry
    reducePatches rest next

/-! ### Comparison -/

/-- Equal components, compared as sets and maps. -/
structure WarpState.Equiv (s t : WarpState V) : Prop where
  nodeAlive : s.nodeAlive.Equiv t.nodeAlive
  edgeAlive : s.edgeAlive.Equiv t.edgeAlive
  prop : s.prop.Equiv t.prop
  observedFrontier : s.observedFrontier.Equiv t.observedFrontier
  edgeBirthEvent : s.edgeBirthEvent.Equiv t.edgeBirthEvent

/-! ### Lookups -/

namespace WarpState

theorem get_bumpBirthEvent :
    (bumpBirthEvent births edgeKey eventId).get k =
      if edgeKey = k then later id (births.get k) (some eventId) else births.get k := by
  unfold bumpBirthEvent
  by_cases same : edgeKey = k
  · subst same
    cases found : births.get edgeKey with
    | none => simp [later]
    | some prev =>
      by_cases newer : 0 < compareEventIds eventId prev
      · have above : ¬ eventId ≤ prev := not_le.mpr (compareEventIds_pos_iff.mp newer)
        simp [newer, later, above]
      · have below : eventId ≤ prev :=
          not_lt.mp fun above => newer (compareEventIds_pos_iff.mpr above)
        simp [newer, later, below, found]
  · cases births.get edgeKey with
    | none => simp [same]
    | some prev =>
      simp only [same, if_false]
      split <;> simp [same]

theorem get_mergeEdgeBirthEvent (others) (nodup : (others.map Prod.fst).Nodup) (result) (k) :
    (mergeEdgeBirthEvent result others).get k = later id (result.get k) (assocGet others k) := by
  induction others generalizing result with
  | nil => cases h : result.get k <;> simp [mergeEdgeBirthEvent, assocGet, later, h]
  | cons entry rest ih =>
    obtain ⟨key, eventId⟩ := entry
    simp only [map_cons, nodup_cons] at nodup
    rw [mergeEdgeBirthEvent, ih nodup.2, get_bumpBirthEvent]
    by_cases same : key = k
    · subst same
      have absent : assocGet rest key = none := (assocGet_eq_none_iff rest key).mpr nodup.1
      simp only [absent, if_true, assocGet]
      cases later id (result.get key) (some eventId) <;> rfl
    · simp [assocGet, same]

theorem get_mergeProps (others) (nodup : (others.map Prod.fst).Nodup)
    (result : OrdMap JsString (LWWRegister V)) (k) :
    (mergeProps result others).get k =
      later LWWRegister.eventId (result.get k) (assocGet others k) := by
  induction others generalizing result with
  | nil => cases h : result.get k <;> simp [mergeProps, assocGet, later, h]
  | cons entry rest ih =>
    obtain ⟨key, register⟩ := entry
    simp only [map_cons, nodup_cons] at nodup
    have step : ∃ winner, lwwMax (result.get key) (some register) = some winner := by
      cases result.get key with
      | none => exact ⟨register, rfl⟩
      | some a =>
        simp only [lwwMax]
        split
        · exact ⟨a, rfl⟩
        · exact ⟨register, rfl⟩
    obtain ⟨winner, wins⟩ := step
    rw [mergeProps]
    simp only [wins]
    rw [ih nodup.2, OrdMap.get_set]
    by_cases same : key = k
    · subst same
      have absent : assocGet rest key = none := (assocGet_eq_none_iff rest key).mpr nodup.1
      rw [if_pos rfl, absent, ← wins, lwwMax_eq_later]
      simp only [assocGet, if_true]
      cases later LWWRegister.eventId (result.get key) (some register) <;> rfl
    · simp [assocGet, same]

theorem get_mutatePropLWW (s : WarpState V) (key k eventId) (value : V) :
    (s.mutatePropLWW key eventId value).prop.get k =
      if key = k then later LWWRegister.eventId (s.prop.get k) (some ⟨eventId, value⟩)
      else s.prop.get k := by
  unfold mutatePropLWW
  rw [lwwMax_eq_later]
  by_cases same : key = k
  · subst same
    cases wins : later LWWRegister.eventId (s.prop.get key) (some ⟨eventId, value⟩) with
    | none =>
      cases found : s.prop.get key with
      | none => simp [later, found] at wins
      | some a =>
        simp only [later, found] at wins
        split at wins <;> cases wins
    | some winner => simp
  · cases later LWWRegister.eventId (s.prop.get key) (some ⟨eventId, value⟩) <;> simp [same]

theorem mutatePropLWW_frame (s : WarpState V) (key eventId) (value : V) :
    (s.mutatePropLWW key eventId value).nodeAlive = s.nodeAlive ∧
      (s.mutatePropLWW key eventId value).edgeAlive = s.edgeAlive ∧
      (s.mutatePropLWW key eventId value).observedFrontier = s.observedFrontier ∧
      (s.mutatePropLWW key eventId value).edgeBirthEvent = s.edgeBirthEvent := by
  unfold mutatePropLWW
  split <;> exact ⟨rfl, rfl, rfl, rfl⟩

end WarpState
end GitWarp
