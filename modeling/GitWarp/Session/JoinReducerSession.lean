import GitWarp.Codec.PropValue
import GitWarp.Reducer.Receipts
import GitWarp.Session.StateSession

/-!
# The session reducer

The reducer that applies patches to a session instead of a state in memory has code of
its own: unknown types are skipped, values are normalized, and outcomes are computed from
the live dots of an element.
-/
namespace GitWarp

open Js Lib KeyCodec

/-! ### Property values -/

/-- The value of a decoded property write. What is neither a scalar, a byte array, an
array nor an object (undefined, a bigint, a function) is unsupported. -/
inductive ReducerPropInput
  | null
  | boolean (value : Bool)
  | number (value : JsNumber)
  | string (text : JsString)
  | bytes (payload : Bytes)
  | array (items : List ReducerPropInput)
  | object (entries : List (JsString × ReducerPropInput))
  | unsupported (type : JsString)

def propValueError : Failure := patchError (lit "Reducer session prop value is not a valid PropValue")

mutual

def normalizePropValue : ReducerPropInput → Except Failure ReducerPropInput
  | .array items => do
    let normalized ← normalizePropItems items
    pure (.array normalized)
  | .object entries => do
    let normalized ← normalizePropEntries entries
    pure (.object (assignAll normalized))
  | .unsupported _ => .error propValueError
  | value => .ok value

def normalizePropItems : List ReducerPropInput → Except Failure (List ReducerPropInput)
  | [] => .ok []
  | item :: rest => do
    let first ← normalizePropValue item
    let later ← normalizePropItems rest
    pure (first :: later)

def normalizePropEntries :
    List (JsString × ReducerPropInput) → Except Failure (List (JsString × ReducerPropInput))
  | [] => .ok []
  | (key, entry) :: rest => do
    let first ← normalizePropValue entry
    let later ← normalizePropEntries rest
    pure ((key, first) :: later)

end

/-! ### Frames -/

structure ReducerSessionFrame (A : Type) where
  session : A
  prop : OrdMap JsString (LWWRegister ReducerPropInput)
  observedFrontier : VersionVector
  edgeBirthEvent : OrdMap JsString EventId

namespace ReducerSessionFrame

variable {A : Type} (methods : SessionOps A)

def setProperty (frame : ReducerSessionFrame A) (storageKey : JsString) (eventId : EventId)
    (value : ReducerPropInput) : Except Failure (ReducerSessionFrame A) := do
  let normalized ← normalizePropValue value
  match lwwMax (frame.prop.get storageKey) (some ⟨eventId, normalized⟩) with
  | some next => pure { frame with prop := frame.prop.set storageKey next }
  | none => pure frame

def mutateInSession (frame : ReducerSessionFrame A) (op : Op ReducerPropInput) (eventId : EventId) :
    Except Failure (ReducerSessionFrame A) :=
  match op with
  | .nodeAdd node dot => do
    let session ← methods.add .nodes node dot frame.session
    pure { frame with session }
  | .nodeRemove node observedDots => do
    let session ← methods.remove .nodes node (OrdSet.ofList observedDots) frame.session
    pure { frame with session }
  | .edgeAdd src dst label dot => do
    let session ← methods.add .edges (encodeEdgeKey src dst label) dot frame.session
    pure { frame with
      session
      edgeBirthEvent :=
        WarpState.bumpBirthEvent frame.edgeBirthEvent (encodeEdgeKey src dst label) eventId }
  | .edgeRemove src dst label observedDots => do
    let session ← methods.remove .edges (encodeEdgeKey src dst label) (OrdSet.ofList observedDots)
      frame.session
    pure { frame with session }
  | .nodePropSet node key value => frame.setProperty (encodePropKey node key) eventId value
  | .edgePropSet src dst label key value =>
    frame.setProperty (encodeEdgePropKey src dst label key) eventId value
  | .blobValue _ _ => .ok frame

/-! ### Outcomes -/

/-- `propertyOutcome`. -/
def propertyOutcome (prop : OrdMap JsString (LWWRegister ReducerPropInput)) (storageKey : JsString)
    (eventId : EventId) : OpOutcomeResult :=
  match prop.get storageKey with
  | none => .applied storageKey
  | some current =>
    let comparison := compareEventIds eventId current.eventId
    if 0 < comparison then .applied storageKey
    else if comparison < 0 then .superseded storageKey current.eventId
    else .redundant storageKey

/-- `hasEffectiveRemoval` of the live dots of the element. -/
def hasEffectiveRemoval (currentDots : OrdSet JsString) (observedDots : List JsString) : Bool :=
  observedDots.any currentDots.has

/-- The outcome of an addition or a removal, from the live dots of the element. -/
def computeDotOutcome (frame : ReducerSessionFrame A) (which : AliveSet) (element : JsString)
    (outcome : OrdSet JsString → OpOutcomeResult) :
    Except Failure (OpOutcomeResult × ReducerSessionFrame A) := do
  let (dots, session) ← methods.dots which element frame.session
  pure (outcome dots, { frame with session })

def computeOutcome (frame : ReducerSessionFrame A) (op : Op ReducerPropInput) (eventId : EventId) :
    Except Failure (OpOutcomeResult × ReducerSessionFrame A) :=
  match op with
  | .nodeAdd node dot =>
    frame.computeDotOutcome methods .nodes node fun dots =>
      if dots.has dot.encode then .redundant node else .applied node
  | .nodeRemove node observedDots =>
    frame.computeDotOutcome methods .nodes node fun dots =>
      if hasEffectiveRemoval dots observedDots then .applied node else .redundant node
  | .edgeAdd src dst label dot =>
    frame.computeDotOutcome methods .edges (encodeEdgeKey src dst label) fun dots =>
      if dots.has dot.encode then .redundant (encodeEdgeKey src dst label)
      else .applied (encodeEdgeKey src dst label)
  | .edgeRemove src dst label observedDots =>
    frame.computeDotOutcome methods .edges (encodeEdgeKey src dst label) fun dots =>
      if hasEffectiveRemoval dots observedDots then .applied (encodeEdgeKey src dst label)
      else .redundant (encodeEdgeKey src dst label)
  | .nodePropSet node key _ => .ok (propertyOutcome frame.prop (encodePropKey node key) eventId, frame)
  | .edgePropSet src dst label key _ =>
    .ok (propertyOutcome frame.prop (encodeEdgePropKey src dst label key) eventId, frame)
  | .blobValue _ oid => .ok (.applied oid, frame)

/-- `toReceiptOutcome`. -/
def toReceiptOutcome (receiptName : JsString) (outcome : OpOutcomeResult) : OpOutcome :=
  ⟨receiptName, outcome.target, outcome.result, outcome.reason⟩

/-! ### Patches -/

/-- The entries of the merged frontier, written back one by one. -/
def setCounters : List (JsString × Nat) → VersionVector → Except Failure VersionVector
  | [], vv => .ok vv
  | (writerId, counter) :: rest, vv => do
    let next ← vv.set writerId counter
    setCounters rest next

def foldPatchIntoFrame (frame : ReducerSessionFrame A) (patch : PatchLike ReducerPropInput) :
    Except Failure (ReducerSessionFrame A) := do
  let contextVV ← patch.context.toVersionVector
  let merged := frame.observedFrontier.merge contextVV
  let observedFrontier ← setCounters merged.entries.entries frame.observedFrontier
  if (observedFrontier.counter patch.writer : Int) < patch.lamport then
    let advanced ← observedFrontier.set patch.writer patch.lamport.toNat
    pure { frame with observedFrontier := advanced }
  else pure { frame with observedFrontier }

/-- Whether receipts are collected. Diffs are another mode of the same loop. -/
inductive ReplayMode
  | fast
  | receipt
  deriving DecidableEq

/-- The outcome of one operation, where receipts are collected. -/
def receiptOps (mode : ReplayMode) (frame : ReducerSessionFrame A) (op : Op ReducerPropInput)
    (eventId : EventId) : Except Failure (List OpOutcome × ReducerSessionFrame A) :=
  match mode with
  | .fast => .ok ([], frame)
  | .receipt => do
    let (outcome, read) ← frame.computeOutcome methods op eventId
    pure ([toReceiptOutcome op.receiptName outcome], read)

/-- The operation loop of `applyPatchInSession`, from index `i` on. -/
def applyOpsInSession (mode : ReplayMode) (entry : PatchEntry ReducerPropInput) :
    Nat → List (PatchOp ReducerPropInput) → ReducerSessionFrame A →
      Except Failure (List OpOutcome × ReducerSessionFrame A)
  | _, [], frame => .ok ([], frame)
  | i, rawOp :: rest, frame => do
    match ← normalizeRawOp rawOp with
    | none => applyOpsInSession mode entry (i + 1) rest frame
    | some canonOp =>
      let eventId ← EventId.create entry.patch.lamport entry.patch.writer entry.sha i
      let (outcomes, read) ← frame.receiptOps methods mode canonOp.op eventId
      let mutated ← read.mutateInSession methods canonOp.op eventId
      let (later, applied) ← applyOpsInSession mode entry (i + 1) rest mutated
      pure (outcomes ++ later, applied)

/-- A receipt is made in either mode. -/
def applyPatchInSession (mode : ReplayMode) (frame : ReducerSessionFrame A)
    (entry : PatchEntry ReducerPropInput) :
    Except Failure (TickReceipt OpOutcome × ReducerSessionFrame A) := do
  let (outcomes, mutated) ← applyOpsInSession methods mode entry 0 entry.patch.ops frame
  let folded ← mutated.foldPatchIntoFrame entry.patch
  let receipt ← createTickReceipt entry.sha entry.patch.writer entry.patch.lamport outcomes
  pure (receipt, folded)

def applyFastInSession (frame : ReducerSessionFrame A) (entry : PatchEntry ReducerPropInput) :
    Except Failure (ReducerSessionFrame A) := do
  let (_, applied) ← frame.applyPatchInSession methods .fast entry
  pure applied

def applyWithReceiptInSession (frame : ReducerSessionFrame A)
    (entry : PatchEntry ReducerPropInput) :
    Except Failure (TickReceipt OpOutcome × ReducerSessionFrame A) :=
  frame.applyPatchInSession methods .receipt entry

end ReducerSessionFrame

/-- The liveness part of one operation. -/
def mutateLiveness {A : Type} (methods : SessionOps A) (op : Op ReducerPropInput) (session : A) :
    Except Failure A :=
  match op with
  | .nodeAdd node dot => methods.add .nodes node dot session
  | .nodeRemove node observedDots => methods.remove .nodes node (OrdSet.ofList observedDots) session
  | .edgeAdd src dst label dot => methods.add .edges (encodeEdgeKey src dst label) dot session
  | .edgeRemove src dst label observedDots =>
    methods.remove .edges (encodeEdgeKey src dst label) (OrdSet.ofList observedDots) session
  | _ => .ok session

/-- Applies only the part of a patch that the session keeps. -/
def applyLivenessInSession {A : Type} (methods : SessionOps A) :
    List (PatchOp ReducerPropInput) → A → Except Failure A
  | [], session => .ok session
  | rawOp :: rest, session => do
    match ← normalizeRawOp rawOp with
    | none => applyLivenessInSession methods rest session
    | some canonOp =>
      let mutated ← mutateLiveness methods canonOp.op session
      applyLivenessInSession methods rest mutated

/-! ### Refinement -/

namespace ReducerSessionFrame

variable {A B : Type}

/-- Related sessions, and the same beside them. -/
structure Related (R : A → B → Prop) (frame : ReducerSessionFrame A) (frame' : ReducerSessionFrame B) :
    Prop where
  session : R frame.session frame'.session
  prop : frame.prop = frame'.prop
  observedFrontier : frame.observedFrontier = frame'.observedFrontier
  edgeBirthEvent : frame.edgeBirthEvent = frame'.edgeBirthEvent

variable {spec : SessionOps A} {impl : SessionOps B} {R : A → B → Prop}

theorem setProperty_related (related : Related R frame frame') :
    Agree (fun _ _ => True) (Related R) (frame.setProperty storageKey eventId value)
      (frame'.setProperty storageKey eventId value) := by
  unfold setProperty
  rw [← related.prop]
  cases normalizePropValue value with
  | error e => trivial
  | ok normalized =>
    simp only [ok_bind]
    cases lwwMax (frame.prop.get storageKey) (some ⟨eventId, normalized⟩) with
    | none => exact related
    | some next => exact { related with prop := rfl }

theorem session_related (related : Related R frame frame') (births) {y : Except Failure B}
    (both : Agree (fun _ _ => True) R x y) :
    Agree (fun _ _ => True) (Related R)
      (x >>= fun session => pure { frame with session, edgeBirthEvent := births })
      (y >>= fun session => pure { frame' with session, edgeBirthEvent := births }) := by
  apply both.bind
  intro a b _ _ kept
  exact ⟨kept, related.prop, related.observedFrontier, rfl⟩

theorem mutateInSession_related (refines : spec.Refines impl R) (related : Related R frame frame') :
    Agree (fun _ _ => True) (Related R) (frame.mutateInSession spec op eventId)
      (frame'.mutateInSession impl op eventId) := by
  have births := related.edgeBirthEvent
  cases op with
  | nodeAdd node dot =>
    have kept := session_related related frame.edgeBirthEvent
      (refines.add .nodes node dot _ _ related.session)
    simpa only [mutateInSession, ← births] using kept
  | nodeRemove node observedDots =>
    have kept := session_related related frame.edgeBirthEvent
      (refines.remove .nodes node (OrdSet.ofList observedDots) _ _ related.session)
    simpa only [mutateInSession, ← births] using kept
  | edgeAdd src dst label dot =>
    have kept := session_related related
      (WarpState.bumpBirthEvent frame.edgeBirthEvent (encodeEdgeKey src dst label) eventId)
      (refines.add .edges (encodeEdgeKey src dst label) dot _ _ related.session)
    simpa only [mutateInSession, ← births] using kept
  | edgeRemove src dst label observedDots =>
    have kept := session_related related frame.edgeBirthEvent
      (refines.remove .edges (encodeEdgeKey src dst label) (OrdSet.ofList observedDots) _ _
        related.session)
    simpa only [mutateInSession, ← births] using kept
  | nodePropSet node key value | edgePropSet src dst label key value =>
    exact setProperty_related related
  | blobValue node oid => exact related

theorem computeDotOutcome_related (refines : spec.Refines impl R) (related : Related R frame frame') :
    Agree (fun _ _ => True) (fun x y => x.1 = y.1 ∧ Related R x.2 y.2)
      (frame.computeDotOutcome spec which element outcome)
      (frame'.computeDotOutcome impl which element outcome) := by
  apply (refines.dots which element _ _ related.session).bind
  rintro ⟨dots, a⟩ ⟨dots', b⟩ - - ⟨same, kept⟩
  exact ⟨congrArg outcome same, kept, related.prop, related.observedFrontier, related.edgeBirthEvent⟩

theorem computeOutcome_related (refines : spec.Refines impl R) (related : Related R frame frame')
    (op) :
    Agree (fun _ _ => True) (fun x y => x.1 = y.1 ∧ Related R x.2 y.2)
      (frame.computeOutcome spec op eventId) (frame'.computeOutcome impl op eventId) := by
  cases op with
  | nodeAdd node dot | nodeRemove node observedDots | edgeAdd src dst label dot
  | edgeRemove src dst label observedDots =>
    unfold computeOutcome
    exact computeDotOutcome_related refines related
  | nodePropSet node key value | edgePropSet src dst label key value =>
    exact ⟨congrArg (propertyOutcome · _ eventId) related.prop, related⟩
  | blobValue node oid => exact ⟨rfl, related⟩

theorem receiptOps_related (refines : spec.Refines impl R) (related : Related R frame frame') :
    Agree (fun _ _ => True) (fun x y => x.1 = y.1 ∧ Related R x.2 y.2)
      (frame.receiptOps spec mode op eventId) (frame'.receiptOps impl mode op eventId) := by
  cases mode with
  | fast => exact ⟨rfl, related⟩
  | receipt =>
    apply (computeOutcome_related refines related op).bind
    rintro ⟨outcome, read⟩ ⟨outcome', read'⟩ - - ⟨same, kept⟩
    exact ⟨by rw [show outcome = outcome' from same], kept⟩

theorem applyOps_related (refines : spec.Refines impl R) (i) (related : Related R frame frame') :
    Agree (fun _ _ => True) (fun x y => x.1 = y.1 ∧ Related R x.2 y.2)
      (applyOpsInSession spec mode entry i ops frame)
      (applyOpsInSession impl mode entry i ops frame') := by
  induction ops generalizing i frame frame' with
  | nil => exact ⟨rfl, related⟩
  | cons rawOp rest ih =>
    rw [applyOpsInSession, applyOpsInSession]
    cases normalizeRawOp rawOp with
    | error e => trivial
    | ok normalized =>
      cases normalized with
      | none => exact ih (i + 1) related
      | some canonOp =>
        cases EventId.create entry.patch.lamport entry.patch.writer entry.sha i with
        | error e => trivial
        | ok eventId =>
          apply (receiptOps_related refines related).bind
          rintro ⟨outcomes, read⟩ ⟨outcomes', read'⟩ - - ⟨same, kept⟩
          apply (mutateInSession_related refines kept).bind
          intro mutated mutated' _ _ changed
          apply (ih (i + 1) changed).bind
          rintro ⟨later_, applied⟩ ⟨later', applied'⟩ - - ⟨same', kept'⟩
          exact ⟨congrArg₂ _ same same', kept'⟩

theorem foldPatch_related (related : Related R frame frame') :
    Agree (fun _ _ => True) (Related R) (frame.foldPatchIntoFrame patch)
      (frame'.foldPatchIntoFrame patch) := by
  unfold foldPatchIntoFrame
  rw [← related.observedFrontier]
  cases patch.context.toVersionVector with
  | error e => trivial
  | ok contextVV =>
    simp only [ok_bind]
    cases setCounters (frame.observedFrontier.merge contextVV).entries.entries
        frame.observedFrontier with
    | error e => trivial
    | ok merged =>
      simp only [ok_bind]
      split
      · cases merged.set patch.writer patch.lamport.toNat with
        | error e => trivial
        | ok advanced => exact { related with observedFrontier := rfl }
      · exact { related with observedFrontier := rfl }

theorem applyPatch_related (refines : spec.Refines impl R) (related : Related R frame frame') :
    Agree (fun _ _ => True) (fun x y => x.1 = y.1 ∧ Related R x.2 y.2)
      (frame.applyPatchInSession spec mode entry) (frame'.applyPatchInSession impl mode entry) := by
  apply (applyOps_related refines 0 related).bind
  rintro ⟨outcomes, mutated⟩ ⟨outcomes', mutated'⟩ - - ⟨same, kept⟩
  apply (foldPatch_related kept).bind
  intro folded folded' _ _ kept'
  rw [← show outcomes = outcomes' from same]
  cases createTickReceipt entry.sha entry.patch.writer entry.patch.lamport outcomes with
  | error e => trivial
  | ok receipt => exact ⟨rfl, kept'⟩

end ReducerSessionFrame

end GitWarp
