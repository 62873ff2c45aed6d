import GitWarp.Lib.Run
import GitWarp.Reducer.Convergence

/-!
# Hosts, writers and patch builders

Several hosts share one repository of writer chains. A `Writer` that a host hands out keeps
reading the version vector of that time after the host has moved to a new one. A builder
takes its dots from a clone of the vector and publishes through a compare-and-swap on the
head of its writer's chain. `perform` is the system after a call that succeeds or throws.
-/
namespace GitWarp

open Js Lib KeyCodec

variable {V : Type}

/-! ### Builders -/

/-- An id that `validateWriterId` lets through is never empty. -/
abbrev WriterId := {text : JsString // text ≠ []}

structure PatchBuilder (V : Type) where
  writerId : WriterId
  lamport : Int
  vv : VersionVector
  expectedParentSha : Option JsString
  ops : List (CanonicalOp V)
  committed : Bool
  /-- The host whose hook runs after the commit. -/
  host : Nat

namespace PatchBuilder

def assertNotCommitted (b : PatchBuilder V) : Except Failure Unit :=
  if b.committed then
    .error ⟨.patchError, lit "E_PATCH_ALREADY_COMMITTED",
      lit "PatchBuilder already committed — create a new builder"⟩
  else .ok ()

/-- The builder's own check of an identifier, made before the operation's constructor. -/
def assertNoReservedBytes (value : JsString) (label : String) : Except Failure Unit :=
  if fieldSeparator ∈ value then
    .error ⟨.patchError, lit "E_PATCH_IDENTIFIER_NULL_BYTE",
      lit label ++ lit " must not contain null bytes (\\0): " ++ jsonString value⟩
  else if value.head? = some edgePropPrefix then
    .error ⟨.patchError, lit "E_PATCH_IDENTIFIER_RESERVED_PREFIX",
      lit label ++ lit " must not start with reserved prefix \\x01: " ++ jsonString value⟩
  else .ok ()

/-- `increment` of the builder's own vector, for its own writer. -/
def nextDot (b : PatchBuilder V) : Dot × VersionVector :=
  let counter := b.vv.counter b.writerId.val + 1
  (⟨b.writerId.val, counter, b.writerId.property, Nat.succ_pos _⟩,
    b.vv.put b.writerId.val b.writerId.property counter)

/-- Takes a dot and pushes an operation with it. The dot is spent even when the
constructor of the operation rejects its fields. -/
def pushAdd (b : PatchBuilder V) (op : Dot → Op V) : Except Failure Unit × PatchBuilder V :=
  match (op b.nextDot.1).create with
  | .ok created => (.ok (), { b with vv := b.nextDot.2, ops := b.ops ++ [created] })
  | .error e => (.error e, { b with vv := b.nextDot.2 })

def addNode (b : PatchBuilder V) (nodeId : JsString) : Except Failure Unit × PatchBuilder V :=
  let checks := do
    b.assertNotCommitted
    assertNoReservedBytes nodeId "nodeId"
  match checks with
  | .error e => (.error e, b)
  | .ok () => b.pushAdd fun dot => .nodeAdd nodeId dot

def addEdge (b : PatchBuilder V) (src dst label : JsString) :
    Except Failure Unit × PatchBuilder V :=
  let checks := do
    b.assertNotCommitted
    assertNoReservedBytes src "from node ID"
    assertNoReservedBytes dst "to node ID"
    assertNoReservedBytes label "edge label"
  match checks with
  | .error e => (.error e, b)
  | .ok () => b.pushAdd fun dot => .edgeAdd src dst label dot

end PatchBuilder

/-! ### The system -/

/-- `_versionVector` is an address: the vector itself may be shared with writers. -/
structure Host (V : Type) where
  writerId : WriterId
  versionVector : Nat
  cachedState : Option (WarpState V)
  stateDirty : Bool
  maxObservedLamport : Int

structure Writer where
  writerId : WriterId
  versionVector : Nat
  host : Nat

/-- The writer refs with their chains, oldest patch first, and everything the hosts
of the repository hold. -/
structure System (V : Type) where
  chains : OrdMap JsString (List (PatchEntry V))
  vectors : List VersionVector
  hosts : List (Host V)
  writers : List Writer
  builders : List (PatchBuilder V)

namespace System

def empty : System V := ⟨.empty, [], [], [], []⟩

def chain (s : System V) (writerId : JsString) : List (PatchEntry V) :=
  (s.chains.get writerId).getD []

/-- `readRef`: the sha at the tip of a chain. -/
def readRef (s : System V) (writerId : JsString) : Option JsString :=
  (s.chain writerId).getLast?.map PatchEntry.sha

/-- The lamport at the tip, `0` for a writer without commits. -/
def ownTick (s : System V) (writerId : JsString) : Int :=
  ((s.chain writerId).getLast?.map fun entry => entry.patch.lamport).getD 0

def vector (s : System V) (address : Nat) : VersionVector := s.vectors.getD address .empty

/-! ### Calls -/

/-- `open`: an empty version vector and no state. -/
def open_ (s : System V) (writerId : WriterId) : System V :=
  { s with
    vectors := s.vectors ++ [.empty]
    hosts := s.hosts ++ [⟨writerId, s.vectors.length, none, false, 0⟩] }

/-- `streamForFrontier`: chain after chain, up to the ceiling. -/
def streamForFrontier (s : System V) (ceiling : Option Nat) : List (PatchEntry V) :=
  s.chains.values.flatten.filter fun entry =>
    match ceiling with
    | none => true
    | some ceiling => decide (entry.patch.lamport ≤ ceiling)

/-- The state at a coordinate; a ceiling of zero excludes every patch. -/
def replay (s : System V) (ceiling : Option Nat) : Except Failure (WarpState V) :=
  if ceiling = some 0 then .ok .empty
  else reducePatches (s.streamForFrontier ceiling) .empty

/-- The greatest lamport among the replayed patches and in the state's frontier. -/
def maxLamport (entries : List (PatchEntry V)) (state : WarpState V) : Int :=
  max ((entries.map fun entry => entry.patch.lamport).foldl max 0)
    ((state.observedFrontier.entries.values.map fun c => (c : Int)).foldl max 0)

/-- `_onMaterialized`: caches the state and points the host at a fresh clone of its
frontier. Writers that the host handed out before keep the old vector. -/
def onMaterialized (s : System V) (h : Nat) (host : Host V) (state : WarpState V)
    (maxObservedLamport : Int) : System V :=
  { s with
    vectors := s.vectors ++ [state.observedFrontier]
    hosts := s.hosts.set h { host with
      cachedState := some state
      stateDirty := false
      versionVector := s.vectors.length
      maxObservedLamport := max host.maxObservedLamport maxObservedLamport } }

def materialize (s : System V) (h : Nat) (ceiling : Option Nat) : System V :=
  match s.hosts[h]?, s.replay ceiling with
  | some host, .ok state =>
    let replayed := if ceiling = some 0 then [] else s.streamForFrontier ceiling
    s.onMaterialized h host state (maxLamport replayed state)
  | _, _ => s

/-- `createPatch`: the builder clones the host's current vector. -/
def createPatch (s : System V) (h : Nat) : System V :=
  match s.hosts[h]? with
  | none => s
  | some host =>
    { s with
      builders := s.builders ++ [{
        writerId := host.writerId
        lamport := max (s.ownTick host.writerId) host.maxObservedLamport + 1
        vv := s.vector host.versionVector
        expectedParentSha := s.readRef host.writerId
        ops := []
        committed := false
        host := h }] }

/-- `writer`: the handle keeps a reference to the host's vector of this moment. -/
def writer (s : System V) (h : Nat) (writerId : WriterId) : System V :=
  match s.hosts[h]? with
  | none => s
  | some host => { s with writers := s.writers ++ [⟨writerId, host.versionVector, h⟩] }

/-- `beginPatch`: the builder clones the vector that the writer refers to. -/
def beginPatch (s : System V) (w : Nat) : System V :=
  match s.writers[w]? with
  | none => s
  | some writer =>
    { s with
      builders := s.builders ++ [{
        writerId := writer.writerId
        lamport := s.ownTick writer.writerId + 1
        vv := s.vector writer.versionVector
        expectedParentSha := s.readRef writer.writerId
        ops := []
        committed := false
        host := writer.host }] }

def updateBuilder (s : System V) (b : Nat)
    (call : PatchBuilder V → Except Failure Unit × PatchBuilder V) : System V :=
  match s.builders[b]? with
  | none => s
  | some builder => { s with builders := s.builders.set b (call builder).2 }

/-- The patch that `commitPatch` builds: its lamport is above the tip's, its context
is the builder's vector. -/
def commitEntry (s : System V) (builder : PatchBuilder V) (sha : JsString) : PatchEntry V where
  patch :=
    { writer := builder.writerId
      lamport := max builder.lamport (s.ownTick builder.writerId + 1)
      ops := builder.ops.map .runtime
      context := .entries (builder.vv.entries.entries.map fun entry => (entry.1, .int entry.2)) }
  sha := sha

/-- `_onPatchCommitted`: counts one for the commit, then either applies the patch to
the cached state and adopts its frontier, or marks the state dirty. -/
def onPatchCommitted (s : System V) (h : Nat) (writerId : WriterId) (entry : PatchEntry V) :
    System V :=
  match s.hosts[h]? with
  | none => s
  | some host =>
    let counted := (s.vector host.versionVector).put writerId.val writerId.property
      ((s.vector host.versionVector).counter writerId.val + 1)
    let vectors := s.vectors.set host.versionVector counted
    let observed := { host with
      maxObservedLamport := max host.maxObservedLamport entry.patch.lamport }
    match host.cachedState, host.stateDirty with
    | some state, false =>
      match applyFast state entry with
      | .ok applied =>
        { s with
          vectors := vectors ++ [applied.observedFrontier]
          hosts := s.hosts.set h { observed with
            cachedState := some applied
            versionVector := s.vectors.length } }
      | .error _ => { s with vectors := vectors, hosts := s.hosts.set h observed }
    | _, _ =>
      { s with vectors := vectors, hosts := s.hosts.set h { observed with stateDirty := true } }

/-- `commitPatch`: refuses an empty patch and a head that moved since the builder was
created; otherwise the patch becomes the new tip, under the sha the store gives it. -/
def commit (s : System V) (b : Nat) (sha : JsString) : System V :=
  match s.builders[b]? with
  | none => s
  | some builder =>
    if builder.committed || builder.ops.isEmpty then s
    else if s.readRef builder.writerId ≠ builder.expectedParentSha then s
    else
      let entry := s.commitEntry builder sha
      let published := { s with
        chains := s.chains.set builder.writerId (s.chain builder.writerId ++ [entry])
        builders := s.builders.set b { builder with committed := true } }
      published.onPatchCommitted builder.host builder.writerId entry

end System

inductive Action
  | openHost (writerId : WriterId)
  | materialize (host : Nat) (ceiling : Option Nat)
  | createPatch (host : Nat)
  | writer (host : Nat) (writerId : WriterId)
  | beginPatch (writer : Nat)
  | addNode (builder : Nat) (nodeId : JsString)
  | addEdge (builder : Nat) (src dst label : JsString)
  | commit (builder : Nat) (sha : JsString)
  deriving DecidableEq

def perform (s : System V) : Action → System V
  | .openHost writerId => s.open_ writerId
  | .materialize h ceiling => s.materialize h ceiling
  | .createPatch h => s.createPatch h
  | .writer h writerId => s.writer h writerId
  | .beginPatch w => s.beginPatch w
  | .addNode b nodeId => s.updateBuilder b fun builder => builder.addNode nodeId
  | .addEdge b src dst label => s.updateBuilder b fun builder => builder.addEdge src dst label
  | .commit b sha => s.commit b sha

/-! ### Dots of a chain -/

def Op.addDot? : Op V → Option Dot
  | .nodeAdd _ dot => some dot
  | .edgeAdd _ _ _ dot => some dot
  | _ => none

def PatchOp.addDot? : PatchOp V → Option Dot
  | .runtime canonical => canonical.op.addDot?
  | _ => none

def PatchEntry.addDots (entry : PatchEntry V) : List Dot := entry.patch.ops.filterMap PatchOp.addDot?

/-- The dots of all node and edge adds on a chain, in commit order. -/
def chainDots (chain : List (PatchEntry V)) : List Dot := chain.flatMap PatchEntry.addDots

/-- No two adds on the chain of a writer carry the same dot. -/
def System.DotsUnique (s : System V) : Prop := ∀ writerId, (chainDots (s.chain writerId)).Nodup

end GitWarp
