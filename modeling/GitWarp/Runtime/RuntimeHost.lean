import GitWarp.History.Coordinate
import GitWarp.Index.Following
import GitWarp.Lib.Run
import GitWarp.Sync.Applying

/-!
# The runtime host

A host reads a repository that other processes write to as well. It caches a
state with its coordinate, and an index over it; commits are applied to the cached
state in place, sync responses are reduced on top of it, and checkpoints publish it
under the current refs.
-/
namespace GitWarp

open Js Lib

variable {V : Type}

/-! ### The repository -/

/-- A commit as it is handed to the journal: the head it was built on, and the sha that the
repository gives it. -/
structure Append (V : Type) where
  writer : JsString
  expectedHead : Option JsString
  patch : PatchLike V
  sha : JsString

def Append.entry (a : Append V) : PatchEntry V := ⟨a.patch, a.sha⟩

/-- A new commit over a parent that is stored. -/
def CommitStore.append (store : CommitStore V) (sha : JsString) (commit : Commit V) :
    Option (CommitStore V) :=
  if accepted : sha ∉ store.commits.map Prod.fst ∧
      (commit.parent.all fun parent => decide (parent ∈ store.commits.map Prod.fst)) = true then
    some
      { commits := (sha, commit) :: store.commits
        nodup := List.nodup_cons.mpr ⟨accepted.1, store.nodup⟩
        closed := ⟨by
          intro parent isParent
          have stored := accepted.2
          rw [isParent] at stored
          exact of_decide_eq_true stored, store.closed⟩ }
  else none

structure Repository (V : Type) where
  store : CommitStore V
  refs : Frontier
  /-- Retained materializations and snapshots, by their coordinate. -/
  retained : List (Coordinate × WarpState V)
  /-- Published checkpoints, the head first. -/
  checkpoints : List (Frontier × WarpState V)

/-- `appendPatch`: fails unless the writer's ref is still the expected head. -/
def Repository.appendPatch (r : Repository V) (a : Append V) : Option (Repository V) :=
  if r.refs.get a.writer = a.expectedHead then
    (r.store.append a.sha ⟨a.expectedHead, a.patch⟩).map fun store =>
      { r with store := store, refs := r.refs.set a.writer a.sha }
  else none

/-- Commits of other processes, as far as they are accepted. -/
def Repository.appendAll (r : Repository V) (appends : List (Append V)) : Repository V :=
  appends.foldl (fun r a => (r.appendPatch a).getD r) r

def Coordinate.equals (a b : Coordinate) : Bool :=
  decide (a.ceiling = b.ceiling) && decide (a.frontier.size = b.frontier.size) &&
    a.frontier.entries.all fun entry => decide (b.frontier.get entry.1 = some entry.2)

/-! ### Materialization -/

/-- Where a materialization starts: nowhere, at a retained materialization or a snapshot of the
same coordinate, at one of an earlier coordinate, or at the head checkpoint. Retained states may
be gone at any time, so which one is found is left open; what is found must pass the host's own
test. -/
inductive Base
  | scratch
  | exact (i : Nat)
  | snapshot (i : Nat)
  | predecessor (i : Nat)
  | checkpoint

/-- A base state, the patches to reduce on top of it, whether their diff is tracked, and
whether the result is retained under its coordinate. -/
structure Replay (V : Type) where
  base : WarpState V
  patches : List (PatchEntry V)
  tracked : Bool
  retains : Bool

def Repository.replayFromStart (r : Repository V) (target : Coordinate) (wantDiff : Bool) :
    Replay V :=
  let patches := r.store.streamForFrontier target
  ⟨.empty, patches, wantDiff && !patches.isEmpty, true⟩

def Repository.replay (r : Repository V) (target : Coordinate) (wantDiff : Bool) (base : Base) :
    Replay V :=
  if target.frontier.size = 0 ∨ target.ceiling = some 0 then ⟨.empty, [], false, true⟩
  else
    match base with
    | .scratch => r.replayFromStart target wantDiff
    | .exact i =>
      match r.retained[i]? with
      | some (coordinate, state) =>
        if coordinate.equals target then ⟨state, [], wantDiff, false⟩
        else r.replayFromStart target wantDiff
      | none => r.replayFromStart target wantDiff
    | .snapshot i =>
      match r.retained[i]? with
      | some (coordinate, state) =>
        if coordinate.equals target then ⟨state, [], false, false⟩
        else r.replayFromStart target wantDiff
      | none => r.replayFromStart target wantDiff
    | .predecessor i =>
      match r.retained[i]? with
      | some (coordinate, state) =>
        if !wantDiff && r.store.coordinatePrecedes coordinate target then
          ⟨state, r.store.streamForFrontierSinceCoordinate target coordinate, false, true⟩
        else r.replayFromStart target wantDiff
      | none => r.replayFromStart target wantDiff
    | .checkpoint =>
      match r.checkpoints.head? with
      | some (frontier, state) =>
        if target.ceiling = none ∧ r.store.coordinatePrecedes ⟨frontier, none⟩ target = true then
          ⟨state, r.store.streamForFrontierSinceCoordinate target ⟨frontier, none⟩, wantDiff, true⟩
        else r.replayFromStart target wantDiff
      | none => r.replayFromStart target wantDiff

section

variable [StrictEq V]

def Replay.reduce (p : Replay V) : Except Failure (WarpState V × Option (PatchDiff V)) :=
  if p.tracked then
    (reducePatchesWithDiff p.patches p.base).map fun result => (result.1, some result.2)
  else (reducePatches p.patches p.base).map fun state => (state, none)

/-! ### The host -/

structure RuntimeHost (V : Type) where
  repo : Repository V
  cachedState : Option (WarpState V)
  stateDirty : Bool
  cachedCeiling : Option Nat
  cachedFrontier : Option Frontier
  lastFrontier : Option Frontier
  /-- The tree under the logical index and the property reader that the host holds. -/
  logicalIndex : Option (IndexTree V)
  cachedIndexTree : Option (IndexTree V)
  cachedViewHash : Option JsString

namespace RuntimeHost

omit [StrictEq V] in
/-- A host that was just opened. -/
def opened (repo : Repository V) : RuntimeHost V :=
  ⟨repo, none, false, none, none, none, none, none, none⟩

/-- `_buildViewFromResult`: nothing for a state of the hash that the view is of, otherwise an
update of the cached tree if there is a diff and a tree, otherwise a new index. -/
def buildView (stateHash : WarpState V → JsString) (h : RuntimeHost V) (state : WarpState V)
    (diff : Option (PatchDiff V)) : RuntimeHost V :=
  if h.cachedViewHash = some (stateHash state) then h
  else
    let viewResult := match diff, h.cachedIndexTree with
      | some diff, some tree => tree.applyDiff diff state
      | _, _ => IndexTree.build state
    match viewResult with
    | .ok tree => { h with
        logicalIndex := some tree
        cachedIndexTree := some tree
        cachedViewHash := some (stateHash state) }
    | .error _ => { h with logicalIndex := none, cachedIndexTree := none }

/-- `_onMaterialized`; the frontier is read again at the end. -/
def onMaterialized (stateHash : WarpState V → JsString) (h : RuntimeHost V) (target : Coordinate)
    (state : WarpState V) (diff : Option (PatchDiff V)) : RuntimeHost V :=
  let cached := { h with
    cachedState := some state
    stateDirty := false
    cachedCeiling := target.ceiling
    cachedFrontier := some target.frontier }
  let viewed := cached.buildView stateHash state diff
  if target.ceiling = none then { viewed with lastFrontier := some h.repo.refs } else viewed

/-- `materialize`, live or with a ceiling; other processes may commit while it replays. -/
def materialize (stateHash : WarpState V → JsString) (h : RuntimeHost V) (ceiling : Option Nat)
    (base : Base) (during : List (Append V)) : RuntimeHost V :=
  let target : Coordinate := ⟨h.repo.refs, ceiling⟩
  let wantDiff := h.cachedIndexTree.isSome && ceiling.isNone
  let replay := h.repo.replay target wantDiff base
  let repo := h.repo.appendAll during
  match replay.reduce with
  | .error _ => { h with repo := repo }
  | .ok (state, diff) =>
    let retained := if replay.retains then repo.retained ++ [(target, state)] else repo.retained
    onMaterialized stateHash { h with repo := { repo with retained := retained } } target state diff

/-- `_setMaterializedState`; a state without a frontier has no coordinate. -/
def setMaterializedState (stateHash : WarpState V → JsString) (h : RuntimeHost V)
    (state : WarpState V) (diff : Option (PatchDiff V)) (frontier : Option Frontier) :
    RuntimeHost V :=
  { h with
    cachedState := some state
    stateDirty := false
    cachedCeiling := none
    cachedFrontier := frontier }.buildView stateHash state diff

/-- `_onPatchCommitted`: a cached state that is not dirty takes the patch in place. -/
def onPatchCommitted (stateHash : WarpState V → JsString) (h : RuntimeHost V) (a : Append V) :
    RuntimeHost V :=
  match h.cachedState, h.stateDirty with
  | some state, false =>
    match applyWithDiff state a.entry with
    | .error _ => h
    | .ok (next, diff) =>
      { h.setMaterializedState stateHash next (some diff)
          (h.cachedFrontier.map fun frontier => frontier.set a.writer a.sha) with
        lastFrontier := h.lastFrontier.map fun frontier => frontier.set a.writer a.sha }
  | _, _ => { h with stateDirty := true, cachedViewHash := none }

/-- A commit through the host or one of its writers: rejected commits change nothing. -/
def commit (stateHash : WarpState V → JsString) (h : RuntimeHost V) (a : Append V) :
    RuntimeHost V :=
  match h.repo.appendPatch a with
  | none => h
  | some repo => onPatchCommitted stateHash { h with repo := repo } a

/-- `applySyncResponse`; it needs a cached state. -/
def applySync (stateHash : WarpState V → JsString) (h : RuntimeHost V) (response : SyncResponse V) :
    RuntimeHost V :=
  match h.cachedState with
  | none => h
  | some state =>
    match applySyncResponse response state (h.lastFrontier.getD .empty) with
    | .error _ => h
    | .ok result =>
      { h.setMaterializedState stateHash result.state none (some result.frontier) with
        lastFrontier := some result.frontier }

omit [StrictEq V] in
/-- The snapshot of the current refs, where the state cache still has one. -/
def exactSnapshot (h : RuntimeHost V) (snapshot : Option Nat) : Option (Coordinate × WarpState V) :=
  (snapshot.bind fun i => h.repo.retained[i]?).filter fun entry =>
    entry.1.equals ⟨h.repo.refs, none⟩

omit [StrictEq V] in
/-- `createCheckpoint`, at the current refs: a snapshot of exactly these refs is published
again, otherwise the cached state. An automatic checkpoint is the same call after a live
materialization. -/
def createCheckpoint (h : RuntimeHost V) (snapshot : Option Nat) : RuntimeHost V :=
  match h.exactSnapshot snapshot with
  | some (_, state) =>
    { h with repo := { h.repo with checkpoints := (h.repo.refs, state) :: h.repo.checkpoints } }
  | none =>
    match h.cachedState, h.stateDirty with
    | some state, false =>
      { h with repo := { h.repo with
        retained := h.repo.retained ++ [(⟨h.repo.refs, none⟩, state)]
        checkpoints := (h.repo.refs, state) :: h.repo.checkpoints } }
    | _, _ => h

omit [StrictEq V] in
def invalidateIndex (h : RuntimeHost V) : RuntimeHost V :=
  { h with cachedIndexTree := none, cachedViewHash := none }

/-! ### Runs -/

inductive Call (V : Type)
  | materialize (ceiling : Option Nat) (base : Base) (during : List (Append V))
  | commit (a : Append V)
  | foreign (a : Append V)
  | applySync (response : SyncResponse V)
  | createCheckpoint (snapshot : Option Nat)
  | invalidateIndex

def perform (stateHash : WarpState V → JsString) (h : RuntimeHost V) : Call V → RuntimeHost V
  | .materialize ceiling base during => h.materialize stateHash ceiling base during
  | .commit a => h.commit stateHash a
  | .foreign a => { h with repo := h.repo.appendAll [a] }
  | .applySync response => h.applySync stateHash response
  | .createCheckpoint snapshot => h.createCheckpoint snapshot
  | .invalidateIndex => h.invalidateIndex

/-- The host after a run of calls, from a repository that it opened. -/
def reach (stateHash : WarpState V → JsString) (repo : Repository V) (calls : List (Call V)) :
    RuntimeHost V := run (perform stateHash) (opened repo) calls

end RuntimeHost
end
end GitWarp
