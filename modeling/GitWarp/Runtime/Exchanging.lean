import GitWarp.Runtime.Coherence
import GitWarp.Sync.Exchange

/-!
# Sync exchanges of a host

A host asks with its current refs, a peer answers with what it has at that time, and
the answer is applied whenever it arrives. Commits are named by their content, so one
store holds those of all parties. The cached state stays with the recorded frontier as
long as the request lies at or behind the recorded tips, and these behind the answer.
-/
namespace GitWarp

open Js Lib List Option CommitStore

variable {V : Type}

/-! ### The network -/

structure Network (V : Type) where
  host : RuntimeHost V
  /-- The requests of the host, oldest first. -/
  requests : List SyncRequest
  /-- The responses that were given, each with the request it answers. -/
  responses : List (SyncRequest × SyncResponse V)

inductive NetworkEvent (V : Type)
  /-- A call on the host other than the application of a response. -/
  | call (call : RuntimeHost.Call V)
  /-- A commit of another party, in a repository of its own. -/
  | remote (a : Append V)
  /-- A ref of the host's repository is moved to a commit of another party. -/
  | fetch (writer tip : JsString)
  | createSyncRequest
  | processSyncRequest (i : Nat) (peer : Persistence V) (refs : Frontier)
  | applySyncResponse (j : Nat)

namespace Network

section

variable [StrictEq V] (stateHash : WarpState V → JsString)
variable (collate : List (JsString × WriterRange) → List (JsString × WriterRange))

omit [StrictEq V] in
def opened (repo : Repository V) : Network V := ⟨RuntimeHost.opened repo, [], []⟩

omit [StrictEq V] in
def store (n : Network V) : CommitStore V := n.host.repo.store

omit [StrictEq V] in
def withRepo (n : Network V) (repo : Repository V) : Network V :=
  { n with host := { n.host with repo := repo } }

def perform (n : Network V) : NetworkEvent V → Network V
  | .call call => { n with host := n.host.perform stateHash call }
  | .remote a =>
    match n.store.append a.sha ⟨a.expectedHead, a.patch⟩ with
    | none => n
    | some store => n.withRepo { n.host.repo with store := store }
  | .fetch writer tip =>
    if n.store.has tip then
      n.withRepo { n.host.repo with refs := n.host.repo.refs.set writer tip }
    else n
  | .createSyncRequest =>
    { n with requests := n.requests ++ [GitWarp.createSyncRequest n.host.repo.refs] }
  | .processSyncRequest i peer refs =>
    match n.requests[i]? with
    | none => n
    | some request =>
      match GitWarp.processSyncRequest collate request refs peer with
      | .error _ => n
      | .ok response => { n with responses := n.responses ++ [(request, response)] }
  | .applySyncResponse j =>
    match n.responses[j]? with
    | none => n
    | some (_, response) => { n with host := n.host.applySync stateHash response }

def reach (repo : Repository V) (events : List (NetworkEvent V)) : Network V :=
  run (perform stateHash collate) (opened repo) events

end

/-! ### Parties that follow the protocol -/

/-- Patches that builders can produce, and no response but those of the network. -/
def WellFormed : NetworkEvent V → Prop
  | .call (.applySync _) => False
  | .call call => call.WellFormed
  | .remote a => a.entry.WellFormed
  | _ => True

/-- A peer has commits of the network and the tips that it answers with. -/
def Honest (n : Network V) : NetworkEvent V → Prop
  | .processSyncRequest _ peer refs => peer.store.commits ⊆ n.store.commits ∧
      ∀ w tip, refs.get w = some tip → peer.store.has tip = true
  | _ => True

/-- The response goes on from the recorded frontier: the tips that were asked with are at or
behind the recorded ones, and these at or behind the last patches of the response. -/
def Continues (h : RuntimeHost V) (request : SyncRequest) (response : SyncResponse V) : Prop :=
  ∀ w last, (patchesOf response.patches w).getLast? = some last →
    (∀ asked, request.frontier.get w = some asked →
      ∃ tip, h.tip w = some tip ∧ asked ∈ (h.repo.store.chain tip).map PatchEntry.sha) ∧
    ∀ tip, h.tip w = some tip → tip ∈ (h.repo.store.chain last.sha).map PatchEntry.sha

/-- No event separates the cached state from the recorded frontier. -/
def Careful (n : Network V) : NetworkEvent V → Prop
  | .call call => n.host.Careful call
  | .applySyncResponse j => n.host.cachedState.isSome = true → n.host.cachedCeiling = none ∧
      ∀ request response, n.responses[j]? = some (request, response) →
        Continues n.host request response
  | _ => True

end Network

/-! ### A store that only grows -/

theorem sameCommits_of_subset {s t : CommitStore V} (grown : s.commits ⊆ t.commits) :
    SameCommits s t := by
  intro sha c c' left right
  have one := inj_on_of_nodup_map t.nodup (grown left) right rfl
  cases one
  rfl

theorem has_of_subset {s t : CommitStore V} (grown : s.commits ⊆ t.commits)
    (stored : s.has sha = true) : t.has sha = true := by
  obtain ⟨commit, mem⟩ := exists_commit s stored
  exact decide_eq_true (mem_map_of_mem (grown mem))

theorem chain_of_subset {s t : CommitStore V} (grown : s.commits ⊆ t.commits)
    (stored : s.has sha = true) : t.chain sha = s.chain sha := by
  have same := sameCommits_of_subset grown
  exact (chain_same s t same stored (has_of_subset grown stored)).symm

namespace Repository

theorem subset_appendPatch {r r' : Repository V} (appended : r.appendPatch a = some r') :
    r.store.commits ⊆ r'.store.commits := by
  obtain ⟨store, -, ok, rfl⟩ := appendPatch_spec appended
  obtain ⟨commits, -, -⟩ := append_spec ok
  rw [commits]
  exact subset_cons_self _ _

theorem subset_appendAll (r : Repository V) (appends) :
    r.store.commits ⊆ (r.appendAll appends).store.commits := by
  induction appends generalizing r with
  | nil => exact List.Subset.refl _
  | cons a rest ih =>
    rw [appendAll, foldl_cons]
    cases appended : r.appendPatch a with
    | none => exact ih r
    | some next => exact List.Subset.trans (subset_appendPatch appended) (ih next)

end Repository

namespace RuntimeHost

section

variable [StrictEq V] (stateHash : WarpState V → JsString)

omit [StrictEq V] in
theorem buildView_repo (h : RuntimeHost V) (state diff) :
    (h.buildView stateHash state diff).repo = h.repo := by
  obtain ⟨index, tree, hash, viewed⟩ := buildView_eq stateHash h
  rw [viewed]

omit [StrictEq V] in
theorem setMaterializedState_repo (h : RuntimeHost V) (state diff frontier) :
    (h.setMaterializedState stateHash state diff frontier).repo = h.repo := by
  rw [setMaterializedState, buildView_repo]

theorem subset_materialize (h : RuntimeHost V) : h.repo.store.commits ⊆
      (h.materialize stateHash ceiling base during).repo.store.commits := by
  have grown := h.repo.subset_appendAll during
  unfold materialize
  dsimp only
  split
  · exact grown
  · unfold onMaterialized
    dsimp only
    split
    · simp only [buildView_repo]
      exact grown
    · rw [buildView_repo]
      exact grown

theorem subset_commit (h : RuntimeHost V) (a) :
    h.repo.store.commits ⊆ (h.commit stateHash a).repo.store.commits := by
  unfold commit
  split
  · exact List.Subset.refl _
  next repo appended =>
    have grown := Repository.subset_appendPatch appended
    unfold onPatchCommitted
    split
    · split
      · exact grown
      · simp only [setMaterializedState_repo]
        exact grown
    · exact grown

omit [StrictEq V] in
theorem applySync_repo (h : RuntimeHost V) (response) :
    (h.applySync stateHash response).repo = h.repo := by
  unfold applySync
  split
  · rfl
  · split
    · rfl
    · exact setMaterializedState_repo stateHash h _ _ _

omit [StrictEq V] in
theorem createCheckpoint_store (h : RuntimeHost V) (snapshot) :
    (h.createCheckpoint snapshot).repo.store = h.repo.store := by
  unfold createCheckpoint
  split
  · rfl
  · split <;> rfl

theorem subset_perform (h : RuntimeHost V) :
    h.repo.store.commits ⊆ (h.perform stateHash call).repo.store.commits := by
  cases call with
  | materialize ceiling base during => exact h.subset_materialize stateHash
  | commit a => exact h.subset_commit stateHash a
  | foreign a => exact h.repo.subset_appendAll [a]
  | applySync response =>
    rw [perform, applySync_repo]
    exact List.Subset.refl _
  | createCheckpoint snapshot =>
    rw [perform, createCheckpoint_store]
    exact List.Subset.refl _
  | invalidateIndex => exact List.Subset.refl _

end
end RuntimeHost

namespace Network

/-! ### Requests and their answers -/

/-- A request of stored tips. -/
structure Asked (store : CommitStore V) (request : SyncRequest) : Prop where
  unbounded : request.page = .unbounded
  tips : ∀ w tip, request.frontier.get w = some tip → tip ≠ [] ∧ store.has tip = true

/-- Behind the last patch of a writer are the patches behind the tip that was asked with and
those of the response. -/
def Answered (store : CommitStore V) (request : SyncRequest) (response : SyncResponse V) : Prop :=
  ∀ w last, (patchesOf response.patches w).getLast? = some last →
    last.sha ≠ [] ∧ store.has last.sha = true ∧ ∀ e, e ∈ store.chain last.sha ↔
      (∃ asked, request.frontier.get w = some asked ∧ e ∈ store.chain asked) ∨
        e ∈ patchesOf response.patches w

theorem asked_createSyncRequest {r : Repository V} (refs : r.Stored r.refs) :
    Asked r.store (GitWarp.createSyncRequest r.refs) := by
  refine ⟨rfl, fun w tip found => ?_⟩
  rw [GitWarp.createSyncRequest] at found
  rw [get_frontierToObject] at found
  split at found
  · cases found
  · exact refs w tip found

theorem Asked.grow {s t : CommitStore V} (asked : Asked s request) (grown : s.commits ⊆ t.commits) :
    Asked t request := by
  refine ⟨asked.unbounded, fun w tip found => ?_⟩
  obtain ⟨named, stored⟩ := asked.tips w tip found
  exact ⟨named, has_of_subset grown stored⟩

theorem Answered.grow {response : SyncResponse V} (answered : Answered s request response)
    (asked : Asked s request) (grown : s.commits ⊆ t.commits) : Answered t request response := by
  intro w last ends
  obtain ⟨named, stored, members⟩ := answered w last ends
  refine ⟨named, has_of_subset grown stored, fun e => ?_⟩
  rw [chain_of_subset grown stored, members]
  apply or_congr_left
  constructor
  · rintro ⟨tip, found, behind⟩
    rw [← chain_of_subset grown (asked.tips w tip found).2] at behind
    exact ⟨tip, found, behind⟩
  · rintro ⟨tip, found, behind⟩
    rw [chain_of_subset grown (asked.tips w tip found).2] at behind
    exact ⟨tip, found, behind⟩

theorem answered_of_processed (sorts : ∀ ranges, (collate ranges).Perm ranges) {store}
    (valid : store.Valid) (asked : Asked store request) {refs}
    (known : peer.store.commits ⊆ store.commits)
    (tips : ∀ w tip, refs.get w = some tip → peer.store.has tip = true) {response : SyncResponse V}
    (processed : GitWarp.processSyncRequest collate request refs peer = .ok response) :
    Answered store request response := by
  -- what an honest peer answers
  intro w last ends
  obtain ⟨answers, held⟩ := patchesOf_response collate sorts asked.unbounded processed
  rw [get_needFromRemote, get_objectToFrontier] at answers held
  cases theirs : refs.get w with
  | none =>
    -- a writer that the peer does not have is not in the response
    rw [theirs] at held
    rw [held] at ends
    cases ends
  | some y =>
    have stored := tips w y theirs
    have everywhere := has_of_subset known stored
    have named := valid.named everywhere
    have whole := chain_of_subset known stored
    rw [theirs] at answers held
    dsimp only at answers held
    cases mine : request.frontier.get w with
    | none =>
      rw [mine, if_neg (by simp)] at held
      dsimp only at held
      rw [sentPatches_new peer named] at held
      have tip := getLast?_load peer.store none named stored (by simp)
      rw [← CommitStore.chain, ← held, ends, map_some, Option.some.injEq] at tip
      subst tip
      refine ⟨named, everywhere, fun e => ?_⟩
      rw [whole, held]
      simp
    | some x =>
      rw [mine] at answers held
      by_cases equal : x = y
      · -- the requester has the peer's tip, so nothing is sent
        rw [if_pos (congrArg some equal)] at held
        rw [held] at ends
        cases ends
      · have apart : ¬ some x = some y := fun same => equal (Option.some.inj same)
        rw [if_neg apart] at answers held
        dsimp only at held
        rw [sentPatches_known peer (asked.tips w x mine).1 named equal stored
          (answers _ rfl)] at held
        split at held
        next passes =>
          have tip := getLast?_load peer.store (some x) named stored fun same => apart same.symm
          rw [← held, ends, map_some, Option.some.injEq] at tip
          subst tip
          refine ⟨named, everywhere, fun e => ?_⟩
          -- the chain is the one of the asked tip followed by the patches that are sent
          have before := chain_of_subset known
            (has_of_mem_chain peer.store passes)
          rw [whole, peer.store.chain_split (asked.tips w x mine).1 passes,
            mem_append, ← held, ← before]
          simp
        next => rw [held] at ends; cases ends

theorem Answered.wellFormed {store request response} (answered : Answered store request response)
    (valid : store.Valid) {item : SyncPatchEntry V} (listed : item ∈ response.patches) :
    item.entry.WellFormed := by
  have own : item.entry ∈ patchesOf response.patches item.writerId :=
    mem_map_of_mem (mem_filter.mpr ⟨listed, by simp⟩)
  cases ends : (patchesOf response.patches item.writerId).getLast? with
  | none =>
    rw [List.getLast?_eq_none_iff] at ends
    rw [ends] at own
    cases own
  | some last =>
    obtain ⟨-, -, members⟩ := answered item.writerId last ends
    exact valid.load ((members item.entry).mpr (Or.inr own))

theorem fetched_of_continues (coherent : h.Coherent) {response : SyncResponse V}
    (asked : Asked h.repo.store request) (answered : Answered h.repo.store request response)
    (continues : Continues h request response) : h.Fetched response := by
  -- an answer that goes on from the recorded frontier is fetched from it
  intro w last ends
  obtain ⟨named, stored, members⟩ := answered w last ends
  obtain ⟨past, ahead⟩ := continues w last ends
  refine ⟨named, stored, fun e => ?_⟩
  rw [members]
  constructor
  · rintro (⟨x, found, behind⟩ | sent)
    · obtain ⟨tip, recorded, inside⟩ := past x found
      have part := chain_subset_of_mem h.repo.store (asked.tips w x found).1 inside
      exact Or.inl ⟨tip, recorded, part behind⟩
    · exact Or.inr sent
  · rintro (⟨tip, recorded, behind⟩ | sent)
    · -- the recorded tip is named, for it is the tip of a stored frontier
      have tipped : tip ≠ [] := by
        cases record : h.lastFrontier with
        | none =>
          rw [RuntimeHost.tip, record] at recorded
          cases recorded
        | some f =>
          rw [RuntimeHost.tip, record] at recorded
          exact (coherent.last f record w tip recorded).1
      have part := chain_subset_of_mem h.repo.store tipped (ahead tip recorded)
      exact (members e).mp (part behind)
    · exact Or.inr sent

/-! ### Coherence along a run -/

/-- What holds of a network along a careful run. -/
structure Coherent (n : Network V) : Prop where
  host : n.host.Coherent
  requests : ∀ request ∈ n.requests, Asked n.store request
  responses : ∀ request response, (request, response) ∈ n.responses →
    Asked n.store request ∧ Answered n.store request response

theorem coherent_opened {repo : Repository V} (sound : repo.Sound) : (opened repo).Coherent where
  host := RuntimeHost.coherent_opened sound
  requests := fun _ mem => nomatch mem
  responses := fun _ _ mem => nomatch mem

theorem Coherent.withHost {n : Network V} (coherent : n.Coherent) (host) (kept : host.Coherent)
    (grown : n.store.commits ⊆ host.repo.store.commits) :
    ({ n with host := host } : Network V).Coherent where
  host := kept
  requests := fun request mem => (coherent.requests request mem).grow grown
  responses := by
    intro request response mem
    obtain ⟨asked, answered⟩ := coherent.responses request response mem
    exact ⟨asked.grow grown, answered.grow asked grown⟩

theorem remote_grows {r : Repository V} (sound : r.Sound) (a : Append V) (good : a.entry.WellFormed)
    {store} (appended : r.store.append a.sha ⟨a.expectedHead, a.patch⟩ = some store) :
    ({ r with store := store } : Repository V).Sound ∧ r.Grows { r with store := store } := by
  -- a commit of another party leaves everything behind the host's tips as it is
  obtain ⟨commits, -, -⟩ := append_spec appended
  have grown : r.store.commits ⊆ store.commits := by
    rw [commits]
    exact subset_cons_self _ _
  have grows : r.Grows { r with store := store } := by
    refine ⟨fun frontier stored w tip found => ?_, fun c stored e => ?_, rfl, rfl⟩
    · obtain ⟨named, has⟩ := stored w tip found
      exact ⟨named, has_of_subset grown has⟩
    · simp only [mem_streamForFrontier]
      apply and_congr_left
      intro _
      constructor
      · rintro ⟨w, tip, found, mem⟩
        rw [chain_of_subset grown (stored w tip found).2] at mem
        exact ⟨w, tip, found, mem⟩
      · rintro ⟨w, tip, found, mem⟩
        rw [← chain_of_subset grown (stored w tip found).2] at mem
        exact ⟨w, tip, found, mem⟩
  refine ⟨⟨sound.valid.append appended good, grows.stored r.refs sound.refs, ?_, ?_⟩, grows⟩
  · intro c s mem
    obtain ⟨stored, reads⟩ := sound.retained c s mem
    exact ⟨grows.stored c.frontier stored, reads.grows grows stored⟩
  · intro f s mem
    obtain ⟨stored, reads⟩ := sound.checkpoints f s mem
    exact ⟨grows.stored f stored, reads.grows grows stored⟩

theorem fetch_grows {r : Repository V} (sound : r.Sound) {tip} (stored : r.store.has tip = true) :
    ({ r with refs := r.refs.set w tip } : Repository V).Sound ∧
      r.Grows { r with refs := r.refs.set w tip } := by
  refine ⟨⟨sound.valid, fun w' tip' found => ?_, sound.retained, sound.checkpoints⟩,
    fun _ kept => kept, fun _ _ _ => Iff.rfl, rfl, rfl⟩
  rw [OrdMap.get_set] at found
  split at found
  · cases found
    exact ⟨sound.valid.named stored, stored⟩
  · exact sound.refs w' tip' found

section

variable [StrictEq V] (stateHash : WarpState V → JsString)
variable (collate : List (JsString × WriterRange) → List (JsString × WriterRange))

omit [StrictEq V] in
/-- A response that goes on from the recorded frontier keeps the cached state with it. -/
theorem Coherent.applySync {n : Network V} (coherent : n.Coherent)
    (given : (request, response) ∈ n.responses) (careful : n.host.cachedState.isSome = true →
      n.host.cachedCeiling = none ∧ Continues n.host request response) :
    (n.host.applySync stateHash response).Coherent := by
  obtain ⟨asked, answered⟩ := coherent.responses request response given
  cases held : n.host.cachedState with
  | none =>
    rw [RuntimeHost.applySync, held]
    exact coherent.host
  | some state =>
    cases applied : GitWarp.applySyncResponse response state (n.host.lastFrontier.getD .empty) with
    | error e =>
      -- a response that is refused changes nothing
      rw [RuntimeHost.applySync, held]
      dsimp only
      rw [applied]
      exact coherent.host
    | ok result =>
      obtain ⟨open_, continues⟩ := careful (by rw [held]; rfl)
      have raw := raw_of_applySyncResponse response state _ result applied
      apply coherent.host.applySync stateHash
      · intro item listed
        exact ⟨answered.wellFormed coherent.host.repo.valid listed, raw item listed⟩
      · intro _
        exact ⟨open_, fetched_of_continues coherent.host asked answered continues⟩

/-- Every careful event among honest parties keeps the network coherent. -/
theorem Coherent.perform (sorts : ∀ ranges, (collate ranges).Perm ranges) {n : Network V}
    (coherent : n.Coherent) (good : WellFormed event) (honest : n.Honest event)
    (careful : n.Careful event) : (n.perform stateHash collate event).Coherent := by
  cases event with
  | call call =>
    have fits : call.WellFormed := by
      cases call with
      | applySync response => cases good
      | _ => exact good
    apply coherent.withHost
    · exact coherent.host.perform stateHash fits careful
    · exact n.host.subset_perform stateHash
  | remote a =>
    rw [Network.perform]
    cases appended : n.store.append a.sha ⟨a.expectedHead, a.patch⟩ with
    | none => exact coherent
    | some store =>
      obtain ⟨sound, grows⟩ := remote_grows coherent.host.repo a good appended
      apply coherent.withHost
      · exact coherent.host.grow sound grows
      · show n.store.commits ⊆ store.commits
        rw [(append_spec appended).1]
        exact subset_cons_self _ _
  | fetch w tip =>
    rw [Network.perform]
    split
    next stored =>
      obtain ⟨sound, grows⟩ := fetch_grows coherent.host.repo stored
      apply coherent.withHost
      · exact coherent.host.grow sound grows
      · exact List.Subset.refl _
    next => exact coherent
  | createSyncRequest =>
    refine ⟨coherent.host, fun request mem => ?_, coherent.responses⟩
    rcases mem_append.mp mem with old | new
    · exact coherent.requests request old
    · cases mem_singleton.mp new
      exact asked_createSyncRequest coherent.host.repo.refs
  | processSyncRequest i peer refs =>
    rw [Network.perform]
    cases sent : n.requests[i]? with
    | none => exact coherent
    | some request =>
      dsimp only
      cases processed : GitWarp.processSyncRequest collate request refs peer with
      | error e => exact coherent
      | ok response =>
        have asked := coherent.requests request (mem_of_getElem? sent)
        refine ⟨coherent.host, coherent.requests, fun request' response' mem => ?_⟩
        rcases mem_append.mp mem with old | new
        · exact coherent.responses request' response' old
        · cases mem_singleton.mp new
          exact ⟨asked, answered_of_processed sorts coherent.host.repo.valid
            asked honest.1 honest.2 processed⟩
  | applySyncResponse j =>
    rw [Network.perform]
    cases given : n.responses[j]? with
    | none => exact coherent
    | some entry =>
      obtain ⟨request, response⟩ := entry
      apply coherent.withHost
      · apply coherent.applySync stateHash (mem_of_getElem? given)
        intro held
        obtain ⟨open_, continues⟩ := careful held
        exact ⟨open_, continues request response given⟩
      · rw [RuntimeHost.applySync_repo]
        exact List.Subset.refl _

theorem coherent_reach (sorts : ∀ ranges, (collate ranges).Perm ranges) {repo} (sound : repo.Sound)
    (good : ∀ event ∈ events, WellFormed event)
    (honest : Along (perform stateHash collate) Honest (opened repo) events)
    (careful : Along (perform stateHash collate) Careful (opened repo) events) (k) :
    (reach stateHash collate repo (events.take k)).Coherent := by
  have fits := Along.of_forall (perform stateHash collate) (opened repo) good
  apply Along.invariant (perform stateHash collate) _ (coherent_opened sound)
    ((fits.and (perform stateHash collate) honest).and (perform stateHash collate) careful)
  rintro n event coherent ⟨⟨valid, kept⟩, safe⟩
  exact coherent.perform stateHash collate sorts valid kept safe

omit [StrictEq V] in
theorem applySync_applied {h : RuntimeHost V} (held : h.cachedState = some state)
    (applied : GitWarp.applySyncResponse response state (h.lastFrontier.getD .empty) = .ok result) :
    (h.applySync stateHash response).cachedState = some result.state ∧
      (h.applySync stateHash response).cachedCeiling = none ∧
      (h.applySync stateHash response).lastFrontier = some result.frontier := by
  rw [RuntimeHost.applySync, held]
  dsimp only
  rw [applied]
  dsimp only
  obtain ⟨index, tree, hash, viewed⟩ := RuntimeHost.buildView_eq stateHash
    { h with
      cachedState := some result.state
      stateDirty := false
      cachedCeiling := none
      cachedFrontier := some result.frontier }
  rw [RuntimeHost.setMaterializedState, viewed]
  exact ⟨rfl, rfl, rfl⟩

end

/-! ### A commit that the cached state does not have -/

/-- The tip of writer `a` alone. -/
def tipOfA (tip : JsString) : Frontier := .ofList [(lit "a", tip)]

theorem get_tipOfA {tip} (found : (tipOfA tip).get w = some x) : x = tip := by
  have listed := OrdMap.mem_of_mem_entries_ofList _ (((tipOfA tip).mem_entries_iff w).mpr found)
  rw [mem_singleton, Prod.mk.injEq] at listed
  exact listed.2

/-- The host reads an empty repository and asks; a peer commits meanwhile. -/
def askThenCommit : List (NetworkEvent Nat) :=
  [.call (.materialize none .scratch []), .createSyncRequest, .remote RuntimeHost.commitLink]

def peerAfter (events : List (NetworkEvent Nat)) : Persistence Nat :=
  ⟨(reach RuntimeHost.numberHash id .blank events).store, false⟩

def askThenSync : List (NetworkEvent Nat) :=
  askThenCommit ++
    [.processSyncRequest 0 (peerAfter askThenCommit) (tipOfA linkEarly.sha), .applySyncResponse 0]

theorem askThenSync_wellFormed : ∀ event ∈ askThenSync, WellFormed event := by
  simp only [askThenSync, askThenCommit, cons_append, nil_append, mem_cons,
    not_mem_nil, or_false, forall_eq_or_imp, forall_eq]
  exact ⟨fun a mem => (not_mem_nil mem).elim, trivial, linkEarly_wellFormed, trivial, trivial⟩

/-- The first response of a run that was applied at a cached state. -/
def appliedFirst (n : Network Nat) : Bool :=
  match n.responses[0]?, n.host.cachedState with
  | some (_, response), some state =>
    (GitWarp.applySyncResponse response state (n.host.lastFrontier.getD .empty)).toOption.isSome
  | _, _ => false

theorem exists_of_appliedFirst (n) (applied : appliedFirst n = true) :
    ∃ request response state result, n.responses[0]? = some (request, response) ∧
      n.host.cachedState = some state ∧ GitWarp.applySyncResponse response state
        (n.host.lastFrontier.getD .empty) = .ok result := by
  unfold appliedFirst at applied
  split at applied
  next request response state given held =>
    cases ran : GitWarp.applySyncResponse response state (n.host.lastFrontier.getD .empty) with
    | error e =>
      rw [ran] at applied
      cases applied
    | ok result => exact ⟨request, response, state, result, given, held, ran⟩
  next => cases applied

theorem askThenSync_honest :
    Along (perform RuntimeHost.numberHash id) Honest (opened .blank) askThenSync := by
  refine ⟨trivial, trivial, trivial, ⟨List.Subset.refl _, fun w tip found => ?_⟩, trivial, trivial⟩
  rw [get_tipOfA found]
  decide +kernel

/-- The host reads an empty repository, another process commits to it, the host asks, and the
peer that answers has a second commit by then. -/
def commitThenAsk : List (NetworkEvent Nat) :=
  [.call (.materialize none .scratch []), .call (.foreign RuntimeHost.commitLink),
    .createSyncRequest, .remote RuntimeHost.commitLate]

def commitThenSync : List (NetworkEvent Nat) :=
  commitThenAsk ++
    [.processSyncRequest 0 (peerAfter commitThenAsk) (tipOfA addLate.sha), .applySyncResponse 0]

theorem commitThenSync_wellFormed : ∀ event ∈ commitThenSync, WellFormed event := by
  simp only [commitThenSync, commitThenAsk, cons_append, nil_append, mem_cons,
    not_mem_nil, or_false, forall_eq_or_imp, forall_eq]
  exact ⟨fun a mem => (not_mem_nil mem).elim, linkEarly_wellFormed, trivial,
    addLate_wellFormed, trivial, trivial⟩

theorem commitThenSync_honest :
    Along (perform RuntimeHost.numberHash id) Honest (opened .blank) commitThenSync := by
  refine ⟨trivial, trivial, trivial, trivial, ⟨List.Subset.refl _, fun w tip found => ?_⟩, trivial,
    trivial⟩
  rw [get_tipOfA found]
  decide +kernel

end Network
end GitWarp
