import GitWarp.Sync.Applying
import GitWarp.Sync.Responding

/-!
# Exchanges between two replicas

An exchange catches up when each writer ends at the later of the two tips and the state
is the join of what the two sides know of the writers that have not diverged. It does so
unless the writer `__proto__` is ahead or diverged at the requester, or the responder's
ancestry check meets a tip it does not have.
-/
namespace GitWarp

open Js Lib List

variable {V : Type}

/-! ### Replicas -/

structure Replica (V : Type) where
  persistence : Persistence V
  frontier : Frontier
  state : WarpState V

namespace Replica

def store (r : Replica V) : CommitStore V := r.persistence.store

/-- Everything behind the frontier, writer by writer. -/
def patches (r : Replica V) : List (PatchEntry V) := r.store.streamForFrontier ⟨r.frontier, none⟩

/-- The repository holds patches of the library and the tips of the frontier; the state is
the reduction of what is behind them. -/
structure Sound (r : Replica V) : Prop where
  valid : r.store.Valid
  wire : ∀ commit ∈ r.store.commits, ∀ op ∈ commit.2.patch.ops, isKnownRawOp op = true
  tips : ∀ w tip, r.frontier.get w = some tip → r.store.has tip = true
  reduced : reducePatches r.patches .empty = .ok r.state

/-- The tip of `a` is the tip of `b` or one of its ancestors. -/
def behind (a b : Replica V) (w : JsString) : Bool :=
  match a.frontier.get w, b.frontier.get w with
  | some x, some y => decide (x ∈ (b.store.chain y).map PatchEntry.sha)
  | _, _ => false

/-- Both sides have the writer, and neither tip is an ancestor of the other. -/
def diverged (a b : Replica V) (w : JsString) : Bool :=
  a.frontier.has w && b.frontier.has w && !a.behind b w && !b.behind a w

/-- The later of the two tips; a diverged writer keeps the tip of `a`. -/
def laterTip (a b : Replica V) (w : JsString) : Option JsString :=
  match a.frontier.get w, b.frontier.get w with
  | none, tip => tip
  | some x, none => some x
  | some x, some y => if a.behind b w then some y else some x

/-- The patches of `b` of the writers that have not diverged from `a`. -/
def sharedPatches (a b : Replica V) : List (PatchEntry V) :=
  (b.frontier.entries.filter fun entry => !a.diverged b entry.1).flatMap fun entry =>
    b.store.chain entry.2

/-- The patches of `a` of the writers that have diverged. -/
def ownPatches (a b : Replica V) : List (PatchEntry V) :=
  (a.frontier.entries.filter fun entry => a.diverged b entry.1).flatMap fun entry =>
    a.store.chain entry.2

end Replica

/-- Content addressing: a sha names the same commit in both repositories. -/
def SameCommits (s t : CommitStore V) : Prop :=
  ∀ sha c c', (sha, c) ∈ s.commits → (sha, c') ∈ t.commits → c = c'

/-- What the requester has after a response: the later tips, and the join of its state with
what the responder knows of the writers that have not diverged. -/
structure CaughtUp (a b : Replica V) (result : ApplySyncResult V) : Prop where
  frontier : ∀ w, result.frontier.get w = a.laterTip b w
  state : ∃ shared, reducePatches (a.sharedPatches b) .empty = .ok shared ∧
    result.state.Equiv (a.state.join shared)

/-- The request of `a` is answered by `b`, the answer brings `a` up to date, and applying it
again changes nothing. -/
def SyncsTo (collate : List (JsString × WriterRange) → List (JsString × WriterRange))
    (a b : Replica V) (result : ApplySyncResult V) : Prop :=
  ∃ response, processSyncRequest collate (createSyncRequest a.frontier) b.frontier b.persistence =
      .ok response ∧
    applySyncResponse response a.state a.frontier = .ok result ∧ CaughtUp a b result ∧
    ∃ again, applySyncResponse response result.state result.frontier = .ok again ∧
      again.state.Equiv result.state ∧ again.frontier.Equiv result.frontier

/-- Both directions succeed, and the two sides end equal on the writers that have not
diverged. -/
def ExchangeCatchesUp
    (collate : List (JsString × WriterRange) → List (JsString × WriterRange))
    (a b : Replica V) : Prop :=
  ∃ left right, SyncsTo collate a b left ∧ SyncsTo collate b a right ∧
    (∀ w, a.diverged b w = false → left.frontier.get w = right.frontier.get w) ∧
    ∃ common ownA ownB, reducePatches (a.sharedPatches b ++ b.sharedPatches a) .empty = .ok common ∧
      reducePatches (a.ownPatches b) .empty = .ok ownA ∧
      reducePatches (b.ownPatches a) .empty = .ok ownB ∧
      left.state.Equiv (ownA.join common) ∧ right.state.Equiv (ownB.join common)

/-- The responder knows the differing tips it is asked about, if it checks ancestry, and a
writer named `__proto__` is not ahead or diverged at the requester. -/
structure SyncReady (a b : Replica V) : Prop where
  known : b.persistence.hasIsAncestor = true → ∀ w x y, w ≠ protoKey →
    a.frontier.get w = some x → b.frontier.get w = some y → x ≠ y → b.store.has x = true
  proto : ∀ x y, a.frontier.get protoKey = some x → b.frontier.get protoKey = some y →
    a.behind b protoKey = true

/-! ### Chains in two repositories -/

theorem CommitStore.Valid.named {store : CommitStore V} (valid : store.Valid)
    (stored : store.has sha = true) : sha ≠ [] := by
  obtain ⟨commit, member, rfl⟩ := mem_map.mp (of_decide_eq_true stored)
  exact (valid commit member).sha_ne_nil

theorem Replica.Sound.named {r : Replica V} (sound : r.Sound) (stored : r.store.has sha = true) :
    sha ≠ [] :=
  sound.valid.named stored

theorem Replica.Sound.chain_wire {r : Replica V} (sound : r.Sound) (tip) (entry)
    (mem : entry ∈ r.store.loadPatchChainFromSha tip stop) : OnWire entry := by
  obtain ⟨commit, stored, same⟩ := r.store.mem_load mem
  refine ⟨sound.valid.load mem, ?_⟩
  rw [same]
  exact sound.wire _ stored

variable (s : CommitStore V)

theorem exists_commit (stored : s.has sha = true) : ∃ commit, (sha, commit) ∈ s.commits := by
  obtain ⟨⟨_, commit⟩, member, rfl⟩ := mem_map.mp (of_decide_eq_true stored)
  exact ⟨commit, member⟩

variable (t : CommitStore V)

theorem walkBack_same (same : SameCommits s t) (sha) (left : s.has sha = true)
    (right : t.has sha = true) : walkBack none s.commits sha = walkBack none t.commits sha := by
  -- by induction on the length of the chain: the parent's is shorter
  obtain ⟨n, length⟩ : ∃ n, (walkBack none s.commits sha).length = n := ⟨_, rfl⟩
  induction n using Nat.strong_induction_on generalizing sha with
  | _ n ih =>
    obtain ⟨c, inS⟩ := exists_commit s left
    obtain ⟨c', inT⟩ := exists_commit t right
    have one := same sha c c' inS inT
    subst one
    have unfoldS := walkBack_of_mem s.commits s.nodup s.closed inS
    have unfoldT := walkBack_of_mem t.commits t.nodup t.closed inT
    rw [unfoldS] at length
    rw [unfoldS, unfoldT]
    cases parent : c.parent with
    | none => rfl
    | some p =>
      simp only [parent, length_append, length_singleton] at length
      have parentS : s.has p = true := decide_eq_true (s.closed.mem sha p c inS parent)
      have parentT : t.has p = true := decide_eq_true (t.closed.mem sha p c inT parent)
      simp only
      rw [ih _ (by omega) p parentS parentT rfl]

theorem chain_same (same : SameCommits s t) (left : s.has sha = true) (right : t.has sha = true) :
    s.chain sha = t.chain sha := by
  unfold CommitStore.chain CommitStore.loadPatchChainFromSha
  rw [walkBack_same s t same sha left right]

theorem getLast?_walkBack {commits : List (JsString × Commit V)}
    (stored : cur ∈ commits.map Prod.fst) (going : some cur ≠ stop) :
    (walkBack stop commits cur).getLast?.map PatchEntry.sha = some cur := by
  induction commits with
  | nil => cases stored
  | cons first older ih =>
    obtain ⟨sha, commit⟩ := first
    rw [walkBack, if_neg going]
    split
    next here => simp [here]
    next elsewhere =>
      rcases mem_cons.mp stored with same | later
      · exact absurd same.symm elsewhere
      · exact ih later

theorem getLast?_load {tip : JsString} (stop) (named : tip ≠ []) (stored : s.has tip = true)
    (going : some tip ≠ stop) :
    (s.loadPatchChainFromSha tip stop).getLast?.map PatchEntry.sha = some tip := by
  rw [CommitStore.loadPatchChainFromSha, if_neg named]
  exact getLast?_walkBack (of_decide_eq_true stored) going

theorem mem_chain_self (tip : JsString) (named : tip ≠ []) (stored : s.has tip = true) :
    tip ∈ (s.chain tip).map PatchEntry.sha := by
  rw [CommitStore.chain, CommitStore.loadPatchChainFromSha, if_neg named]
  exact mem_walkBack_self s.commits (of_decide_eq_true stored)

theorem walkBack_stop (commits : List (JsString × Commit V)) (sha) :
    walkBack (some sha) commits sha = [] := by
  cases commits <;> simp [walkBack]

theorem has_of_mem_chain (mem : sha ∈ (s.chain tip).map PatchEntry.sha) : s.has sha = true := by
  obtain ⟨entry, inside, rfl⟩ := mem_map.mp mem
  obtain ⟨commit, stored, -⟩ := s.mem_load inside
  exact decide_eq_true (mem_map_of_mem stored)

theorem chain_subset_of_mem {sha tip : JsString} (named : sha ≠ [])
    (mem : sha ∈ (s.chain tip).map PatchEntry.sha) : s.chain sha ⊆ s.chain tip := by
  rw [s.chain_split named mem]
  exact subset_append_left _ _

theorem eq_of_behind_both (same : SameCommits s t) {x y : JsString} (namedX : x ≠ [])
    (namedY : y ≠ []) (inS : s.has x = true) (inT : t.has y = true)
    (left : x ∈ (t.chain y).map PatchEntry.sha) (right : y ∈ (s.chain x).map PatchEntry.sha) :
    x = y := by
  by_contra apart
  have stop : some y ≠ some x := fun equal => apart (Option.some.inj equal).symm
  have stop' : some x ≠ some y := fun equal => apart (Option.some.inj equal)
  have splitT := congrArg List.length (t.chain_split namedX left)
  have splitS := congrArg List.length (s.chain_split namedY right)
  have lastT := getLast?_load t (some x) namedY inT stop
  have lastS := getLast?_load s (some y) namedX inS stop'
  have nonemptyS : 0 < (s.loadPatchChainFromSha x (some y)).length := by
    apply length_pos_of_ne_nil
    intro empty
    simp [empty] at lastS
  rw [length_append] at splitT splitS
  rw [chain_same s t same inS (has_of_mem_chain t left)] at splitS
  rw [← chain_same s t same (has_of_mem_chain s right) inT] at splitT
  omega

/-! ### The response -/

theorem patchesOf_append (left right : List (SyncPatchEntry V)) (w) :
    patchesOf (left ++ right) w = patchesOf left w ++ patchesOf right w := by
  simp [patchesOf]

theorem patchesOf_map_mk (entries : List (PatchEntry V)) (writerId w) :
    patchesOf (entries.map (SyncPatchEntry.mk writerId)) w = if writerId = w then entries else [] := by
  by_cases same : writerId = w
  · simp [patchesOf, same, filter_map, Function.comp_def]
  · simp [patchesOf, same, filter_map, Function.comp_def]

theorem patchesOf_flatMap (ranges) (nodup : (ranges.map Prod.fst).Nodup)
    (sent : JsString → WriterRange → List (PatchEntry V)) (w) :
    patchesOf (ranges.flatMap fun range => (sent range.1 range.2).map (SyncPatchEntry.mk range.1)) w =
      match assocGet ranges w with
      | none => []
      | some range => sent w range := by
  induction ranges with
  | nil => rfl
  | cons range rest ih =>
    rw [map_cons, nodup_cons] at nodup
    rw [flatMap_cons, patchesOf_append, patchesOf_map_mk, ih nodup.2, assocGet]
    by_cases same : range.1 = w
    · subst same
      rw [(assocGet_eq_none_iff rest range.1).mpr nodup.1]
      simp
    · simp [same]

variable (collate : List (JsString × WriterRange) → List (JsString × WriterRange))

/-- What a response holds for a writer is what its range was answered with. -/
theorem patchesOf_response (sorts : ∀ ranges, (collate ranges).Perm ranges)
    (unbounded : request.page = .unbounded) {response : SyncResponse V}
    (processed : processSyncRequest collate request refs p = .ok response) :
    (∀ range, (computeSyncDelta (objectToFrontier request.frontier) refs).needFromRemote.get w =
        some range → Answers p w range) ∧
      patchesOf response.patches w =
        match (computeSyncDelta (objectToFrontier request.frontier) refs).needFromRemote.get w with
        | none => []
        | some range => sentPatches p w range := by
  generalize delta : computeSyncDelta (objectToFrontier request.frontier) refs = d
  rw [processSyncRequest, delta, unbounded] at processed
  obtain ⟨progress, finished, built⟩ := bind_eq_ok.mp processed
  cases built
  -- the ranges of the loop are those of the delta, in the order of the collation
  have listed : ∀ range, range ∈ collate d.needFromRemote.entries ↔
      d.needFromRemote.get range.1 = some range.2 := by
    intro range
    rw [(sorts _).mem_iff, ← OrdMap.mem_entries_iff]
  have answers := answers_of_processRanges p (.start) finished
  obtain ⟨final, finished', filled⟩ := Fills.start.ranges p
    (collate d.needFromRemote.entries) answers
  rw [finished, Except.ok.injEq] at finished'
  subst finished'
  have sorted := assocGet_of_perm d.needFromRemote.entries
    d.needFromRemote.nodup (sorts _) w
  constructor
  · intro range need
    exact answers (w, range) ((listed (w, range)).mpr need)
  · rw [filled.patches, nil_append]
    simp only [SyncPageRequest.slice, SyncPageRequest.unbounded, drop_zero, answerPatches]
    rw [patchesOf_flatMap _ ((sorts _).map Prod.fst |>.nodup_iff.mpr d.needFromRemote.nodup), sorted]
    rfl

namespace Replica

/-- What `b` sends to `a` for a writer. -/
def sentTo (a b : Replica V) (w : JsString) : List (PatchEntry V) :=
  match b.frontier.get w with
  | none => []
  | some y =>
    match (frontierToObject a.frontier).get w with
    | none => b.store.chain y
    | some x =>
      if x = y then []
      else if x ∈ (b.store.chain y).map PatchEntry.sha then b.store.loadPatchChainFromSha y (some x)
      else []

variable {a b : Replica V}

theorem get_need (a b : Replica V) (w) :
    (computeSyncDelta (objectToFrontier (createSyncRequest a.frontier).frontier)
        b.frontier).needFromRemote.get w =
      match b.frontier.get w with
      | none => none
      | some y => if (frontierToObject a.frontier).get w = some y then none
        else some ⟨(frontierToObject a.frontier).get w, y⟩ := by
  have answer := get_needFromRemote (objectToFrontier (createSyncRequest a.frontier).frontier)
    b.frontier w
  rw [get_objectToFrontier] at answer
  exact answer

theorem get_object (a : Replica V) (found : (frontierToObject a.frontier).get w = some x) :
    w ≠ protoKey ∧ a.frontier.get w = some x := by
  rw [get_frontierToObject] at found
  split at found
  · cases found
  next other => exact ⟨other, found⟩

theorem answers_iff_known (soundA : a.Sound) (soundB : b.Sound) :
    (∀ w range, (computeSyncDelta (objectToFrontier (createSyncRequest a.frontier).frontier)
        b.frontier).needFromRemote.get w = some range → Answers b.persistence w range) ↔
      (b.persistence.hasIsAncestor = true → ∀ w x y, w ≠ protoKey → a.frontier.get w = some x →
        b.frontier.get w = some y → x ≠ y → b.store.has x = true) := by
  -- every range of the request is answered exactly when the ancestry check knows its tips
  constructor
  · intro answers checks w x y other mine theirs apart
    have object : (frontierToObject a.frontier).get w = some x := by
      rw [get_frontierToObject, if_neg other, mine]
    have need := get_need a b w
    rw [theirs, object] at need
    simp only [Option.some.injEq, apart, if_false] at need
    have stored := soundB.tips w y theirs
    exact (answers_known_iff b.persistence (soundA.named (soundA.tips w x mine))
      (soundB.named stored) apart stored).mp (answers w _ need) checks
  · intro known w range need
    rw [get_need] at need
    cases theirs : b.frontier.get w with
    | none => simp [theirs] at need
    | some y =>
      rw [theirs] at need
      simp only at need
      have stored := soundB.tips w y theirs
      cases object : (frontierToObject a.frontier).get w with
      | none =>
        rw [object] at need
        cases need
        exact answers_new b.persistence (soundB.named stored)
      | some x =>
        obtain ⟨other, mine⟩ := get_object a object
        rw [object] at need
        split at need
        · cases need
        next differs =>
          cases need
          have apart : x ≠ y := fun equal => differs (congrArg some equal)
          exact (answers_known_iff b.persistence (soundA.named (soundA.tips w x mine))
            (soundB.named stored) apart stored).mpr fun checks =>
              known checks w x y other mine theirs apart

theorem sentPatches_need (soundA : a.Sound) (soundB : b.Sound) (w)
    (answers : ∀ range, (computeSyncDelta (objectToFrontier (createSyncRequest a.frontier).frontier)
        b.frontier).needFromRemote.get w = some range → Answers b.persistence w range) :
    (match (computeSyncDelta (objectToFrontier (createSyncRequest a.frontier).frontier)
        b.frontier).needFromRemote.get w with
      | none => []
      | some range => sentPatches b.persistence w range) = a.sentTo b w := by
  have need := get_need a b w
  rw [sentTo]
  cases theirs : b.frontier.get w with
  | none =>
    rw [theirs] at need
    rw [need]
  | some y =>
    have stored := soundB.tips w y theirs
    have tipped := soundB.named stored
    rw [theirs] at need
    cases object : (frontierToObject a.frontier).get w with
    | none =>
      rw [object] at need
      rw [need]
      exact sentPatches_new b.persistence tipped
    | some x =>
      rw [object] at need
      by_cases equal : x = y
      · simp only [equal, if_true] at need ⊢
        rw [need]
      · simp only [Option.some.injEq, equal, if_false] at need ⊢
        rw [need]
        obtain ⟨-, mine⟩ := get_object a object
        exact sentPatches_known b.persistence (soundA.named (soundA.tips w x mine)) tipped
          equal stored (answers _ need)

theorem process_ok_iff (sorts : ∀ ranges, (collate ranges).Perm ranges) (soundA : a.Sound)
    (soundB : b.Sound) :
    (∀ response, processSyncRequest collate (createSyncRequest a.frontier) b.frontier
        b.persistence = .ok response → ∀ w, patchesOf response.patches w = a.sentTo b w) ∧
      ((∃ response, processSyncRequest collate (createSyncRequest a.frontier) b.frontier
          b.persistence = .ok response) ↔
        (b.persistence.hasIsAncestor = true → ∀ w x y, w ≠ protoKey → a.frontier.get w = some x →
          b.frontier.get w = some y → x ≠ y → b.store.has x = true)) := by
  -- the response, if there is one, holds for each writer what `sentTo` says
  constructor
  · intro response processed w
    obtain ⟨answers, held⟩ := patchesOf_response collate sorts rfl processed
    rw [held]
    exact sentPatches_need soundA soundB w answers
  · rw [← answers_iff_known soundA soundB]
    constructor
    · rintro ⟨response, processed⟩ w
      exact (patchesOf_response collate sorts rfl processed).1
    · intro answers
      obtain ⟨final, finished, -⟩ := Fills.start.ranges b.persistence
        (collate (computeSyncDelta (objectToFrontier (createSyncRequest a.frontier).frontier)
          b.frontier).needFromRemote.entries) fun range mem => by
            have inside := (sorts _).mem_iff.mp mem
            exact answers range.1 range.2 ((OrdMap.mem_entries_iff _ range.1).mp inside)
      have unbounded : (createSyncRequest a.frontier).page = .unbounded := rfl
      rw [processSyncRequest, unbounded, finished]
      exact ⟨_, rfl⟩

theorem sentTo_subset (a b : Replica V) (theirs : b.frontier.get w = some y) :
    a.sentTo b w ⊆ b.store.chain y := by
  rw [sentTo, theirs]
  simp only
  split
  · exact List.Subset.refl _
  · split
    · exact nil_subset _
    · split
      · exact b.store.load_subset_chain
      · exact nil_subset _

/-! ### Tips after a response -/

def movedTip (a b : Replica V) (w : JsString) : Option JsString :=
  ((a.sentTo b w).getLast?.map PatchEntry.sha).or (a.frontier.get w)

theorem behind_self (soundB : b.Sound) (mine : a.frontier.get w = some x)
    (theirs : b.frontier.get w = some x) : a.behind b w = true := by
  have stored := soundB.tips w x theirs
  simp only [behind, mine, theirs]
  exact decide_eq_true (mem_chain_self b.store x (soundB.named stored) stored)

theorem movedTip_eq_laterTip (soundB : b.Sound) (w) (other : w ≠ protoKey) :
    a.movedTip b w = a.laterTip b w := by
  rw [movedTip, sentTo, laterTip, get_frontierToObject, if_neg other]
  cases theirs : b.frontier.get w with
  | none =>
    cases a.frontier.get w <;> rfl
  | some y =>
    have stored := soundB.tips w y theirs
    have named := soundB.named stored
    cases mine : a.frontier.get w with
    | none => simp [CommitStore.chain, getLast?_load b.store none named stored (by simp)]
    | some x =>
      by_cases equal : x = y
      · subst equal
        simp [behind_self soundB mine theirs]
      · simp only [equal, if_false, behind, mine, theirs]
        by_cases inside : x ∈ (b.store.chain y).map PatchEntry.sha
        · have going : some y ≠ some x := fun same => equal (Option.some.inj same).symm
          simp only [inside, if_true, decide_true, getLast?_load b.store (some x) named stored going]
          rfl
        · simp [inside]

theorem movedTip_proto (soundB : b.Sound) :
    a.movedTip b protoKey = (b.frontier.get protoKey).or (a.frontier.get protoKey) := by
  rw [movedTip, sentTo, get_frontierToObject, if_pos rfl]
  cases theirs : b.frontier.get protoKey with
  | none => rfl
  | some y =>
    have stored := soundB.tips protoKey y theirs
    have named := soundB.named stored
    simp [CommitStore.chain, getLast?_load b.store none named stored (by simp)]

theorem movedTip_iff (soundB : b.Sound) :
    (∀ w, a.movedTip b w = a.laterTip b w) ↔
      ∀ x y, a.frontier.get protoKey = some x → b.frontier.get protoKey = some y →
        a.behind b protoKey = true := by
  -- every writer ends at the later tip exactly when `__proto__` is not ahead or diverged at the
  -- requester
  constructor
  · intro later x y mine theirs
    have moved := later protoKey
    rw [movedTip_proto soundB, laterTip, mine, theirs] at moved
    by_contra ahead
    simp only [ahead, if_false, Option.or_some, Option.getD_some, Option.some.injEq] at moved
    -- the two tips agree, so the requester is not ahead after all
    rw [moved] at theirs
    exact ahead (behind_self soundB mine theirs)
  · intro ready w
    by_cases proto : w = protoKey
    · subst proto
      rw [movedTip_proto soundB, laterTip]
      cases mine : a.frontier.get protoKey with
      | none => cases b.frontier.get protoKey <;> rfl
      | some x =>
        cases theirs : b.frontier.get protoKey with
        | none => rfl
        | some y => simp [ready x y mine theirs]
    · exact movedTip_eq_laterTip soundB w proto

/-! ### Patches after a response -/

theorem mem_patches (r : Replica V) :
    entry ∈ r.patches ↔ ∃ w tip, r.frontier.get w = some tip ∧ entry ∈ r.store.chain tip := by
  rw [patches, CommitStore.mem_streamForFrontier]
  simp [patchWithinCeiling]

theorem mem_sharedPatches (a b : Replica V) :
    entry ∈ a.sharedPatches b ↔
      ∃ w tip, b.frontier.get w = some tip ∧ a.diverged b w = false ∧ entry ∈ b.store.chain tip := by
  simp only [sharedPatches, mem_flatMap, mem_filter, Prod.exists, OrdMap.mem_entries_iff,
    Bool.not_eq_true']
  constructor
  · rintro ⟨w, tip, ⟨found, shared⟩, inside⟩
    exact ⟨w, tip, found, shared, inside⟩
  · rintro ⟨w, tip, found, shared, inside⟩
    exact ⟨w, tip, ⟨found, shared⟩, inside⟩

theorem mem_ownPatches (a b : Replica V) :
    entry ∈ a.ownPatches b ↔
      ∃ w tip, a.frontier.get w = some tip ∧ a.diverged b w = true ∧ entry ∈ a.store.chain tip := by
  simp only [ownPatches, mem_flatMap, mem_filter, Prod.exists, OrdMap.mem_entries_iff]
  constructor
  · rintro ⟨w, tip, ⟨found, apart⟩, inside⟩
    exact ⟨w, tip, found, apart, inside⟩
  · rintro ⟨w, tip, found, apart, inside⟩
    exact ⟨w, tip, ⟨found, apart⟩, inside⟩

theorem diverged_comm (a b : Replica V) (w) : a.diverged b w = b.diverged a w := by
  simp only [diverged]
  cases a.frontier.has w <;> cases b.frontier.has w <;> cases a.behind b w <;>
    cases b.behind a w <;> rfl

/-- Together with its own patches, the requester has what both sides know of the writers that
have not diverged. -/
theorem mem_after (soundA : a.Sound) (soundB : b.Sound) (same : SameCommits a.store b.store)
    (ready : ∀ x y, a.frontier.get protoKey = some x → b.frontier.get protoKey = some y →
      a.behind b protoKey = true) :
    (entry ∈ a.patches ∨ ∃ w, entry ∈ a.sentTo b w) ↔
      entry ∈ a.patches ∨ entry ∈ a.sharedPatches b := by
  constructor
  · rintro (own | ⟨w, sent⟩)
    · exact Or.inl own
    · right
      cases theirs : b.frontier.get w with
      | none => simp [sentTo, theirs] at sent
      | some y =>
        rw [mem_sharedPatches]
        refine ⟨w, y, theirs, ?_, a.sentTo_subset b theirs sent⟩
        cases mine : a.frontier.get w with
        | none => simp [diverged, OrdMap.has, mine]
        | some x =>
          -- something was sent, so the requester's tip is on the chain
          have onChain : a.behind b w = true := by
            by_cases proto : w = protoKey
            · subst proto
              exact ready x y mine theirs
            · rw [sentTo, theirs, get_frontierToObject, if_neg proto, mine] at sent
              simp only at sent
              split at sent
              · cases sent
              · split at sent
                next inside => simp only [behind, mine, theirs, inside, decide_true]
                · cases sent
          simp [diverged, onChain]
  · rintro (own | shared)
    · exact Or.inl own
    · obtain ⟨w, y, theirs, comparable, inside⟩ := (mem_sharedPatches a b).mp shared
      have storedY := soundB.tips w y theirs
      cases mine : a.frontier.get w with
      | none =>
        right
        refine ⟨w, ?_⟩
        rw [sentTo, theirs, get_frontierToObject, mine, ite_self]
        exact inside
      | some x =>
        have storedX := soundA.tips w x mine
        have namedX := soundA.named storedX
        by_cases onChain : x ∈ (b.store.chain y).map PatchEntry.sha
        · by_cases proto : w = protoKey
          · right
            refine ⟨w, ?_⟩
            rw [sentTo, theirs, get_frontierToObject, if_pos proto]
            exact inside
          · -- the chain splits at the requester's tip
            rw [b.store.chain_split namedX onChain, mem_append] at inside
            rcases inside with before | later
            · left
              rw [mem_patches]
              rw [← chain_same a.store b.store same storedX (has_of_mem_chain b.store onChain)]
                at before
              exact ⟨w, x, mine, before⟩
            · by_cases equal : x = y
              · subst equal
                simp [CommitStore.loadPatchChainFromSha, namedX, walkBack_stop] at later
              · right
                refine ⟨w, ?_⟩
                rw [sentTo, theirs, get_frontierToObject, if_neg proto, mine]
                simp only [equal, if_false, onChain, if_true]
                exact later
        · -- not behind and not diverged: the responder's chain is part of the requester's
          have ahead : y ∈ (a.store.chain x).map PatchEntry.sha := by
            by_contra off
            simp [diverged, OrdMap.has, mine, theirs, behind, onChain, off] at comparable
          left
          rw [mem_patches]
          refine ⟨w, x, mine, ?_⟩
          apply chain_subset_of_mem a.store (soundB.named storedY) ahead
          rw [chain_same a.store b.store same (has_of_mem_chain a.store ahead) storedY]
          exact inside

/-! ### States after a response -/

theorem Sound.patch_valid (sound : a.Sound) (mem : entry ∈ a.patches) : entry.WellFormed :=
  sound.valid.stream entry mem

theorem sharedPatches_subset (a b : Replica V) : a.sharedPatches b ⊆ b.patches := by
  intro entry mem
  obtain ⟨w, tip, found, -, inside⟩ := (mem_sharedPatches a b).mp mem
  exact b.mem_patches.mpr ⟨w, tip, found, inside⟩

theorem ownPatches_subset (a b : Replica V) : a.ownPatches b ⊆ a.patches := by
  intro entry mem
  obtain ⟨w, tip, found, -, inside⟩ := (mem_ownPatches a b).mp mem
  exact a.mem_patches.mpr ⟨w, tip, found, inside⟩

theorem one_write_per_event (same : SameCommits a.store b.store) :
    OneWritePerEvent (historyFacts (a.patches ++ b.patches)) := by
  -- one sha, one patch, on whichever side it is found
  apply Consistent.oneWritePerEvent
  have stored : ∀ (r : Replica V), ∀ entry ∈ r.patches, ∃ commit,
      (entry.sha, commit) ∈ r.store.commits ∧ entry.patch = commit.patch := by
    intro r entry mem
    obtain ⟨w, tip, -, inside⟩ := r.mem_patches.mp mem
    exact r.store.mem_load inside
  have within : ∀ (r : Replica V), Consistent r.patches := fun r => r.store.consistent_streams _
  have across : ∀ p ∈ a.patches, ∀ q ∈ b.patches, p.sha = q.sha → p = q := by
    intro p inA q inB equal
    obtain ⟨c, storedA, patchA⟩ := stored a p inA
    obtain ⟨c', storedB, patchB⟩ := stored b q inB
    rw [← equal] at storedB
    have one := same p.sha c c' storedA storedB
    obtain ⟨pp, ps⟩ := p
    obtain ⟨qp, qs⟩ := q
    simp only at patchA patchB equal
    rw [patchA, patchB, one, equal]
  intro p left q right equal
  rcases mem_append.mp left with pA | pB
  · rcases mem_append.mp right with qA | qB
    · exact within a p pA q qA equal
    · exact across p pA q qB equal
  · rcases mem_append.mp right with qA | qB
    · exact (across q qA p pB equal.symm).symm
    · exact within b p pB q qB equal

theorem one_write_after (same : SameCommits a.store b.store) :
    OneWritePerEvent (historyFacts (a.patches ++ a.sharedPatches b)) := by
  refine (one_write_per_event same).mono ?_
  rw [historyFacts_append, historyFacts_append]
  apply Set.union_subset_union_right
  rintro f ⟨entry, member, fact⟩
  exact ⟨entry, sharedPatches_subset a b member, fact⟩

theorem mem_own_or_shared (a b : Replica V) (entry) :
    entry ∈ a.patches ↔ entry ∈ a.ownPatches b ∨ entry ∈ b.sharedPatches a := by
  rw [mem_patches, mem_ownPatches, mem_sharedPatches]
  constructor
  · rintro ⟨w, tip, found, inside⟩
    cases apart : a.diverged b w with
    | true => exact Or.inl ⟨w, tip, found, apart, inside⟩
    | false => exact Or.inr ⟨w, tip, found, (diverged_comm b a w).trans apart, inside⟩
  · rintro (⟨w, tip, found, -, inside⟩ | ⟨w, tip, found, -, inside⟩)
    · exact ⟨w, tip, found, inside⟩
    · exact ⟨w, tip, found, inside⟩

theorem equiv_own_join_common (same : SameCommits a.store b.store)
    (whole : ∀ entry, entry ∈ common ↔ entry ∈ a.sharedPatches b ∨ entry ∈ b.sharedPatches a)
    {state own joint} (knows : Represents state (historyFacts (a.patches ++ a.sharedPatches b)))
    (knowsOwn : Represents own (historyFacts (a.ownPatches b)))
    (knowsCommon : Represents joint (historyFacts common)) : state.Equiv (own.join joint) := by
  have joined := knowsOwn.join knowsCommon
  rw [← historyFacts_append] at joined
  have facts : historyFacts (a.ownPatches b ++ common) =
      historyFacts (a.patches ++ a.sharedPatches b) := by
    apply historyFacts_congr
    intro entry
    rw [mem_append, mem_append, whole, mem_own_or_shared a b]
    tauto
  rw [facts] at joined
  exact knows.equiv (one_write_after same) joined

theorem Sound.represents (sound : a.Sound) : Represents a.state (historyFacts a.patches) :=
  represents_history sound.reduced

theorem reduce_part (soundA : a.Sound) (soundB : b.Sound) (inside : part ⊆ a.patches ++ b.patches) :
    ∃ t, reducePatches part .empty = .ok t ∧ Represents t (historyFacts part) := by
  apply reduces_history
  intro entry mem
  rcases mem_append.mp (inside mem) with own | other
  · exact soundA.patch_valid own
  · exact soundB.patch_valid other

theorem response_wire (soundB : b.Sound) {response : SyncResponse V}
    (sentAll : ∀ w, patchesOf response.patches w = a.sentTo b w) (item)
    (mem : item ∈ response.patches) :
    item.entry ∈ a.sentTo b item.writerId ∧ OnWire item.entry := by
  have inside : item.entry ∈ a.sentTo b item.writerId := by
    rw [← sentAll]
    exact mem_map_of_mem (mem_filter.mpr ⟨mem, by simp⟩)
  refine ⟨inside, ?_⟩
  cases theirs : b.frontier.get item.writerId with
  | none => simp [sentTo, theirs] at inside
  | some y => exact soundB.chain_wire y _ (a.sentTo_subset b theirs inside)

section

variable (sorts : ∀ ranges, (collate ranges).Perm ranges) (soundA : a.Sound) (soundB : b.Sound)
include sorts soundA soundB

theorem syncsTo_of_ready (same : SameCommits a.store b.store) (ready : SyncReady a b) :
    ∃ result, SyncsTo collate a b result ∧
      Represents result.state (historyFacts (a.patches ++ a.sharedPatches b)) := by
  -- a requester that is ready is brought up to date, and knows exactly its own patches and
  -- those of the writers that have not diverged
  obtain ⟨sent, answered⟩ := process_ok_iff collate sorts soundA soundB
  obtain ⟨response, processed⟩ := answered.mpr ready.known
  have sentAll := sent response processed
  have wire := response_wire soundB sentAll
  have members : ∀ entry, entry ∈ response.patches.map SyncPatchEntry.entry ↔
      ∃ w, entry ∈ a.sentTo b w := by
    intro entry
    constructor
    · intro mem
      obtain ⟨item, inside, rfl⟩ := mem_map.mp mem
      exact ⟨item.writerId, (wire item inside).1⟩
    · rintro ⟨w, inside⟩
      rw [← sentAll] at inside
      obtain ⟨item, kept, rfl⟩ := mem_map.mp inside
      exact mem_map_of_mem (mem_filter.mp kept).1
  have facts : historyFacts a.patches ∪ historyFacts (response.patches.map SyncPatchEntry.entry) =
      historyFacts (a.patches ++ a.sharedPatches b) := by
    rw [← historyFacts_append]
    apply historyFacts_congr
    intro entry
    rw [mem_append, mem_append, members]
    exact mem_after soundA soundB same ready.proto
  obtain ⟨result, applied, knows, tips⟩ := applySyncResponse_spec response a.state a.frontier
    soundA.represents fun item mem => (wire item mem).2
  obtain ⟨again, reapplied, knowsAgain, tipsAgain⟩ := applySyncResponse_spec response result.state
    result.frontier knows fun item mem => (wire item mem).2
  rw [facts] at knows knowsAgain
  have distinct := one_write_after (a := a) same
  obtain ⟨shared, reduced, knowsShared⟩ := reduce_part soundA soundB
    fun entry mem => mem_append_right _ (sharedPatches_subset a b mem)
  have joined := soundA.represents.join knowsShared
  rw [← historyFacts_append] at joined
  have moved : ∀ w, result.frontier.get w = a.movedTip b w := by
    intro w
    rw [tips, sentAll, movedTip]
  refine ⟨result, ⟨response, processed, applied, ⟨?_, shared, reduced, ?_⟩, again, reapplied, ?_, ?_⟩,
    knows⟩
  · intro w
    rw [moved, (movedTip_iff soundB).mpr ready.proto]
  · exact knows.equiv distinct joined
  · have twice : historyFacts (a.patches ++ a.sharedPatches b) ∪
        historyFacts (response.patches.map SyncPatchEntry.entry) =
        historyFacts (a.patches ++ a.sharedPatches b) := by
      rw [← facts, Set.union_assoc, Set.union_self]
    rw [twice] at knowsAgain
    exact knowsAgain.equiv distinct knows
  · intro w
    rw [tipsAgain, tips]
    cases (patchesOf response.patches w).getLast? <;> rfl

theorem ready_of_syncsTo (synced : SyncsTo collate a b result) : SyncReady a b := by
  obtain ⟨response, processed, applied, caughtUp, -⟩ := synced
  obtain ⟨sent, answered⟩ := process_ok_iff collate sorts soundA soundB
  have sentAll := sent response processed
  have wire := response_wire soundB sentAll
  obtain ⟨result', applied', -, tips⟩ := applySyncResponse_spec response a.state a.frontier
    soundA.represents fun item mem => (wire item mem).2
  rw [applied, Except.ok.injEq] at applied'
  subst applied'
  refine ⟨answered.mp ⟨response, processed⟩, (movedTip_iff soundB).mp fun w => ?_⟩
  rw [← caughtUp.frontier w, tips, sentAll, movedTip]

end

end Replica

/-! ### Both directions -/

theorem laterTip_comm {a b : Replica V} (soundA : a.Sound) (soundB : b.Sound)
    (same : SameCommits a.store b.store) (w) (comparable : a.diverged b w = false) :
    a.laterTip b w = b.laterTip a w := by
  rw [Replica.laterTip, Replica.laterTip]
  cases mine : a.frontier.get w with
  | none => cases b.frontier.get w <;> rfl
  | some x =>
    cases theirs : b.frontier.get w with
    | none => rfl
    | some y =>
      have storedX := soundA.tips w x mine
      have storedY := soundB.tips w y theirs
      simp only [Replica.diverged, OrdMap.has, Replica.behind, mine, theirs, Option.isSome_some,
        Bool.true_and, Bool.and_eq_false_iff, Bool.not_eq_false', decide_eq_true_eq] at comparable
      simp only [Replica.behind, mine, theirs]
      by_cases left : x ∈ (b.store.chain y).map PatchEntry.sha
      · by_cases right : y ∈ (a.store.chain x).map PatchEntry.sha
        · simp only [left, right, decide_true, if_true, Option.some.injEq]
          exact (eq_of_behind_both a.store b.store same (soundA.named storedX)
            (soundB.named storedY) storedX storedY left right).symm
        · simp [left, right]
      · simp [left, comparable.resolve_left left]

/-- An exchange in both directions catches up exactly when both sides are ready for it. -/
theorem exchange_catches_up_iff
    (collate : List (JsString × WriterRange) → List (JsString × WriterRange))
    (sorts : ∀ ranges, (collate ranges).Perm ranges) (a b : Replica V) (soundA : a.Sound)
    (soundB : b.Sound) (same : SameCommits a.store b.store) :
    ExchangeCatchesUp collate a b ↔ SyncReady a b ∧ SyncReady b a := by
  have back : SameCommits b.store a.store := fun sha c c' left right =>
    (same sha c' c right left).symm
  constructor
  · rintro ⟨left, right, toA, toB, -⟩
    exact ⟨Replica.ready_of_syncsTo collate sorts soundA soundB toA,
      Replica.ready_of_syncsTo collate sorts soundB soundA toB⟩
  · rintro ⟨readyA, readyB⟩
    obtain ⟨left, toA, knowsLeft⟩ := Replica.syncsTo_of_ready collate sorts soundA soundB same readyA
    obtain ⟨right, toB, knowsRight⟩ := Replica.syncsTo_of_ready collate sorts soundB soundA back readyB
    have whole : ∀ entry, entry ∈ a.sharedPatches b ++ b.sharedPatches a →
        entry ∈ a.patches ++ b.patches := by
      intro entry member
      rw [mem_append] at member ⊢
      exact member.symm.imp (fun own => Replica.sharedPatches_subset b a own)
        fun other => Replica.sharedPatches_subset a b other
    obtain ⟨common, reduced, knows⟩ := Replica.reduce_part soundA soundB whole
    obtain ⟨ownA, reducedA, knowsA⟩ := Replica.reduce_part soundA soundB
      fun entry member => mem_append_left _ (Replica.ownPatches_subset a b member)
    obtain ⟨ownB, reducedB, knowsB⟩ := Replica.reduce_part soundA soundB
      fun entry member => mem_append_right _ (Replica.ownPatches_subset b a member)
    refine ⟨left, right, toA, toB, fun w comparable => ?_, common, ownA, ownB, reduced, reducedA,
      reducedB, ?_, ?_⟩
    · obtain ⟨-, -, -, caughtUpA, -⟩ := toA
      obtain ⟨-, -, -, caughtUpB, -⟩ := toB
      rw [caughtUpA.frontier, caughtUpB.frontier]
      exact laterTip_comm soundA soundB same w comparable
    · exact Replica.equiv_own_join_common same (fun entry => mem_append)
        knowsLeft knowsA knows
    · exact Replica.equiv_own_join_common back (fun entry => mem_append.trans or_comm) knowsRight knowsB knows

/-! ### One writer with two commits -/

/-- A writer id like any other, or one that a plain object does not carry. -/
def sampleWriterName (proto : Bool) : String := if proto then "__proto__" else "w"

/-- A writer's first commit alone, or with a second one. -/
def writerStore (proto two : Bool) : CommitStore Nat where
  commits :=
    let patch := CommitStore.firstPatch (sampleWriterName proto) "x"
    let first := (lit "aaaa", ⟨none, patch⟩)
    if two then [(lit "cccc", ⟨some (lit "aaaa"), { patch with lamport := 2 }⟩), first] else [first]
  nodup := by cases proto <;> cases two <;> decide
  closed := by cases two <;> simp [ParentsStored]

/-- A replica that is at the first or the second commit of the writer. -/
def writerReplica (proto two hasIsAncestor : Bool) : Replica Nat :=
  let frontier : Frontier :=
    .ofList [(lit (sampleWriterName proto), if two then lit "cccc" else lit "aaaa")]
  { persistence := ⟨writerStore proto two, hasIsAncestor⟩
    frontier := frontier
    state :=
      match reducePatches ((writerStore proto two).streamForFrontier ⟨frontier, none⟩) .empty with
      | .ok state => state
      | .error _ => .empty }

theorem writerStore_valid : (writerStore proto two).Valid := by
  -- the two commits differ in the lamport only
  intro commit mem
  have patch : commit.2.patch.ops = (CommitStore.firstPatch (sampleWriterName proto) "x").ops ∧
      commit.2.patch.writer = lit (sampleWriterName proto) ∧ 0 < commit.2.patch.lamport ∧
      commit.2.patch.context = .absent ∧ isHexOid commit.1 = true := by
    cases two with
    | false =>
      simp only [writerStore, Bool.false_eq_true, if_false, mem_singleton] at mem
      subst mem
      exact ⟨rfl, rfl, by cases proto <;> decide, rfl, by cases proto <;> decide⟩
    | true =>
      simp only [writerStore, if_true, mem_cons, not_mem_nil, or_false] at mem
      rcases mem with rfl | rfl
      · exact ⟨rfl, rfl, by cases proto <;> decide, rfl, by cases proto <;> decide⟩
      · exact ⟨rfl, rfl, by cases proto <;> decide, rfl, by cases proto <;> decide⟩
  obtain ⟨ops, writer, positive, context, hex⟩ := patch
  refine ⟨?_, ?_, positive, ?_, hex, ?_⟩
  · simp only [ops, CommitStore.firstPatch, mem_singleton, forall_eq]
    cases proto <;> decide
  · simp only [ops, CommitStore.firstPatch, mem_singleton, forall_eq]
    cases proto <;> exact ⟨_, rfl⟩
  · simp only [writer]
    cases proto <;> decide
  · simp only [context]
    exact ⟨_, rfl⟩

theorem writerReplica_sound (proto two hasIsAncestor) :
    (writerReplica proto two hasIsAncestor).Sound where
  valid := writerStore_valid
  wire := by cases proto <;> cases two <;> cases hasIsAncestor <;> decide
  tips := by
    intro w tip found
    have listed := OrdMap.mem_of_mem_entries_ofList _
      (((writerReplica proto two hasIsAncestor).frontier.mem_entries_iff w).mpr found)
    rw [mem_singleton, Prod.mk.injEq] at listed
    rw [listed.2]
    cases proto <;> cases two <;> cases hasIsAncestor <;> decide
  reduced := by cases proto <;> cases two <;> cases hasIsAncestor <;> rfl

theorem writerStore_same : SameCommits (writerStore proto true) (writerStore proto false) := by
  intro sha c c' left right
  simp only [writerStore, if_true, mem_cons, not_mem_nil, or_false,
    Bool.false_eq_true, if_false, Prod.mk.injEq] at left right
  obtain ⟨rfl, rfl⟩ := right
  rcases left with ⟨different, -⟩ | ⟨-, rfl⟩
  · exact absurd different (by decide)
  · rfl

theorem exchange_catches_up_iff_plain :
    SameCommits (writerReplica false true false).store (writerReplica false false false).store ∧
      ExchangeCatchesUp id (writerReplica false true false) (writerReplica false false false) := by
  refine ⟨writerStore_same, (exchange_catches_up_iff id (fun _ => .refl _) _ _
    (writerReplica_sound false true false) (writerReplica_sound false false false)
    writerStore_same).mpr ⟨⟨?_, ?_⟩, ⟨?_, ?_⟩⟩⟩
  · intro checked
    exact absurd checked (by decide)
  · intro x y mine
    exact absurd mine (by simp [show (writerReplica false true false).frontier.get protoKey = none
      from by decide])
  · intro checked
    exact absurd checked (by decide)
  · intro x y mine
    exact absurd mine (by simp [show (writerReplica false false false).frontier.get protoKey = none
      from by decide])

/-- The requester is one commit ahead. Under the writer id `__proto__` it is pulled back, and
a responder that asks git about ancestry fails on the commit it does not have. -/
theorem exchange_not_catching_up :
    isValidWriterId protoKey = true ∧ (∀ proto two check, (writerReplica proto two check).Sound) ∧
      SameCommits (writerReplica true true false).store (writerReplica true false false).store ∧
      ¬ ExchangeCatchesUp id (writerReplica true true false) (writerReplica true false false) ∧
      SameCommits (writerReplica false true true).store (writerReplica false false true).store ∧
      ¬ ExchangeCatchesUp id (writerReplica false true true) (writerReplica false false true) := by
  refine ⟨by decide, writerReplica_sound, writerStore_same, ?_, writerStore_same, ?_⟩
  · rintro ⟨left, -, synced, -⟩
    have ready := Replica.ready_of_syncsTo id (fun _ => .refl _) (writerReplica_sound true true false)
      (writerReplica_sound true false false) synced
    exact absurd (ready.proto (lit "cccc") (lit "aaaa") (by decide) (by decide)) (by decide)
  · rintro ⟨left, -, synced, -⟩
    have ready := Replica.ready_of_syncsTo id (fun _ => .refl _) (writerReplica_sound false true true)
      (writerReplica_sound false false true) synced
    exact absurd (ready.known (by decide) (lit "w") (lit "cccc") (lit "aaaa") (by decide) (by decide)
      (by decide) (by decide)) (by decide)

end GitWarp
