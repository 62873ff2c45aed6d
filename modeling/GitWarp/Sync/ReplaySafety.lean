import GitWarp.Lib.Run
import GitWarp.Sync.SyncAuthService

/-!
# Replays

Several calls of `verify` run at once on a server. A call waits for its signature
to be checked, for the replay set to be swept when a sweep is due, and for its
nonce to be added. The clock moves on, markers expire and are released, and the
server may restart, which forgets the lamports seen and drops the open calls.
-/
namespace GitWarp

open Js Lib List

/-! ### The server -/

/-- An answer of the durable set that added a nonce, with the readings of the clock. -/
structure Admission where
  presented : Presented
  /-- How many restarts there have been. -/
  process : Nat
  reservedAt : Nat
  admittedAt : Nat
  deriving DecidableEq

/-- What a call of `verify` waits for. -/
inductive Stage
  | signing
  | sweeping (reservedAt : Nat)
  | adding (reservedAt : Nat)
  | added (admission : Admission)

structure OpenCall where
  request : SignedRequest
  secret : JsString
  presented : Presented
  stage : Stage

/-- What the server is started with. -/
structure ServerSetup where
  platform : AuthPlatform
  keys : OrdMap JsString JsString
  rateLimit : Option SyncRateLimiter
  graphName : JsString

def ServerSetup.service (setup : ServerSetup) : SyncAuthService :=
  ⟨setup.keys, .empty, setup.rateLimit⟩

structure SyncServer where
  clock : Nat
  process : Nat
  service : SyncAuthService
  nextSweepAtMs : Nat
  calls : List OpenCall
  markers : ReplaySet
  /-- Every addition to the durable set, in order. -/
  admissions : List Admission
  /-- Every request that was answered with `ok`, in order. -/
  accepted : List Admission

inductive ServerAction
  /-- `verify` is called. -/
  | receive (request : SignedRequest)
  /-- The signature of a call has been checked. -/
  | signed (call : Nat)
  /-- A sweep ends, having released these markers. -/
  | swept (released : List ReplayIdentity)
  /-- A sweep that a call waits for fails, and the call with it. -/
  | sweepFails (call : Nat)
  | addIfAbsent (call : Nat)
  /-- The call to the set fails, with or without the marker stored. -/
  | addFails (call : Nat) (stored : Bool)
  /-- A call goes on after its nonce was added. -/
  | finish (call : Nat)
  | advance (ms : Nat)
  | restart

namespace SyncServer

def start (setup : ServerSetup) : SyncServer := ⟨0, 0, setup.service, 0, [], .empty, [], []⟩

variable (setup : ServerSetup)

def identity (presented : Presented) : ReplayIdentity :=
  ⟨setup.graphName, presented.keyId, presented.nonce⟩

def setStage (s : SyncServer) (i : Nat) (call : OpenCall) (stage : Stage) : SyncServer :=
  { s with calls := s.calls.set i { call with stage := stage } }

def close (s : SyncServer) (i : Nat) : SyncServer := { s with calls := s.calls.eraseIdx i }

/-- `verify` up to its first wait. -/
def receive (s : SyncServer) (request : SignedRequest) : SyncServer :=
  match validateHeaders request.headers with
  | .error _ => s
  | .ok presented =>
    match s.service.resolveKey presented.keyId with
    | .error _ => s
    | .ok secret => { s with calls := s.calls ++ [⟨request, secret, presented, .signing⟩] }

/-- The signature and the lamport are checked and the reservation begins, without a wait between. -/
def signed (s : SyncServer) (i : Nat) (call : OpenCall) : SyncServer :=
  match verifySignature setup.platform call.request call.secret call.presented with
  | .error _ => s.close i
  | .ok () =>
    match s.service.validateFreshness call.presented.timestamp call.presented.keyId with
    | .error _ => s.close i
    | .ok service =>
      let stage := if s.nextSweepAtMs ≤ s.clock then .sweeping s.clock else .adding s.clock
      { s.setStage i call stage with service := service }

/-- Only markers whose time has come are released. -/
def swept (s : SyncServer) (released : List ReplayIdentity) : SyncServer :=
  { s with
    markers := s.markers.filterKeys fun identity =>
      !(released.contains identity && (s.markers.get identity).any fun expiry => expiry ≤ s.clock)
    nextSweepAtMs := s.clock + sweepIntervalMs
    calls := s.calls.map fun call =>
      match call.stage with
      | .sweeping reservedAt => { call with stage := .adding reservedAt }
      | _ => call }

def addIfAbsent (s : SyncServer) (i : Nat) (call : OpenCall) (reservedAt : Nat) : SyncServer :=
  match s.markers.addIfAbsent (identity setup call.presented) (reservedAt + acceptanceWindowMs) with
  | (false, _) => s.close i
  | (true, markers) =>
    let admission := ⟨call.presented, s.process, reservedAt, s.clock⟩
    { s.setStage i call (.added admission) with
      markers := markers, admissions := s.admissions ++ [admission] }

/-- The reservation throws. Whether or not the marker was stored, the call is refused. -/
def addFails (s : SyncServer) (i : Nat) (call : OpenCall) (reservedAt : Nat) (stored : Bool) :
    SyncServer :=
  if stored then
    { s.close i with markers := (s.markers.addIfAbsent (identity setup call.presented)
      (reservedAt + acceptanceWindowMs)).2 }
  else s.close i

def finish (s : SyncServer) (i : Nat) (admission : Admission) : SyncServer :=
  match s.service.consumeRateLimit admission.presented.keyId s.clock with
  | (.ok (), service) =>
    { s.close i with service := service, accepted := s.accepted ++ [admission] }
  | (.error _, service) => { s.close i with service := service }

def step (s : SyncServer) : ServerAction → SyncServer
  | .receive request => s.receive request
  | .signed i =>
    match s.calls[i]? with
    | some call => match call.stage with
      | .signing => s.signed setup i call
      | _ => s
    | none => s
  | .swept released => s.swept released
  | .sweepFails i =>
    match s.calls[i]? with
    | some call => match call.stage with
      | .sweeping _ => s.close i
      | _ => s
    | none => s
  | .addIfAbsent i =>
    match s.calls[i]? with
    | some call => match call.stage with
      | .adding reservedAt => s.addIfAbsent setup i call reservedAt
      | _ => s
    | none => s
  | .addFails i stored =>
    match s.calls[i]? with
    | some call => match call.stage with
      | .adding reservedAt => s.addFails setup i call reservedAt stored
      | _ => s
    | none => s
  | .finish i =>
    match s.calls[i]? with
    | some call => match call.stage with
      | .added admission => s.finish i admission
      | _ => s
    | none => s
  | .advance ms => { s with clock := s.clock + ms }
  | .restart =>
    { s with process := s.process + 1, service := setup.service, nextSweepAtMs := 0, calls := [] }

/-! ### What every run keeps -/

end SyncServer

/-- The key and the lamport that a call has spent, once its lamport was found fresh. -/
def OpenCall.spent? (call : OpenCall) : Option (JsString × Nat) :=
  match call.stage with
  | .signing => none
  | _ => some (call.presented.keyId, timestampNumber call.presented.timestamp)

def Admission.spent (a : Admission) : JsString × Nat :=
  (a.presented.keyId, timestampNumber a.presented.timestamp)

/-- Both admissions are of one signed request. -/
structure Admission.SameRequest (a b : Admission) : Prop where
  keyId : a.presented.keyId = b.presented.keyId
  nonce : a.presented.nonce = b.presented.nonce
  lamport : timestampNumber a.presented.timestamp = timestampNumber b.presented.timestamp
  signature : a.presented.signature = b.presented.signature

def Admission.expiresAt (a : Admission) : Nat := a.reservedAt + acceptanceWindowMs

/-- The later admission comes after a restart, when the marker of the earlier one had expired. -/
def Admission.Outlived (a b : Admission) : Prop :=
  a.process < b.process ∧ a.expiresAt ≤ b.admittedAt

namespace SyncServer

variable (setup : ServerSetup)

/-- What the current process has spent. -/
def spent (s : SyncServer) : List (JsString × Nat) :=
  s.calls.filterMap OpenCall.spent? ++
    (s.accepted.filter fun a => decide (a.process = s.process)).map Admission.spent

structure Safe (s : SyncServer) : Prop where
  retained : ∀ a ∈ s.admissions, a.process ≤ s.process ∧ a.admittedAt ≤ s.clock ∧
    (s.markers.get (identity setup a.presented) = some a.expiresAt ∨ a.expiresAt ≤ s.clock)
  ordered : s.admissions.Pairwise fun a b => a.process ≤ b.process ∧
    (identity setup a.presented = identity setup b.presented → a.expiresAt ≤ b.admittedAt)
  pending : ∀ call ∈ s.calls, ∀ a, call.stage = .added a →
    a ∈ s.admissions ∧ a.process = s.process ∧ a.presented = call.presented
  answered : ∀ a ∈ s.accepted, a ∈ s.admissions
  distinct : s.spent.Nodup
  seen : ∀ p ∈ s.spent, ∃ lastSeen, s.service.lastSeenLamport.get p.1 = some lastSeen ∧
    p.2 ≤ lastSeen
  once : s.accepted.Pairwise fun a b => a.SameRequest b → a.Outlived b

variable {setup} {s : SyncServer}

theorem Safe.fewer (safe : s.Safe setup) (calls) (sub : calls.Sublist s.calls) :
    ({ s with calls := calls } : SyncServer).Safe setup := by
  have sublist : ({ s with calls := calls } : SyncServer).spent.Sublist s.spent :=
    (sub.filterMap OpenCall.spent?).append_right _
  constructor
  · exact safe.retained
  · exact safe.ordered
  · exact fun call mem => safe.pending call (sub.subset mem)
  · exact safe.answered
  · exact safe.distinct.sublist sublist
  · exact fun p mem => safe.seen p (sublist.subset mem)
  · exact safe.once

theorem Safe.close (safe : s.Safe setup) (i) : (s.close i).Safe setup :=
  safe.fewer _ (eraseIdx_sublist s.calls i)

theorem Safe.sameCalls (safe : s.Safe setup) (calls)
    (spent : calls.filterMap OpenCall.spent? = s.calls.filterMap OpenCall.spent?)
    (added : ∀ call ∈ calls, ∀ a, call.stage = .added a →
      ∃ old ∈ s.calls, old.stage = .added a ∧ old.presented = call.presented) :
    ({ s with calls := calls } : SyncServer).Safe setup := by
  have same : ({ s with calls := calls } : SyncServer).spent = s.spent := by
    simp only [SyncServer.spent, spent]
  constructor
  · exact safe.retained
  · exact safe.ordered
  · intro call mem a stage
    obtain ⟨old, inside, waiting, presented⟩ := added call mem a stage
    rw [← presented]
    exact safe.pending old inside a waiting
  · exact safe.answered
  · rw [same]
    exact safe.distinct
  · rw [same]
    exact safe.seen
  · exact safe.once

theorem spent_set (s : SyncServer) (here : s.calls[i]? = some call) (stage) :
    ((s.calls.set i { call with stage := stage }).filterMap OpenCall.spent?).Perm
      (({ call with stage := stage } : OpenCall).spent?.toList ++
        (s.calls.eraseIdx i).filterMap OpenCall.spent?) := by
  obtain ⟨bound, -⟩ := List.getElem?_eq_some_iff.mp here
  have perm := (set_perm_cons_eraseIdx bound { call with stage := stage }).filterMap
    OpenCall.spent?
  cases found : ({ call with stage := stage } : OpenCall).spent? with
  | none | some p => simpa [filterMap_cons, found] using perm

theorem spent_erase (s : SyncServer) (here : s.calls[i]? = some call) :
    (s.calls.filterMap OpenCall.spent?).Perm
      (call.spent?.toList ++ (s.calls.eraseIdx i).filterMap OpenCall.spent?) := by
  have same := spent_set s here call.stage
  obtain ⟨bound, is⟩ := List.getElem?_eq_some_iff.mp here
  have unchanged : s.calls.set i { call with stage := call.stage } = s.calls := by
    rw [← is]
    exact set_getElem_self bound
  rwa [unchanged] at same

end SyncServer

theorem SyncAuthService.validateFreshness_ok (service next : SyncAuthService)
    (fresh : service.validateFreshness timestamp keyId = .ok next) :
    (∀ lastSeen, service.lastSeenLamport.get keyId = some lastSeen →
      lastSeen < timestampNumber timestamp) ∧
    next = { service with
      lastSeenLamport := service.lastSeenLamport.set keyId (timestampNumber timestamp) } := by
  unfold validateFreshness at fresh
  dsimp only at fresh
  split at fresh
  next lastSeen found =>
    split at fresh
    · cases fresh
    next above =>
      cases fresh
      refine ⟨?_, rfl⟩
      intro lastSeen' found'
      rw [found] at found'
      cases found'
      omega
  next none_ =>
    cases fresh
    refine ⟨?_, rfl⟩
    intro lastSeen found
    rw [none_] at found
    cases found

theorem SyncAuthService.consumeRateLimit_lastSeen (service : SyncAuthService) (keyId nowMs) :
    (service.consumeRateLimit keyId nowMs).2.lastSeenLamport = service.lastSeenLamport := by
  unfold consumeRateLimit
  split <;> rfl

namespace SyncServer

variable {setup : ServerSetup} {s : SyncServer}

section

variable (safe : s.Safe setup)
include safe

theorem Safe.receive : (s.receive request).Safe setup := by
  unfold SyncServer.receive
  split
  · exact safe
  split
  · exact safe
  next secret _ =>
    apply safe.sameCalls
    · simp [filterMap_append, OpenCall.spent?]
    · intro call mem a stage
      rcases mem_append.mp mem with old | new
      · exact ⟨call, old, stage, rfl⟩
      · rw [mem_singleton.mp new] at stage
        cases stage

/-- A lamport that is found fresh was not spent by the process before. -/
theorem Safe.signed (i) (here : s.calls[i]? = some call) (waiting : call.stage = .signing) :
    (s.signed setup i call).Safe setup := by
  unfold SyncServer.signed
  split
  · exact safe.close i
  split
  · exact safe.close i
  next service fresh =>
    obtain ⟨above, rfl⟩ := s.service.validateFreshness_ok service fresh
    have unspent : call.spent? = none := by simp [OpenCall.spent?, waiting]
    have before := spent_erase s here
    rw [unspent, Option.toList_none, nil_append] at before
    -- whichever stage follows, the call has spent its lamport and added nothing yet
    have next : ∀ stage : Stage, (∀ a, stage ≠ .added a) → stage ≠ .signing →
        ({ s.setStage i call stage with service := { s.service with
          lastSeenLamport := s.service.lastSeenLamport.set call.presented.keyId
            (timestampNumber call.presented.timestamp) } } : SyncServer).Safe setup := by
      intro stage notAdded notSigning
      have spends : ({ call with stage := stage } : OpenCall).spent? =
          some (call.presented.keyId, timestampNumber call.presented.timestamp) := by
        unfold OpenCall.spent?
        split
        next signing => exact absurd signing notSigning
        · rfl
      have after := spent_set s here stage
      rw [spends, Option.toList_some, singleton_append] at after
      have perm : ({ s.setStage i call stage with service := { s.service with
          lastSeenLamport := s.service.lastSeenLamport.set call.presented.keyId
            (timestampNumber call.presented.timestamp) } } : SyncServer).spent.Perm
              ((call.presented.keyId, timestampNumber call.presented.timestamp) :: s.spent) := by
        exact (after.trans (before.symm.cons _)).append_right _
      have new : (call.presented.keyId, timestampNumber call.presented.timestamp) ∉ s.spent := by
        intro spent
        obtain ⟨lastSeen, found, below⟩ := safe.seen _ spent
        have less := above lastSeen found
        omega
      constructor
      · exact safe.retained
      · exact safe.ordered
      · intro other mem a stageOther
        rcases mem_or_eq_of_mem_set mem with old | rfl
        · exact safe.pending other old a stageOther
        · exact absurd stageOther (notAdded a)
      · exact safe.answered
      · exact perm.nodup_iff.mpr (nodup_cons.mpr ⟨new, safe.distinct⟩)
      · intro p mem
        have cases_ := perm.mem_iff.mp mem
        rw [OrdMap.get_set]
        rcases mem_cons.mp cases_ with rfl | old
        · exact ⟨_, if_pos rfl, Nat.le_refl _⟩
        · obtain ⟨lastSeen, found, below⟩ := safe.seen p old
          by_cases same : call.presented.keyId = p.1
          · rw [← same] at found
            have less := above lastSeen found
            exact ⟨_, if_pos same, by omega⟩
          · exact ⟨lastSeen, by rw [if_neg same, found], below⟩
      · exact safe.once
    split
    · exact next (.sweeping s.clock) (by simp) (by simp)
    · exact next (.adding s.clock) (by simp) (by simp)

/-- A sweep releases markers, but none before its time. -/
theorem Safe.swept : (s.swept released).Safe setup := by
  have moved : ({ s with calls := (s.swept released).calls } : SyncServer).Safe setup := by
    apply safe.sameCalls
    · simp only [SyncServer.swept, filterMap_map]
      apply filterMap_congr
      intro call _
      cases stage : call.stage <;> simp [OpenCall.spent?, stage]
    · intro call mem a added
      obtain ⟨old, inside, rfl⟩ := mem_map.mp mem
      cases stage : old.stage with
      | added b =>
        simp only [stage] at added
        exact ⟨old, inside, stage.trans added, rfl⟩
      | signing | sweeping reservedAt | adding reservedAt => simp [stage] at added
  constructor
  · intro a mem
    obtain ⟨process, admitted, kept⟩ := safe.retained a mem
    refine ⟨process, admitted, ?_⟩
    rcases kept with held | expired
    · by_cases elapsed : a.expiresAt ≤ s.clock
      · exact Or.inr elapsed
      · apply Or.inl
        simp [SyncServer.swept, OrdMap.get_filterKeys, held, elapsed]
    · exact Or.inr expired
  · exact safe.ordered
  · exact moved.pending
  · exact safe.answered
  · exact moved.distinct
  · exact moved.seen
  · exact safe.once

theorem Safe.addFails (i) : (s.addFails setup i call reservedAt stored).Safe setup := by
  unfold SyncServer.addFails
  split
  · have closed := safe.close i
    constructor
    · intro a mem
      obtain ⟨process, admitted, kept⟩ := closed.retained a mem
      refine ⟨process, admitted, kept.imp_left ?_⟩
      intro held
      dsimp only [ReplaySet.addIfAbsent]
      split
      · exact held
      next absent =>
        -- a marker that is there is not replaced
        rw [OrdMap.get_set]
        split
        next same =>
          rw [same] at absent
          have here : s.markers.get (identity setup a.presented) = some a.expiresAt := held
          simp [OrdMap.has, here] at absent
        · exact held
    · exact closed.ordered
    · exact closed.pending
    · exact closed.answered
    · exact closed.distinct
    · exact closed.seen
    · exact closed.once
  · exact safe.close i

/-- A marker is added only when none of the same identity is retained. -/
theorem Safe.addIfAbsent (i) (here : s.calls[i]? = some call)
    (waiting : call.stage = .adding reservedAt) :
    (s.addIfAbsent setup i call reservedAt).Safe setup := by
  by_cases present : s.markers.has (identity setup call.presented) = true
  · have refused : s.addIfAbsent setup i call reservedAt = s.close i := by
      simp [SyncServer.addIfAbsent, ReplaySet.addIfAbsent, present]
    rw [refused]
    exact safe.close i
  · have absent : s.markers.get (identity setup call.presented) = none := by
      simpa [OrdMap.has] using present
    have added : s.addIfAbsent setup i call reservedAt =
        { s.setStage i call (.added ⟨call.presented, s.process, reservedAt, s.clock⟩) with
          markers := s.markers.set (identity setup call.presented) (reservedAt + acceptanceWindowMs)
          admissions := s.admissions ++ [⟨call.presented, s.process, reservedAt, s.clock⟩] } := by
      simp [SyncServer.addIfAbsent, ReplaySet.addIfAbsent, present]
    rw [added]
    have same : ({ call with stage := .added ⟨call.presented, s.process, reservedAt, s.clock⟩ } :
        OpenCall).spent? = call.spent? := by
      simp [OpenCall.spent?, waiting]
    have calls := (spent_set s here (.added ⟨call.presented, s.process, reservedAt, s.clock⟩)).trans
        (same ▸ (spent_erase s here).symm)
    have perm : ({ s.setStage i call (.added ⟨call.presented, s.process, reservedAt, s.clock⟩) with
        admissions := s.admissions ++ [⟨call.presented, s.process, reservedAt, s.clock⟩] } :
          SyncServer).spent.Perm s.spent := calls.append_right _
    -- whoever had a marker of this identity has lost it, so its time had come
    have expired : ∀ a ∈ s.admissions,
        identity setup a.presented = identity setup call.presented → a.expiresAt ≤ s.clock := by
      intro a mem sameIdentity
      obtain ⟨-, -, kept⟩ := safe.retained a mem
      rcases kept with held | elapsed
      · rw [sameIdentity, absent] at held
        cases held
      · exact elapsed
    constructor
    · intro a mem
      rw [OrdMap.get_set]
      rcases mem_append.mp mem with old | new
      · obtain ⟨process, admitted, kept⟩ := safe.retained a old
        refine ⟨process, admitted, ?_⟩
        by_cases sameIdentity : identity setup a.presented = identity setup call.presented
        · exact Or.inr (expired a old sameIdentity)
        · rw [if_neg (Ne.symm sameIdentity)]
          exact kept
      · rw [mem_singleton.mp new]
        exact ⟨Nat.le_refl _, Nat.le_refl _, Or.inl (if_pos rfl)⟩
    · apply pairwise_append.mpr
      refine ⟨safe.ordered, pairwise_singleton _ _, ?_⟩
      intro a mem b new
      rw [mem_singleton.mp new]
      exact ⟨(safe.retained a mem).1, expired a mem⟩
    · intro other mem a stageOther
      rcases mem_or_eq_of_mem_set mem with old | rfl
      · obtain ⟨listed, rest⟩ := safe.pending other old a stageOther
        exact ⟨mem_append_left _ listed, rest⟩
      · cases stageOther
        exact ⟨mem_append_right _ mem_cons_self, rfl, rfl⟩
    · exact fun a mem => mem_append_left _ (safe.answered a mem)
    · exact perm.nodup_iff.mpr safe.distinct
    · exact fun p mem => safe.seen p (perm.mem_iff.mp mem)
    · exact safe.once

theorem Safe.outlived (left : a ∈ s.admissions) (right : b ∈ s.admissions)
    (earlier : a.process < b.process) (same : a.SameRequest b) : a.Outlived b := by
  obtain ⟨j, inJ, rfl⟩ := getElem_of_mem left
  obtain ⟨k, inK, rfl⟩ := getElem_of_mem right
  have ordered := pairwise_iff_getElem.mp safe.ordered
  have identical : identity setup s.admissions[j].presented =
      identity setup s.admissions[k].presented := by
    simp only [identity, same.keyId, same.nonce]
  rcases Nat.lt_trichotomy j k with before | equal | after
  · exact ⟨earlier, (ordered j k inJ inK before).2 identical⟩
  · subst equal
    exact absurd earlier (Nat.lt_irrefl _)
  · have reversed := (ordered k j inK inJ after).1
    omega

/-- An answer moves what the call has spent to the accepted requests. -/
theorem Safe.finish (i) (here : s.calls[i]? = some call) (waiting : call.stage = .added admission) :
    (s.finish i admission).Safe setup := by
  have lastSeen := s.service.consumeRateLimit_lastSeen admission.presented.keyId s.clock
  have mem : call ∈ s.calls := mem_of_getElem? here
  obtain ⟨listed, current, presented⟩ := safe.pending call mem admission waiting
  have spends : call.spent? = some admission.spent := by
    simp [OpenCall.spent?, waiting, Admission.spent, presented]
  have before := spent_erase s here
  rw [spends, Option.toList_some, singleton_append] at before
  have closed := safe.close i
  unfold SyncServer.finish
  split
  next service consumed =>
    rw [consumed] at lastSeen
    have perm : ({ s.close i with service := service, accepted := s.accepted ++ [admission] } :
        SyncServer).spent.Perm s.spent := by
      have split_ : ({ s.close i with service := service, accepted := s.accepted ++ [admission] } :
          SyncServer).spent = (s.close i).spent ++ [admission.spent] := by
        simp [SyncServer.spent, SyncServer.close, filter_append, current]
      rw [split_]
      have front : ((s.close i).spent ++ [admission.spent]).Perm
          (admission.spent :: (s.close i).spent) := perm_append_singleton _ _
      exact front.trans (before.symm.append_right _)
    constructor
    · exact safe.retained
    · exact safe.ordered
    · exact closed.pending
    · intro a inside
      rcases mem_append.mp inside with old | new
      · exact safe.answered a old
      · exact mem_singleton.mp new ▸ listed
    · exact perm.nodup_iff.mpr safe.distinct
    · intro p inside
      rw [lastSeen]
      exact safe.seen p (perm.mem_iff.mp inside)
    · apply pairwise_append.mpr
      refine ⟨safe.once, pairwise_singleton _ _, ?_⟩
      intro a old b new same
      rw [mem_singleton.mp new] at same ⊢
      have inAdmissions := safe.answered a old
      have below := (safe.retained a inAdmissions).1
      apply safe.outlived inAdmissions listed _ same
      -- one process never spends a lamport of a key twice
      by_contra notBefore
      have samePace : a.process = s.process := by omega
      have samePair : a.spent = admission.spent := by
        simp only [Admission.spent, same.keyId, same.lamport]
      have twice := safe.distinct
      rw [SyncServer.spent, nodup_append] at twice
      have left : admission.spent ∈ s.calls.filterMap OpenCall.spent? :=
        before.mem_iff.mpr mem_cons_self
      have right : a.spent ∈ (s.accepted.filter fun a => decide (a.process = s.process)).map
          Admission.spent :=
        mem_map_of_mem (mem_filter.mpr ⟨old, by simp [samePace]⟩)
      exact twice.2.2 _ left _ right samePair.symm
  next service consumed =>
    rw [consumed] at lastSeen
    constructor
    · exact closed.retained
    · exact closed.ordered
    · exact closed.pending
    · exact closed.answered
    · exact closed.distinct
    · intro p inside
      rw [lastSeen]
      exact closed.seen p inside
    · exact closed.once

theorem Safe.advance (ms) : ({ s with clock := s.clock + ms } : SyncServer).Safe setup := by
  refine { safe with retained := ?_ }
  intro a mem
  obtain ⟨process, admitted, kept⟩ := safe.retained a mem
  exact ⟨process, Nat.le_add_right_of_le admitted, kept.imp_right fun elapsed =>
    Nat.le_add_right_of_le elapsed⟩

theorem Safe.restart : (s.step setup .restart).Safe setup := by
  -- a restart forgets the lamports seen, and nothing has been spent in the new process
  have none_ : (s.step setup .restart).spent = [] := by
    have old : s.accepted.filter (fun a => decide (a.process = s.process + 1)) = [] := by
      apply filter_eq_nil_iff.mpr
      intro a mem
      have below := (safe.retained a (safe.answered a mem)).1
      simp only [decide_eq_true_eq]
      omega
    change (s.accepted.filter fun a => decide (a.process = s.process + 1)).map Admission.spent = []
    rw [old, map_nil]
  constructor
  · intro a mem
    obtain ⟨process, rest⟩ := safe.retained a mem
    exact ⟨Nat.le_succ_of_le process, rest⟩
  · exact safe.ordered
  · intro call mem
    cases mem
  · exact safe.answered
  · rw [none_]
    exact nodup_nil
  · rw [none_]
    intro p mem
    cases mem
  · exact safe.once

theorem Safe.step : (s.step setup action).Safe setup := by
  cases action with
  | receive request => exact safe.receive
  | signed i =>
    simp only [SyncServer.step]
    split
    next call here =>
      split
      next waiting => exact safe.signed i here waiting
      · exact safe
    · exact safe
  | swept released => exact safe.swept
  | sweepFails i =>
    simp only [SyncServer.step]
    split
    next call here =>
      split
      · exact safe.close i
      · exact safe
    · exact safe
  | addIfAbsent i =>
    simp only [SyncServer.step]
    split
    next call here =>
      split
      next reservedAt waiting => exact safe.addIfAbsent i here waiting
      · exact safe
    · exact safe
  | addFails i stored =>
    simp only [SyncServer.step]
    split
    next call here =>
      split
      next reservedAt _ => exact safe.addFails i
      · exact safe
    · exact safe
  | finish i =>
    simp only [SyncServer.step]
    split
    next call here =>
      split
      next admission waiting => exact safe.finish i here waiting
      · exact safe
    · exact safe
  | advance ms => exact safe.advance ms
  | restart => exact safe.restart

end

theorem safe_start : (start setup).Safe setup := by
  constructor
  · exact fun a mem => by cases mem
  · exact List.Pairwise.nil
  · exact fun call mem => by cases mem
  · exact fun a mem => by cases mem
  · exact nodup_nil
  · exact fun p mem => by cases mem
  · exact List.Pairwise.nil

theorem safe_run (s) (safe : s.Safe setup) : (run (step setup) s actions).Safe setup := by
  induction actions generalizing s with
  | nil => exact safe
  | cons action rest ih => exact ih _ (safe.step)

/-! ### The main result -/

/-- In every run, a signed request is accepted again only after a restart, and only when its
marker, kept for the acceptance window from its reservation, had expired. -/
theorem replay_outlives_marker (setup : ServerSetup) (actions : List ServerAction) :
    (run (step setup) (start setup) actions).accepted.Pairwise fun a b =>
      a.SameRequest b → a.Outlived b :=
  (safe_run (start setup) safe_start).once

/-- A platform whose digests are constant. -/
def plainPlatform : AuthPlatform where
  hash := fun _ => []
  hmac := fun _ _ => List.replicate 32 0
  urlPath := some
  toUpperCase := id

def plainSetup : ServerSetup where
  platform := plainPlatform
  keys := .ofList [(lit "k", lit "secret")]
  rateLimit := none
  graphName := lit "g"

def plainNonce : JsString := lit "00000000-0000-4000-8000-000000000000"

def plainRequest : SignedRequest where
  method := lit "POST"
  url := lit "/sync"
  headers := .ofList (signSyncRequest plainPlatform
    ⟨lit "POST", lit "/sync", [], [], lit "secret", lit "k", 7⟩ plainNonce)
  body := none

def acceptOnce : List ServerAction :=
  [.receive plainRequest, .signed 0, .swept [⟨lit "g", lit "k", plainNonce⟩], .addIfAbsent 0,
    .finish 0]

/-- Ten minutes and a restart later the same request is accepted once more. -/
theorem replay_accepted_after_restart :
    ¬ ∀ (setup : ServerSetup) (actions : List ServerAction),
      (run (step setup) (start setup) actions).accepted.Pairwise fun a b => ¬ a.SameRequest b := by
  intro claim
  have once := claim plainSetup (acceptOnce ++ [.advance acceptanceWindowMs, .restart] ++ acceptOnce)
  have twice : (run (step plainSetup) (start plainSetup)
      (acceptOnce ++ [.advance acceptanceWindowMs, .restart] ++ acceptOnce)).accepted.map
        (fun a => (a.presented, a.process)) =
      [(⟨hexEncode (List.replicate 32 0), lit "7", plainNonce, lit "k", some sharedSecretScheme⟩, 0),
        (⟨hexEncode (List.replicate 32 0), lit "7", plainNonce, lit "k", some sharedSecretScheme⟩, 1)]
      := by decide +kernel
  generalize (run (step plainSetup) (start plainSetup)
    (acceptOnce ++ [.advance acceptanceWindowMs, .restart] ++ acceptOnce)).accepted = accepted at *
  obtain ⟨a, rest, rfl, first, later⟩ := map_eq_cons_iff.mp twice
  obtain ⟨b, tail, rfl, second, -⟩ := map_eq_cons_iff.mp later
  have distinct := (pairwise_cons.mp once).1 b mem_cons_self
  simp only [Prod.mk.injEq] at first second
  have same : a.presented = b.presented := first.1.trans second.1.symm
  exact distinct ⟨by rw [same], by rw [same], by rw [same], by rw [same]⟩

end SyncServer

end GitWarp
