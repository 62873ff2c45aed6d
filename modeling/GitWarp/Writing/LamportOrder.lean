import GitWarp.Sync.Applying
import GitWarp.Writing.DotUniqueness
import Mathlib.Data.List.Chain

/-!
# Lamports along the runs of several hosts

Next to the system of hosts, writers and builders a ledger keeps what each host has
observed and what was published. `createPatch` takes its lamport from the greatest one
that the host has noted and from the tip of the chain; `beginPatch` takes it from the tip
alone, and applying a sync response notes nothing.
-/
namespace GitWarp

open Js Lib KeyCodec List Option Function WarpState

variable {V : Type}

/-! ### Calls that the system of writers does not have -/

/-- A builder call that pushes an operation without a dot: a property, a remove. -/
def PatchBuilder.push (b : PatchBuilder V) (op : Op V) : Except Failure Unit × PatchBuilder V :=
  match b.assertNotCommitted, op.create with
  | .ok (), .ok created => (.ok (), { b with ops := b.ops ++ [created] })
  | .error e, _ => (.error e, b)
  | .ok (), .error e => (.error e, b)

/-- The state that a host with a cached state reaches by a sync response. The tips that the
response moves do not matter for it. -/
def System.syncedState (s : System V) (h : Nat) (response : SyncResponse V) :
    Option (WarpState V) :=
  match s.hosts[h]?.bind Host.cachedState with
  | none => none
  | some state =>
    match GitWarp.applySyncResponse response state .empty with
    | .error _ => none
    | .ok result => some result.state

/-- `applySyncResponse` of a host: the new state counts as clean; the greatest lamport that
the host has noted stays as it is. -/
def System.applySyncResponse (s : System V) (h : Nat) (response : SyncResponse V) : System V :=
  match s.hosts[h]?, s.syncedState h response with
  | some host, some state =>
    { s with
      vectors := s.vectors ++ [state.observedFrontier]
      hosts := s.hosts.set h { host with
        cachedState := some state
        stateDirty := false
        versionVector := s.vectors.length } }
  | _, _ => s

/-- The builder and the patch that a commit publishes, if it publishes. -/
def System.published (s : System V) (b : Nat) (sha : JsString) :
    Option (PatchBuilder V × PatchEntry V) :=
  match s.builders[b]? with
  | none => none
  | some builder =>
    if builder.committed || builder.ops.isEmpty then none
    else if s.readRef builder.writerId ≠ builder.expectedParentSha then none
    else some (builder, s.commitEntry builder sha)

/-! ### What is observed -/

/-- What a host has observed: the lamports of the patches it replayed or committed, those of
the patches it was sent, and the states it has held. -/
structure Observed (V : Type) where
  replayed : List Int
  synced : List Int
  states : List (WarpState V)

def Observed.nothing : Observed V := ⟨[], [], []⟩

def Observed.lamports (o : Observed V) : List Int := o.replayed ++ o.synced

structure Publication (V : Type) where
  entry : PatchEntry V
  parent : Option (PatchEntry V)
  begun : Observed V

structure Ledger (V : Type) where
  system : System V
  observed : Nat → Observed V
  begun : Nat → Observed V
  publications : List (Publication V)

namespace Ledger

def empty : Ledger V := ⟨.empty, fun _ => .nothing, fun _ => .nothing, []⟩

/-- The state that a host holds. -/
def held (s : System V) (h : Nat) : List (WarpState V) :=
  (s.hosts[h]?.bind Host.cachedState).toList

/-- Adds lamports to what a host has replayed, with the state it holds afterwards. -/
def note (l : Ledger V) (after : System V) (h : Nat) (replayed synced : List Int) : Ledger V :=
  let before := l.observed h
  { l with
    system := after
    observed := Function.update l.observed h
      ⟨before.replayed ++ replayed, before.synced ++ synced, before.states ++ held after h⟩ }

def lamportsOf (entries : List (PatchEntry V)) : List Int :=
  entries.map fun entry => entry.patch.lamport

end Ledger

/-! ### Runs -/

inductive Call (V : Type)
  | action (action : Action)
  | push (builder : Nat) (op : Op V)
  | applySyncResponse (host : Nat) (response : SyncResponse V)

namespace Ledger

/-- The patches that a materialization replays. -/
def replayedBy (s : System V) (ceiling : Option Nat) : List (PatchEntry V) :=
  if ceiling = some 0 then [] else s.streamForFrontier ceiling

/-- A call on the system of writers, noted in the ledger. -/
def perform (l : Ledger V) (action : Action) : Ledger V :=
  let s := l.system
  let after := GitWarp.perform s action
  match action with
  | .openHost _ =>
    { l with system := after, observed := Function.update l.observed s.hosts.length .nothing }
  | .materialize h ceiling =>
    match s.hosts[h]?, s.replay ceiling with
    | some _, .ok _ => l.note after h (lamportsOf (replayedBy s ceiling)) []
    | _, _ => { l with system := after }
  | .createPatch h =>
    match s.hosts[h]? with
    | none => { l with system := after }
    | some _ =>
      { l with system := after, begun := Function.update l.begun s.builders.length (l.observed h) }
  | .beginPatch w =>
    match s.writers[w]? with
    | none => { l with system := after }
    | some writer =>
      { l with
        system := after
        begun := Function.update l.begun s.builders.length (l.observed writer.host) }
  | .commit b sha =>
    match s.published b sha with
    | none => { l with system := after }
    | some (builder, entry) =>
      { l.note after builder.host [entry.patch.lamport] [] with
        publications := l.publications ++
          [⟨entry, (s.chain builder.writerId).getLast?, l.begun b⟩] }
  | .writer _ _ | .addNode _ _ | .addEdge _ _ _ _ => { l with system := after }

def step (l : Ledger V) : Call V → Ledger V
  | .action action => l.perform action
  | .push b op => { l with system := l.system.updateBuilder b fun builder => builder.push op }
  | .applySyncResponse h response =>
    match l.system.syncedState h response with
    | none => l
    | some _ =>
      l.note (l.system.applySyncResponse h response) h []
        (lamportsOf (response.patches.map SyncPatchEntry.entry))

end Ledger

/-! ### The order of lamports -/

/-- A property write of the patch beats every register of the state. -/
def PatchEntry.WinsOver (entry : PatchEntry V) (state : WarpState V) : Prop :=
  ∀ k r w, state.prop.get k = some r → .write k w ∈ entry.facts →
    lwwMax (some r) (some w) = some w ∧ lwwMax (some w) (some r) = some w

/-- The patch comes after its parent and after everything that its host had observed, and
its writes win over every value that the host had observed. -/
structure Publication.Causal (p : Publication V) : Prop where
  parent : ∀ parent ∈ p.parent, parent.patch.lamport < p.entry.patch.lamport
  observed : ∀ t ∈ p.begun.lamports, t < p.entry.patch.lamport
  wins : ∀ state ∈ p.begun.states, p.entry.WinsOver state

/-- A builder from `createPatch` is begun when what was synced is not above the tip of the
chain and the greatest lamport the host has noted; a builder of a writer is begun when
nothing that its host has observed is above the tip of its chain. -/
def StartsAhead (l : Ledger V) : Call V → Prop
  | .action (.createPatch h) =>
    ∀ host ∈ l.system.hosts[h]?, ∀ t ∈ (l.observed h).synced,
      t ≤ max (l.system.ownTick host.writerId) host.maxObservedLamport
  | .action (.beginPatch w) =>
    ∀ writer ∈ l.system.writers[w]?, ∀ t ∈ (l.observed writer.host).lamports,
      t ≤ l.system.ownTick writer.writerId
  | _ => True

instance (l : Ledger V) : (call : Call V) → Decidable (StartsAhead l call)
  | .action (.createPatch h) => inferInstanceAs (Decidable (∀ host ∈ l.system.hosts[h]?, _))
  | .action (.beginPatch w) => inferInstanceAs (Decidable (∀ writer ∈ l.system.writers[w]?, _))
  | .action (.openHost _) | .action (.materialize _ _) | .action (.writer _ _)
  | .action (.addNode _ _) | .action (.addEdge _ _ _ _) | .action (.commit _ _) | .push _ _
  | .applySyncResponse _ _ => isTrue trivial

/-! ### Registers come from patches -/

variable {l : Ledger V} (entry : PatchEntry V)

theorem eventsFrom_lamport (i) (ops events) (found : entry.eventsFrom i ops = .ok events) :
    ∀ event ∈ events, (event.1.lamport : Int) = entry.patch.lamport := by
  induction ops generalizing i events with
  | nil =>
    cases found
    simp
  | cons rawOp rest ih =>
    rcases eventsFrom_cons entry found with ⟨-, skipped⟩ | step
    · exact ih (i + 1) events skipped
    · obtain ⟨e, canonOp, tail, -, created, others, rfl⟩ := step
      intro event mem
      rcases mem_cons.mp mem with rfl | old
      · exact (eventId_create_eq entry i e created).2.2
      · exact ih (i + 1) tail others event old

theorem PatchEntry.write_lamport (mem : Fact.write k r ∈ entry.facts) :
    (r.eventId.lamport : Int) = entry.patch.lamport := by
  obtain ⟨events, found, event, listed, written⟩ := entry.write_event mem
  rw [(Op.write_facts _ written).1]
  exact eventsFrom_lamport entry 0 _ events found event listed

/-- Every register of the state carries one of the lamports. -/
def WarpState.StampedBy (s : WarpState V) (lamports : List Int) : Prop :=
  ∀ k r, s.prop.get k = some r → (r.eventId.lamport : Int) ∈ lamports

theorem WarpState.StampedBy.mono {after} {s : WarpState V} (stamped : s.StampedBy before)
    (more : ∀ t ∈ before, t ∈ after) : s.StampedBy after :=
  fun k r found => more _ (stamped k r found)

theorem stampedBy_empty : (WarpState.empty : WarpState V).StampedBy [] := by
  intro k r found
  cases found

theorem applyFast_stamped {entry : PatchEntry V} (stamped : s.StampedBy lamports)
    (applied : applyFast s entry = .ok t) : t.StampedBy (lamports ++ [entry.patch.lamport]) := by
  obtain ⟨effect, found, rfl⟩ := effect_of_applyFast applied
  intro k r present
  have winner := ((represents_facts s).apply effect).writes k
  rw [present] at winner
  rcases winner.1 with old | new
  · exact mem_append_left _ (stamped k r old)
  · rw [entry.write_lamport ⟨effect, found, new⟩]
    simp

theorem reducePatches_stamped (entries) (s t : WarpState V) (lamports)
    (stamped : s.StampedBy lamports) (reduced : reducePatches entries s = .ok t) :
    t.StampedBy (lamports ++ Ledger.lamportsOf entries) := by
  induction entries generalizing s lamports with
  | nil =>
    cases reduced
    simpa [Ledger.lamportsOf] using stamped
  | cons entry rest ih =>
    simp only [reducePatches, bind, Except.bind] at reduced
    split at reduced
    · cases reduced
    next next applied =>
      have later := ih next _ (applyFast_stamped stamped applied) reduced
      simpa [Ledger.lamportsOf] using later


theorem applyWriterPatches_stamped (s t) (lamports) (stamped : s.StampedBy lamports)
    (applied : applyWriterPatches entries s = .ok t) :
    t.StampedBy (lamports ++ Ledger.lamportsOf entries) := by
  induction entries generalizing s lamports with
  | nil =>
    cases applied
    simpa [Ledger.lamportsOf] using stamped
  | cons entry rest ih =>
    simp only [applyWriterPatches, applySyncPatch, bind, Except.bind] at applied
    cases rebuilt : normalizePatch entry.patch with
    | error e => simp [rebuilt] at applied
    | ok patch =>
      -- rebuilding a patch keeps its lamport
      have sameLamport : patch.lamport = entry.patch.lamport := by
        simp only [normalizePatch, bind, Except.bind] at rebuilt
        split at rebuilt
        · cases rebuilt
        · split at rebuilt
          · cases rebuilt
          · split at rebuilt
            · cases rebuilt
            · cases rebuilt
              rfl
      simp only [rebuilt] at applied
      split at applied
      · cases applied
      next next first =>
        split at first
        · cases first
        · have once := applyFast_stamped stamped first
          have later := ih next _ once applied
          simpa [Ledger.lamportsOf, sameLamport] using later

theorem applyGroups_stamped (groups) (start result : ApplySyncResult V) (lamports)
    (stamped : start.state.StampedBy lamports) (applied : applyGroups groups start = .ok result) :
    result.state.StampedBy (lamports ++ Ledger.lamportsOf (groups.flatMap Prod.snd)) := by
  induction groups generalizing start lamports with
  | nil =>
    cases applied
    simpa [Ledger.lamportsOf] using stamped
  | cons group rest ih =>
    obtain ⟨writerId, entries⟩ := group
    simp only [applyGroups, bind, Except.bind] at applied
    split at applied
    · cases applied
    next state first =>
      have once := applyWriterPatches_stamped start.state state lamports stamped first
      have later := ih _ _ once applied
      simpa [Ledger.lamportsOf] using later

theorem applySyncResponse_stamped {frontier} {result : ApplySyncResult V} (lamports)
    (stamped : s.StampedBy lamports) (applied : applySyncResponse response s frontier = .ok result) :
    result.state.StampedBy
      (lamports ++ Ledger.lamportsOf (response.patches.map SyncPatchEntry.entry)) := by
  refine (applyGroups_stamped _ _ _ lamports stamped applied).mono fun t mem => ?_
  rw [mem_append] at mem ⊢
  refine mem.imp_right fun listed => ?_
  obtain ⟨entry, inside, rfl⟩ := mem_map.mp listed
  exact mem_map_of_mem ((mem_groups entry).mp inside)

/-! ### The invariant -/

structure Ledger.Inv (l : Ledger V) : Prop where
  noted : ∀ h host, l.system.hosts[h]? = some host →
    ∀ t ∈ (l.observed h).replayed, t ≤ host.maxObservedLamport
  held : ∀ h, ∀ state ∈ held l.system h, state ∈ (l.observed h).states
  stamped : ∀ h, ∀ state ∈ (l.observed h).states, state.StampedBy (l.observed h).lamports
  begun : ∀ i b, l.system.builders[i]? = some b → (∀ t ∈ (l.begun i).lamports, t < b.lamport) ∧
      ∀ state ∈ (l.begun i).states, state.StampedBy (l.begun i).lamports
  published : ∀ p ∈ l.publications, p.Causal

theorem Ledger.inv_empty : (Ledger.empty : Ledger V).Inv where
  noted := by simp [Ledger.empty, System.empty]
  held := by simp [Ledger.empty, System.empty, Ledger.held]
  stamped := by simp [Ledger.empty, Observed.nothing]
  begun := by simp [Ledger.empty, System.empty]
  published := by simp [Ledger.empty]

/-- The builders are those of before, with the lamports they had. -/
def KeepsLamports (s t : System V) : Prop :=
  ∀ (i : Nat) (b : PatchBuilder V), t.builders[i]? = some b →
    ∃ old, s.builders[i]? = some old ∧ b.lamport = old.lamport

theorem KeepsLamports.of_eq {s t : System V} (same : t.builders = s.builders) :
    KeepsLamports s t := fun i b found => ⟨b, by rw [← same]; exact found, rfl⟩

theorem Ledger.Inv.begun_keep {after} (inv : l.Inv) (builders : KeepsLamports l.system after) (i)
    (b) (found : after.builders[i]? = some b) :
    (∀ t ∈ (l.begun i).lamports, t < b.lamport) ∧
      ∀ state ∈ (l.begun i).states, state.StampedBy (l.begun i).lamports := by
  obtain ⟨old, present, same⟩ := builders i b found
  rw [same]
  exact inv.begun i old present

theorem Ledger.Inv.of_hosts (inv : l.Inv) (after) (hosts : after.hosts = l.system.hosts)
    (builders : KeepsLamports l.system after) :
    ({ l with system := after } : Ledger V).Inv where
  noted := by rw [hosts]; exact inv.noted
  held := by
    intro h state mem
    rw [Ledger.held, hosts] at mem
    exact inv.held h state mem
  stamped := inv.stamped
  begun := inv.begun_keep builders
  published := inv.published

theorem Ledger.Inv.note (inv : l.Inv) (after h replayed synced)
    (builders : KeepsLamports l.system after)
    (others : ∀ other, other ≠ h → after.hosts[other]? = l.system.hosts[other]?)
    (noted : ∀ host, after.hosts[h]? = some host →
      (∃ old, l.system.hosts[h]? = some old ∧ old.maxObservedLamport ≤ host.maxObservedLamport) ∧
        ∀ t ∈ replayed, t ≤ host.maxObservedLamport) (stamped : ∀ state ∈ Ledger.held after h,
      state.StampedBy ((l.observed h).lamports ++ (replayed ++ synced))) :
    (l.note after h replayed synced).Inv := by
  -- a step that gives one host a new state and notes what it replayed
  have grown : ∀ t ∈ (l.observed h).lamports ++ (replayed ++ synced),
      t ∈ Observed.lamports (V := V) ⟨(l.observed h).replayed ++ replayed,
        (l.observed h).synced ++ synced, (l.observed h).states ++ Ledger.held after h⟩ := by
    intro t
    simp only [Observed.lamports, mem_append]
    tauto
  constructor
  · intro other host found t mem
    by_cases same : other = h
    · subst same
      simp only [Ledger.note, update_self] at mem found
      obtain ⟨⟨old, present, grows⟩, fresh⟩ := noted host found
      rcases mem_append.mp mem with before | new
      · exact (inv.noted other old present t before).trans grows
      · exact fresh t new
    · simp only [Ledger.note, update_of_ne same] at mem found
      rw [others other same] at found
      exact inv.noted other host found t mem
  · intro other state mem
    by_cases same : other = h
    · subst same
      simp only [Ledger.note, update_self]
      exact mem_append_right _ mem
    · simp only [Ledger.note, update_of_ne same, Ledger.held, others other same] at mem ⊢
      exact inv.held other state mem
  · intro other state mem
    by_cases same : other = h
    · subst same
      simp only [Ledger.note, update_self] at mem ⊢
      rcases mem_append.mp mem with before | new
      · exact (inv.stamped other state before).mono fun t listed =>
          grown t (mem_append_left _ listed)
      · exact (stamped state new).mono grown
    · simp only [Ledger.note, update_of_ne same] at mem ⊢
      exact inv.stamped other state mem
  · exact inv.begun_keep builders
  · exact inv.published

/-- A new builder that is ahead of what its host has observed. -/
theorem Ledger.Inv.start (inv : l.Inv) (b) (h)
    (ahead : ∀ t ∈ (l.observed h).lamports, t < b.lamport) :
    ({ l with
      system := { l.system with builders := l.system.builders ++ [b] }
      begun := Function.update l.begun l.system.builders.length (l.observed h) } : Ledger V).Inv where
  noted := inv.noted
  held := inv.held
  stamped := inv.stamped
  begun := by
    intro i other found
    rcases Nat.lt_trichotomy i l.system.builders.length with old | new | beyond
    · rw [List.getElem?_append_left old] at found
      simp only [update_of_ne (Nat.ne_of_lt old)]
      exact inv.begun i other found
    · subst new
      rw [List.getElem?_concat_length, Option.some.injEq] at found
      subst found
      simp only [update_self]
      exact ⟨ahead, inv.stamped h⟩
    · rw [List.getElem?_eq_none (by simp only [length_append, length_singleton]; omega)]
        at found
      cases found
  published := inv.published


/-! ### Calls -/

variable (s : System V)

theorem updateBuilder_keepsLamports (b)
    (keeps : ∀ builder, (call builder).2.lamport = builder.lamport) :
    KeepsLamports s (s.updateBuilder b call) := by
  intro i other found
  unfold System.updateBuilder at found
  split at found
  · exact ⟨other, found, rfl⟩
  next builder present =>
    simp only [List.getElem?_set] at found
    split at found
    next same =>
      subst same
      split at found
      · cases found
        exact ⟨builder, present, keeps builder⟩
      · cases found
    · exact ⟨other, found, rfl⟩

theorem updateBuilder_hosts (b) : (s.updateBuilder b call).hosts = s.hosts := by
  unfold System.updateBuilder
  split <;> rfl

variable (b : PatchBuilder V)

theorem pushAdd_lamport : (b.pushAdd op).2.lamport = b.lamport := by
  unfold PatchBuilder.pushAdd
  split <;> rfl

theorem addNode_lamport : (b.addNode nodeId).2.lamport = b.lamport := by
  unfold PatchBuilder.addNode
  dsimp only
  split
  · rfl
  · exact pushAdd_lamport b

theorem addEdge_lamport : (b.addEdge src dst label).2.lamport = b.lamport := by
  unfold PatchBuilder.addEdge
  dsimp only
  split
  · rfl
  · exact pushAdd_lamport b

theorem push_lamport (op) : (b.push op).2.lamport = b.lamport := by
  unfold PatchBuilder.push
  split <;> rfl

theorem Ledger.Inv.updateBuilder (inv : l.Inv) {b call}
    (keeps : ∀ builder, (call builder).2.lamport = builder.lamport) :
    ({ l with system := l.system.updateBuilder b call } : Ledger V).Inv :=
  inv.of_hosts _ (updateBuilder_hosts _ b) (updateBuilder_keepsLamports _ b keeps)

theorem le_foldl_max (values : List Int) (start) :
    start ≤ values.foldl max start ∧ ∀ t ∈ values, t ≤ values.foldl max start := by
  induction values generalizing start with
  | nil => simp
  | cons value rest ih =>
    obtain ⟨first, others⟩ := ih (max start value)
    refine ⟨le_trans (le_max_left _ _) first, fun t mem => ?_⟩
    rcases mem_cons.mp mem with rfl | old
    · exact le_trans (le_max_right _ _) first
    · exact others t old

theorem Ledger.Inv.materialize (inv : l.Inv) (h) : (l.perform (.materialize h ceiling)).Inv := by
  simp only [Ledger.perform, GitWarp.perform]
  split
  next host state found replayed =>
    have after : l.system.materialize h ceiling = l.system.onMaterialized h host state
        (System.maxLamport (Ledger.replayedBy l.system ceiling) state) := by
      simp only [System.materialize, found, replayed, Ledger.replayedBy]
    have listed : h < l.system.hosts.length := (List.getElem?_eq_some_iff.mp found).1
    apply inv.note
    · exact .of_eq materialize_frame.2
    · intro other different
      rw [after, System.onMaterialized]
      exact List.getElem?_set_ne (Ne.symm different)
    · intro host' present
      rw [after, System.onMaterialized, List.getElem?_set_self listed] at present
      cases present
      refine ⟨⟨host, found, le_max_left _ _⟩, fun t mem => ?_⟩
      exact le_trans (le_trans ((le_foldl_max _ 0).2 t mem) (le_max_left _ _)) (le_max_right _ _)
    · intro cached mem
      rw [after, Ledger.held, System.onMaterialized, List.getElem?_set_self listed] at mem
      simp only [bind_some, toList_some, mem_singleton] at mem
      subst mem
      have stamped : cached.StampedBy (Ledger.lamportsOf (Ledger.replayedBy l.system ceiling)) := by
        simp only [System.replay] at replayed
        split at replayed
        next zero =>
          cases replayed
          simpa [Ledger.replayedBy, zero, Ledger.lamportsOf] using stampedBy_empty
        next some_ =>
          have reduced := reducePatches_stamped _ _ _ [] stampedBy_empty replayed
          simpa [Ledger.replayedBy, some_] using reduced
      exact stamped.mono fun t mem => by simp [mem]
  next missing =>
    apply inv.of_hosts
    · unfold System.materialize
      split
      next host state found replayed => exact absurd replayed (missing host state found)
      · rfl
    · exact .of_eq materialize_frame.2

theorem Ledger.Inv.applySyncResponse (inv : l.Inv) (h) :
    (l.step (.applySyncResponse h response)).Inv := by
  simp only [Ledger.step]
  split
  · exact inv
  next state synced =>
    have source := synced
    unfold System.syncedState at source
    split at source
    · cases source
    next cached before =>
      split at source
      · cases source
      next result applied =>
        cases source
        obtain ⟨host, found, holds⟩ := Option.bind_eq_some_iff.mp before
        have listed : h < l.system.hosts.length := (List.getElem?_eq_some_iff.mp found).1
        have after : l.system.applySyncResponse h response =
            { l.system with
              vectors := l.system.vectors ++ [result.state.observedFrontier]
              hosts := l.system.hosts.set h { host with
                cachedState := some result.state
                stateDirty := false
                versionVector := l.system.vectors.length } } := by
          simp only [System.applySyncResponse, found, synced]
        apply inv.note
        · rw [after]
          exact .of_eq rfl
        · intro other different
          rw [after]
          exact List.getElem?_set_ne (Ne.symm different)
        · intro host' present
          rw [after] at present
          simp only [List.getElem?_set_self listed] at present
          cases present
          exact ⟨⟨host, found, le_refl _⟩, by simp⟩
        · intro final mem
          rw [after, Ledger.held] at mem
          simp only [List.getElem?_set_self listed, bind_some, toList_some, mem_singleton] at mem
          subst mem
          have known : cached.StampedBy (l.observed h).lamports := by
            apply inv.stamped h cached (inv.held h cached _)
            simp [Ledger.held, found, holds]
          have stamped := applySyncResponse_stamped _ known applied
          exact stamped.mono fun t mem => by simpa using mem


/-! ### Commits -/

theorem commit_of_published (b sha) (builder entry)
    (published : s.published b sha = some (builder, entry)) :
    s.builders[b]? = some builder ∧ entry = s.commitEntry builder sha ∧
      s.commit b sha = System.onPatchCommitted
        { s with
          chains := s.chains.set builder.writerId (s.chain builder.writerId ++ [entry])
          builders := s.builders.set b { builder with committed := true } }
        builder.host builder.writerId entry := by
  simp only [System.published] at published
  split at published
  · cases published
  next found present =>
    split at published
    · cases published
    next open_ =>
      split at published
      · cases published
      next head =>
        cases published
        refine ⟨present, rfl, ?_⟩
        simp only [System.commit, present]
        rw [if_neg open_, if_neg head]

theorem commit_of_not_published (b sha) (refused : s.published b sha = none) :
    s.commit b sha = s := by
  simp only [System.published] at refused
  unfold System.commit
  split
  · rfl
  next builder present =>
    simp only [present] at refused
    split
    · rfl
    next open_ =>
      rw [if_neg open_] at refused
      split
      · rfl
      next head =>
        rw [if_neg head] at refused
        cases refused

theorem onPatchCommitted_hosts {h writerId entry} :
    (∀ other, other ≠ h → (s.onPatchCommitted h writerId entry).hosts[other]? = s.hosts[other]?) ∧
    ∀ host, (s.onPatchCommitted h writerId entry).hosts[h]? = some host →
      ∃ old, s.hosts[h]? = some old ∧
        host.maxObservedLamport = max old.maxObservedLamport entry.patch.lamport ∧
        (host.cachedState = old.cachedState ∨ ∃ state applied, old.cachedState = some state ∧
          applyFast state entry = .ok applied ∧ host.cachedState = some applied) := by
  -- what the hook does to the hosts: the host of the commit notes the lamport, and holds the
  -- state of before or that state with the patch applied
  unfold System.onPatchCommitted
  split
  next missing => exact ⟨fun _ _ => rfl, fun host found => by rw [missing] at found; cases found⟩
  next old found =>
    have listed : h < s.hosts.length := (List.getElem?_eq_some_iff.mp found).1
    split
    next state cached clean =>
      split
      next applied ok =>
        refine ⟨fun other different => List.getElem?_set_ne (Ne.symm different), fun host present => ?_⟩
        rw [List.getElem?_set_self listed] at present
        cases present
        exact ⟨old, found, rfl, Or.inr ⟨state, applied, cached, ok, rfl⟩⟩
      next =>
        refine ⟨fun other different => List.getElem?_set_ne (Ne.symm different), fun host present => ?_⟩
        rw [List.getElem?_set_self listed] at present
        cases present
        exact ⟨old, found, rfl, Or.inl rfl⟩
    next =>
      refine ⟨fun other different => List.getElem?_set_ne (Ne.symm different), fun host present => ?_⟩
      rw [List.getElem?_set_self listed] at present
      cases present
      exact ⟨old, found, rfl, Or.inl rfl⟩

theorem winsOver_of_stamped (lamports) (stamped : state.StampedBy lamports)
    (after : ∀ t ∈ lamports, t < entry.patch.lamport) : entry.WinsOver state := by
  intro k r w found written
  have lower : r.eventId < w.eventId := by
    apply (EventId.lt_iff _ _).mpr (Or.inl _)
    have old := after _ (stamped k r found)
    have new := entry.write_lamport written
    omega
  have below := (compareEventIds_neg_iff _ _).mpr lower
  have above := compareEventIds_pos_iff.mpr lower
  exact ⟨if_neg (by omega), if_pos (by omega)⟩

section

variable (inv : l.Inv)
include inv

theorem Ledger.Inv.causal (b) (found : l.system.builders[b]? = some builder) :
    Publication.Causal ⟨l.system.commitEntry builder sha,
      (l.system.chain builder.writerId).getLast?, l.begun b⟩ := by
  obtain ⟨ahead, stamped⟩ := inv.begun b builder found
  have after : ∀ t ∈ (l.begun b).lamports,
      t < (l.system.commitEntry builder sha).patch.lamport := fun t mem =>
    lt_of_lt_of_le (ahead t mem) (le_max_left _ _)
  refine ⟨fun parent tip => ?_, after, fun state mem => ?_⟩
  · have tick : l.system.ownTick builder.writerId = parent.patch.lamport := by
      have last : (l.system.chain builder.writerId).getLast? = some parent := tip
      rw [System.ownTick, last]
      rfl
    have above : l.system.ownTick builder.writerId + 1 ≤
        (l.system.commitEntry builder sha).patch.lamport := le_max_right _ _
    simp only at above ⊢
    omega
  · exact winsOver_of_stamped _ _ (stamped state mem) after

theorem Ledger.Inv.commit (b) : (l.perform (.commit b sha)).Inv := by
  simp only [Ledger.perform, GitWarp.perform]
  split
  next refused =>
    rw [commit_of_not_published _ _ _ refused]
    exact inv
  next builder entry published =>
    obtain ⟨found, rfl, committed⟩ := commit_of_published _ _ _ _ _ published
    rw [committed]
    have noted := inv.note (System.onPatchCommitted
      { l.system with
        chains := l.system.chains.set builder.writerId
          (l.system.chain builder.writerId ++ [l.system.commitEntry builder sha])
        builders := l.system.builders.set b { builder with committed := true } }
      builder.host builder.writerId (l.system.commitEntry builder sha)) builder.host
      [(l.system.commitEntry builder sha).patch.lamport] []
    obtain ⟨others, own⟩ := onPatchCommitted_hosts
      { l.system with
        chains := l.system.chains.set builder.writerId
          (l.system.chain builder.writerId ++ [l.system.commitEntry builder sha])
        builders := l.system.builders.set b { builder with committed := true } }
    have kept := noted ?_ others ?_ ?_
    · refine { kept with published := fun p mem => ?_ }
      rcases mem_append.mp mem with old | new
      · exact inv.published p old
      · cases mem_singleton.mp new
        exact inv.causal b found
    · intro i other present
      rw [onPatchCommitted_frame.2, List.getElem?_set] at present
      split at present
      next same =>
        subst same
        split at present
        · cases present
          exact ⟨builder, found, rfl⟩
        · cases present
      · exact ⟨other, present, rfl⟩
    · intro host present
      obtain ⟨old, before, grown, -⟩ := own host present
      refine ⟨⟨old, before, by rw [grown]; exact le_max_left _ _⟩, fun t mem => ?_⟩
      cases mem_singleton.mp mem
      rw [grown]
      exact le_max_right _ _
    · intro state mem
      rw [Ledger.held, Option.mem_toList, bind_eq_some_iff] at mem
      obtain ⟨host, present, holds⟩ := mem
      obtain ⟨old, before, -, cached⟩ := own host present
      have known : ∀ state, old.cachedState = some state →
          state.StampedBy (l.observed builder.host).lamports := by
        intro state cached
        apply inv.stamped _ state (inv.held _ state _)
        have here : l.system.hosts[builder.host]? = some old := before
        simp [Ledger.held, here, cached]
      rcases cached with same | ⟨cached, applied, had, ok, has⟩
      · exact (known state (same.symm.trans holds)).mono fun t listed => by simp [listed]
      · rw [has, Option.some.injEq] at holds
        subst holds
        exact (applyFast_stamped (known cached had) ok).mono fun t listed => by
          simpa using listed

/-! ### Runs -/

theorem Ledger.Inv.openHost : (l.perform (.openHost writerId)).Inv := by
  have hosts : ∀ h, h ≠ l.system.hosts.length →
      (l.system.open_ writerId).hosts[h]? = l.system.hosts[h]? := by
    intro h different
    rw [System.open_, List.getElem?_append]
    split
    · rfl
    · rw [List.getElem?_singleton, if_neg (by omega), List.getElem?_eq_none (by omega)]
  constructor
  · intro h host found t mem
    by_cases same : h = l.system.hosts.length
    · simp [Ledger.perform, same, Observed.nothing] at mem
    · simp only [Ledger.perform, GitWarp.perform, update_of_ne same, hosts h same]
        at found mem
      exact inv.noted h host found t mem
  · intro h state mem
    by_cases same : h = l.system.hosts.length
    · -- a new host holds no state
      simp [Ledger.perform, GitWarp.perform, same, Ledger.held, System.open_] at mem
    · simp only [Ledger.perform, GitWarp.perform, Ledger.held, hosts h same] at mem
      simp only [Ledger.perform, update_of_ne same]
      exact inv.held h state mem
  · intro h state mem
    by_cases same : h = l.system.hosts.length
    · simp [Ledger.perform, same, Observed.nothing] at mem
    · simp only [Ledger.perform, update_of_ne same] at mem ⊢
      exact inv.stamped h state mem
  · exact inv.begun
  · exact inv.published

theorem Ledger.Inv.createPatch (h) (ahead : StartsAhead l (.action (.createPatch h))) :
    (l.perform (.createPatch h)).Inv := by
  simp only [Ledger.perform, GitWarp.perform, System.createPatch]
  cases found : l.system.hosts[h]? with
  | none => exact inv
  | some host =>
    apply inv.start
    intro t mem
    -- what was replayed is noted, what was synced is below by assumption
    have below : t ≤ max (l.system.ownTick host.writerId) host.maxObservedLamport := by
      rcases mem_append.mp mem with replayed | synced
      · exact le_trans (inv.noted h host found t replayed) (le_max_right _ _)
      · exact ahead host found t synced
    exact Int.lt_add_one_of_le below

theorem Ledger.Inv.beginPatch (w) (ahead : StartsAhead l (.action (.beginPatch w))) :
    (l.perform (.beginPatch w)).Inv := by
  simp only [Ledger.perform, GitWarp.perform, System.beginPatch]
  cases found : l.system.writers[w]? with
  | none => exact inv
  | some writer =>
    apply inv.start
    intro t mem
    exact Int.lt_add_one_of_le (ahead writer found t mem)

theorem Ledger.Inv.step (ahead : StartsAhead l call) : (l.step call).Inv := by
  cases call with
  | push b op => exact inv.updateBuilder fun builder => push_lamport builder op
  | applySyncResponse h response => exact inv.applySyncResponse h
  | action action =>
    cases action with
    | openHost writerId => exact inv.openHost
    | materialize h ceiling => exact inv.materialize h
    | createPatch h => exact inv.createPatch h ahead
    | writer h writerId =>
      apply inv.of_hosts
      · simp only [GitWarp.perform, System.writer]
        split <;> rfl
      · simp only [GitWarp.perform, System.writer]
        split <;> exact .of_eq rfl
    | beginPatch w => exact inv.beginPatch w ahead
    | addNode b nodeId => exact inv.updateBuilder fun builder => addNode_lamport builder
    | addEdge b src dst label =>
      exact inv.updateBuilder fun builder => addEdge_lamport builder
    | commit b sha => exact inv.commit b

end

/-- In every run whose builders start ahead, every published patch comes after its parent
and after everything its host had observed, and its writes win. -/
theorem publications_causal (calls : List (Call V))
    (ahead : Along Ledger.step StartsAhead .empty calls) (k : Nat) :
    ∀ p ∈ (run Ledger.step .empty (calls.take k)).publications, p.Causal :=
  (Along.invariant Ledger.step (fun _ call inv admitted => inv.step admitted)
    Ledger.inv_empty ahead k).published

/-! ### Published chains -/

/-- Patches of the writer are put behind those of a chain, each above the one before it. -/
structure Extends (writerId : JsString) (chain longer : List (PatchEntry V)) : Prop where
  kept : ∃ more, longer = chain ++ more ∧ ∀ entry ∈ more, entry.patch.writer = writerId
  rising : chain.IsChain (fun a b => a.patch.lamport < b.patch.lamport) →
    longer.IsChain fun a b => a.patch.lamport < b.patch.lamport

theorem Extends.of_eq {chain longer : List (PatchEntry V)} (same : longer = chain) :
    Extends writerId chain longer :=
  ⟨⟨[], by simp [same]⟩, by simp [same]⟩

theorem Extends.trans {one two three : List (PatchEntry V)} (first : Extends writerId one two)
    (later : Extends writerId two three) : Extends writerId one three := by
  refine ⟨?_, fun rises => later.rising (first.rising rises)⟩
  obtain ⟨more, rfl, own⟩ := first.kept
  obtain ⟨rest, rfl, others⟩ := later.kept
  exact ⟨more ++ rest, append_assoc _ _ _, forall_mem_append.mpr ⟨own, others⟩⟩

theorem Ledger.perform_system (l : Ledger V) (action) :
    (l.perform action).system = GitWarp.perform l.system action := by
  cases action <;> simp only [Ledger.perform] <;> split <;> rfl

theorem System.commit_extends (s : System V) (b sha writerId) :
    Extends writerId (s.chain writerId) ((s.commit b sha).chain writerId) := by
  cases outcome : s.published b sha with
  | none => exact .of_eq (by rw [commit_of_not_published _ _ _ outcome])
  | some published =>
    obtain ⟨builder, entry⟩ := published
    obtain ⟨-, rfl, committed⟩ := commit_of_published _ _ _ _ _ outcome
    simp only [committed, System.chain, onPatchCommitted_frame.1, OrdMap.get_set]
    split
    next same =>
      subst same
      refine ⟨⟨_, rfl, by simp [System.commitEntry]⟩, fun rises => ?_⟩
      refine isChain_append.mpr ⟨rises, .singleton _, fun tip last entry only => ?_⟩
      cases only
      have here : (s.chain builder.writerId).getLast? = some tip := last
      have tick : s.ownTick builder.writerId = tip.patch.lamport := by
        rw [System.ownTick, here]
        rfl
      have above := le_max_right builder.lamport (s.ownTick builder.writerId + 1)
      exact tick ▸ above
    · exact .of_eq rfl

theorem Ledger.step_extends (l : Ledger V) (call writerId) :
    Extends writerId (l.system.chain writerId) ((l.step call).system.chain writerId) := by
  have quiet : ∀ t : System V, t.chains = l.system.chains →
      Extends writerId (l.system.chain writerId) (t.chain writerId) :=
    fun t same => .of_eq (by rw [System.chain, same]; rfl)
  cases call with
  | action action =>
    rw [Ledger.step, l.perform_system]
    cases action with
    | commit b sha => exact l.system.commit_extends b sha writerId
    | materialize h ceiling => exact quiet _ materialize_frame.1
    | openHost writer => exact quiet _ rfl
    | createPatch _ | writer _ _ | beginPatch _ | addNode _ _ | addEdge _ _ _ _ =>
      apply quiet
      simp only [GitWarp.perform, System.createPatch, System.writer, System.beginPatch,
        System.updateBuilder]
      split <;> rfl
  | push b op =>
    apply quiet
    simp only [Ledger.step, System.updateBuilder]
    split <;> rfl
  | applySyncResponse h response =>
    apply quiet
    simp only [Ledger.step, System.applySyncResponse]
    split
    · rfl
    · simp only [Ledger.note]
      split <;> rfl

def otherWriter : WriterId := ⟨lit "b", b_named⟩

/-- A first host writes a property twice; a second one materializes and starts a patch, by
itself or through a `Writer`. -/
def secondWriter (start : List Action) : List (Call Nat) :=
  let set (b : Nat) (value : Nat) : Call Nat := .push b (.nodePropSet (lit "n") (lit "k") value)
  [.action (.openHost sampleWriter), .action (.createPatch 0), set 0 1,
    .action (.commit 0 (lit "aaaa")), .action (.createPatch 0), set 1 2,
    .action (.commit 1 (lit "cccc")), .action (.openHost otherWriter),
    .action (.materialize 1 none)] ++ start.map .action ++
  [set 2 3, .action (.commit 2 (lit "dddd"))]

/-- A host without patches is sent one with lamport five and starts a patch of its own. -/
def syncedWriter : List (Call Nat) :=
  let sent : PatchEntry Nat := ⟨{ sampleAdd.patch with lamport := 5 }, lit "bbbb"⟩
  let response : SyncResponse Nat := ⟨.empty, [⟨sent.patch.writer, sent⟩], [], none, false⟩
  [.action (.openHost otherWriter), .action (.materialize 0 none), .applySyncResponse 0 response,
    .action (.createPatch 0), .push 0 (.nodePropSet (lit "n") (lit "k") 3),
    .action (.commit 0 (lit "dddd"))]

theorem publications_causal_createPatch :
    Along Ledger.step StartsAhead .empty (secondWriter [.createPatch 1]) ∧
      ∀ p ∈ (run Ledger.step .empty ((secondWriter [.createPatch 1]).take 12)).publications,
        p.Causal :=
  ⟨by decide, publications_causal (secondWriter [.createPatch 1]) (by decide) 12⟩

/-- The second writer's session starts at lamport one although its host has materialized
lamport two, and a host that was sent lamport five starts at lamport one. -/
theorem begun_below_observed :
    (¬ ∀ p ∈ (run Ledger.step .empty
        (secondWriter [.writer 1 otherWriter, .beginPatch 0])).publications, p.Causal) ∧
      ¬ ∀ p ∈ (run Ledger.step .empty syncedWriter).publications, p.Causal := by
  constructor
  · intro causal
    have late : ∃ p ∈ (run Ledger.step .empty
        (secondWriter [.writer 1 otherWriter, .beginPatch 0])).publications,
        ∃ t ∈ p.begun.lamports, ¬ t < p.entry.patch.lamport := by decide
    obtain ⟨p, member, t, observed, above⟩ := late
    exact above ((causal p member).observed t observed)
  · intro causal
    have late : ∃ p ∈ (run Ledger.step .empty syncedWriter).publications,
        ∃ t ∈ p.begun.lamports, ¬ t < p.entry.patch.lamport := by decide
    obtain ⟨p, member, t, observed, above⟩ := late
    exact above ((causal p member).observed t observed)

end GitWarp
