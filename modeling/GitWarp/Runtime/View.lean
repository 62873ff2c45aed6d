import GitWarp.Index.Showing
import GitWarp.Runtime.Coherence

/-!
# The index view of a host

A reading rebuilds the index, leaves it where the hash says that nothing visible
changed, or applies the diff of the latest reduction to it. The diff leads to the
state only if it bridges from the tree that is cached.
-/
namespace GitWarp

open Js Lib List Option

variable {V : Type} [StrictEq V]

/-! ### Known states -/

/-- The property value that an operation writes. -/
def Op.written : Op V → Option V
  | .nodePropSet _ _ value => some value
  | .edgePropSet _ _ _ _ value => some value
  | _ => none

/-- A patch that builders and peers can produce; property values are never `undefined`. -/
structure Accepted (entry : PatchEntry V) : Prop where
  valid : entry.WellFormed
  writes : ∀ event ∈ entry.events, event.2.op.written ≠ some StrictEq.undefined

omit [StrictEq V] in
theorem written_of_fact {op : Op V} (k) (r) (fact : .write k r ∈ op.facts e) :
    op.written = some r.value := by
  cases op with
  | nodePropSet node key value | edgePropSet src dst label key value =>
    cases Set.mem_singleton_iff.mp fact
    rfl
  | nodeAdd node dot => cases Set.mem_singleton_iff.mp fact
  | nodeRemove node dots | edgeRemove src dst label dots =>
    obtain ⟨d, -, other⟩ := fact
    cases other
  | edgeAdd src dst label dot => rcases fact with other | other <;> cases other
  | blobValue node oid => cases fact

theorem writesDefined_of_accepted {entries : List (PatchEntry V)}
    (accepted : ∀ entry ∈ entries, Accepted entry) : WritesDefined entries := by
  intro k r written
  obtain ⟨entry, member, effect, found, fact⟩ := written
  rcases fact with ⟨event, among, inside⟩ | ⟨w, other⟩ | ⟨tick, -, other⟩
  · have listed : event ∈ entry.events := by simpa only [PatchEntry.events, found] using among
    intro isUndefined
    apply (accepted entry member).writes event listed
    rw [written_of_fact k r inside, isUndefined]
  · cases other
  · cases other

structure Known (s : WarpState V) : Prop where
  reachable : Reachable s
  defined : s.Defined

theorem known_empty : Known (WarpState.empty : WarpState V) :=
  ⟨⟨[], by simp, rfl⟩, defined_empty⟩

theorem Known.reduce (known : Known s) {entries : List (PatchEntry V)}
    (accepted : ∀ entry ∈ entries, Accepted entry) (reduced : reducePatches entries s = .ok t) :
    Known t where
  reachable := known.reachable.reduce (fun e mem => (accepted e mem).valid) reduced
  defined := known.defined.reduce (writesDefined_of_accepted accepted) reduced

variable {h : RuntimeHost V} {r : Repository V}

namespace Repository

/-- Stored patches are accepted ones and stored states are reached by them. -/
structure Known (r : Repository V) : Prop where
  commits : ∀ commit ∈ r.store.commits, Accepted (⟨commit.2.patch, commit.1⟩ : PatchEntry V)
  retained : ∀ c s, (c, s) ∈ r.retained → GitWarp.Known s
  checkpoints : ∀ f s, (f, s) ∈ r.checkpoints → GitWarp.Known s

theorem known_blank : (blank : Repository V).Known where
  commits := fun commit mem => by cases mem
  retained := fun c s mem => by cases mem
  checkpoints := fun f s mem => by cases mem

section

variable (known : r.Known)
include known

theorem Known.load {tip} (mem : entry ∈ r.store.loadPatchChainFromSha tip stop) :
    Accepted entry := by
  obtain ⟨commit, stored, same⟩ := r.store.mem_load mem
  have good := known.commits _ stored
  rw [← same] at good
  exact good

theorem Known.stream (entry) (mem : entry ∈ r.store.streamForFrontier target) : Accepted entry := by
  obtain ⟨⟨w, tip, -, inside⟩, -⟩ := r.store.mem_streamForFrontier.mp mem
  exact known.load inside

theorem Known.suffix (entry) (mem : entry ∈ r.store.streamForFrontierSinceCoordinate target base) :
    Accepted entry := by
  obtain ⟨w, tip, -, inside, -⟩ := r.store.mem_suffix.mp mem
  exact known.load inside

/-- A replay starts from a known state and reduces accepted patches. -/
theorem Known.replay :
    GitWarp.Known (r.replay target wantDiff base).base ∧
      ∀ entry ∈ (r.replay target wantDiff base).patches, Accepted entry := by
  have fromStart : GitWarp.Known (r.replayFromStart target wantDiff).base ∧
      ∀ entry ∈ (r.replayFromStart target wantDiff).patches, Accepted entry :=
    ⟨known_empty, known.stream⟩
  unfold Repository.replay
  split
  · exact ⟨known_empty, fun entry none_ => by cases none_⟩
  · cases base with
    | scratch => exact fromStart
    | exact i | snapshot i =>
      dsimp only
      cases found : r.retained[i]? with
      | none => exact fromStart
      | some entry =>
        dsimp only
        split
        · exact ⟨known.retained _ _ (mem_of_getElem? found), fun e none_ => by cases none_⟩
        · exact fromStart
    | predecessor i =>
      dsimp only
      cases found : r.retained[i]? with
      | none => exact fromStart
      | some entry =>
        dsimp only
        split
        · exact ⟨known.retained _ _ (mem_of_getElem? found), known.suffix⟩
        · exact fromStart
    | checkpoint =>
      cases found : r.checkpoints.head? with
      | none => exact fromStart
      | some entry =>
        dsimp only
        split
        · exact ⟨known.checkpoints _ _ (mem_of_mem_head? found), known.suffix⟩
        · exact fromStart

theorem Known.appendPatch (appended : r.appendPatch a = some r') (accepted : Accepted a.entry) :
    r'.Known := by
  obtain ⟨store, -, ok, rfl⟩ := appendPatch_spec appended
  obtain ⟨commits, -, -⟩ := CommitStore.append_spec ok
  refine ⟨fun commit mem => ?_, known.retained, known.checkpoints⟩
  rw [commits] at mem
  rcases mem_cons.mp mem with rfl | old
  · exact accepted
  · exact known.commits commit old

theorem Known.appendAll (accepted : ∀ a ∈ appends, Accepted a.entry) :
    (r.appendAll appends).Known := by
  induction appends generalizing r with
  | nil => exact known
  | cons a rest ih =>
    have later := fun b mem => accepted b (mem_cons_of_mem a mem)
    rw [Repository.appendAll, foldl_cons]
    cases appended : r.appendPatch a with
    | none => exact ih known later
    | some r' => exact ih (known.appendPatch appended (accepted a mem_cons_self)) later

end

end Repository

/-! ### Updates that the view can follow -/

/-- The diff of a replay takes the cached tree to the state after it. -/
structure ReplayFollows (t : IndexTree V) (base after : WarpState V) (patches : List (PatchEntry V)) :
    Prop where
  unique : OneElementPerDot (base.facts ∪ historyFacts patches)
  settles : TogglesSettle base patches
  edgeValues : PatchesKeepEdgeValues base patches
  bridges : t.Bridges base after

/-- The diff of a committed patch takes the cached tree to the state after it. -/
structure CommitFollows (t : IndexTree V) (s : WarpState V) (entry : PatchEntry V) : Prop where
  unique : OneElementPerDot (s.facts ∪ historyFacts [entry])
  steady : entry.Steady s
  edgeValues : EdgeValuesKept s entry.events
  bridges : t.Bridges s (entry.step s)

theorem ReplayFollows.shows {after} {diff : PatchDiff V}
    (follows : ReplayFollows t base after patches) (known : Known seen) (shows : t.Shows seen)
    (from_ : Known base) (accepted : ∀ entry ∈ patches, Accepted entry)
    (plain : reducePatches patches base = .ok after)
    (reduced : reducePatchesWithDiff patches base = .ok (state, diff))
    (updated : t.applyDiff diff state = .ok t') : t'.Shows state := by
  obtain ⟨state', diff', reduced', plain', exact_, addressed, backed⟩ :=
    reducePatchesWithDiff_reports from_.reachable.keyed
      (fun entry mem => (accepted entry mem).valid) follows.unique follows.settles
      follows.edgeValues
  cases reduced.symm.trans reduced'
  cases plain.symm.trans plain'
  have to_ := from_.reduce accepted plain
  exact shows.applyDiff known.reachable.keyed to_.reachable.keyed
    (IndexTree.covers_of_exact to_.reachable.keyed exact_) addressed backed from_.defined
    to_.defined follows.bridges updated

theorem Known.step (known : Known s) {entry : PatchEntry V} (accepted : Accepted entry) :
    Known (entry.step s) := by
  obtain ⟨effect, found⟩ := accepted.valid.effect_ok
  apply known.reduce (fun e mem => mem_singleton.mp mem ▸ accepted)
  simp [reducePatches, applyFast_eq, found, PatchEntry.step, Except.map, bind, Except.bind]

theorem CommitFollows.shows {diff : PatchDiff V} (follows : CommitFollows t s entry)
    (known : Known seen) (shows : t.Shows seen) (from_ : Known s) (accepted : Accepted entry)
    (applied : applyWithDiff s entry = .ok (state, diff))
    (updated : t.applyDiff diff state = .ok t') : t'.Shows state := by
  obtain ⟨diff', applied', covers, addressed, backed⟩ :=
    applyWithDiff_reports s from_.reachable.keyed accepted.valid follows.unique follows.steady
      follows.edgeValues
  cases applied.symm.trans applied'
  have to_ := from_.step accepted
  exact shows.applyDiff known.reachable.keyed to_.reachable.keyed covers addressed backed
    from_.defined to_.defined follows.bridges updated

namespace RuntimeHost

variable (stateHash : WarpState V → JsString)

/-- The patches that a call brings are accepted ones. -/
def Call.Accepted : Call V → Prop
  | .materialize _ _ during => ∀ a ∈ during, GitWarp.Accepted a.entry
  | .commit a => GitWarp.Accepted a.entry
  | .foreign a => GitWarp.Accepted a.entry
  | .applySync response => ∀ item ∈ response.patches,
      OnWire item.entry ∧ GitWarp.Accepted item.entry
  | .createCheckpoint _ => True
  | .invalidateIndex => True

/-- Where a call applies a diff to the cached tree, the diff leads to the new state. -/
def Trackable (h : RuntimeHost V) : Call V → Prop
  | .materialize ceiling base _ =>
    let p := h.repo.replay ⟨h.repo.refs, ceiling⟩ (h.cachedIndexTree.isSome && ceiling.isNone) base
    p.tracked = true → ∀ t after, h.cachedIndexTree = some t →
      reducePatches p.patches p.base = .ok after → h.cachedViewHash ≠ some (stateHash after) →
        ReplayFollows t p.base after p.patches
  | .commit a => h.repo.refs.get a.writer = a.expectedHead → h.stateDirty = false →
      ∀ s t, h.cachedState = some s → h.cachedIndexTree = some t →
        h.cachedViewHash ≠ some (stateHash (a.entry.step s)) → CommitFollows t s a.entry
  | _ => True

/-! ### The view along a run -/

/-- The index is of some known state, the one of the view hash if there is one. -/
structure Viewed (h : RuntimeHost V) : Prop where
  seen : ∀ t, h.logicalIndex = some t → ∃ seen, Known seen ∧ t.Shows seen ∧
    ∀ x, h.cachedViewHash = some x → x = stateHash seen
  tree : ∀ t, h.cachedIndexTree = some t → h.logicalIndex = some t

structure ViewCoherent (h : RuntimeHost V) : Prop where
  repo : h.repo.Known
  cached : ∀ s, h.cachedState = some s → Known s
  viewed : Viewed stateHash h
  current : ∀ t s, h.logicalIndex = some t → h.cachedState = some s → h.stateDirty = false →
    t.Shows s

theorem viewCoherent_opened {repo} (known : repo.Known) :
    ViewCoherent stateHash (opened repo) where
  repo := known
  cached := fun _ held => (some_ne_none _ held.symm).elim
  viewed := ⟨fun t index => (some_ne_none t index.symm).elim,
    fun t index => (some_ne_none t index.symm).elim⟩
  current := fun t _ index => (some_ne_none t index.symm).elim

/-- Equal hashes show equal graphs. -/
def Tells : Prop := ∀ s s' : WarpState V, Known s → Known s' → stateHash s = stateHash s' →
  ∀ t : IndexTree V, t.Shows s → t.Shows s'

variable {stateHash}

/-- A view that is built for a state, or left where it is. -/
theorem Viewed.buildView (tells : Tells stateHash) (viewed : Viewed stateHash h)
    (repo : h.repo.Known) (state) (known : Known state) (held : h.cachedState = some state) (diff)
    (follows : ∀ d t t', diff = some d → h.cachedIndexTree = some t →
      h.cachedViewHash ≠ some (stateHash state) → t.applyDiff d state = .ok t' → t'.Shows state) :
    ViewCoherent stateHash (h.buildView stateHash state diff) := by
  unfold RuntimeHost.buildView
  split
  next same =>
    refine ⟨repo, fun s other => ?_, viewed, fun t s index other _ => ?_⟩
    · cases held.symm.trans other
      exact known
    · cases held.symm.trans other
      obtain ⟨seen, knownSeen, shows, hash⟩ := viewed.seen t index
      exact tells seen state knownSeen known (hash _ same).symm t shows
  next differ =>
    dsimp only
    split
    next t' result =>
      have fresh : IndexTree.build state = .ok t' → t'.Shows state := fun built =>
        (IndexTree.build_reflects known.reachable.keyed t' built).shows
      have shows : t'.Shows state := by
        cases diff with
        | none => exact fresh result
        | some d =>
          cases tree : h.cachedIndexTree with
          | none =>
            rw [tree] at result
            exact fresh result
          | some t =>
            rw [tree] at result
            exact follows d t t' rfl tree differ result
      refine ⟨repo, fun s other => ?_, ⟨fun t index => ?_, fun t index => index⟩,
        fun t s index other _ => ?_⟩
      · cases held.symm.trans other
        exact known
      · cases index
        exact ⟨state, known, shows, fun x hash => (Option.some.inj hash).symm⟩
      · cases held.symm.trans other
        cases index
        exact shows
    next failed =>
      refine ⟨repo, fun s other => ?_, ⟨fun t index => (some_ne_none t index.symm).elim,
        fun t index => (some_ne_none t index.symm).elim⟩,
        fun t s index => (some_ne_none t index.symm).elim⟩
      cases held.symm.trans other
      exact known

section

variable (tells : Tells stateHash) (coherent : ViewCoherent stateHash h)
include tells coherent

theorem ViewCoherent.materialize (accepted : ∀ a ∈ during, GitWarp.Accepted a.entry)
    (trackable : Trackable stateHash h (.materialize ceiling base during)) :
    ViewCoherent stateHash (h.materialize stateHash ceiling base during) := by
  have grown := coherent.repo.appendAll accepted
  obtain ⟨from_, patches⟩ := coherent.repo.replay
  unfold RuntimeHost.materialize
  dsimp only
  split
  next failed => 
    exact ⟨grown, coherent.cached, ⟨coherent.viewed.seen, coherent.viewed.tree⟩, coherent.current⟩
  next state diff reduced =>
    have valid := fun entry mem => (patches entry mem).valid
    have plain := Replay.reduce_spec _ valid reduced
    have known := from_.reduce patches plain
    have repo : ∀ keeps : Bool, ({ h.repo.appendAll during with
        retained := if keeps then (h.repo.appendAll during).retained ++ [(⟨h.repo.refs, ceiling⟩, state)]
          else (h.repo.appendAll during).retained } : Repository V).Known := by
      intro keeps
      refine ⟨grown.commits, fun c s mem => ?_, grown.checkpoints⟩
      cases keeps with
      | false => exact grown.retained c s mem
      | true =>
        rcases mem_append.mp mem with old | new
        · exact grown.retained c s old
        · cases mem_singleton.mp new
          exact known
    unfold RuntimeHost.onMaterialized
    dsimp only
    have built := Viewed.buildView (h := { h with
        repo := { h.repo.appendAll during with
          retained := if (h.repo.replay ⟨h.repo.refs, ceiling⟩
              (h.cachedIndexTree.isSome && ceiling.isNone) base).retains then
            (h.repo.appendAll during).retained ++ [(⟨h.repo.refs, ceiling⟩, state)]
            else (h.repo.appendAll during).retained }
        cachedState := some state
        stateDirty := false
        cachedCeiling := ceiling
        cachedFrontier := some h.repo.refs }) tells
      ⟨coherent.viewed.seen, coherent.viewed.tree⟩ (repo _) state known rfl diff (by
        intro d t t' tracks tree differ updated
        obtain ⟨seen, knownSeen, shows, -⟩ := coherent.viewed.seen t (coherent.viewed.tree t tree)
        rw [tracks] at reduced
        obtain ⟨tracked, withDiff⟩ := Replay.reduce_tracked _ d reduced
        have follows := trackable tracked t state tree plain differ
        exact follows.shows knownSeen shows from_ patches plain withDiff updated)
    split
    · exact ⟨built.repo, built.cached, ⟨built.viewed.seen, built.viewed.tree⟩, built.current⟩
    · exact built

theorem ViewCoherent.commit (a) (accepted : GitWarp.Accepted a.entry)
    (trackable : Trackable stateHash h (.commit a)) :
    ViewCoherent stateHash (h.commit stateHash a) := by
  unfold RuntimeHost.commit
  split
  next rejected => exact coherent
  next repo appended =>
    have grown := coherent.repo.appendPatch appended accepted
    have expected := (Repository.appendPatch_spec appended).choose_spec.1
    obtain ⟨effect, found⟩ := accepted.valid.effect_ok
    unfold RuntimeHost.onPatchCommitted
    split
    next state held clean =>
      have known := coherent.cached state held
      split
      next failed =>
        exact ⟨grown, coherent.cached, ⟨coherent.viewed.seen, coherent.viewed.tree⟩,
          coherent.current⟩
      next next_ diff applied =>
        have stepped := (eq_apply_of_withDiff found applied).trans (PatchEntry.step_eq found).symm
        have knownNext : Known next_ := stepped ▸ known.step accepted
        have built := Viewed.buildView (h := { h with
            repo := repo
            cachedState := some next_
            stateDirty := false
            cachedCeiling := none
            cachedFrontier := h.cachedFrontier.map fun frontier => frontier.set a.writer a.sha }) tells
          ⟨coherent.viewed.seen, coherent.viewed.tree⟩ grown next_ knownNext rfl (some diff) (by
            intro d t t' same tree differ updated
            cases same
            obtain ⟨seen, knownSeen, shows, -⟩ :=
              coherent.viewed.seen t (coherent.viewed.tree t tree)
            have follows := trackable expected clean state t held tree (stepped ▸ differ)
            exact follows.shows knownSeen shows known accepted applied updated)
        exact ⟨built.repo, built.cached, ⟨built.viewed.seen, built.viewed.tree⟩, built.current⟩
    next other =>
      -- the view keeps its tree, and the state is dirty
      refine ⟨grown, coherent.cached, ⟨fun t index => ?_, coherent.viewed.tree⟩,
        fun t s index held clean => by cases clean⟩
      obtain ⟨seen, knownSeen, shows, -⟩ := coherent.viewed.seen t index
      exact ⟨seen, knownSeen, shows, fun x hash => (some_ne_none x hash.symm).elim⟩

theorem ViewCoherent.applySync
    (accepted : ∀ item ∈ response.patches, OnWire item.entry ∧ GitWarp.Accepted item.entry) :
    ViewCoherent stateHash (h.applySync stateHash response) := by
  unfold RuntimeHost.applySync
  split
  next => exact coherent
  next state held =>
    obtain ⟨count, applied⟩ := applySyncResponse_eq response state (h.lastFrontier.getD .empty)
      fun item mem => (accepted item mem).1
    split
    next failed => exact coherent
    next result ok =>
      rw [applied] at ok
      cases reduced : reducePatches ((groupByWriter response.patches).entries.flatMap Prod.snd)
          state with
      | error e =>
        rw [reduced] at ok
        cases ok
      | ok final =>
        rw [reduced] at ok
        cases ok
        have known := (coherent.cached state held).reduce (fun entry mem => by
          obtain ⟨item, sent, rfl⟩ := mem_map.mp ((mem_groups entry).mp mem)
          exact (accepted item sent).2) reduced
        -- without a diff the index is built anew
        have built := Viewed.buildView (h := { h with
            cachedState := some final
            stateDirty := false
            cachedCeiling := none
            cachedFrontier := some (movedFrontier (groupByWriter response.patches).entries
              (h.lastFrontier.getD .empty)) }) tells
          ⟨coherent.viewed.seen, coherent.viewed.tree⟩ coherent.repo final known rfl none
          (fun d t t' none_ => (some_ne_none d none_.symm).elim)
        exact ⟨built.repo, built.cached, ⟨built.viewed.seen, built.viewed.tree⟩, built.current⟩

end

theorem ViewCoherent.createCheckpoint (coherent : ViewCoherent stateHash h) :
    ViewCoherent stateHash (h.createCheckpoint snapshot) := by
  obtain ⟨repo, cached, viewed, current⟩ := coherent
  have view : ∀ r : Repository V, r.Known → ViewCoherent stateHash { h with repo := r } :=
    fun r known => ⟨known, cached, ⟨viewed.seen, viewed.tree⟩, current⟩
  unfold RuntimeHost.createCheckpoint
  split
  next c state found =>
    rw [RuntimeHost.exactSnapshot, filter_eq_some_iff] at found
    obtain ⟨i, -, listed⟩ := Option.bind_eq_some_iff.mp found.1
    have known := repo.retained c state (mem_of_getElem? listed)
    refine view _ ⟨repo.commits, repo.retained, fun f s mem => ?_⟩
    rcases mem_cons.mp mem with new | old
    · cases new
      exact known
    · exact repo.checkpoints f s old
  next =>
    split
    next state held clean =>
      have known := cached state held
      refine view _ ⟨repo.commits, fun c s mem => ?_, fun f s mem => ?_⟩
      · rcases mem_append.mp mem with old | new
        · exact repo.retained c s old
        · cases mem_singleton.mp new
          exact known
      · rcases mem_cons.mp mem with new | old
        · cases new
          exact known
        · exact repo.checkpoints f s old
    next => exact ⟨repo, cached, viewed, current⟩

theorem ViewCoherent.perform (tells : Tells stateHash) (coherent : ViewCoherent stateHash h)
    (accepted : call.Accepted) (trackable : Trackable stateHash h call) :
    ViewCoherent stateHash (h.perform stateHash call) := by
  cases call with
  | materialize ceiling base during =>
    exact coherent.materialize tells accepted trackable
  | commit a => exact coherent.commit tells a accepted trackable
  | foreign a =>
    have grown := coherent.repo.appendAll (by
      intro b mem
      exact mem_singleton.mp mem ▸ accepted)
    exact ⟨grown, coherent.cached, ⟨coherent.viewed.seen, coherent.viewed.tree⟩, coherent.current⟩
  | applySync response => exact coherent.applySync tells accepted
  | createCheckpoint snapshot => exact coherent.createCheckpoint
  | invalidateIndex =>
    refine ⟨coherent.repo, coherent.cached, ⟨fun t index => ?_, fun t none_ => ?_⟩,
      coherent.current⟩
    · obtain ⟨seen, known, shows, -⟩ := coherent.viewed.seen t index
      exact ⟨seen, known, shows, fun x hash => (some_ne_none x hash.symm).elim⟩
    · exact (some_ne_none t none_.symm).elim

theorem tells_computeStateHash {Bytes encode} {hash : Bytes → JsString}
    (encodes : Function.Injective encode) (hashes : Function.Injective hash) :
    Tells (computeStateHash encode hash : WarpState V → _) := by
  intro s s' known known' same t shows
  have left := known.reachable.keyed
  have right := known'.reachable.keyed
  obtain ⟨nodes, edges, props⟩ :=
    (computeStateHash_eq_iff encodes hashes left right).mp same
  exact shows.congr left right nodes edges props

omit [StrictEq V] in
theorem steady_of_single {entry : PatchEntry V} (short : entry.events.length ≤ 1) :
    entry.Steady s := by
  have ends : ∀ status : WarpState V → Bool, (∀ effect : Effect V,
      status (effect.apply s) = status (applyEvents s effect.events)) →
      settle (status s) (trace status s entry.events) = status (entry.step s) := by
    intro status only
    rw [settle_trace, PatchEntry.events, PatchEntry.step]
    cases entry.effect with
    | error e => rfl
    | ok effect => exact (only effect).symm
  refine ⟨fun x alive => ?_, fun k alive => ?_⟩ <;> apply falls_of_single
  · rw [length_trace]
    exact short
  · rw [ends (nodeStatus x) (fun _ => rfl)]
    exact alive
  · rw [length_trace]
    exact short
  · rw [ends (edgeStatus k) (fun _ => rfl)]
    exact alive

/-- The first patch of writer `a`, and one of writer `b` that removes what it added. -/
def commitAdd : Append Nat := ⟨lit "a", none, sampleAdd.patch, sampleAdd.sha⟩

def commitRemove : Append Nat := ⟨lit "b", none, sampleRemove.patch, sampleRemove.sha⟩

theorem sampleAdd_accepted : Accepted sampleAdd := ⟨sampleAdd_wellFormed, by decide⟩

theorem sampleRemove_accepted : Accepted sampleRemove := ⟨sampleRemove_wellFormed, by decide⟩

/-- A reading of an empty repository and a commit that its index follows. -/
def materializeThenAdd : List (Call Nat) := [.materialize none .scratch [], .commit commitAdd]

def addThenRemove : List (Call Nat) :=
  [.foreign commitAdd, .materialize none .scratch [], .foreign commitRemove,
    .materialize none .scratch []]

theorem addThenRemove_accepted : ∀ call ∈ addThenRemove, call.Accepted := by
  simp only [addThenRemove, mem_cons, not_mem_nil, or_false, forall_eq_or_imp, forall_eq]
  exact ⟨sampleAdd_accepted, fun a mem => (not_mem_nil mem).elim, sampleRemove_accepted,
    fun a mem => (not_mem_nil mem).elim⟩

end RuntimeHost
end GitWarp
