import GitWarp.Runtime.Reading

/-!
# Cached states and their coordinates

The cached state of a host without a ceiling is the reduction of the patches
behind its last frontier, as long as each call keeps the two together: a live
materialization during which no ref moves, a commit that was built on the last
frontier's tip, a sync response whose patches are those behind its tips, and a
checkpoint taken while the last frontier is the current one.
-/
namespace GitWarp

open Js Lib List

variable {V : Type}

/-! ### Replays -/

section

variable [StrictEq V]

theorem reducePatches_of_withDiff (s t) (merged diff : PatchDiff V)
    (valid : ∀ entry ∈ entries, entry.WellFormed)
    (reduced : reduceWithDiffFrom entries s merged = .ok (t, diff)) :
    reducePatches entries s = .ok t := by
  induction entries generalizing s merged with
  | nil =>
    cases reduced
    rfl
  | cons entry rest ih =>
    obtain ⟨effect, found⟩ := (valid entry mem_cons_self).effect_ok
    obtain ⟨⟨next, report⟩, applied, tail⟩ := bind_eq_ok.mp reduced
    obtain ⟨joined, -, later⟩ := bind_eq_ok.mp tail
    rw [reducePatches_cons found, ← eq_apply_of_withDiff found applied]
    exact ih next joined (forall_mem_cons.mp valid).2 later

theorem Replay.reduce_tracked (p : Replay V) (diff) (reduced : p.reduce = .ok (state, some diff)) :
    p.tracked = true ∧ reducePatchesWithDiff p.patches p.base = .ok (state, diff) := by
  unfold Replay.reduce at reduced
  split at reduced
  next tracked =>
    refine ⟨tracked, ?_⟩
    cases result : reducePatchesWithDiff p.patches p.base with
    | error e =>
      rw [result] at reduced
      cases reduced
    | ok pair =>
      rw [result] at reduced
      cases reduced
      rfl
  next =>
    cases result : reducePatches p.patches p.base <;> rw [result] at reduced <;> cases reduced

theorem Replay.reduce_spec {diff} (p : Replay V) (valid : ∀ entry ∈ p.patches, entry.WellFormed)
    (reduced : p.reduce = .ok (state, diff)) : reducePatches p.patches p.base = .ok state := by
  unfold Replay.reduce at reduced
  split at reduced
  · cases result : reducePatchesWithDiff p.patches p.base with
    | error e =>
      rw [result] at reduced
      cases reduced
    | ok pair =>
      rw [result] at reduced
      cases reduced
      exact reducePatches_of_withDiff p.base pair.1 .empty pair.2 valid result
  · cases result : reducePatches p.patches p.base with
    | error e =>
      rw [result] at reduced
      cases reduced
    | ok plain =>
      rw [result] at reduced
      cases reduced
      rfl

end

theorem Coordinate.equals_spec (a b : Coordinate) (same : a.equals b = true) :
    a.ceiling = b.ceiling ∧ ∀ w, a.frontier.get w = b.frontier.get w := by
  simp only [Coordinate.equals, Bool.and_eq_true, decide_eq_true_eq, all_eq_true] at same
  obtain ⟨⟨ceiling, size⟩, entries⟩ := same
  have kept : ∀ w tip, a.frontier.get w = some tip → b.frontier.get w = some tip :=
    fun w tip found => entries (w, tip) ((a.frontier.mem_entries_iff w).mpr found)
  refine ⟨ceiling, fun w => ?_⟩
  cases there : b.frontier.get w with
  | some tip =>
    -- as many writers on both sides, so the one of `b` is also in `a`
    obtain ⟨tip', found⟩ := a.frontier.get_of_size_eq
      (fun x t inside => (b.frontier.mem_keys_iff x).mpr (by simp [kept x t inside]))
      (by simpa [OrdMap.keys, OrdMap.size] using size)
      ((b.frontier.mem_keys_iff w).mpr (by simp [there]))
    rw [found, ← kept w tip' found, there]
  | none =>
    cases here : a.frontier.get w with
    | none => rfl
    | some tip => rw [kept w tip here] at there; cases there

variable {h : RuntimeHost V} {r : Repository V}

namespace Repository

/-- A base with a ceiling is resumed without loss: what falls between the filters is absorbed. -/
def Resumable (r : Repository V) (target : Coordinate) (wantDiff : Bool) : Base → Prop
  | .predecessor i => wantDiff = false → ∀ c s, r.retained[i]? = some (c, s) →
      r.store.coordinatePrecedes c target = true →
        Absorbed (historyFacts (r.store.streamForFrontier c ++
            r.store.streamForFrontierSinceCoordinate target c))
          (historyFacts (r.store.betweenFilters target c))
  | _ => True

/-- A replay whose base and patches together read the target. -/
def Leads (r : Repository V) (target : Coordinate) (p : Replay V) : Prop :=
  (∀ entry ∈ p.patches, entry.WellFormed) ∧
    ∀ state, reducePatches p.patches p.base = .ok state → r.Reads target state

theorem Sound.leads_fromStart (sound : r.Sound) (target) (wantDiff) :
    r.Leads target (r.replayFromStart target wantDiff) := by
  refine ⟨sound.valid.stream, fun state reduced => ?_⟩
  have knows := represents_history reduced
  exact knows

theorem Sound.leads_resumed (sound : r.Sound) (reads : r.Reads c s)
    (accepted : r.store.coordinatePrecedes c target = true)
    (absorbed : Absorbed (historyFacts (r.store.streamForFrontier c ++
        r.store.streamForFrontierSinceCoordinate target c))
      (historyFacts (r.store.betweenFilters target c))) (tracked retains) :
    r.Leads target ⟨s, r.store.streamForFrontierSinceCoordinate target c, tracked, retains⟩ := by
  have whole := r.store.mem_target_iff accepted
  refine ⟨fun entry mem => ?_, fun state reduced => ?_⟩
  · apply sound.valid.stream
    exact (whole entry).mpr (Or.inl (mem_append_right _ mem))
  · have knows := represents_of_reduced _ s _ reads reduced
    rw [← historyFacts_append] at knows
    obtain ⟨replayed, -, all⟩ := reduces_history sound.valid.stream
    have split : historyFacts (r.store.streamForFrontier target) =
        historyFacts (r.store.streamForFrontier c ++
          r.store.streamForFrontierSinceCoordinate target c) ∪
            historyFacts (r.store.betweenFilters target c) := by
      rw [← historyFacts_append]
      apply historyFacts_congr
      intro entry
      rw [whole, mem_append (s := _ ++ _)]
    have distinct := (r.store.consistent_streams target).oneWritePerEvent
    have same : state.Equiv replayed :=
      (knows.equiv_iff_absorbed (split ▸ distinct) (split ▸ all)).mpr absorbed
    exact Represents.of_equiv same all

theorem absorbed_of_open (r : Repository V) {f : Frontier} :
    Absorbed (historyFacts (r.store.streamForFrontier ⟨f, none⟩ ++
        r.store.streamForFrontierSinceCoordinate target ⟨f, none⟩))
      (historyFacts (r.store.betweenFilters target ⟨f, none⟩)) := by
  apply absorbed_of_subset
  rintro fact ⟨entry, member, -⟩
  simp [CommitStore.betweenFilters, patchAfterBaseCeiling] at member

theorem Sound.leads_exact (reads : r.Reads c s) (same : c.equals target = true) :
    r.Leads target ⟨s, [], tracked, retains⟩ := by
  obtain ⟨ceiling, frontier⟩ := Coordinate.equals_spec c target same
  refine ⟨by simp, fun state reduced => ?_⟩
  cases reduced
  apply reads.congr
  intro e
  simp only [CommitStore.mem_streamForFrontier, ceiling, frontier]

theorem Sound.leads (sound : r.Sound) (resumable : r.Resumable target wantDiff base) :
    r.Leads target (r.replay target wantDiff base) := by
  have fromStart := sound.leads_fromStart target wantDiff
  unfold replay
  split
  next nothing =>
    refine ⟨by simp, fun state reduced => ?_⟩
    cases reduced
    apply reads_empty
    rcases nothing with empty | zero
    · rw [OrdMap.size, length_eq_zero_iff] at empty
      rw [CommitStore.streamForFrontier, empty]
      rfl
    · -- every lamport is positive
      apply eq_nil_iff_forall_not_mem.mpr
      intro e mem
      have positive := (sound.valid.stream e mem).positive
      obtain ⟨-, within⟩ := r.store.mem_streamForFrontier.mp mem
      simp only [zero, patchWithinCeiling, decide_eq_true_eq] at within
      omega
  next =>
    cases base with
    | scratch => exact fromStart
    | exact i | snapshot i =>
      dsimp only
      cases found : r.retained[i]? with
      | none => exact fromStart
      | some entry =>
        dsimp only
        split
        next same =>
          have mem := mem_of_getElem? found
          exact leads_exact (sound.retained _ _ mem).2 same
        next => exact fromStart
    | predecessor i =>
      dsimp only
      cases found : r.retained[i]? with
      | none => exact fromStart
      | some entry =>
        dsimp only
        split
        next accepted =>
          simp only [Bool.and_eq_true, Bool.not_eq_true'] at accepted
          have mem := mem_of_getElem? found
          exact sound.leads_resumed (sound.retained _ _ mem).2 accepted.2
            (resumable accepted.1 entry.1 entry.2 found accepted.2) _ _
        next => exact fromStart
    | checkpoint =>
      cases found : r.checkpoints.head? with
      | none => exact fromStart
      | some entry =>
        dsimp only
        split
        next accepted =>
          have mem := mem_of_mem_head? found
          exact sound.leads_resumed
            (sound.checkpoints _ _ mem).2 accepted.2 r.absorbed_of_open _ _
        next => exact fromStart

theorem Sound.resume (sound : r.Sound) (f) (s) (published : (f, s) ∈ r.checkpoints)
    (accepted : r.store.coordinatePrecedes ⟨f, none⟩ target = true) :
    ∃ resumed, reducePatches (r.store.streamForFrontierSinceCoordinate target ⟨f, none⟩) s =
      .ok resumed ∧ r.ReducesTo target resumed := by
  obtain ⟨stored, reads⟩ := sound.checkpoints f s published
  obtain ⟨valid, leads⟩ := sound.leads_resumed reads accepted
    r.absorbed_of_open false false
  obtain ⟨resumed, ok, -⟩ := reducePatches_represents s _ valid reads
  exact ⟨resumed, ok, (leads resumed ok).reducesTo sound.valid⟩

end Repository

/-! ### Calls that keep state and frontier together -/

/-- Patches that builders and peers can produce. -/
def RuntimeHost.Call.WellFormed : RuntimeHost.Call V → Prop
  | .materialize _ _ during => ∀ a ∈ during, a.entry.WellFormed
  | .commit a => a.entry.WellFormed
  | .foreign a => a.entry.WellFormed
  | .applySync response => ∀ item ∈ response.patches, OnWire item.entry
  | .createCheckpoint _ => True
  | .invalidateIndex => True

namespace RuntimeHost

def tip (h : RuntimeHost V) (w : JsString) : Option JsString := (h.lastFrontier.getD .empty).get w

/-- The commits behind the tips of a sync response are those of before and its patches. -/
def Fetched (h : RuntimeHost V) (response : SyncResponse V) : Prop :=
  ∀ w last, (patchesOf response.patches w).getLast? = some last →
    last.sha ≠ [] ∧ h.repo.store.has last.sha = true ∧ ∀ e, e ∈ h.repo.store.chain last.sha ↔
        (∃ tip, h.tip w = some tip ∧ e ∈ h.repo.store.chain tip) ∨ e ∈ patchesOf response.patches w

/-- No call separates the cached state from the last frontier. -/
def Careful (h : RuntimeHost V) : Call V → Prop
  | .materialize ceiling base during =>
    (ceiling = none → (h.repo.appendAll during).refs = h.repo.refs) ∧
      h.repo.Resumable ⟨h.repo.refs, ceiling⟩ (h.cachedIndexTree.isSome && ceiling.isNone) base
  | .commit a => h.cachedState.isSome = true → h.repo.refs.get a.writer = a.expectedHead →
      h.cachedCeiling = none ∧ h.tip a.writer = a.expectedHead
  | .foreign _ => True
  | .applySync response => h.cachedState.isSome = true → h.cachedCeiling = none ∧ h.Fetched response
  | .createCheckpoint snapshot => h.cachedState.isSome = true → h.exactSnapshot snapshot = none →
      h.cachedCeiling = none ∧ ∀ w, h.tip w = h.repo.refs.get w
  | .invalidateIndex => True

/-- What holds of a host along a careful run. -/
structure Coherent (h : RuntimeHost V) : Prop where
  repo : h.repo.Sound
  last : ∀ f, h.lastFrontier = some f → h.repo.Stored f
  cached : ∀ s, h.cachedState = some s → h.stateDirty = false ∧
    (h.cachedCeiling = none → ∃ f, h.lastFrontier = some f ∧ h.repo.Reads ⟨f, none⟩ s)

theorem coherent_opened {repo : Repository V} (sound : repo.Sound) : (opened repo).Coherent where
  repo := sound
  last := fun f opened => by cases opened
  cached := fun s opened => by cases opened

section

variable [StrictEq V] (stateHash : WarpState V → JsString)

omit [StrictEq V] in
theorem buildView_eq {diff} (h : RuntimeHost V) :
    ∃ index tree hash, h.buildView stateHash state diff =
      { h with logicalIndex := index, cachedIndexTree := tree, cachedViewHash := hash } := by
  unfold buildView
  split
  · exact ⟨_, _, _, rfl⟩
  · dsimp only
    split <;> exact ⟨_, _, _, rfl⟩

omit [StrictEq V] in
theorem Coherent.grow (coherent : h.Coherent) {repo} (sound : repo.Sound)
    (grows : h.repo.Grows repo) :
    ({ h with repo := repo } : RuntimeHost V).Coherent where
  repo := sound
  last := fun f last => grows.stored f (coherent.last f last)
  cached := by
    intro s held
    obtain ⟨clean, reads⟩ := coherent.cached s held
    refine ⟨clean, fun open_ => ?_⟩
    obtain ⟨f, last, said⟩ := reads open_
    exact ⟨f, last, said.grows grows (coherent.last f last)⟩

theorem Coherent.materialize (coherent : h.Coherent) (good : ∀ a ∈ during, a.entry.WellFormed)
    (careful : h.Careful (.materialize ceiling base during)) :
    (h.materialize stateHash ceiling base during).Coherent := by
  obtain ⟨still, resumable⟩ := careful
  obtain ⟨sound, grows⟩ := coherent.repo.appendAll good
  have leads := coherent.repo.leads resumable
  unfold RuntimeHost.materialize
  dsimp only
  split
  next failed => exact coherent.grow sound grows
  next state diff reduced =>
    have reads := (leads.2 state (Replay.reduce_spec _ leads.1 reduced)).grows grows
      coherent.repo.refs
    have stored := grows.stored _ coherent.repo.refs
    have kept : ∀ keeps : Bool, ({ h.repo.appendAll during with
        retained := if keeps then (h.repo.appendAll during).retained ++ [(⟨h.repo.refs, ceiling⟩, state)]
          else (h.repo.appendAll during).retained } : Repository V).Sound := by
      intro keeps
      refine ⟨sound.valid, sound.refs, fun c s mem => ?_, sound.checkpoints⟩
      cases keeps with
      | false => exact sound.retained c s mem
      | true =>
        rcases mem_append.mp mem with old | new
        · exact sound.retained c s old
        · cases mem_singleton.mp new
          exact ⟨stored, reads⟩
    obtain ⟨index, tree, hash, viewed⟩ := buildView_eq stateHash
      { h with
        repo := { h.repo.appendAll during with
          retained := if (h.repo.replay ⟨h.repo.refs, ceiling⟩
              (h.cachedIndexTree.isSome && ceiling.isNone) base).retains then
            (h.repo.appendAll during).retained ++ [(⟨h.repo.refs, ceiling⟩, state)]
            else (h.repo.appendAll during).retained }
        cachedState := some state
        stateDirty := false
        cachedCeiling := ceiling
        cachedFrontier := some h.repo.refs }
    unfold RuntimeHost.onMaterialized
    dsimp only
    rw [viewed]
    split
    next live =>
      -- no ref moved, so the frontier that is read again is the one of the replay
      refine ⟨kept _, fun f same => ?_, fun s held => ?_⟩
      · cases same
        exact sound.refs
      · cases held
        refine ⟨rfl, fun _ => ⟨_, rfl, ?_⟩⟩
        rw [still live, ← live]
        exact reads
    next high =>
      refine ⟨kept _, fun f same => grows.stored f (coherent.last f same), fun s held => ?_⟩
      exact ⟨rfl, fun open_ => absurd open_ high⟩

theorem Coherent.commit (coherent : h.Coherent) (a) (good : a.entry.WellFormed)
    (careful : h.Careful (.commit a)) : (h.commit stateHash a).Coherent := by
  unfold RuntimeHost.commit
  split
  next rejected => exact coherent
  next repo appended =>
    have sound := coherent.repo.appendPatch appended good
    have grows := Repository.appendPatch_grows appended
    have grown := coherent.grow sound grows
    unfold RuntimeHost.onPatchCommitted
    split
    next state held clean =>
      obtain ⟨effect, found⟩ := good.effect_ok
      split
      next failed => exact grown
      next next_ diff applied =>
        have stepped := eq_apply_of_withDiff found applied
        have expected := (Repository.appendPatch_spec appended).choose_spec.1
        obtain ⟨open_, head⟩ := careful (by rw [held]; rfl) expected
        obtain ⟨-, cached⟩ := coherent.cached state held
        obtain ⟨f, last, reads⟩ := cached open_
        have stored := coherent.last f last
        have tip : f.get a.writer = a.expectedHead := by
          rw [← head, RuntimeHost.tip, last]
          rfl
        obtain ⟨index, tree, hash, viewed⟩ := buildView_eq stateHash
          { h with
            repo := repo
            cachedState := some next_
            stateDirty := false
            cachedCeiling := none
            cachedFrontier := h.cachedFrontier.map fun frontier => frontier.set a.writer a.sha }
        unfold RuntimeHost.setMaterializedState
        rw [viewed]
        refine ⟨sound, fun f' same => ?_, fun s same => ?_⟩
        · rw [last, Option.map_some, Option.some.injEq] at same
          subst same
          exact OrdMap.forall_set (sound.refs a.writer a.sha (by
            rw [(Repository.appendPatch_spec appended).choose_spec.2.2]
            simp)) (grows.stored f stored)
        · cases same
          refine ⟨rfl, fun _ => ⟨f.set a.writer a.sha, by rw [last]; rfl, ?_⟩⟩
          -- the patch joins the facts of the state and the patches of the frontier
          have members := Repository.mem_stream_appended coherent.repo appended good f stored tip
          have facts : historyFacts (repo.store.streamForFrontier ⟨f.set a.writer a.sha, none⟩) =
              historyFacts (h.repo.store.streamForFrontier ⟨f, none⟩) ∪ effect.facts := by
            rw [historyFacts_congr _ (h.repo.store.streamForFrontier ⟨f, none⟩ ++ [a.entry]) fun e => by
              rw [members, mem_append, mem_singleton], historyFacts_append]
            congr 1
            rw [historyFacts_cons a.entry found]
            simp [historyFacts]
          unfold Repository.Reads
          rw [facts, stepped]
          exact reads.apply effect
    next other =>
      refine ⟨grown.repo, grown.last, fun s held => ?_⟩
      -- a cached state is never dirty, so there is none
      have clean := (coherent.cached s held).1
      exact absurd clean (by
        intro clean
        exact other s held clean)

omit [StrictEq V] in
theorem Coherent.applySync (coherent : h.Coherent)
    (wire : ∀ item ∈ response.patches, OnWire item.entry)
    (careful : h.Careful (.applySync response)) : (h.applySync stateHash response).Coherent := by
  unfold RuntimeHost.applySync
  split
  next => exact coherent
  next state held =>
    obtain ⟨open_, fetched⟩ := careful (by rw [held]; rfl)
    obtain ⟨-, cached⟩ := coherent.cached state held
    obtain ⟨f, last, reads⟩ := cached open_
    have stored := coherent.last f last
    obtain ⟨result, applied, knows, moved⟩ := applySyncResponse_spec response state
      (h.lastFrontier.getD .empty) reads wire
    rw [applied]
    dsimp only
    obtain ⟨index, tree, hash, viewed⟩ := buildView_eq stateHash
      { h with
        cachedState := some result.state
        stateDirty := false
        cachedCeiling := none
        cachedFrontier := some result.frontier }
    unfold RuntimeHost.setMaterializedState
    rw [viewed]
    have tips : ∀ w, h.tip w = f.get w := fun w => by rw [RuntimeHost.tip, last]; rfl
    refine ⟨coherent.repo, fun f' same => ?_, fun s same => ?_⟩
    · cases same
      intro w tip found
      rw [moved] at found
      cases group : (patchesOf response.patches w).getLast? with
      | none =>
        rw [group, last] at found
        exact stored w tip found
      | some entry =>
        rw [group] at found
        cases found
        exact ⟨(fetched w entry group).1, (fetched w entry group).2.1⟩
    · cases same
      refine ⟨rfl, fun _ => ⟨result.frontier, rfl, ?_⟩⟩
      rw [← historyFacts_append] at knows
      unfold Repository.Reads
      rw [historyFacts_congr _ (h.repo.store.streamForFrontier ⟨f, none⟩ ++
        response.patches.map SyncPatchEntry.entry)]
      · exact knows
      intro e
      rw [mem_append]
      simp only [CommitStore.mem_streamForFrontier, patchWithinCeiling, and_true]
      constructor
      · rintro ⟨w, tip, found, mem⟩
        rw [moved] at found
        cases group : (patchesOf response.patches w).getLast? with
        | none =>
          rw [group, last] at found
          exact Or.inl ⟨w, tip, found, mem⟩
        | some entry =>
          rw [group] at found
          cases found
          rcases ((fetched w entry group).2.2 e).mp mem with ⟨tip, old, behind⟩ | sent
          · exact Or.inl ⟨w, tip, (tips w).symm.trans old, behind⟩
          · obtain ⟨item, listed, rfl⟩ := mem_map.mp sent
            exact Or.inr (mem_map_of_mem (mem_filter.mp listed).1)
      · have through : ∀ w, (∃ tip, f.get w = some tip ∧ e ∈ h.repo.store.chain tip) ∨
            e ∈ patchesOf response.patches w →
              ∃ w tip, result.frontier.get w = some tip ∧ e ∈ h.repo.store.chain tip := by
          intro w either
          cases group : (patchesOf response.patches w).getLast? with
          | none =>
            rw [List.getLast?_eq_none_iff] at group
            rcases either with ⟨tip, found, mem⟩ | sent
            · refine ⟨w, tip, ?_, mem⟩
              rw [moved, group, last]
              exact found
            · rw [group] at sent
              cases sent
          | some entry =>
            refine ⟨w, entry.sha, by rw [moved, group]; rfl, ((fetched w entry group).2.2 e).mpr ?_⟩
            simpa only [tips] using either
        rintro (⟨w, tip, found, mem⟩ | sent)
        · exact through w (Or.inl ⟨tip, found, mem⟩)
        · obtain ⟨item, listed, rfl⟩ := mem_map.mp sent
          exact through item.writerId (Or.inr (mem_map_of_mem (mem_filter.mpr ⟨listed, by simp⟩)))

omit [StrictEq V] in
theorem Coherent.createCheckpoint (coherent : h.Coherent)
    (careful : h.Careful (.createCheckpoint snapshot)) :
    (h.createCheckpoint snapshot).Coherent := by
  have refs := coherent.repo.refs
  unfold RuntimeHost.createCheckpoint
  split
  next c state found =>
    -- a snapshot of the current refs, which reads them
    have exact_ := found
    rw [RuntimeHost.exactSnapshot, Option.filter_eq_some_iff] at exact_
    obtain ⟨i, -, listed⟩ := Option.bind_eq_some_iff.mp exact_.1
    have mem := mem_of_getElem? listed
    obtain ⟨ceiling, frontier⟩ := Coordinate.equals_spec _ _ exact_.2
    have reads : h.repo.Reads ⟨h.repo.refs, none⟩ state :=
      (coherent.repo.retained c state mem).2.congr fun e => by
        dsimp only at ceiling frontier
        simp only [CommitStore.mem_streamForFrontier, ceiling, frontier]
    refine ⟨⟨coherent.repo.valid, refs, coherent.repo.retained, fun f s listed => ?_⟩,
      coherent.last, coherent.cached⟩
    rcases mem_cons.mp listed with new | old
    · cases new
      exact ⟨refs, reads⟩
    · exact coherent.repo.checkpoints f s old
  next none_ =>
    split
    next state held clean =>
      obtain ⟨open_, current⟩ := careful (by rw [held]; rfl) none_
      obtain ⟨f, last, reads⟩ := (coherent.cached state held).2 open_
      have here : h.repo.Reads ⟨h.repo.refs, none⟩ state := reads.congr fun e => by
        simp only [CommitStore.mem_streamForFrontier, ← current, RuntimeHost.tip, last,
          Option.getD_some]
      refine ⟨⟨coherent.repo.valid, refs, fun c s listed => ?_, fun f s listed => ?_⟩,
        coherent.last, coherent.cached⟩
      · rcases mem_append.mp listed with old | new
        · exact coherent.repo.retained c s old
        · cases mem_singleton.mp new
          exact ⟨refs, here⟩
      · rcases mem_cons.mp listed with new | old
        · cases new
          exact ⟨refs, here⟩
        · exact coherent.repo.checkpoints f s old
    next => exact coherent

theorem Coherent.perform (coherent : h.Coherent) (good : call.WellFormed) (careful : h.Careful call) :
    (h.perform stateHash call).Coherent := by
  cases call with
  | materialize ceiling base during =>
    exact coherent.materialize stateHash good careful
  | commit a => exact coherent.commit stateHash a good careful
  | foreign a =>
    obtain ⟨sound, grows⟩ := coherent.repo.appendAll (by
      intro b mem
      exact mem_singleton.mp mem ▸ good)
    exact coherent.grow sound grows
  | applySync response => exact coherent.applySync stateHash good careful
  | createCheckpoint snapshot => exact coherent.createCheckpoint careful
  | invalidateIndex => exact ⟨coherent.repo, coherent.last, coherent.cached⟩

theorem coherent_reach {repo} (sound : repo.Sound) (good : ∀ call ∈ calls, call.WellFormed)
    (careful : Along (perform stateHash) Careful (opened repo) calls) (k) :
    (reach stateHash repo (calls.take k)).Coherent := by
  have wellFormed := Along.of_forall (perform stateHash) (opened repo) good
  apply Along.invariant (perform stateHash) _ (coherent_opened sound)
    (wellFormed.and (perform stateHash) careful)
  rintro h call coherent ⟨fits, kept⟩
  exact coherent.perform stateHash fits kept

/-! ### Eager commits -/

end

/-- Hashes of states whose property values are numbers. -/
def numberHash : WarpState Nat → JsString := computeStateHash projectionWire.encode id

/-- Two commits of writer `a`: a node with an edge to a missing one, and the missing one. -/
def commitLink : Append Nat := ⟨lit "a", none, linkEarly.patch, linkEarly.sha⟩

def commitLate : Append Nat := ⟨lit "a", some linkEarly.sha, addLate.patch, addLate.sha⟩

def materializeThenCommit : List (Call Nat) := [.materialize none .scratch [], .commit commitLink]

theorem materializeThenCommit_wellFormed : ∀ call ∈ materializeThenCommit, call.WellFormed := by
  simp only [materializeThenCommit, mem_cons, not_mem_nil, or_false, forall_eq_or_imp, forall_eq]
  exact ⟨fun a mem => (not_mem_nil mem).elim, linkEarly_wellFormed⟩

/-- A live reading, a commit, a reading below it and a second commit. -/
def commitAtCeiling : List (Call Nat) :=
  [.materialize none .scratch [], .commit commitLink, .materialize (some 0) .scratch [],
    .commit commitLate]

theorem commitAtCeiling_wellFormed : ∀ call ∈ commitAtCeiling, call.WellFormed := by
  simp only [commitAtCeiling, mem_cons, not_mem_nil, or_false, forall_eq_or_imp, forall_eq]
  exact ⟨fun a mem => (not_mem_nil mem).elim, linkEarly_wellFormed,
    fun a mem => (not_mem_nil mem).elim, addLate_wellFormed⟩

/-- A live reading of an empty repository that is published. -/
def materializeThenCheckpoint : List (Call Nat) :=
  [.materialize none .scratch [], .commit commitLink, .createCheckpoint none, .foreign commitLate]

/-- A reading of an empty repository, published after another process has committed. -/
def checkpointBehindRefs : List (Call Nat) :=
  [.materialize none .scratch [], .foreign commitLink, .createCheckpoint none]

theorem checkpointBehindRefs_wellFormed : ∀ call ∈ checkpointBehindRefs, call.WellFormed := by
  simp only [checkpointBehindRefs, mem_cons, not_mem_nil, or_false, forall_eq_or_imp, forall_eq]
  exact ⟨fun a mem => (not_mem_nil mem).elim, linkEarly_wellFormed, trivial⟩

end RuntimeHost
end GitWarp
