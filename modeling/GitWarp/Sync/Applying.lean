import GitWarp.Sync.SyncProtocol

/-!
# What a requester applies

Patches that the wire may carry are applied like the reducer's own: regrouping
them by writer keeps the facts they state, and each writer that has patches in
the response moves to the last of them.
-/
namespace GitWarp

open Js Lib List

variable {V : Type}

/-! ### Applying patches of the wire -/

theorem eventsFrom_context (entry : PatchEntry V) (context) (i) (ops) :
    PatchEntry.eventsFrom ⟨{ entry.patch with context := context }, entry.sha⟩ i ops =
      entry.eventsFrom i ops := by
  induction ops generalizing i with
  | nil => rfl
  | cons op rest ih => simp only [PatchEntry.eventsFrom, ih]

theorem normalizePatch_ok {entry : PatchEntry V} (valid : entry.WellFormed) :
    ∃ vv, normalizePatch entry.patch = .ok { entry.patch with context := .vector vv } ∧
      PatchEntry.effect ⟨{ entry.patch with context := .vector vv }, entry.sha⟩ = entry.effect := by
  obtain ⟨vv, converted⟩ := valid.context
  have positive := valid.positive
  refine ⟨vv, ?_, ?_⟩
  · have nonnegative : ¬ entry.patch.lamport < 0 := by omega
    simp [normalizePatch, converted, valid.named, nonnegative, bind, Except.bind, pure, Except.pure]
  · simp only [PatchEntry.effect, eventsFrom_context, converted]
    rfl

theorem assertKnownRawOps_ok (ops : List (PatchOp V)) (raw : ∀ op ∈ ops, isKnownRawOp op = true) :
    assertKnownRawOps sha ops = .ok () := by
  induction ops with
  | nil => rfl
  | cons op rest ih =>
    rw [assertKnownRawOps, if_pos (raw op mem_cons_self)]
    exact ih (forall_mem_cons.mp raw).2

/-- A patch that the wire may carry. -/
structure OnWire (entry : PatchEntry V) : Prop where
  valid : entry.WellFormed
  raw : ∀ op ∈ entry.patch.ops, isKnownRawOp op = true

theorem applySyncPatch_eq {entry : PatchEntry V} (wire : OnWire entry) :
    applySyncPatch state entry = applyFast state entry := by
  obtain ⟨vv, normalized, sameEffect⟩ := normalizePatch_ok wire.valid
  simp only [applySyncPatch, normalized, bind, Except.bind]
  rw [assertKnownRawOps_ok _ wire.raw]
  simp only [applyFast_eq, sameEffect]

theorem applyWriterPatches_eq (state) (wire : ∀ entry ∈ entries, OnWire entry) :
    applyWriterPatches entries state = reducePatches entries state := by
  induction entries generalizing state with
  | nil => rfl
  | cons entry rest ih =>
    simp only [applyWriterPatches, reducePatches, applySyncPatch_eq
      (wire entry mem_cons_self), bind, Except.bind]
    cases applyFast state entry with
    | error e => rfl
    | ok next => exact ih next (forall_mem_cons.mp wire).2

/-- The frontier after the groups: each group moves its writer to its last patch. -/
def movedFrontier (groups : List (JsString × List (PatchEntry V))) (frontier : Frontier) : Frontier :=
  groups.foldl (fun frontier group => match group.2.getLast? with
    | some last => frontier.set group.1 last.sha
    | none => frontier) frontier

variable (groups : List (JsString × List (PatchEntry V)))

theorem applyGroups_eq (state) (frontier applied)
    (wire : ∀ group ∈ groups, ∀ entry ∈ group.2, OnWire entry) :
    ∃ count, applyGroups groups ⟨state, frontier, applied⟩ =
      (reducePatches (groups.flatMap Prod.snd) state).map
        fun final => ⟨final, movedFrontier groups frontier, count⟩ := by
  induction groups generalizing state frontier applied with
  | nil => exact ⟨applied, rfl⟩
  | cons group rest ih =>
    obtain ⟨writerId, entries⟩ := group
    have later := fun other mem => wire other (mem_cons_of_mem (writerId, entries) mem)
    rw [flatMap_cons, reducePatches_append, applyGroups,
      applyWriterPatches_eq state (wire _ mem_cons_self)]
    cases reducePatches entries state with
    | error e => exact ⟨0, rfl⟩
    | ok next => exact ih next _ _ later

theorem get_movedFrontier (nodup : (groups.map Prod.fst).Nodup) (frontier w) :
    (movedFrontier groups frontier).get w =
      (((assocGet groups w).getD []).getLast?.map PatchEntry.sha).or (frontier.get w) := by
  induction groups generalizing frontier with
  | nil => simp [movedFrontier, assocGet]
  | cons group rest ih =>
    obtain ⟨writerId, entries⟩ := group
    rw [map_cons, nodup_cons] at nodup
    have step := ih nodup.2 (match entries.getLast? with
      | some last => frontier.set writerId last.sha
      | none => frontier)
    rw [movedFrontier] at step ⊢
    rw [foldl_cons, step, assocGet]
    by_cases same : writerId = w
    · subst same
      rw [(assocGet_eq_none_iff rest writerId).mpr nodup.1]
      cases last : entries.getLast? <;> simp [last]
    · cases last : entries.getLast? <;> simp [same]

/-! ### Groups -/

def patchesOf (patches : List (SyncPatchEntry V)) (w : JsString) : List (PatchEntry V) :=
  (patches.filter fun item => decide (item.writerId = w)).map SyncPatchEntry.entry

theorem get_groupByWriter (patches : List (SyncPatchEntry V)) (w) :
    (groupByWriter patches).get w =
      if patchesOf patches w = [] then none else some (patchesOf patches w) := by
  induction patches using List.reverseRecOn with
  | nil => rfl
  | append_singleton rest item ih =>
    have step : groupByWriter (rest ++ [item]) = (groupByWriter rest).set item.writerId
        (((groupByWriter rest).get item.writerId).getD [] ++ [item.entry]) := by
      simp [groupByWriter, foldl_append]
    have grown : patchesOf (rest ++ [item]) w =
        patchesOf rest w ++ if item.writerId = w then [item.entry] else [] := by
      simp only [patchesOf, filter_append, map_append]
      congr 1
      by_cases same : item.writerId = w <;> simp [same]
    rw [step, OrdMap.get_set, grown]
    by_cases same : item.writerId = w
    · subst same
      rw [ih]
      by_cases fresh : patchesOf rest item.writerId = []
      · simp [fresh]
      · simp [fresh]
    · simp [same, ih]

theorem mem_groups (entry) :
    entry ∈ (groupByWriter patches).entries.flatMap Prod.snd ↔
      entry ∈ patches.map SyncPatchEntry.entry := by
  simp only [mem_flatMap, Prod.exists, OrdMap.mem_entries_iff, get_groupByWriter]
  constructor
  · rintro ⟨w, group, found, mem⟩
    split at found
    · cases found
    · cases found
      obtain ⟨item, listed, rfl⟩ := mem_map.mp mem
      exact mem_map_of_mem (mem_filter.mp listed).1
  · intro mem
    obtain ⟨item, listed, rfl⟩ := mem_map.mp mem
    have own : item.entry ∈ patchesOf patches item.writerId :=
      mem_map_of_mem (mem_filter.mpr ⟨listed, by simp⟩)
    exact ⟨item.writerId, _, if_neg (ne_nil_of_mem own), own⟩

variable (response : SyncResponse V) (state : WarpState V) (frontier : Frontier)

theorem applySyncResponse_eq (wire : ∀ item ∈ response.patches, OnWire item.entry) :
    ∃ count, applySyncResponse response state frontier =
      (reducePatches ((groupByWriter response.patches).entries.flatMap Prod.snd) state).map
        fun final =>
          ⟨final, movedFrontier (groupByWriter response.patches).entries frontier, count⟩ := by
  apply applyGroups_eq (groupByWriter response.patches).entries state frontier 0
  intro group member entry inside
  have listed := (mem_groups entry).mp (mem_flatMap.mpr ⟨group, member, inside⟩)
  obtain ⟨item, sent, rfl⟩ := mem_map.mp listed
  exact wire item sent

/-- Applying a response of wire patches: the state learns their facts, and each writer with
patches moves to its last one. -/
theorem applySyncResponse_spec (before : Represents state F)
    (wire : ∀ item ∈ response.patches, OnWire item.entry) :
    ∃ result, applySyncResponse response state frontier = .ok result ∧
      Represents result.state (F ∪ historyFacts (response.patches.map SyncPatchEntry.entry)) ∧
      ∀ w, result.frontier.get w =
        ((patchesOf response.patches w).getLast?.map PatchEntry.sha).or (frontier.get w) := by
  have onWire : ∀ entry ∈ (groupByWriter response.patches).entries.flatMap Prod.snd, OnWire entry := by
    intro entry mem
    obtain ⟨item, listed, rfl⟩ := mem_map.mp ((mem_groups entry).mp mem)
    exact wire item listed
  obtain ⟨count, applied⟩ := applySyncResponse_eq response state frontier wire
  obtain ⟨final, reduced, knows⟩ := reducePatches_represents state F
    (fun entry mem => (onWire entry mem).valid) before
  refine ⟨⟨final, movedFrontier (groupByWriter response.patches).entries frontier, count⟩,
    ?_, ?_, fun w => ?_⟩
  · rw [applied, reduced]
    rfl
  · rw [historyFacts_congr _ _ mem_groups] at knows
    exact knows
  · rw [get_movedFrontier _ (groupByWriter response.patches).nodup]
    have group := get_groupByWriter response.patches w
    rw [OrdMap.get] at group
    rw [group]
    split
    next none_own => simp [none_own]
    · rfl

/-! ### What an applied response has passed -/

theorem raw_of_assertKnownRawOps {ops : List (PatchOp V)}
    (passed : assertKnownRawOps sha ops = .ok ()) : ∀ op ∈ ops, isKnownRawOp op = true := by
  induction ops with
  | nil => exact fun _ mem => nomatch mem
  | cons op rest ih =>
    rw [assertKnownRawOps] at passed
    split at passed
    next known =>
      intro other mem
      rcases mem_cons.mp mem with rfl | later
      · exact known
      · exact ih passed other later
    next => cases passed

theorem raw_of_applySyncPatch {next} (applied : applySyncPatch state entry = .ok next) :
    ∀ op ∈ entry.patch.ops, isKnownRawOp op = true := by
  obtain ⟨patch, normalized, passed⟩ := bind_eq_ok.mp applied
  obtain ⟨⟨⟩, asserted, -⟩ := bind_eq_ok.mp passed
  have raw := raw_of_assertKnownRawOps asserted
  -- normalizing replaces the context only
  have same : patch.ops = entry.patch.ops := by
    obtain ⟨vv, -, rest⟩ := bind_eq_ok.mp normalized
    split at rest
    · cases rest
    · split at rest
      · cases rest
      · cases rest
        rfl
  rwa [same] at raw

theorem raw_of_applyWriterPatches (entries) (state next : WarpState V)
    (applied : applyWriterPatches entries state = .ok next) :
    ∀ entry ∈ entries, ∀ op ∈ entry.patch.ops, isKnownRawOp op = true := by
  induction entries generalizing state with
  | nil => exact fun _ mem => nomatch mem
  | cons entry rest ih =>
    obtain ⟨middle, first, later⟩ := bind_eq_ok.mp applied
    intro other mem
    rcases mem_cons.mp mem with rfl | further
    · exact raw_of_applySyncPatch state first
    · exact ih middle later other further

theorem raw_of_applyGroups (start result) (applied : applyGroups groups start = .ok result) :
    ∀ group ∈ groups, ∀ entry ∈ group.2, ∀ op ∈ entry.patch.ops, isKnownRawOp op = true := by
  induction groups generalizing start with
  | nil => exact fun _ mem => nomatch mem
  | cons group rest ih =>
    obtain ⟨writerId, entries⟩ := group
    obtain ⟨state, first, later⟩ := bind_eq_ok.mp applied
    intro other mem
    rcases mem_cons.mp mem with rfl | further
    · exact raw_of_applyWriterPatches entries start.state state first
    · exact ih _ later other further

theorem raw_of_applySyncResponse (result)
    (applied : applySyncResponse response state frontier = .ok result) :
    ∀ item ∈ response.patches, ∀ op ∈ item.entry.patch.ops, isKnownRawOp op = true := by
  intro item listed
  obtain ⟨group, member, inside⟩ := mem_flatMap.mp
    ((mem_groups item.entry).mpr (mem_map_of_mem listed))
  exact raw_of_applyGroups _ _ result applied group member item.entry inside

end GitWarp
