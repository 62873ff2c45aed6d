import GitWarp.Temporal.TemporalQuery

/-!
# Temporal queries from a checkpoint

A checkpoint is a cut through the logs of the writers, but the replay that starts from it
skips patches by their tick. The two agree where the checkpoint closes its tick: it covers
every patch up to that tick, and its own tick is the tick of one patch.
-/
namespace GitWarp

open Js Lib KeyCodec List

/-! ### Headers -/

/-- What a patch says apart from its operations. -/
structure PatchHeader where
  writer : JsString
  lamport : Int
  sha : JsString
  context : PatchContext

/-- A header that a well-formed patch can have. -/
structure PatchHeader.Valid (header : PatchHeader) : Prop where
  positive : 0 < header.lamport
  named : header.writer ≠ []
  hex : isHexOid header.sha = true
  context : ∃ vv, header.context.toVersionVector = .ok vv

def PatchEntry.header (entry : PatchEntry JsData) : PatchHeader :=
  ⟨entry.patch.writer, entry.patch.lamport, entry.sha, entry.patch.context⟩

def PatchHeader.contextCounters (header : PatchHeader) : List Nat :=
  match header.context.toVersionVector with
  | .ok vv => vv.entries.values
  | .error _ => []

/-- The greatest counter that the patch puts into the observed frontier. -/
def PatchHeader.reach (header : PatchHeader) : Nat :=
  header.contextCounters.foldl max header.lamport.toNat

/-- The tick that a checkpoint of these patches is taken to stand for. -/
def boundaryTick (headers : List PatchHeader) : Nat :=
  (headers.map PatchHeader.reach).foldl max 0

def WriterLog.map {A B : Type} (f : A → B) (log : WriterLog A) : WriterLog B :=
  ⟨log.covered.map f, log.later.map f⟩

/-- Every patch outside the checkpoint is above its tick, and where that tick is not zero
it is the lamport of exactly one covered patch. -/
structure ClosedTick (logs : List (WriterLog PatchHeader)) : Prop where
  later : ∀ header ∈ laterOf logs, (boundaryTick (coveredOf logs) : Int) < header.lamport
  boundary : boundaryTick (coveredOf logs) = 0 ∨
    ((coveredOf logs).filter fun header =>
      header.lamport = (boundaryTick (coveredOf logs) : Int)).length = 1

/-! ### Logs -/

section Logs

variable {A B : Type} (logs : List (WriterLog A)) (f : A → B)

theorem allOf_map : allOf (logs.map (WriterLog.map f)) = (allOf logs).map f := by
  simp only [allOf, flatMap_map, WriterLog.map, map_flatMap, map_append]

theorem coveredOf_map : coveredOf (logs.map (WriterLog.map f)) = (coveredOf logs).map f := by
  simp only [coveredOf, flatMap_map, WriterLog.map, map_flatMap]

theorem laterOf_map : laterOf (logs.map (WriterLog.map f)) = (laterOf logs).map f := by
  simp only [laterOf, flatMap_map, WriterLog.map, map_flatMap]

theorem perm_allOf : (coveredOf logs ++ laterOf logs).Perm (allOf logs) :=
  flatMap_append_perm logs WriterLog.covered WriterLog.later

theorem mem_allOf_iff : a ∈ allOf logs ↔ a ∈ coveredOf logs ∨ a ∈ laterOf logs := by
  rw [← (perm_allOf logs).mem_iff, mem_append]

end Logs

/-! ### The tick of a checkpoint -/

theorem foldl_max_le_iff (values : List Nat) (start n) :
    values.foldl max start ≤ n ↔ start ≤ n ∧ ∀ value ∈ values, value ≤ n := by
  induction values generalizing start with
  | nil => simp
  | cons value rest ih =>
    rw [foldl_cons, ih, max_le_iff, forall_mem_cons, and_assoc]

theorem boundaryTick_le_iff (n) :
    boundaryTick headers ≤ n ↔ ∀ header ∈ headers, header.lamport.toNat ≤ n ∧
      ∀ counter ∈ header.contextCounters, counter ≤ n := by
  simp only [boundaryTick, foldl_max_le_iff, forall_mem_map, PatchHeader.reach, Nat.zero_le,
    true_and]

theorem lamport_le_boundaryTick (headers : List PatchHeader) (mem : header ∈ headers) :
    header.lamport ≤ boundaryTick headers := by
  have bound := ((boundaryTick_le_iff _).mp le_rfl header mem).1
  omega

theorem VersionVector.counters_le_iff (vv : VersionVector) (n) :
    (∀ counter ∈ vv.entries.values, counter ≤ n) ↔ ∀ w, vv.counter w ≤ n := by
  constructor
  · intro stored w
    rw [counter]
    cases found : vv.get w with
    | none => exact Nat.zero_le n
    | some c =>
      have listed := (vv.entries.mem_entries_iff w).mpr found
      exact stored c (mem_map.mpr ⟨(w, c), listed, rfl⟩)
  · intro all c mem
    obtain ⟨⟨w, c'⟩, listed, rfl⟩ := mem_map.mp mem
    have found := (vv.entries.mem_entries_iff w).mp listed
    have bound := all w
    rw [counter, get, found] at bound
    exact bound

theorem maxObservedLamportInState_le_iff (s) (n) :
    maxObservedLamportInState s ≤ n ↔ ∀ w, s.observedFrontier.counter w ≤ n := by
  rw [maxObservedLamportInState, foldl_max_le_iff, VersionVector.counters_le_iff]
  simp

theorem seen_mem_facts_iff {entry : PatchEntry JsData} (valid : entry.WellFormed) (n) :
    (∀ w m, .seen w m ∈ entry.facts → m ≤ n) ↔ entry.header.lamport.toNat ≤ n ∧
      ∀ counter ∈ entry.header.contextCounters, counter ≤ n := by
  -- the counters of a patch: those of its context and its own lamport
  obtain ⟨vv, context⟩ := valid.context
  obtain ⟨effect, known⟩ := valid.effect_ok
  have counters : entry.header.contextCounters = vv.entries.values := by
    rw [PatchHeader.contextCounters, PatchEntry.header, context]
  -- the effect carries this context and this tick
  have parts : effect.context = vv ∧ ∃ tick, effect.tick = some tick ∧
      tick.lamport = entry.patch.lamport.toNat := by
    have positive : ¬ entry.patch.lamport ≤ 0 := by
      have := valid.positive
      omega
    obtain ⟨-, found, ticked⟩ := entry.effect_parts known
    cases context.symm.trans found
    rw [PatchEntry.tick, if_neg positive, dif_neg valid.named] at ticked
    exact ⟨rfl, _, (Except.ok.inj ticked).symm, rfl⟩
  obtain ⟨sameContext, tick, sameTick, lamport⟩ := parts
  rw [counters, VersionVector.counters_le_iff]
  have header : entry.header.lamport = entry.patch.lamport := rfl
  constructor
  · intro bound
    constructor
    · rw [header, ← lamport]
      exact bound tick.writer tick.lamport ⟨effect, known, Or.inr (Or.inr ⟨tick, sameTick, rfl⟩)⟩
    · intro w
      rw [← sameContext]
      exact bound w _ ⟨effect, known, Or.inr (Or.inl ⟨w, rfl⟩)⟩
  · rintro ⟨own, others⟩ w m ⟨effect', known', fact⟩
    rw [known] at known'
    cases known'
    rcases fact with ⟨event, -, inside⟩ | ⟨w', same⟩ | ⟨tick', found, same⟩
    · exact absurd inside (by cases event.2.op <;> simp [Op.facts])
    · cases same
      rw [sameContext]
      exact others w
    · cases same
      rw [sameTick] at found
      cases found
      rw [lamport]
      exact own

variable (entries : List (PatchEntry JsData))

theorem maxObserved_of_represents (valid : ∀ entry ∈ entries, entry.WellFormed) (s)
    (represents : Represents s (historyFacts entries)) :
    maxObservedLamportInState s = boundaryTick (entries.map PatchEntry.header) := by
  apply Nat.le_antisymm_iff.mpr
  have bounds : ∀ n, maxObservedLamportInState s ≤ n ↔
      boundaryTick (entries.map PatchEntry.header) ≤ n := by
    intro n
    rw [maxObservedLamportInState_le_iff, boundaryTick_le_iff, forall_mem_map]
    constructor
    · intro bound entry member
      rw [← seen_mem_facts_iff (valid entry member)]
      intro w m fact
      have counted := (represents.seen w m).mpr (Or.inr ⟨m, le_rfl, entry, member, fact⟩)
      exact le_trans counted (bound w)
    · intro bound w
      rcases (represents.seen w _).mp le_rfl with zero | ⟨m, below, entry, member, fact⟩
      · rw [zero]
        exact Nat.zero_le n
      · exact le_trans below
          ((seen_mem_facts_iff (valid entry member) n).mpr (bound entry member) w m fact)
  exact ⟨(bounds _).mpr le_rfl, (bounds _).mp le_rfl⟩

/-! ### States that hold the same facts -/

theorem nodup_nodeEntries (keyed : s.Keyed) : ((nodeEntries s nodeId).map Prod.fst).Nodup := by
  rw [nodeEntries, map_map]
  apply List.Nodup.map_on ?_ ((nodup_nodePropertiesFromState s keyed).of_map.filter _)
  intro a left b right same
  rw [mem_filter, decide_eq_true_eq] at left right
  apply inj_on_of_nodup_map (nodup_nodePropertiesFromState s keyed) left.1 right.1
  have key : a.key = b.key := same
  rw [propOrder, propOrder, left.2, right.2, key]

theorem extractNodeSnapshot_of_equiv (same : s.Equiv t) (left : s.Keyed) (right : t.Keyed) :
    extractNodeSnapshot s nodeId = extractNodeSnapshot t nodeId := by
  have alive : s.nodeAlive.contains nodeId = t.nodeAlive.contains nodeId :=
    same.nodeAlive.contains_eq nodeId
  -- the registers are the same ones, enumerated in orders that may differ
  have registers : (nodePropertiesFromState s).Perm (nodePropertiesFromState t) := by
    apply (perm_ext_iff_of_nodup (nodup_nodePropertiesFromState s left).of_map
      (nodup_nodePropertiesFromState t right).of_map).mpr
    intro p
    rw [mem_nodePropertiesFromState_iff s left, mem_nodePropertiesFromState_iff t right, same.prop]
  have entries : (nodeEntries s nodeId).Perm (nodeEntries t nodeId) :=
    (registers.filter _).map _
  rw [extractNodeSnapshot, extractNodeSnapshot, alive,
    PlainObject.fill_perm _ _ entries (nodup_nodeEntries left)]

/-! ### What replays show -/

section Replays

variable (nodeId : JsString) (since : Int)

theorem shownFrom_append_iff (s u) (reduced : reducePatches A s = .ok u) (snapshot) :
    ShownFrom nodeId since (A ++ B) s snapshot ↔
      ShownFrom nodeId since A s snapshot ∨ ShownFrom nodeId since B u snapshot := by
  induction A generalizing s with
  | nil =>
    cases reduced
    simp [not_shownFrom_nil]
  | cons entry rest ih =>
    obtain ⟨next, applied, later⟩ := bind_eq_ok.mp reduced
    rw [cons_append, shownFrom_cons_iff nodeId since applied,
      shownFrom_cons_iff nodeId since applied, ih next later, or_assoc]

theorem not_shownFrom_early (entries s) (early : ∀ entry ∈ entries, entry.patch.lamport < since)
    (snapshot) : ¬ ShownFrom nodeId since entries s snapshot := by
  rintro ⟨before, entry, after, t, rfl, late, -⟩
  have below := early entry (by simp)
  omega

/-- Replays of one list from states with the same facts show the same. -/
theorem ShownFrom.of_represents {entries s u snapshot start}
    (valid : ∀ entry ∈ start ++ entries, entry.WellFormed)
    (consistent : Consistent (start ++ entries)) (left : Represents s (historyFacts start))
    (right : Represents u (historyFacts start)) (shown : ShownFrom nodeId since entries s snapshot) :
    ShownFrom nodeId since entries u snapshot := by
  obtain ⟨before, entry, after, t, split, late, reduced, found, alive⟩ := shown
  have subset : ∀ e ∈ before ++ [entry], e ∈ entries := by
    intro e mem
    rw [split]
    simp only [mem_append, mem_cons, not_mem_nil, or_false] at mem ⊢
    tauto
  obtain ⟨t', reduced', right'⟩ := reducePatches_represents u _
    (fun e mem => valid e (mem_append_right _ (subset e mem))) right
  have left' := represents_of_reduced (before ++ [entry]) s _ left reduced
  rw [← historyFacts_append] at left' right'
  -- the facts of the two ends are the same and each event has one write
  have distinct : OneWritePerEvent (historyFacts (start ++ (before ++ [entry]))) := by
    apply Consistent.oneWritePerEvent
    intro a memberA b memberB
    have inside : ∀ e ∈ start ++ (before ++ [entry]), e ∈ start ++ entries := by
      intro e mem
      rcases mem_append.mp mem with first | second
      · exact mem_append_left _ first
      · exact mem_append_right _ (subset e second)
    exact consistent a (inside a memberA) b (inside b memberB)
  have same := left'.equiv distinct right'
  have keyed := left'.keyed (historyFacts_addressed _)
  have keyed' := right'.keyed (historyFacts_addressed _)
  refine ⟨before, entry, after, t', split, late, reduced', ?_, alive⟩
  rw [← extractNodeSnapshot_of_equiv same keyed keyed', found]

end Replays

/-! ### The causal order -/

theorem pairwise_sortPatchesCausally (localeCompare) (entries : List (PatchEntry JsData)) :
    (sortPatchesCausally localeCompare entries).Pairwise fun a b =>
      a.patch.lamport ≤ b.patch.lamport := by
  apply pairwise_insertionSort_key fun entry : PatchEntry JsData => entry.patch.lamport
  · intro a b before
    simp only [causalCompare] at before
    split at before <;> omega
  · intro a b after
    simp only [causalCompare] at after
    split at after <;> omega

theorem split_at_tick (sorted : entries.Pairwise fun a b => a.patch.lamport ≤ b.patch.lamport)
    (tick) :
    (∀ entry ∈ entries.take (entries.findIdx fun e => tick < e.patch.lamport),
        entry.patch.lamport ≤ tick) ∧
      ∀ entry ∈ entries.drop (entries.findIdx fun e => tick < e.patch.lamport),
        tick < entry.patch.lamport := by
  induction entries with
  | nil => simp
  | cons entry rest ih =>
    obtain ⟨first, others⟩ := pairwise_cons.mp sorted
    by_cases above : tick < entry.patch.lamport
    · simp only [findIdx_cons, above, decide_true, cond_true, take_zero, not_mem_nil,
        false_implies, implies_true, drop_zero, true_and]
      intro e mem
      rcases mem_cons.mp mem with rfl | later
      · exact above
      · exact lt_of_lt_of_le above (first e later)
    · simp only [findIdx_cons, above, decide_false, cond_false, take_succ_cons,
        drop_succ_cons, forall_mem_cons]
      exact ⟨⟨by omega, (ih others).1⟩, (ih others).2⟩

end GitWarp
