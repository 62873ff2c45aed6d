import GitWarp.Temporal.Transparency

/-!
# Checkpoints that show

For a cut that does not close its tick, patches with the given headers are
composed whose answers from the checkpoint differ. The patches add one node and
set its properties; which of them does what depends on how the cut fails.
-/
namespace GitWarp

open Js Lib KeyCodec List

/-! ### Composed patches -/

/-- What a composed patch does to the node that is asked about. -/
inductive Payload
  | other
  | add
  | addSet (first : Bool)
  deriving DecidableEq

def askedNode : JsString := lit "x"

def askedKey (first : Bool) : JsString := if first then lit "a" else lit "b"

def PatchHeader.dot (header : PatchHeader) : Dot :=
  if named : header.writer ≠ [] ∧ 0 < header.lamport.toNat then
    ⟨header.writer, header.lamport.toNat, named.1, named.2⟩
  else ⟨lit "w", 1, w_named, Nat.one_pos⟩

def Payload.ops (dot : Dot) : Payload → List (PatchOp JsData)
  | .other => [.runtime ⟨.nodeAdd (lit "y") dot, rfl⟩]
  | .add => [.runtime ⟨.nodeAdd askedNode dot, rfl⟩]
  | .addSet first => [.runtime ⟨.nodeAdd askedNode dot, rfl⟩,
      .runtime ⟨.nodePropSet askedNode (askedKey first) .null, by cases first <;> rfl⟩]

def PatchHeader.compose (header : PatchHeader) (payload : Payload) : PatchEntry JsData :=
  ⟨⟨header.writer, header.lamport, payload.ops header.dot, header.context⟩, header.sha⟩

theorem PatchHeader.compose_wellFormed (header : PatchHeader) (valid : header.Valid) (payload) :
    (header.compose payload).WellFormed where
  known := by cases payload <;> simp [compose, Payload.ops, assertKnownReducerOp]
  normal := by cases payload <;> simp [compose, Payload.ops, normalizeRawOp]
  positive := valid.positive
  named := valid.named
  hex := valid.hex
  context := valid.context

theorem askedNode_valid : ValidId askedNode := ⟨by decide, by decide, by decide⟩

theorem askedKey_valid : ValidId (askedKey first) := by
  cases first <;> exact ⟨by decide, by decide, by decide⟩

theorem askedKey_plain : askedKey first ≠ protoKey := by
  cases first <;> decide

theorem PatchHeader.holds_compose_iff (header : PatchHeader) (payload) (op) :
    (header.compose payload).Holds op ↔ (payload = .other ∧ op = .nodeAdd (lit "y") header.dot) ∨
      (payload ≠ .other ∧ op = .nodeAdd askedNode header.dot) ∨
      ∃ first, payload = .addSet first ∧ op = .nodePropSet askedNode (askedKey first) .null := by
  cases payload <;> simp [PatchEntry.Holds, compose, Payload.ops, normalizeRawOp, eq_comm]

/-- The entries are composed with the payloads of the plan. -/
def Composed (plan : PatchHeader → Payload) (entries : List (PatchEntry JsData)) : Prop :=
  ∀ entry ∈ entries, entry.header.Valid ∧ entry = entry.header.compose (plan entry.header)

section States

variable {plan : PatchHeader → Payload} {entries : List (PatchEntry JsData)}
  (composed : Composed plan entries) {s : WarpState JsData}
  (represents : Represents s (historyFacts entries))

include composed

theorem Composed.wellFormed : ∀ entry ∈ entries, entry.WellFormed := by
  intro entry mem
  obtain ⟨valid, made⟩ := composed entry mem
  rw [made]
  exact entry.header.compose_wellFormed valid _

include represents

theorem Composed.alive_iff : s.nodeAlive.contains askedNode = true ↔
    ∃ entry ∈ entries, plan entry.header ≠ .other := by
  -- the node exists where some patch adds it
  have effects : ∀ entry ∈ entries, ∃ effect, entry.effect = .ok effect := fun entry member =>
    (composed.wellFormed entry member).effect_ok
  -- nothing is ever removed
  have kept : ∀ d, d ∉ s.nodeAlive.tombstones := by
    intro d lost
    rw [represents.nodeTombs, mem_historyFacts_iff effects (by simp)
      fun op e => nodeTomb_mem_facts] at lost
    obtain ⟨entry, member, op, held, node, dots, rfl, -⟩ := lost
    rw [(composed entry member).2, PatchHeader.holds_compose_iff] at held
    simp at held
  rw [ORSet.contains_iff]
  constructor
  · rintro ⟨d, tagged, -⟩
    rw [represents.nodeTags, mem_historyFacts_iff effects (by simp)
      fun op e => nodeTag_mem_facts] at tagged
    obtain ⟨entry, member, op, held, dot, rfl, -⟩ := tagged
    rw [(composed entry member).2, PatchHeader.holds_compose_iff] at held
    refine ⟨entry, member, ?_⟩
    rcases held with ⟨-, same⟩ | ⟨adds, -⟩ | ⟨first, -, same⟩
    · exact absurd (Op.nodeAdd.inj same).1 (by decide)
    · exact adds
    · cases same
  · rintro ⟨entry, member, adds⟩
    refine ⟨entry.header.dot.encode, ?_, kept _⟩
    rw [represents.nodeTags, mem_historyFacts_iff effects (by simp) fun op e => nodeTag_mem_facts]
    refine ⟨entry, member, .nodeAdd askedNode entry.header.dot, ?_, _, rfl, rfl⟩
    rw [(composed entry member).2, PatchHeader.holds_compose_iff]
    exact Or.inr (Or.inl ⟨adds, rfl⟩)

theorem Composed.register_iff :
    (∃ r, s.prop.get (encodePropKey askedNode (askedKey first)) = some r) ↔
      ∃ entry ∈ entries, plan entry.header = .addSet first := by
  -- a register is written where some patch sets the property
  have wins := represents.writes (encodePropKey askedNode (askedKey first))
  constructor
  · rintro ⟨r, found⟩
    rw [found] at wins
    obtain ⟨⟨entry, member, fact⟩, -⟩ := wins
    obtain ⟨op, e, held, inside⟩ := holds_of_fact fact (by simp)
    refine ⟨entry, member, ?_⟩
    rw [(composed entry member).2, PatchHeader.holds_compose_iff] at held
    rcases held with ⟨-, rfl⟩ | ⟨-, rfl⟩ | ⟨first', planned, rfl⟩
    · simp [Op.facts] at inside
    · simp [Op.facts] at inside
    · simp only [Op.facts, Set.mem_singleton_iff, Fact.write.injEq] at inside
      have keys := (encodePropKey_inj askedNode_valid askedNode_valid (askedKey_valid)
        askedKey_valid inside.1).2
      have same : first = first' := by
        cases first <;> cases first' <;> first | rfl | exact absurd keys (by decide)
      rw [same]
      exact planned
  · rintro ⟨entry, member, planned⟩
    obtain ⟨effect, known⟩ := (composed.wellFormed entry member).effect_ok
    have held : entry.Holds (.nodePropSet askedNode (askedKey first) .null) := by
      rw [(composed entry member).2, PatchHeader.holds_compose_iff]
      exact Or.inr (Or.inr ⟨first, planned, rfl⟩)
    obtain ⟨e, facts⟩ := fact_of_holds known held
    cases found : s.prop.get (encodePropKey askedNode (askedKey first)) with
    | some r => exact ⟨r, rfl⟩
    | none =>
      rw [found] at wins
      exact absurd ⟨entry, member, facts _ rfl⟩ (wins ⟨e, .null⟩)

theorem Composed.own_iff (alive : s.nodeAlive.contains askedNode = true) :
    ((extractNodeSnapshot s askedNode).props.own (askedKey first)).isSome = true ↔
      ∃ entry ∈ entries, plan entry.header = .addSet first := by
  have keyed := represents.keyed (historyFacts_addressed entries)
  rw [← composed.register_iff represents, Option.isSome_iff_exists]
  simp only [extractNodeSnapshot, alive, if_true,
    PlainObject.own_fill_iff _ (nodup_nodeEntries keyed) _ askedKey_plain]
  simp only [nodeEntries, mem_map, mem_filter, decide_eq_true_eq]
  constructor
  · rintro ⟨v, entry, ⟨mem, here⟩, same⟩
    obtain ⟨-, -, r, found, -⟩ := (mem_nodePropertiesFromState_iff s keyed entry).mp mem
    rw [here, (Prod.mk.inj same).1] at found
    exact ⟨r, found⟩
  · rintro ⟨r, found⟩
    refine ⟨_, ⟨askedNode, askedKey first, r.value⟩, ⟨?_, rfl⟩, rfl⟩
    rw [mem_nodePropertiesFromState_iff s keyed]
    exact ⟨askedNode_valid, askedKey_valid, r, found, rfl⟩

end States

/-! ### Composed histories -/

section Histories

variable (localeCompare : JsString → JsString → Int) (logs : List (WriterLog PatchHeader))
  (valid : ∀ header ∈ allOf logs, header.Valid) (plan : PatchHeader → Payload)

def historyOf : List (WriterLog (PatchEntry JsData)) :=
  logs.map (WriterLog.map fun header => header.compose (plan header))

theorem headersOf_historyOf : headersOf (historyOf logs plan) = logs := by
  have same : ∀ log : WriterLog PatchHeader,
      WriterLog.map PatchEntry.header (log.map fun header => header.compose (plan header)) = log := by
    intro log
    have back : PatchEntry.header ∘ (fun header => header.compose (plan header)) = id := rfl
    simp only [WriterLog.map, map_map, back, map_id]
  rw [headersOf, historyOf, map_map]
  conv_rhs => rw [← map_id logs]
  exact map_congr_left fun log _ => same log

include valid in
theorem composed_historyOf : Composed plan (allOf (historyOf logs plan)) := by
  intro entry mem
  rw [historyOf, allOf_map] at mem
  obtain ⟨header, listed, rfl⟩ := mem_map.mp mem
  exact ⟨valid header listed, rfl⟩

theorem Composed.subset {plan entries part} (composed : Composed plan entries)
    (subset : ∀ entry ∈ part, entry ∈ entries) :
    Composed plan part := fun entry mem => composed entry (subset entry mem)

theorem Composed.append {plan front back} (first : Composed plan front)
    (second : Composed plan back) : Composed plan (front ++ back) :=
  fun entry mem => (mem_append.mp mem).elim (first entry) (second entry)

theorem mem_of_split {after} {last e : PatchEntry JsData} (split : whole = before ++ last :: after)
    (inside : e ∈ before ++ [last]) : e ∈ whole := by
  rw [split, append_cons]
  exact mem_append_left after inside

theorem ShownFrom.state (start) (represents : Represents s (historyFacts start))
    (shown : ShownFrom nodeId since entries s snapshot) :
    ∃ before entry after t, entries = before ++ entry :: after ∧ since ≤ entry.patch.lamport ∧
      Represents t (historyFacts (start ++ (before ++ [entry]))) ∧
      extractNodeSnapshot t nodeId = snapshot ∧ snapshot.alive = true := by
  obtain ⟨before, entry, after, t, split, late, reduced, found, alive⟩ := shown
  have after' := represents_of_reduced (before ++ [entry]) s _ represents reduced
  rw [← historyFacts_append] at after'
  exact ⟨before, entry, after, t, split, late, after', found, alive⟩

theorem shownFrom_of_split {after} (wellFormed : ∀ e ∈ before ++ [entry], e.WellFormed)
    (late : since ≤ entry.patch.lamport) :
    ∃ t, Represents t (historyFacts (before ++ [entry])) ∧ (t.nodeAlive.contains nodeId = true →
        ShownFrom nodeId since (before ++ entry :: after) .empty (extractNodeSnapshot t nodeId)) := by
  obtain ⟨t, reduced, represents⟩ := reduces_history wellFormed
  exact ⟨t, represents, fun alive => ⟨before, entry, after, t, rfl, late, reduced, rfl, alive⟩⟩

variable (alike : ∀ s, CheckpointOf (historyOf logs plan) s →
  (temporal localeCompare (historyOf logs plan) (some s)).SameAnswers
    (temporal localeCompare (historyOf logs plan) none))

include valid

theorem queries_wellFormed :
    ∀ entry ∈ (temporal localeCompare (historyOf logs plan) loaded).allPatches,
      entry.WellFormed := by
  apply sorted_wellFormed
  exact (composed_historyOf logs valid plan).wellFormed

include alike

theorem exists_checkpoint : ∃ s, Represents s (historyFacts (coveredOf (historyOf logs plan))) ∧
    maxObservedLamportInState s = boundaryTick (coveredOf logs) ∧
    ∀ (predicate : NodeSnapshot → Bool) (since : Int),
      ((∃ snapshot, (temporal localeCompare (historyOf logs plan) (some s)).Shown askedNode since
          snapshot ∧ predicate snapshot = true) ↔
        ∃ snapshot, (temporal localeCompare (historyOf logs plan) none).Shown askedNode since
          snapshot ∧ predicate snapshot = true) ∧
      (((∃ snapshot, (temporal localeCompare (historyOf logs plan) (some s)).Shown askedNode since
          snapshot) ∧ ∀ snapshot, (temporal localeCompare (historyOf logs plan) (some s)).Shown
            askedNode since snapshot → predicate snapshot = true) ↔
        (∃ snapshot, (temporal localeCompare (historyOf logs plan) none).Shown askedNode since
          snapshot) ∧ ∀ snapshot, (temporal localeCompare (historyOf logs plan) none).Shown
            askedNode since snapshot → predicate snapshot = true) := by
  -- the checkpoint of a composed history, with what its answers say of the others
  have wellFormed : ∀ entry ∈ allOf (historyOf logs plan), entry.WellFormed :=
    (composed_historyOf logs valid plan).wellFormed
  obtain ⟨s, reduced, -⟩ := reduces_history
    fun entry mem => wellFormed entry ((mem_allOf_iff _).mpr (Or.inl mem))
  have checkpoint : CheckpointOf (historyOf logs plan) s := ⟨s, reduced, WarpState.Equiv.refl s⟩
  obtain ⟨represents, stands⟩ := represents_of_checkpoint _ wellFormed checkpoint
  rw [headersOf_historyOf] at stands
  refine ⟨s, represents, stands, ?_⟩
  intro predicate since
  have formed := @queries_wellFormed localeCompare logs valid plan
  obtain ⟨always, eventually⟩ := alike s checkpoint askedNode predicate since
  constructor
  · obtain ⟨a, left, means⟩ := TemporalQuery.eventually_iff _ formed askedNode predicate since
    obtain ⟨b, right, means'⟩ := TemporalQuery.eventually_iff _ formed askedNode predicate since
    rw [left, right] at eventually
    cases eventually
    exact means.symm.trans means'
  · obtain ⟨a, left, means⟩ := TemporalQuery.always_iff _ formed askedNode predicate since
    obtain ⟨b, right, means'⟩ := TemporalQuery.always_iff _ formed askedNode predicate since
    rw [left, right] at always
    cases always
    exact means.symm.trans means'

end Histories

/-! ### Cuts that do not close their tick -/

section Cuts

variable (localeCompare : JsString → JsString → Int) (logs : List (WriterLog PatchHeader))
  (valid : ∀ header ∈ allOf logs, header.Valid)
  (distinct : ((allOf logs).map PatchHeader.sha).Nodup)
  (alike : ∀ plan s, CheckpointOf (historyOf logs plan) s →
    (temporal localeCompare (historyOf logs plan) (some s)).SameAnswers
      (temporal localeCompare (historyOf logs plan) none))

variable (plan : PatchHeader → Payload)

theorem mem_sorted_iff :
    entry ∈ sortPatchesCausally localeCompare (allOf (historyOf logs plan)) ↔
      ∃ header ∈ allOf logs, header.compose (plan header) = entry := by
  rw [sortPatchesCausally, mem_insertionSort, historyOf, allOf_map, mem_map]

theorem mem_covered_iff :
    entry ∈ coveredOf (historyOf logs plan) ↔
      ∃ header ∈ coveredOf logs, header.compose (plan header) = entry := by
  rw [historyOf, coveredOf_map, mem_map]

include valid in
theorem composed_sorted :
    Composed plan (sortPatchesCausally localeCompare (allOf (historyOf logs plan))) := by
  intro entry mem
  rw [sortPatchesCausally, mem_insertionSort] at mem
  exact composed_historyOf logs valid plan entry mem

include valid in
theorem composed_covered : Composed plan (coveredOf (historyOf logs plan)) :=
  (composed_historyOf logs valid plan).subset fun entry mem =>
    (mem_allOf_iff _).mpr (Or.inl mem)

include distinct in
theorem header_of_sha (memberA : a ∈ allOf logs) (memberB : b ∈ allOf logs) (same : a.sha = b.sha) :
    a = b :=
  inj_on_of_nodup_map distinct memberA memberB same

include distinct in
theorem not_covered_of_later (later : header ∈ laterOf logs) : header ∉ coveredOf logs := by
  intro covered
  have whole : ((coveredOf logs ++ laterOf logs).map PatchHeader.sha).Nodup :=
    ((perm_allOf logs).map _).nodup_iff.mpr distinct
  rw [map_append] at whole
  exact (disjoint_of_nodup_append whole) (mem_map_of_mem covered)
    (mem_map_of_mem later)

include valid alike in
theorem false_of_empty_tick (positive : 0 < boundaryTick (coveredOf logs))
    (outside : ∀ header ∈ allOf logs, (boundaryTick (coveredOf logs) : Int) ≤ header.lamport →
      header.sha ∉ (coveredOf logs).map PatchHeader.sha) : False := by
  -- no covered patch has the tick itself: only the boundary shows the node without the property
  let plan : PatchHeader → Payload := fun header =>
    if header.sha ∈ (coveredOf logs).map PatchHeader.sha then .add else .addSet true
  obtain ⟨s, represents, stands, answers⟩ := exists_checkpoint localeCompare logs valid plan
    (alike plan)
  have composed := composed_covered logs valid plan
  have planned : ∀ entry ∈ coveredOf (historyOf logs plan), plan entry.header = .add := by
    intro entry member
    obtain ⟨header, covered, rfl⟩ := (mem_covered_iff logs plan).mp member
    exact if_pos (mem_map_of_mem covered)
  -- some patch is covered, so the node exists at the boundary and has no property
  have nonempty : ∃ header, header ∈ coveredOf logs := by
    cases listed : coveredOf logs with
    | nil =>
      rw [listed] at positive
      exact absurd positive (by decide)
    | cons header rest => exact ⟨header, mem_cons_self⟩
  obtain ⟨header, covered⟩ := nonempty
  have listed : header.compose (plan header) ∈ coveredOf (historyOf logs plan) :=
    (mem_covered_iff logs plan).mpr ⟨header, covered, rfl⟩
  have alive : s.nodeAlive.contains askedNode = true := by
    rw [composed.alive_iff represents]
    exact ⟨_, listed, by rw [planned _ listed]; decide⟩
  have bare : ((extractNodeSnapshot s askedNode).props.own (askedKey true)).isSome = false := by
    rw [Bool.eq_false_iff, ne_eq, composed.own_iff represents alive]
    rintro ⟨entry, member, sets⟩
    rw [planned entry member] at sets
    cases sets
  obtain ⟨snapshot, shown, passes⟩ := ((answers
      (fun snapshot => !(snapshot.props.own (askedKey true)).isSome)
      (boundaryTick (coveredOf logs))).1).mp
    ⟨extractNodeSnapshot s askedNode, by
      rw [shown_used localeCompare _ _ _ _ stands (by omega) le_rfl]
      exact Or.inl ⟨rfl, rfl, alive⟩, by rw [bare]; rfl⟩
  -- every patch at or above the tick sets the property
  rw [shown_without] at shown
  obtain ⟨before, entry, after, t, split, late, after', found, present⟩ :=
    ShownFrom.state [] (by simpa [historyFacts] using represents_empty) shown
  have member : entry ∈ sortPatchesCausally localeCompare (allOf (historyOf logs plan)) := by
    rw [split]
    simp
  obtain ⟨own, inAll, rfl⟩ := (mem_sorted_iff localeCompare logs plan).mp member
  have sets : plan own = .addSet true := if_neg (outside own inAll late)
  have composed' : Composed plan (before ++ [own.compose (plan own)]) := by
    apply (composed_sorted localeCompare logs valid plan).subset
    exact fun e inside => mem_of_split split inside
  have aliveT : t.nodeAlive.contains askedNode = true := by
    rw [← found] at present
    exact present
  have has := (composed'.own_iff after' aliveT).mpr
    ⟨own.compose (plan own), mem_append_right _ mem_cons_self, sets⟩
  rw [found] at has
  rw [has] at passes
  cases passes

include valid distinct alike in
theorem false_of_skipped (later : skipped ∈ laterOf logs)
    (below : skipped.lamport ≤ boundaryTick (coveredOf logs)) (inAll : witness ∈ allOf logs)
    (reaches : (boundaryTick (coveredOf logs) : Int) ≤ witness.lamport) : False := by
  -- a patch outside the checkpoint is not above its tick: the replay from the checkpoint skips
  -- it, and nothing else adds the node
  let plan : PatchHeader → Payload := fun header =>
    if header.sha = skipped.sha then .add else .other
  have skippedInAll : skipped ∈ allOf logs := (mem_allOf_iff logs).mpr (Or.inr later)
  have planned : ∀ header ∈ allOf logs, plan header ≠ .other → header = skipped := by
    intro header member adds
    by_cases same : header.sha = skipped.sha
    · exact header_of_sha logs distinct member skippedInAll same
    · exact absurd (if_neg same) adds
  have positive := (valid skipped skippedInAll).positive
  obtain ⟨s, represents, stands, answers⟩ := exists_checkpoint localeCompare logs valid plan
    (alike plan)
  have composed := composed_covered logs valid plan
  have sorted := pairwise_sortPatchesCausally localeCompare (allOf (historyOf logs plan))
  have composedSorted := composed_sorted localeCompare logs valid plan
  -- the last patch is late enough, and by then the node exists
  have shownWithout : ∃ snapshot, (temporal localeCompare (historyOf logs plan) none).Shown
      askedNode (boundaryTick (coveredOf logs)) snapshot ∧ true = true := by
    simp only [shown_without, and_true]
    have member : witness.compose (plan witness) ∈
        sortPatchesCausally localeCompare (allOf (historyOf logs plan)) :=
      (mem_sorted_iff localeCompare logs plan).mpr ⟨witness, inAll, rfl⟩
    have skippedMember : skipped.compose (plan skipped) ∈
        sortPatchesCausally localeCompare (allOf (historyOf logs plan)) :=
      (mem_sorted_iff localeCompare logs plan).mpr ⟨skipped, skippedInAll, rfl⟩
    rcases eq_nil_or_concat
      (sortPatchesCausally localeCompare (allOf (historyOf logs plan))) with empty | ⟨before, entry, whole⟩
    · rw [empty] at member
      cases member
    · rw [concat_eq_append] at whole
      rw [whole] at member skippedMember sorted composedSorted ⊢
      have late : (boundaryTick (coveredOf logs) : Int) ≤ entry.patch.lamport := by
        rcases mem_append.mp member with earlier | same
        · exact le_trans reaches
            ((pairwise_append.mp sorted).2.2 _ earlier entry mem_cons_self)
        · rw [mem_singleton] at same
          rw [← same]
          exact reaches
      obtain ⟨t, after, shows⟩ := shownFrom_of_split
        (composedSorted.wellFormed) late
      refine ⟨_, shows ?_⟩
      rw [composedSorted.alive_iff after]
      exact ⟨_, skippedMember, by
        have own : plan skipped = .add := if_pos rfl
        have header : (skipped.compose (plan skipped)).header = skipped := rfl
        rw [header, own]
        decide⟩
  obtain ⟨snapshot, shown, -⟩ := ((answers (fun _ => true) (boundaryTick (coveredOf logs))).1).mpr
    shownWithout
  -- a state from the checkpoint in which the node exists holds the skipped patch
  have absent : ∀ (entries : List (PatchEntry JsData)) (t : WarpState JsData),
      (∀ entry ∈ entries, entry ∈ sortPatchesCausally localeCompare (allOf (historyOf logs plan)) ∧
        (boundaryTick (coveredOf logs) : Int) < entry.patch.lamport) →
      Represents t (historyFacts (coveredOf (historyOf logs plan) ++ entries)) →
      t.nodeAlive.contains askedNode = true → False := by
    intro entries t above knows alive
    have both : Composed plan (coveredOf (historyOf logs plan) ++ entries) :=
      composed.append (composedSorted.subset fun entry member => (above entry member).1)
    obtain ⟨entry, member, adds⟩ := (both.alive_iff knows).mp alive
    rcases mem_append.mp member with first | second
    · obtain ⟨header, covered, rfl⟩ := (mem_covered_iff logs plan).mp first
      have same := planned header ((mem_allOf_iff logs).mpr (Or.inl covered)) adds
      rw [same] at covered
      exact not_covered_of_later logs distinct later covered
    · obtain ⟨header, member', rfl⟩ := (mem_sorted_iff localeCompare logs plan).mp
        (above entry second).1
      have same := planned header member' adds
      have high : (boundaryTick (coveredOf logs) : Int) < header.lamport := (above _ second).2
      rw [same] at high
      omega
  rw [shown_used localeCompare _ _ _ _ stands (by omega) le_rfl] at shown
  rcases shown with ⟨-, found, alive⟩ | shown
  · rw [← found] at alive
    exact absent [] s (by simp) (by rw [append_nil]; exact represents) alive
  · obtain ⟨before, entry, after, t, split, late, after', found, alive⟩ :=
      shown.state (coveredOf (historyOf logs plan)) represents
    have above := (split_at_tick _ sorted (boundaryTick (coveredOf logs) : Int)).2
    rw [split] at above
    rw [← found] at alive
    apply absent (before ++ [entry]) t ?_ after' alive
    intro e inside
    have listed : e ∈ before ++ entry :: after := mem_of_split rfl inside
    exact ⟨mem_of_mem_drop (split ▸ listed), above e listed⟩

include valid distinct alike in
theorem false_of_shared_tick (coveredOne : one ∈ coveredOf logs) (coveredTwo : two ∈ coveredOf logs)
    (differ : one.sha ≠ two.sha) (tickOne : one.lamport = (boundaryTick (coveredOf logs) : Int))
    (tickTwo : two.lamport = (boundaryTick (coveredOf logs) : Int)) : False := by
  -- two covered patches share the tick: between them the node has only one of the two
  -- properties, which the boundary does not show
  let plan : PatchHeader → Payload := fun header =>
    if header.sha = one.sha then .addSet true
    else if header.sha = two.sha then .addSet false else .other
  have planOne : plan one = .addSet true := if_pos rfl
  have planTwo : plan two = .addSet false := by
    simp only [plan, Ne.symm differ, if_false, if_true]
  have inAllOne : one ∈ allOf logs := (mem_allOf_iff logs).mpr (Or.inl coveredOne)
  have inAllTwo : two ∈ allOf logs := (mem_allOf_iff logs).mpr (Or.inl coveredTwo)
  have setsOne : ∀ header ∈ allOf logs, plan header = .addSet true → header = one := by
    intro header member sets
    by_cases first : header.sha = one.sha
    · exact header_of_sha logs distinct member inAllOne first
    · exfalso
      by_cases second : header.sha = two.sha
      · rw [show plan header = .addSet false from (if_neg first).trans (if_pos second)] at sets
        cases sets
      · rw [show plan header = .other from (if_neg first).trans (if_neg second)] at sets
        cases sets
  have setsTwo : ∀ header ∈ allOf logs, plan header = .addSet false → header = two := by
    intro header member sets
    by_cases first : header.sha = one.sha
    · rw [show plan header = .addSet true from if_pos first] at sets
      cases sets
    · by_cases second : header.sha = two.sha
      · exact header_of_sha logs distinct member inAllTwo second
      · rw [show plan header = .other from (if_neg first).trans (if_neg second)] at sets
        cases sets
  have positive := (valid one inAllOne).positive
  obtain ⟨s, represents, stands, answers⟩ := exists_checkpoint localeCompare logs valid plan
    (alike plan)
  have composed := composed_covered logs valid plan
  have composedSorted := composed_sorted localeCompare logs valid plan
  have listedOne : one.compose (plan one) ∈ coveredOf (historyOf logs plan) :=
    (mem_covered_iff logs plan).mpr ⟨one, coveredOne, rfl⟩
  have listedTwo : two.compose (plan two) ∈ coveredOf (historyOf logs plan) :=
    (mem_covered_iff logs plan).mpr ⟨two, coveredTwo, rfl⟩
  let both : NodeSnapshot → Bool := fun snapshot =>
    (snapshot.props.own (askedKey true)).isSome && (snapshot.props.own (askedKey false)).isSome
  -- a state that holds the covered patches has the node with both properties
  have full : ∀ (entries : List (PatchEntry JsData)) (t : WarpState JsData), (∀ entry ∈ entries,
        entry ∈ sortPatchesCausally localeCompare (allOf (historyOf logs plan))) →
      Represents t (historyFacts (coveredOf (historyOf logs plan) ++ entries)) →
      t.nodeAlive.contains askedNode = true ∧ both (extractNodeSnapshot t askedNode) = true := by
    intro entries t subset knows
    have whole : Composed plan (coveredOf (historyOf logs plan) ++ entries) :=
      composed.append (composedSorted.subset subset)
    have alive : t.nodeAlive.contains askedNode = true := by
      rw [whole.alive_iff knows]
      refine ⟨_, mem_append_left _ listedOne, ?_⟩
      have header : (one.compose (plan one)).header = one := rfl
      rw [header, planOne]
      decide
    refine ⟨alive, Bool.and_eq_true_iff.mpr ⟨?_, ?_⟩⟩
    · exact (whole.own_iff knows alive).mpr
        ⟨_, mem_append_left _ listedOne, planOne⟩
    · exact (whole.own_iff knows alive).mpr
        ⟨_, mem_append_left _ listedTwo, planTwo⟩
  have start := full [] s (by simp) (by rw [append_nil]; exact represents)
  -- from the checkpoint every shown snapshot has both
  have holds : (∃ snapshot, (temporal localeCompare (historyOf logs plan) (some s)).Shown askedNode
      (boundaryTick (coveredOf logs)) snapshot) ∧
      ∀ snapshot, (temporal localeCompare (historyOf logs plan) (some s)).Shown askedNode
        (boundaryTick (coveredOf logs)) snapshot → both snapshot = true := by
    simp only [shown_used localeCompare _ _ _ _ stands (by omega) le_rfl]
    refine ⟨⟨_, Or.inl ⟨trivial, rfl, start.1⟩⟩, ?_⟩
    rintro snapshot (⟨-, rfl, -⟩ | shown)
    · exact start.2
    · obtain ⟨before, entry, after, t, split, -, after', rfl, -⟩ :=
        shown.state (coveredOf (historyOf logs plan)) represents
      apply (full (before ++ [entry]) t ?_ after').2
      exact fun e inside => mem_of_mem_drop (mem_of_split split inside)
  have all := (((answers both (boundaryTick (coveredOf logs))).2).mp holds).2
  -- without it the first of the two patches is shown before the other one is applied
  have halfway : ∀ (own other : PatchHeader) (first : Bool), plan own = .addSet first →
      own ∈ allOf logs → own.lamport = (boundaryTick (coveredOf logs) : Int) →
      (∀ header ∈ allOf logs, plan header = .addSet (!first) → header = other) →
      ∀ before after, sortPatchesCausally localeCompare (allOf (historyOf logs plan)) =
        before ++ own.compose (plan own) :: after → own ≠ other →
        other.compose (plan other) ∉ before → False := by
    intro own other first sets inAll tick unique before after split apart unseen
    have subset : ∀ e ∈ before ++ [own.compose (plan own)],
        e ∈ sortPatchesCausally localeCompare (allOf (historyOf logs plan)) :=
      fun e inside => mem_of_split split inside
    have part := composedSorted.subset subset
    obtain ⟨t, knows, shows⟩ := shownFrom_of_split (part.wellFormed) (le_of_eq tick.symm)
    have alive : t.nodeAlive.contains askedNode = true := by
      rw [part.alive_iff knows]
      refine ⟨_, mem_append_right _ mem_cons_self, ?_⟩
      have header : (own.compose (plan own)).header = own := rfl
      rw [header, sets]
      exact Payload.noConfusion
    have passes := all _ ((shown_without localeCompare _ _ _ _).mpr (split ▸ shows alive))
    have has : ((extractNodeSnapshot t askedNode).props.own (askedKey !first)).isSome = true := by
      simp only [both, Bool.and_eq_true] at passes
      cases first
      · exact passes.1
      · exact passes.2
    obtain ⟨e, member, setsOther⟩ := (part.own_iff knows alive).mp has
    obtain ⟨header, listed, rfl⟩ := (mem_sorted_iff localeCompare logs plan).mp (subset e member)
    have same : header = other := unique header listed setsOther
    subst same
    rcases mem_append.mp member with earlier | last
    · exact unseen earlier
    · have headers := congrArg PatchEntry.header (mem_singleton.mp last)
      exact apart headers.symm
  have apart : one ≠ two := fun same => differ (congrArg PatchHeader.sha same)
  have memberOne : one.compose (plan one) ∈
      sortPatchesCausally localeCompare (allOf (historyOf logs plan)) :=
    (mem_sorted_iff localeCompare logs plan).mpr ⟨one, inAllOne, rfl⟩
  obtain ⟨before, after, split, fresh⟩ := eq_append_cons_of_mem memberOne
  by_cases earlier : two.compose (plan two) ∈ before
  · obtain ⟨front, middle, splitBefore, -⟩ := eq_append_cons_of_mem earlier
    rw [splitBefore, append_assoc, cons_append] at split
    rw [splitBefore] at fresh
    exact halfway two one false planTwo inAllTwo tickTwo setsOne front _ split apart.symm
      fun seen => fresh (mem_append_left _ seen)
  · exact halfway one two true planOne inAllOne tickOne setsTwo before after split apart earlier

end Cuts

/-! ### The exact condition -/

/-- The answers of a host do not depend on a checkpoint, whatever the operations of the
patches, exactly when the cut closes its tick. -/
theorem temporal_transparent_iff (localeCompare : JsString → JsString → Int)
    (logs : List (WriterLog PatchHeader)) (valid : ∀ header ∈ allOf logs, header.Valid)
    (distinct : ((allOf logs).map PatchHeader.sha).Nodup) :
    (∀ history, headersOf history = logs → (∀ entry ∈ allOf history, entry.WellFormed) →
      ∀ s, CheckpointOf history s → (temporal localeCompare history (some s)).SameAnswers
          (temporal localeCompare history none)) ↔ ClosedTick logs := by
  constructor
  · intro transparent
    have alike : ∀ plan s, CheckpointOf (historyOf logs plan) s →
        (temporal localeCompare (historyOf logs plan) (some s)).SameAnswers
          (temporal localeCompare (historyOf logs plan) none) := fun plan =>
      transparent _ (headersOf_historyOf logs plan) ((composed_historyOf logs valid plan).wellFormed)
    have covered : ∀ header ∈ allOf logs, header.sha ∈ (coveredOf logs).map PatchHeader.sha →
        header ∈ coveredOf logs := by
      intro header member listed
      obtain ⟨other, inside, same⟩ := mem_map.mp listed
      rw [← header_of_sha logs distinct ((mem_allOf_iff logs).mpr (Or.inl inside)) member same]
      exact inside
    have later : ∀ header ∈ laterOf logs,
        (boundaryTick (coveredOf logs) : Int) < header.lamport := by
      intro header member
      by_contra skipped
      have inAll := (mem_allOf_iff logs).mpr (Or.inr member)
      have positive := (valid header inAll).positive
      -- either some patch reaches the tick, or none does and only the boundary is shown
      by_cases reaches : ∃ witness ∈ allOf logs,
          (boundaryTick (coveredOf logs) : Int) ≤ witness.lamport
      · obtain ⟨witness, listed, reaches⟩ := reaches
        exact false_of_skipped localeCompare logs valid distinct alike member (by omega) listed reaches
      · apply false_of_empty_tick localeCompare logs valid alike (by omega)
        exact fun other listed late => absurd ⟨other, listed, late⟩ reaches
    refine ⟨later, ?_⟩
    by_contra neither
    rw [not_or] at neither
    obtain ⟨positive, count⟩ := neither
    generalize found : (coveredOf logs).filter (fun header =>
      header.lamport = (boundaryTick (coveredOf logs) : Int)) = atTick at count
    cases atTick with
    | nil =>
      apply false_of_empty_tick localeCompare logs valid alike (by omega)
      intro header member late listed
      have inside := covered header member listed
      have below := lamport_le_boundaryTick (coveredOf logs) inside
      have here : header ∈ (coveredOf logs).filter fun header =>
          header.lamport = (boundaryTick (coveredOf logs) : Int) :=
        mem_filter.mpr ⟨inside, decide_eq_true (by omega)⟩
      rw [found] at here
      cases here
    | cons one others =>
      cases others with
      | nil => exact count rfl
      | cons two rest =>
        have members : ∀ header ∈ one :: two :: rest, header ∈ coveredOf logs ∧
            header.lamport = (boundaryTick (coveredOf logs) : Int) := by
          intro header inside
          rw [← found, mem_filter, decide_eq_true_eq] at inside
          exact inside
        have first := members one (by simp)
        have second := members two (by simp)
        have whole : ((coveredOf logs ++ laterOf logs).map PatchHeader.sha).Nodup :=
          ((perm_allOf logs).map _).nodup_iff.mpr distinct
        rw [map_append] at whole
        have apart := whole.of_append_left.sublist
          ((filter_sublist (p := fun header : PatchHeader =>
            decide (header.lamport = (boundaryTick (coveredOf logs) : Int)))).map PatchHeader.sha)
        rw [found, map_cons, map_cons, nodup_cons] at apart
        exact false_of_shared_tick localeCompare logs valid distinct alike first.1 second.1
          (fun same => apart.1 (same ▸ mem_cons_self)) first.2 second.2
  · intro closed history headers wellFormed s checkpoint nodeId predicate since
    subst headers
    -- a sha identifies a patch of the history
    have consistent : Consistent (allOf history) := by
      have shas : ((allOf history).map PatchEntry.sha).Nodup := by
        rw [headersOf, allOf_map, map_map] at distinct
        exact distinct
      exact fun a memberA b memberB => inj_on_of_nodup_map shas memberA memberB
    apply TemporalQuery.answers_of_shown
    · exact sorted_wellFormed localeCompare history wellFormed
    · exact sorted_wellFormed localeCompare history wellFormed
    · exact shown_of_closed localeCompare history wellFormed consistent closed s checkpoint

/-! ### A cut that closes its tick and one that does not -/

/-- The order of code units, which is what `localeCompare` gives on plain letters. -/
def letterCompare (a b : JsString) : Int := if a < b then -1 else if b < a then 1 else 0

/-- The checkpoint covers one patch of each writer; the second one's tick is its own. -/
def closedLogs : List (WriterLog PatchHeader) :=
  [⟨[⟨lit "a", 1, lit "aaaa", .absent⟩], [⟨lit "a", 3, lit "cccc", .absent⟩]⟩,
    ⟨[⟨lit "b", 2, lit "bbbb", .entries [(lit "a", .int 1)]⟩], []⟩]

theorem closedLogs_valid : ∀ header ∈ allOf closedLogs, header.Valid := by
  have listed : allOf closedLogs = [⟨lit "a", 1, lit "aaaa", .absent⟩,
      ⟨lit "a", 3, lit "cccc", .absent⟩,
      ⟨lit "b", 2, lit "bbbb", .entries [(lit "a", .int 1)]⟩] := rfl
  simp only [listed, mem_cons, not_mem_nil, or_false, forall_eq_or_imp, forall_eq]
  exact ⟨⟨by decide, by decide, by decide, _, rfl⟩, ⟨by decide, by decide, by decide, _, rfl⟩,
    ⟨by decide, by decide, by decide, _, rfl⟩⟩

theorem temporal_transparent_iff_closed :
    ClosedTick closedLogs ∧
      ∀ history, headersOf history = closedLogs → (∀ entry ∈ allOf history, entry.WellFormed) →
        ∀ s, CheckpointOf history s → (temporal letterCompare history (some s)).SameAnswers
            (temporal letterCompare history none) := by
  have closed : ClosedTick closedLogs := ⟨by decide, Or.inr (by decide)⟩
  exact ⟨closed, (temporal_transparent_iff letterCompare closedLogs closedLogs_valid
    (by decide)).mpr closed⟩

/-- A patch of the writer `w`, whose first patch has used three dots. -/
def statusPatch (lamport : Int) (sha : JsString) (ops : List (CanonicalOp JsData)) :
    PatchEntry JsData :=
  ⟨⟨lit "w", lamport, ops.map .runtime, .entries [(lit "w", .int 3)]⟩, sha⟩

theorem statusPatch_wellFormed (positive : 0 < lamport) (hex : isHexOid sha = true) :
    (statusPatch lamport sha ops).WellFormed where
  known := by
    intro op mem
    obtain ⟨canonical, -, rfl⟩ := mem_map.mp mem
    rfl
  normal := by
    intro op mem
    obtain ⟨canonical, -, rfl⟩ := mem_map.mp mem
    exact ⟨_, rfl⟩
  positive := positive
  named := show lit "w" ≠ [] by decide
  hex := hex
  context := ⟨_, rfl⟩

/-- A patch that adds three nodes, covered by the checkpoint, then two that set properties. -/
def statusLog : WriterLog (PatchEntry JsData) where
  covered := [statusPatch 1 (lit "aaaa")
    [⟨.nodeAdd (lit "x") ⟨lit "w", 1, w_named, Nat.one_pos⟩, rfl⟩,
      ⟨.nodeAdd (lit "y") ⟨lit "w", 2, w_named, Nat.two_pos⟩, rfl⟩,
      ⟨.nodeAdd (lit "z") ⟨lit "w", 3, w_named, counter_three⟩, rfl⟩]]
  later := [statusPatch 2 (lit "bbbb")
      [⟨.nodePropSet (lit "x") (lit "status") (.string (lit "active")), rfl⟩],
    statusPatch 3 (lit "cccc") [⟨.nodePropSet (lit "x") (lit "owner") (.string (lit "ann")), rfl⟩]]

theorem statusLog_wellFormed : ∀ entry ∈ allOf [statusLog], entry.WellFormed := by
  have listed : allOf [statusLog] = statusLog.covered ++ statusLog.later := rfl
  rw [listed]
  intro entry mem
  simp only [statusLog, cons_append, nil_append, mem_cons, not_mem_nil, or_false] at mem
  rcases mem with rfl | rfl | rfl
  · exact statusPatch_wellFormed (by decide) (by decide)
  · exact statusPatch_wellFormed (by decide) (by decide)
  · exact statusPatch_wellFormed (by decide) (by decide)

def isActive (snapshot : NodeSnapshot) : Bool :=
  match snapshot.props.own (lit "status") with
  | some (.string text) => text = lit "active"
  | _ => false

/-- The checkpoint is taken to stand for tick 3, so the replay from it skips the patch that
sets the status, and `always` denies what it affirms without the checkpoint. -/
theorem status_skipped : (∀ entry ∈ allOf [statusLog], entry.WellFormed) ∧
    ∃ s, CheckpointOf [statusLog] s ∧
      (temporal letterCompare [statusLog] (some s)).always (lit "x") isActive 3 = .ok false ∧
      (temporal letterCompare [statusLog] none).always (lit "x") isActive 3 = .ok true := by
  refine ⟨statusLog_wellFormed, _, ⟨_, rfl, WarpState.Equiv.refl _⟩, ?_, ?_⟩
  · decide +kernel
  · decide +kernel

end GitWarp
