import GitWarp.Reducer.NetDiff

/-!
# When a tracked diff is exact

The diff of one patch lists an element once for every change of its aliveness.
Followed through a whole reduction, the merged diff is relative to the status
each element had after the last patch that changed it at least twice.
-/
namespace GitWarp

open Js Lib KeyCodec List

variable {V : Type} [StrictEq V]

/-! ### Each dot tags one element -/

/-- Among these facts each dot tags one node and one edge. -/
structure OneElementPerDot (F : Set (Fact V)) : Prop where
  nodes : ∀ x y d, .nodeTag x d ∈ F → .nodeTag y d ∈ F → x = y
  edges : ∀ x y d, .edgeTag x d ∈ F → .edgeTag y d ∈ F → x = y

omit [StrictEq V] in
theorem OneElementPerDot.of_tags {F G : Set (Fact V)} (unique : OneElementPerDot F)
    (nodes : ∀ x d, Fact.nodeTag x d ∈ G → .nodeTag x d ∈ F)
    (edges : ∀ x d, Fact.edgeTag x d ∈ G → .edgeTag x d ∈ F) : OneElementPerDot G where
  nodes := fun x y d left right => unique.nodes x y d (nodes x d left) (nodes y d right)
  edges := fun x y d left right => unique.edges x y d (edges x d left) (edges y d right)

/-- The facts of a list of events. -/
def eventFacts (events : List (Event V)) : Set (Fact V) :=
  {f | ∃ event ∈ events, f ∈ event.2.op.facts event.1}

omit [StrictEq V] in
theorem eventFacts_cons (event : Event V) (rest) :
    eventFacts (event :: rest) = event.2.op.facts event.1 ∪ eventFacts rest := by
  ext f
  simp [eventFacts]

omit [StrictEq V] in
theorem Represents.tags {s t : WarpState V} (step : Represents t (s.facts ∪ G)) :
    (∀ x d, Fact.nodeTag x d ∈ t.facts ↔ .nodeTag x d ∈ s.facts ∪ G) ∧
      ∀ x d, Fact.edgeTag x d ∈ t.facts ↔ .edgeTag x d ∈ s.facts ∪ G :=
  ⟨fun x d => step.nodeTags x d, fun x d => step.edgeTags x d⟩

omit [StrictEq V] in
theorem OneElementPerDot.step {s t : WarpState V} (unique : OneElementPerDot (s.facts ∪ (G ∪ H)))
    (step : Represents t (s.facts ∪ G)) : OneElementPerDot (t.facts ∪ H) := by
  obtain ⟨nodes, edges⟩ := step.tags
  refine unique.of_tags (fun x d mem => ?_) (fun x d mem => ?_)
  · rcases mem with old | new
    · rcases (nodes x d).mp old with before | here
      · exact Or.inl before
      · exact Or.inr (Or.inl here)
    · exact Or.inr (Or.inr new)
  · rcases mem with old | new
    · rcases (edges x d).mp old with before | here
      · exact Or.inl before
      · exact Or.inr (Or.inl here)
    · exact Or.inr (Or.inr new)

omit [StrictEq V] in
theorem OneElementPerDot.state {s : WarpState V} (unique : OneElementPerDot (s.facts ∪ G)) :
    DiffCalculator.OneElement s.nodeAlive ∧ DiffCalculator.OneElement s.edgeAlive :=
  ⟨fun x y d left right => unique.nodes x y d (Or.inl left) (Or.inl right),
    fun x y d left right => unique.edges x y d (Or.inl left) (Or.inl right)⟩

/-! ### Addresses -/

omit [StrictEq V] in
theorem WarpState.Addressed.mutate (addressed : s.Addressed) {c : CanonicalOp V} :
    (c.op.mutate s e).Addressed := by
  obtain ⟨op, checked⟩ := c
  have step := (represents_facts s).mutate op e
  constructor
  · intro x d tagged
    rcases (step.nodeTags x d).mp tagged with old | new
    · exact addressed.nodes x d old
    · obtain ⟨dot, rfl, -⟩ := nodeTag_mem_facts.mp new
      simp only [Op.check, check_then_eq_ok, assertNonEmptyString_ok] at checked
      exact checked.1
  · intro k d tagged
    rcases (step.edgeTags k d).mp tagged with old | new
    · exact addressed.edges k d old
    · obtain ⟨src, dst, label, dot, rfl, key, -⟩ := edgeTag_mem_facts.mp new
      obtain ⟨validSrc, validDst, validLabel⟩ := assertEdge_ok.mp checked
      exact ⟨src, dst, label, validSrc, validDst, validLabel, key⟩

/-! ### One patch -/

/-- The state along a patch, as one status follows it. -/
def trace (status : WarpState V → Bool) : WarpState V → List (Event V) → List Bool
  | _, [] => []
  | s, event :: rest =>
    status (event.2.op.mutate s event.1) :: trace status (event.2.op.mutate s event.1) rest

omit [StrictEq V] in
theorem settle_trace (status s) :
    settle (status s) (trace status s events) = status (applyEvents s events) := by
  induction events generalizing s with
  | nil => rfl
  | cons event rest ih =>
    rw [trace, settle_cons]
    exact ih _

omit [StrictEq V] in
theorem length_trace (status s) (events : List (Event V)) :
    (trace status s events).length = events.length := by
  induction events generalizing s with
  | nil => rfl
  | cons event rest ih => exact congrArg (· + 1) (ih _)

/-- The reports of a patch's operations, one after another. -/
def reportEvents : List (Event V) → WarpState V → PatchDiff V → PatchDiff V
  | [], _, diff => diff
  | event :: rest, s, diff =>
    reportEvents rest (event.2.op.mutate s event.1) (event.2.op.report s event.1 diff)

theorem applyOpsWithDiff_eq (entry) (i) (ops s) (diff : PatchDiff V) :
    applyOpsWithDiff entry i ops s diff =
      (entry.eventsFrom i ops).map fun events =>
        (applyEvents s events, reportEvents events s diff) := by
  induction ops generalizing i s diff with
  | nil => rfl
  | cons rawOp rest ih =>
    simp only [applyOpsWithDiff, PatchEntry.eventsFrom, bind, Except.bind]
    cases assertKnownReducerOp rawOp with
    | error e => rfl
    | ok _ =>
      cases normalizeRawOp rawOp with
      | error e => rfl
      | ok normalized =>
        cases normalized with
        | none => exact ih (i + 1) s diff
        | some canonOp =>
          cases EventId.create entry.patch.lamport entry.patch.writer entry.sha i with
          | error e => rfl
          | ok eventId =>
            simp only [ih]
            cases entry.eventsFrom (i + 1) rest <;> rfl

theorem applyWithDiff_eq {effect : Effect V} (found : entry.effect = .ok effect) :
    applyWithDiff s entry = (PatchDiff.create (reportEvents effect.events s .empty)).map
      fun diff => (effect.apply s, diff) := by
  obtain ⟨listed, merged, ticked⟩ := entry.effect_parts found
  simp only [applyWithDiff, applyOpsWithDiff_eq, listed, foldPatch_eq, merged, ticked, Except.map,
    bind, Except.bind]
  cases PatchDiff.create (reportEvents effect.events s .empty) <;> rfl

theorem OneElementPerDot.within {effect : Effect V} {s : WarpState V}
    (unique : OneElementPerDot (s.facts ∪ historyFacts (entry :: rest)))
    (found : entry.effect = .ok effect) :
    OneElementPerDot (s.facts ∪ eventFacts effect.events) := by
  rw [historyFacts_cons entry found] at unique
  exact unique.of_tags
    (fun x d mem => mem.imp_right fun inside => Or.inl (Or.inl inside))
    (fun x d mem => mem.imp_right fun inside => Or.inl (Or.inl inside))

theorem eq_apply_of_withDiff {effect : Effect V} (found : entry.effect = .ok effect)
    (applied : applyWithDiff s entry = .ok (t, diff)) : t = effect.apply s := by
  rw [applyWithDiff_eq found] at applied
  cases created : PatchDiff.create (reportEvents effect.events s .empty) <;>
    rw [created] at applied <;> cases applied
  rfl

theorem reportEvents_nodes (s) (diff : PatchDiff V)
    (unique : OneElementPerDot (s.facts ∪ eventFacts events)) :
    (reportEvents events s diff).nodesAdded.count x = diff.nodesAdded.count x +
        rises (nodeStatus x s) (trace (nodeStatus x) s events) ∧
      (reportEvents events s diff).nodesRemoved.count x = diff.nodesRemoved.count x +
        falls (nodeStatus x s) (trace (nodeStatus x) s events) := by
  induction events generalizing s diff with
  | nil => exact ⟨rfl, rfl⟩
  | cons event rest ih =>
    rw [eventFacts_cons] at unique
    have later := ih (event.2.op.mutate s event.1) (event.2.op.report s event.1 diff)
      (unique.step ((represents_facts s).mutate event.2.op event.1))
    have now := delta_nodes event.2.op s event.1 unique.state.1 x
    simp only [reportEvents, trace, rises, falls]
    rw [later.1, later.2, report_eq_append]
    simp only [PatchDiff.append, count_append, now.1, now.2, Nat.add_assoc, and_self]

/-- A patch lists an edge once for every change of its aliveness. -/
theorem reportEvents_edges (s) (diff : PatchDiff V)
    (unique : OneElementPerDot (s.facts ∪ eventFacts events)) (addressed : s.Addressed) :
    ((reportEvents events s diff).edgesAdded.map PatchDiff.edgeKey).count k =
        (diff.edgesAdded.map PatchDiff.edgeKey).count k +
        rises (edgeStatus k s) (trace (edgeStatus k) s events) ∧
      ((reportEvents events s diff).edgesRemoved.map PatchDiff.edgeKey).count k =
        (diff.edgesRemoved.map PatchDiff.edgeKey).count k +
        falls (edgeStatus k s) (trace (edgeStatus k) s events) := by
  induction events generalizing s diff with
  | nil => exact ⟨rfl, rfl⟩
  | cons event rest ih =>
    rw [eventFacts_cons] at unique
    have later := ih (event.2.op.mutate s event.1) (event.2.op.report s event.1 diff)
      (unique.step ((represents_facts s).mutate event.2.op event.1))
      (addressed.mutate)
    have now := delta_edges event.2.op s event.1 unique.state.2 addressed k
    simp only [reportEvents, trace, rises, falls]
    rw [later.1, later.2, report_eq_append]
    simp only [PatchDiff.append, map_append, count_append, now.1, now.2, Nat.add_assoc, and_self]

/-! ### Property changes -/

/-- The register that an entry is about: entries of edges carry an encoded edge. -/
def PropDiffEntry.registerKey (entry : PropDiffEntry V) : JsString :=
  if fieldSeparator ∈ entry.nodeId then edgePropPrefix :: encodePropKey entry.nodeId entry.key
  else encodePropKey entry.nodeId entry.key

structure PropDiffEntry.Addressed (entry : PropDiffEntry V) : Prop where
  keyed : ValidId entry.key
  named : entry.nodeId ≠ []
  node : fieldSeparator ∉ entry.nodeId → entry.nodeId.head? ≠ some edgePropPrefix

omit [StrictEq V] in
theorem append_separator_inj (left : fieldSeparator ∉ k) (right : fieldSeparator ∉ k')
    (same : encodePropKey a k = encodePropKey b k') : a = b ∧ k = k' := by
  unfold encodePropKey at same
  have reversed := congrArg List.reverse same
  simp only [reverse_append, reverse_cons, append_assoc, singleton_append]
    at reversed
  have cut : ∀ (x y p q : JsString), fieldSeparator ∉ x → fieldSeparator ∉ y →
      x ++ fieldSeparator :: p = y ++ fieldSeparator :: q → x = y ∧ p = q := by
    intro x y p q hx hy equal
    have first := congrArg (Js.split fieldSeparator) equal
    rw [split_append_cons _ hx, split_append_cons _ hy] at first
    have heads : x = y := (List.cons.inj first).1
    subst heads
    exact ⟨rfl, (List.cons.inj (append_cancel_left equal)).2⟩
  obtain ⟨keys, ids⟩ := cut k.reverse k'.reverse a.reverse b.reverse (by simpa using left)
    (by simpa using right) reversed
  exact ⟨reverse_injective ids, reverse_injective keys⟩

omit [StrictEq V] in
theorem registerKey_eq_iff {a b : PropDiffEntry V} (left : a.Addressed) (right : b.Addressed) :
    a.registerKey = b.registerKey ↔ PatchDiff.propKey a = PatchDiff.propKey b := by
  constructor
  · intro same
    have starts : ∀ e : PropDiffEntry V, e.Addressed → fieldSeparator ∉ e.nodeId →
        (encodePropKey e.nodeId e.key).head? ≠ some edgePropPrefix := by
      intro e addressed unseparated
      obtain ⟨u, rest, shape⟩ := exists_cons_of_ne_nil addressed.named
      have head := addressed.node unseparated
      simpa [encodePropKey, shape] using head
    unfold PropDiffEntry.registerKey at same
    split at same <;> split at same
    · exact (List.cons.inj same).2
    next edge node => exact absurd (same ▸ rfl) (starts b right node)
    next node edge => exact absurd (same ▸ rfl) (starts a left node)
    · exact same
  · intro same
    obtain ⟨ids, keys⟩ := append_separator_inj left.keyed.separated right.keyed.separated same
    simp [PropDiffEntry.registerKey, ids, keys]

/-- The last entry about a register has its value in `t`, and a register without an
entry has the value it has in `s`. -/
def LastValues (props : List (PropDiffEntry V)) (s t : WarpState V) : Prop :=
  ∀ k, match (props.filter fun entry => entry.registerKey = k).getLast? with
    | some entry => entry.value = t.propValue k
    | none => t.propValue k = s.propValue k

theorem LastValues.append {s t u : WarpState V} (before : LastValues first s t)
    (after : LastValues second t u) : LastValues (first ++ second) s u := by
  intro k
  have old := before k
  have new := after k
  rw [filter_append, List.getLast?_append]
  cases last : (second.filter fun entry => entry.registerKey = k).getLast? with
  | some entry =>
    rw [last] at new
    simpa using new
  | none =>
    rw [last] at new
    cases earlier : (first.filter fun entry => entry.registerKey = k).getLast? with
    | some entry =>
      rw [earlier] at old
      exact old.trans new.symm
    | none =>
      rw [earlier] at old
      exact new.trans old

omit [StrictEq V] in
theorem mem_deduplicateProps (entry) (mem : entry ∈ PatchDiff.deduplicateProps props) :
    entry ∈ props := by
  obtain ⟨pair, inside, rfl⟩ := mem_map.mp mem
  have listed := OrdMap.mem_of_mem_entries_ofList _ inside
  obtain ⟨original, there, rfl⟩ := mem_map.mp listed
  exact there

omit [StrictEq V] in
theorem getLast?_deduplicateProps {props : List (PropDiffEntry V)}
    (addressed : ∀ entry ∈ props, entry.Addressed) (k) :
    ((PatchDiff.deduplicateProps props).filter fun entry => entry.registerKey = k).getLast? =
      (props.filter fun entry => entry.registerKey = k).getLast? := by
  -- deduplication keeps the last entry of every register
  by_cases present : ∃ entry ∈ props, entry.registerKey = k
  · obtain ⟨witness, member, rfl⟩ := present
    have same : ∀ l : List (PropDiffEntry V), (∀ entry ∈ l, entry ∈ props) →
        (l.filter fun entry => entry.registerKey = witness.registerKey) =
          l.filter fun entry => PatchDiff.propKey entry = PatchDiff.propKey witness := by
      intro l subset
      refine filter_congr fun entry inside => ?_
      simp only [registerKey_eq_iff (addressed entry (subset entry inside))
        (addressed witness member)]
    rw [same _ mem_deduplicateProps, same props fun _ inside => inside]
    have own : ∀ entry ∈ (OrdMap.ofList
        (props.map fun entry => (PatchDiff.propKey entry, entry))).entries,
        PatchDiff.propKey entry.2 = entry.1 := by
      intro entry inside
      obtain ⟨original, -, rfl⟩ := mem_map.mp (OrdMap.mem_of_mem_entries_ofList _ inside)
      rfl
    rw [PatchDiff.deduplicateProps, OrdMap.filter_values _ own, OrdMap.get_ofList]
    rw [filter_map, List.getLast?_map, Option.map_map]
    have unchanged : (Prod.snd ∘ fun entry : PropDiffEntry V => (PatchDiff.propKey entry, entry)) =
        id := rfl
    simp only [Function.comp_def]
    cases (props.filter fun entry =>
      decide (PatchDiff.propKey entry = PatchDiff.propKey witness)).getLast? <;> rfl
  · have none_left : ∀ l : List (PropDiffEntry V), (∀ entry ∈ l, entry ∈ props) →
        (l.filter fun entry => entry.registerKey = k) = [] := by
      intro l subset
      refine filter_eq_nil_iff.mpr fun entry inside => ?_
      simpa using fun same => present ⟨entry, subset entry inside, same⟩
    rw [none_left _ mem_deduplicateProps, none_left props fun _ inside => inside]

theorem LastValues.deduplicate {s t : WarpState V} (last : LastValues props s t)
    (addressed : ∀ entry ∈ props, entry.Addressed) :
    LastValues (PatchDiff.deduplicateProps props) s t := by
  intro k
  rw [getLast?_deduplicateProps addressed k]
  exact last k

theorem propValue_mutatePropLWW {s : WarpState V} (other : k ≠ key) :
    (s.mutatePropLWW key e value).propValue k = s.propValue k := by
  simp [WarpState.propValue, WarpState.get_mutatePropLWW, Ne.symm other]

theorem accumulatePropDiff_lastValues {value : V}
    (about : ∀ old new, PropDiffEntry.registerKey (V := V) ⟨nodeId, key, new, old⟩ = propKey) :
    LastValues (accumulatePropDiff .empty (s.mutatePropLWW propKey e value) nodeId key propKey
      (s.propValue propKey)).propsChanged s (s.mutatePropLWW propKey e value) := by
  unfold accumulatePropDiff
  by_cases equal : StrictEq.strictEq ((s.mutatePropLWW propKey e value).propValue propKey)
    (s.propValue propKey) = true
  · rw [if_pos equal]
    intro k
    have same := StrictEq.eq_of_strictEq _ _ equal
    by_cases here : k = propKey
    · subst here
      simpa [PatchDiff.empty] using same
    · simpa [PatchDiff.empty] using propValue_mutatePropLWW here
  · rw [if_neg equal]
    intro k
    by_cases here : k = propKey
    · subst here
      simp [PatchDiff.empty, about]
    · simpa [PatchDiff.empty, about, Ne.symm here] using
        propValue_mutatePropLWW here

omit [StrictEq V] in
theorem registerKey_edge {old new : V} :
    PropDiffEntry.registerKey ⟨encodeEdgeKey src dst label, key, new, old⟩ =
      encodeEdgePropKey src dst label key := by
  simp [PropDiffEntry.registerKey, encodeEdgeKey, encodeEdgePropKey, encodePropKey]

theorem lastValues_of_prop_eq {s t : WarpState V} (same : t.prop = s.prop) : LastValues [] s t := by
  intro k
  simp [WarpState.propValue, same]

theorem delta_lastValues {c : CanonicalOp V} (s) :
    LastValues (c.op.delta s e).propsChanged s (c.op.mutate s e) := by
  obtain ⟨op, checked⟩ := c
  cases op with
  | nodePropSet node key value =>
    simp only [Op.check, check_then_eq_ok, assertNonEmptyString_ok, assertNoReservedBytes_ok]
      at checked
    refine accumulatePropDiff_lastValues fun old new => ?_
    simp [PropDiffEntry.registerKey, checked.2.2.1.1]
  | edgePropSet src dst label key value =>
    exact accumulatePropDiff_lastValues
      fun old new => registerKey_edge
  | nodeAdd node dot =>
    rw [delta_nodeAdd]
    exact lastValues_of_prop_eq rfl
  | edgeAdd src dst label dot =>
    rw [delta_edgeAdd]
    exact lastValues_of_prop_eq rfl
  | nodeRemove node observedDots | edgeRemove src dst label observedDots | blobValue node oid =>
    exact lastValues_of_prop_eq rfl

theorem reportEvents_lastValues (s₀ s) (diff : PatchDiff V)
    (before : LastValues diff.propsChanged s₀ s) :
    LastValues (reportEvents events s diff).propsChanged s₀ (applyEvents s events) := by
  induction events generalizing s diff with
  | nil => exact before
  | cons event rest ih =>
    refine ih _ _ ?_
    rw [report_eq_append]
    exact before.append (delta_lastValues s)

/-! ### The diff constructor accepts every report -/

structure PatchDiff.Addressed (diff : PatchDiff V) : Prop where
  nodesAdded : ∀ x ∈ diff.nodesAdded, x ≠ []
  nodesRemoved : ∀ x ∈ diff.nodesRemoved, x ≠ []
  edgesAdded : ∀ e ∈ diff.edgesAdded, ValidId e.src ∧ ValidId e.dst ∧ ValidId e.label
  edgesRemoved : ∀ e ∈ diff.edgesRemoved, ValidId e.src ∧ ValidId e.dst ∧ ValidId e.label
  propsChanged : ∀ entry ∈ diff.propsChanged, entry.Addressed

omit [StrictEq V] in
theorem addressed_empty : (PatchDiff.empty : PatchDiff V).Addressed := by
  constructor <;> simp [PatchDiff.empty]

omit [StrictEq V] in
theorem PatchDiff.Addressed.append {a b : PatchDiff V} (left : a.Addressed) (right : b.Addressed) :
    (a.append b).Addressed where
  nodesAdded := fun x mem => (mem_append.mp mem).elim (left.nodesAdded x) (right.nodesAdded x)
  nodesRemoved := fun x mem =>
    (mem_append.mp mem).elim (left.nodesRemoved x) (right.nodesRemoved x)
  edgesAdded := fun e mem => (mem_append.mp mem).elim (left.edgesAdded e) (right.edgesAdded e)
  edgesRemoved := fun e mem =>
    (mem_append.mp mem).elim (left.edgesRemoved e) (right.edgesRemoved e)
  propsChanged := fun entry mem =>
    (mem_append.mp mem).elim (left.propsChanged entry) (right.propsChanged entry)

omit [StrictEq V] in
theorem requireNonEmptyString_ok {field} {value : JsString} (nonempty : value ≠ []) :
    PatchDiff.requireNonEmptyString field value = .ok () := by
  simp [PatchDiff.requireNonEmptyString, nonempty]

omit [StrictEq V] in
theorem requireAll_ok {l : List A} (passes : ∀ a ∈ l, check a = .ok ()) :
    PatchDiff.requireAll check l = .ok () := by
  induction l with
  | nil => rfl
  | cons a rest ih =>
    rw [PatchDiff.requireAll, check_then_eq_ok]
    exact ⟨passes a mem_cons_self, ih (forall_mem_cons.mp passes).2⟩

omit [StrictEq V] in
theorem PatchDiff.Addressed.create_ok {diff : PatchDiff V} (addressed : diff.Addressed) :
    PatchDiff.create diff = .ok diff := by
  have edge : ∀ e : EdgeParts, ValidId e.src ∧ ValidId e.dst ∧ ValidId e.label →
      PatchDiff.requireEdge e = .ok () := by
    intro e valid
    simp only [PatchDiff.requireEdge, check_then_eq_ok]
    exact ⟨requireNonEmptyString_ok valid.1.nonempty,
      requireNonEmptyString_ok valid.2.1.nonempty, requireNonEmptyString_ok valid.2.2.nonempty⟩
  have prop : ∀ entry : PropDiffEntry V, entry.Addressed → PatchDiff.requireProp entry = .ok () := by
    intro entry valid
    rw [PatchDiff.requireProp, check_then_eq_ok]
    exact ⟨requireNonEmptyString_ok valid.named, requireNonEmptyString_ok valid.keyed.nonempty⟩
  simp only [PatchDiff.create, check_then_eq_ok]
  exact ⟨requireAll_ok fun x mem => requireNonEmptyString_ok (addressed.nodesAdded x mem),
    requireAll_ok fun x mem => requireNonEmptyString_ok (addressed.nodesRemoved x mem),
    requireAll_ok fun e mem => edge e (addressed.edgesAdded e mem),
    requireAll_ok fun e mem => edge e (addressed.edgesRemoved e mem),
    requireAll_ok fun entry mem => prop entry (addressed.propsChanged entry mem), rfl⟩

theorem accumulatePropDiff_addressed {prev : V}
    (valid : ∀ old new, PropDiffEntry.Addressed (V := V) ⟨nodeId, key, new, old⟩) :
    (accumulatePropDiff .empty s nodeId key propKey prev).Addressed := by
  unfold accumulatePropDiff
  split
  · exact addressed_empty
  · constructor <;> simp [PatchDiff.empty, valid]

theorem delta_addressed {c : CanonicalOp V} (s)
    (unique : DiffCalculator.OneElement s.nodeAlive ∧ DiffCalculator.OneElement s.edgeAlive)
    (addressed : s.Addressed) : (c.op.delta s e).Addressed := by
  obtain ⟨op, checked⟩ := c
  cases op with
  | nodeAdd node dot =>
    simp only [Op.check, check_then_eq_ok, assertNonEmptyString_ok] at checked
    rw [delta_nodeAdd]
    refine ⟨?_, by simp, by simp, by simp, by simp⟩
    intro x member
    split at member
    · exact mem_singleton.mp member ▸ checked.1
    · cases member
  | edgeAdd src dst label dot =>
    have valid := assertEdge_ok.mp checked
    rw [delta_edgeAdd]
    refine ⟨by simp, by simp, ?_, by simp, by simp⟩
    intro edge member
    split at member
    · exact mem_singleton.mp member ▸ valid
    · cases member
  | nodeRemove node observedDots =>
    rw [delta_nodeRemove]
    refine ⟨by simp, ?_, by simp, by simp, by simp⟩
    intro x member
    have carried := (mem_filter.mp member).1
    have alive := ((DiffCalculator.mem_aliveElementsForDots s.nodeAlive unique.1 _ x).mp carried).1
    obtain ⟨d, tagged, -⟩ := s.nodeAlive.contains_iff.mp alive
    exact addressed.nodes x d tagged
  | edgeRemove src dst label observedDots =>
    rw [delta_edgeRemove]
    refine ⟨by simp, by simp, by simp, ?_, by simp⟩
    intro edge listed
    obtain ⟨k, member, rfl⟩ := mem_map.mp listed
    have carried := (mem_filter.mp member).1
    have alive := ((DiffCalculator.mem_aliveElementsForDots s.edgeAlive unique.2 _ k).mp carried).1
    obtain ⟨d, tagged, -⟩ := s.edgeAlive.contains_iff.mp alive
    obtain ⟨src, dst, label, validSrc, validDst, validLabel, rfl⟩ := addressed.edges k d tagged
    rw [decodeEdgeKey_encodeEdgeKey validSrc validDst validLabel]
    exact ⟨validSrc, validDst, validLabel⟩
  | nodePropSet node key value =>
    simp only [Op.check, check_then_eq_ok, assertNonEmptyString_ok, assertNoReservedBytes_ok]
      at checked
    exact accumulatePropDiff_addressed fun old new =>
      ⟨⟨checked.2.1, checked.2.2.2.1, checked.2.2.2.2⟩, checked.1, fun _ => checked.2.2.1.2⟩
  | edgePropSet src dst label key value =>
    simp only [Op.check, check_then_eq_ok, assertNonEmptyString_ok, assertNoReservedBytes_ok]
      at checked
    refine accumulatePropDiff_addressed fun old new =>
      ⟨⟨checked.2.2.2.1, checked.2.2.2.2.2.2.2.1, checked.2.2.2.2.2.2.2.2⟩, ?_, ?_⟩
    · simp [encodeEdgeKey]
    · intro unseparated
      simp [encodeEdgeKey] at unseparated
  | blobValue node oid => exact addressed_empty

theorem reportEvents_addressed (s) (diff : PatchDiff V)
    (unique : OneElementPerDot (s.facts ∪ eventFacts events)) (addressed : s.Addressed)
    (before : diff.Addressed) : (reportEvents events s diff).Addressed := by
  induction events generalizing s diff with
  | nil => exact before
  | cons event rest ih =>
    rw [eventFacts_cons] at unique
    refine ih _ _ (unique.step ((represents_facts s).mutate event.2.op event.1))
      addressed.mutate ?_
    rw [report_eq_append]
    exact before.append (delta_addressed s unique.state addressed)

/-! ### A whole reduction -/

def PatchEntry.events (entry : PatchEntry V) : List (Event V) :=
  match entry.effect with
  | .ok effect => effect.events
  | .error _ => []

def PatchEntry.step (entry : PatchEntry V) (s : WarpState V) : WarpState V :=
  match entry.effect with
  | .ok effect => effect.apply s
  | .error _ => s

theorem PatchEntry.events_eq {entry : PatchEntry V} {effect : Effect V}
    (found : entry.effect = .ok effect) : entry.events = effect.events := by
  simp [PatchEntry.events, found]

theorem PatchEntry.step_eq {entry : PatchEntry V} {effect : Effect V}
    (found : entry.effect = .ok effect) : entry.step s = effect.apply s := by
  simp [PatchEntry.step, found]

/-- One status along every patch of a list. -/
def patchTraces (status : WarpState V → Bool) : WarpState V → List (PatchEntry V) → List (List Bool)
  | _, [] => []
  | s, entry :: rest => trace status s entry.events :: patchTraces status (entry.step s) rest

/-- After the last patch that changes an element's aliveness at least twice, the
element is again what it was before the reduction. -/
structure TogglesSettle (s : WarpState V) (entries : List (PatchEntry V)) : Prop where
  nodes : ∀ x, baseline (nodeStatus x s) (nodeStatus x s) (patchTraces (nodeStatus x) s entries) =
    nodeStatus x s
  edges : ∀ k, baseline (edgeStatus k s) (edgeStatus k s) (patchTraces (edgeStatus k) s entries) =
    edgeStatus k s

/-- The diff lists, without duplicates, exactly the elements whose aliveness differs
between the two states, and its last entry per register carries the final value. -/
structure ExactDiff (before after : WarpState V) (diff : PatchDiff V) : Prop where
  nodesAdded : diff.nodesAdded.Nodup ∧
    ∀ x, x ∈ diff.nodesAdded ↔ nodeStatus x after = true ∧ nodeStatus x before = false
  nodesRemoved : diff.nodesRemoved.Nodup ∧
    ∀ x, x ∈ diff.nodesRemoved ↔ nodeStatus x before = true ∧ nodeStatus x after = false
  edgesAdded : (diff.edgesAdded.map PatchDiff.edgeKey).Nodup ∧
    ∀ k, k ∈ diff.edgesAdded.map PatchDiff.edgeKey ↔
      edgeStatus k after = true ∧ edgeStatus k before = false
  edgesRemoved : (diff.edgesRemoved.map PatchDiff.edgeKey).Nodup ∧
    ∀ k, k ∈ diff.edgesRemoved.map PatchDiff.edgeKey ↔
      edgeStatus k before = true ∧ edgeStatus k after = false
  propsChanged : LastValues diff.propsChanged before after

omit [StrictEq V] in
theorem WarpState.Addressed.applyEvents (addressed : s.Addressed) (events) :
    (applyEvents s events).Addressed := by
  induction events generalizing s with
  | nil => exact addressed
  | cons event rest ih => exact ih (addressed.mutate)

omit [StrictEq V] in
theorem mem_of_mem_cancel {E K} [BEq K] {key : E → K} {kept other e}
    (mem : e ∈ cancel key kept other) : e ∈ kept := (mem_filter.mp mem).1

omit [StrictEq V] in
theorem PatchDiff.Addressed.merge {a b : PatchDiff V} (left : a.Addressed) (right : b.Addressed) :
    ∃ merged, PatchDiff.mergeDiffs a b = .ok merged ∧ merged.Addressed ∧
      merged.nodesAdded = cancel id (a.nodesAdded ++ b.nodesAdded) (a.nodesRemoved ++ b.nodesRemoved) ∧
      merged.nodesRemoved = cancel id (a.nodesRemoved ++ b.nodesRemoved) (a.nodesAdded ++ b.nodesAdded) ∧
      merged.edgesAdded = cancel PatchDiff.edgeKey (a.edgesAdded ++ b.edgesAdded)
        (a.edgesRemoved ++ b.edgesRemoved) ∧
      merged.edgesRemoved = cancel PatchDiff.edgeKey (a.edgesRemoved ++ b.edgesRemoved)
        (a.edgesAdded ++ b.edgesAdded) ∧
      merged.propsChanged = PatchDiff.deduplicateProps (a.propsChanged ++ b.propsChanged) := by
  have both := left.append right
  have addressed : PatchDiff.Addressed (V := V)
      { nodesAdded := cancel id (a.nodesAdded ++ b.nodesAdded) (a.nodesRemoved ++ b.nodesRemoved)
        nodesRemoved := cancel id (a.nodesRemoved ++ b.nodesRemoved) (a.nodesAdded ++ b.nodesAdded)
        edgesAdded := cancel PatchDiff.edgeKey (a.edgesAdded ++ b.edgesAdded)
          (a.edgesRemoved ++ b.edgesRemoved)
        edgesRemoved := cancel PatchDiff.edgeKey (a.edgesRemoved ++ b.edgesRemoved)
          (a.edgesAdded ++ b.edgesAdded)
        propsChanged := PatchDiff.deduplicateProps (a.propsChanged ++ b.propsChanged) } :=
    { nodesAdded := fun x mem => both.nodesAdded x (mem_of_mem_cancel mem)
      nodesRemoved := fun x mem => both.nodesRemoved x (mem_of_mem_cancel mem)
      edgesAdded := fun e mem => both.edgesAdded e (mem_of_mem_cancel mem)
      edgesRemoved := fun e mem => both.edgesRemoved e (mem_of_mem_cancel mem)
      propsChanged := fun entry mem => both.propsChanged entry (mem_deduplicateProps entry mem) }
  exact ⟨_, addressed.create_ok, addressed, rfl, rfl, rfl, rfl, rfl⟩

/-- What a merged diff says at a state, relative to a baseline for each element and to
the property values of `s₀`. -/
structure Tracks (merged : PatchDiff V) (baseNode baseEdge : JsString → Bool)
    (s₀ s : WarpState V) : Prop where
  addressed : merged.Addressed
  nodes : ∀ x, Reports id merged.nodesAdded merged.nodesRemoved (baseNode x) (nodeStatus x s) x
  edges : ∀ k, Reports PatchDiff.edgeKey merged.edgesAdded merged.edgesRemoved (baseEdge k)
    (edgeStatus k s) k
  props : LastValues merged.propsChanged s₀ s

/-- The baseline of a status after one more batch. -/
def rebase (base : Bool) (c : Bool) (trace : List Bool) : Bool :=
  if 2 ≤ rises c trace + falls c trace then settle c trace else base

/-- Merging the diff of one more patch. -/
theorem Tracks.merge (tracks : Tracks merged baseNode baseEdge s₀ s) {effect : Effect V}
    (unique : OneElementPerDot (s.facts ∪ eventFacts effect.events)) (addressed : s.Addressed) :
    ∃ next, PatchDiff.mergeDiffs merged (reportEvents effect.events s .empty) = .ok next ∧
      Tracks next
        (fun x => rebase (baseNode x) (nodeStatus x s) (trace (nodeStatus x) s effect.events))
        (fun k => rebase (baseEdge k) (edgeStatus k s) (trace (edgeStatus k) s effect.events))
        s₀ (effect.apply s) := by
  have reported := reportEvents_addressed s .empty unique addressed addressed_empty
  obtain ⟨next, mergedOk, presentable, addedEq, removedEq, edgesAddedEq, edgesRemovedEq, propsEq⟩ :=
    tracks.addressed.merge reported
  refine ⟨next, mergedOk, presentable, fun x => ?_, fun k => ?_, ?_⟩
  · obtain ⟨up, down⟩ := reportEvents_nodes s .empty unique
    have after : nodeStatus x (effect.apply s) =
        settle (nodeStatus x s) (trace (nodeStatus x) s effect.events) :=
      (settle_trace (nodeStatus x) s).symm
    rw [addedEq, removedEq, after]
    exact (tracks.nodes x).cancel _ (by simpa [PatchDiff.empty] using up)
      (by simpa [PatchDiff.empty] using down)
  · obtain ⟨up, down⟩ := reportEvents_edges s .empty unique addressed
    have after : edgeStatus k (effect.apply s) =
        settle (edgeStatus k s) (trace (edgeStatus k) s effect.events) :=
      (settle_trace (edgeStatus k) s).symm
    rw [edgesAddedEq, edgesRemovedEq, after]
    exact (tracks.edges k).cancel _ (by simpa [PatchDiff.empty] using up)
      (by simpa [PatchDiff.empty] using down)
  · have patch : LastValues (reportEvents effect.events s .empty).propsChanged s
        (effect.apply s) :=
      reportEvents_lastValues s s .empty (lastValues_of_prop_eq rfl)
    rw [propsEq]
    exact (tracks.props.append patch).deduplicate fun entry mem =>
      (mem_append.mp mem).elim (tracks.addressed.propsChanged entry)
        (reported.propsChanged entry)

theorem reduceWithDiffFrom_spec (s₀ s) (merged : PatchDiff V) (baseNode baseEdge)
    (valid : ∀ entry ∈ entries, entry.WellFormed)
    (unique : OneElementPerDot (s.facts ∪ historyFacts entries)) (addressed : s.Addressed)
    (tracks : Tracks merged baseNode baseEdge s₀ s) :
    ∃ t diff, reduceWithDiffFrom entries s merged = .ok (t, diff) ∧
      reducePatches entries s = .ok t ∧
      Tracks diff
        (fun x => baseline (baseNode x) (nodeStatus x s) (patchTraces (nodeStatus x) s entries))
        (fun k => baseline (baseEdge k) (edgeStatus k s) (patchTraces (edgeStatus k) s entries))
        s₀ t := by
  -- a reduction in diff mode returns, and its merged diff says what changed since the baselines
  induction entries generalizing s merged baseNode baseEdge with
  | nil => exact ⟨s, merged, rfl, rfl, tracks⟩
  | cons entry rest ih =>
    obtain ⟨effect, found⟩ := (valid entry mem_cons_self).effect_ok
    have within := unique.within found
    rw [historyFacts_cons entry found] at unique
    have kept := addressed.applyEvents effect.events
    obtain ⟨next, mergedOk, stepTracks⟩ := tracks.merge within addressed
    obtain ⟨t, diff, reduced, plain, last⟩ := ih (effect.apply s) next _ _
      (forall_mem_cons.mp valid).2
      (unique.step ((represents_facts s).apply effect)) ⟨kept.nodes, kept.edges⟩ stepTracks
    have reported := reportEvents_addressed s .empty within addressed addressed_empty
    have step : applyWithDiff s entry =
        .ok (effect.apply s, reportEvents effect.events s .empty) := by
      rw [applyWithDiff_eq found, reported.create_ok]
      rfl
    have shift : ∀ (status : WarpState V → Bool) (base : Bool),
        status (effect.apply s) = settle (status s) (trace status s effect.events) →
        baseline base (status s) (patchTraces status s (entry :: rest)) =
          baseline (rebase base (status s) (trace status s effect.events)) (status (effect.apply s))
            (patchTraces status (effect.apply s) rest) := by
      intro status base after
      rw [patchTraces, baseline, PatchEntry.events_eq found, PatchEntry.step_eq found, after]
      rfl
    refine ⟨t, diff, ?_, (reducePatches_cons found rest s).trans plain, last.addressed,
      fun x => ?_, fun k => ?_, last.props⟩
    · simp only [reduceWithDiffFrom, step, mergedOk, bind, Except.bind]
      exact reduced
    · rw [shift (nodeStatus x) (baseNode x) (settle_trace (nodeStatus x) s).symm]
      exact last.nodes x
    · rw [shift (edgeStatus k) (baseEdge k) (settle_trace (edgeStatus k) s).symm]
      exact last.edges k

omit [StrictEq V] in
theorem reports_exact_iff {added removed : List E} {base : JsString → Bool}
    (start : JsString → Bool) {final : JsString → Bool}
    (reports : ∀ k, Reports key added removed (base k) (final k) k) :
    ((added.map key).Nodup ∧ ∀ k, k ∈ added.map key ↔ final k = true ∧ start k = false) ∧
      ((removed.map key).Nodup ∧ ∀ k, k ∈ removed.map key ↔ start k = true ∧ final k = false) ↔
      ∀ k, base k = start k := by
  -- a report relative to `base` is exact from `start` when the two agree
  have nodup : (added.map key).Nodup := nodup_iff_count_le_one.mpr fun k => by
    rw [(reports k).added]
    exact Bool.toNat_le _
  have nodup' : (removed.map key).Nodup := nodup_iff_count_le_one.mpr fun k => by
    rw [(reports k).removed]
    exact Bool.toNat_le _
  have listed : ∀ k, k ∈ added.map key ↔ final k = true ∧ base k = false := by
    intro k
    rw [← count_pos_iff, (reports k).added]
    cases base k <;> cases final k <;> simp
  have listed' : ∀ k, k ∈ removed.map key ↔ base k = true ∧ final k = false := by
    intro k
    rw [← count_pos_iff, (reports k).removed]
    cases base k <;> cases final k <;> simp
  constructor
  · rintro ⟨⟨-, up⟩, ⟨-, down⟩⟩ k
    have rose := (listed k).symm.trans (up k)
    have fell := (listed' k).symm.trans (down k)
    revert rose fell
    cases base k <;> cases start k <;> cases final k <;> simp
  · intro agree
    refine ⟨⟨nodup, fun k => ?_⟩, nodup', fun k => ?_⟩
    · rw [listed, agree]
    · rw [listed', agree]

theorem reducePatchesWithDiff_spec {s : WarpState V} (valid : ∀ entry ∈ entries, entry.WellFormed)
    (addressed : s.Addressed) (unique : OneElementPerDot (s.facts ∪ historyFacts entries)) :
    ∃ t diff, reducePatchesWithDiff entries s = .ok (t, diff) ∧ reducePatches entries s = .ok t ∧
      diff.Addressed ∧ (ExactDiff s t diff ↔ TogglesSettle s entries) := by
  have start : Tracks (.empty : PatchDiff V) (fun x => nodeStatus x s) (fun k => edgeStatus k s)
      s s := by
    refine ⟨addressed_empty, fun x => ?_, fun k => ?_, lastValues_of_prop_eq rfl⟩ <;>
      constructor <;> simp [PatchDiff.empty]
  obtain ⟨t, diff, reduced, plain, tracks⟩ :=
    reduceWithDiffFrom_spec s s .empty _ _ valid unique addressed start
  have nodes := reports_exact_iff (fun x => nodeStatus x s) tracks.nodes
  have edges := reports_exact_iff
    (fun k => edgeStatus k s) tracks.edges
  simp only [map_id] at nodes
  refine ⟨t, diff, reduced, plain, tracks.addressed, fun exact_diff => ?_, fun settles => ?_⟩
  · exact ⟨nodes.mp ⟨exact_diff.nodesAdded, exact_diff.nodesRemoved⟩,
      edges.mp ⟨exact_diff.edgesAdded, exact_diff.edgesRemoved⟩⟩
  · obtain ⟨nodesUp, nodesDown⟩ := nodes.mpr settles.nodes
    obtain ⟨edgesUp, edgesDown⟩ := edges.mpr settles.edges
    exact ⟨nodesUp, nodesDown, edgesUp, edgesDown, tracks.props⟩

/-- Reducing with diff tracking returns; the diff is the exact net diff precisely when
every element is back, after the last patch that changed it at least twice, to what it
was before. -/
theorem reducePatchesWithDiff_exact_iff (entries : List (PatchEntry V)) (s : WarpState V)
    (valid : ∀ entry ∈ entries, entry.WellFormed) (addressed : s.Addressed)
    (unique : OneElementPerDot (s.facts ∪ historyFacts entries)) :
    ∃ t diff, reducePatchesWithDiff entries s = .ok (t, diff) ∧ reducePatches entries s = .ok t ∧
      (ExactDiff s t diff ↔ TogglesSettle s entries) := by
  obtain ⟨t, diff, reduced, plain, -, exactness⟩ :=
    reducePatchesWithDiff_spec valid addressed unique
  exact ⟨t, diff, reduced, plain, exactness⟩

/-! ### A node that flickers within one patch -/

instance : StrictEq Nat :=
  ⟨0, fun a b => decide (a = b), fun _ _ same => of_decide_eq_true same⟩

def addNodeN (counter : Int) : OpLike Nat := { OpLike.bare (lit "NodeAdd") 0 with
  node := some (lit "n"), dot := some (.raw ⟨some (lit "a"), some (.int counter)⟩) }

def removeNodeN : OpLike Nat := { OpLike.bare (lit "NodeRemove") 0 with
  node := some (lit "n"), observedDots := some [lit "a:1"] }

/-- One patch that adds a node, removes it and adds it again under a new dot. -/
def flicker : PatchEntry Nat where
  patch := ⟨lit "a", 1,
    [.decoded (addNodeN 1), .decoded removeNodeN, .decoded (addNodeN 2)], .absent⟩
  sha := lit "aaaa"

theorem flicker_wellFormed (entry) (mem : entry ∈ [flicker]) : entry.WellFormed := by
  cases mem_singleton.mp mem
  exact .of_checks (by decide)

omit [StrictEq V] in
/-- A first patch that adds no edge and only one node. -/
theorem oneElement_of_events {entry : PatchEntry V}
    (nodes : ∀ event ∈ entry.events, ∀ x dot, event.2.op = .nodeAdd x dot → x = n)
    (edges : ∀ event ∈ entry.events, ∀ src dst label dot, event.2.op ≠ .edgeAdd src dst label dot) :
    OneElementPerDot (WarpState.empty.facts ∪ historyFacts [entry]) := by
  have shape : ∀ f ∈ WarpState.empty.facts ∪ historyFacts [entry],
      (∀ x d, f = .nodeTag x d → x = n) ∧ ∀ k d, f ≠ .edgeTag k d := by
    rintro f (old | ⟨listed, among, effect, found, inside⟩)
    · constructor
      · rintro x d rfl
        exact absurd old (OrdSet.not_mem_empty d)
      · rintro k d rfl
        exact absurd old (OrdSet.not_mem_empty d)
    · cases mem_singleton.mp among
      rcases inside with ⟨event, member, fact⟩ | ⟨w, rfl⟩ | ⟨tick, -, rfl⟩
      · have here : event ∈ entry.events := by simpa only [PatchEntry.events, found] using member
        constructor
        · rintro x d rfl
          obtain ⟨dot, op, -⟩ := nodeTag_mem_facts.mp fact
          exact nodes event here x dot op
        · rintro k d rfl
          obtain ⟨src, dst, label, dot, op, -⟩ := edgeTag_mem_facts.mp fact
          exact edges event here src dst label dot op
      · simp
      · simp
  constructor
  · intro x y d left right
    exact ((shape _ left).1 x d rfl).trans ((shape _ right).1 y d rfl).symm
  · intro x _ d left _
    exact absurd rfl ((shape _ left).2 x d)

theorem flicker_ops : flicker.events.map (fun event => event.2.op) =
    [.nodeAdd (lit "n") ⟨lit "a", 1, by decide, by decide⟩, .nodeRemove (lit "n") [lit "a:1"],
      .nodeAdd (lit "n") ⟨lit "a", 2, by decide, by decide⟩] := rfl

theorem flicker_unique : OneElementPerDot (WarpState.empty.facts ∪ historyFacts [flicker]) := by
  have listed : ∀ event ∈ flicker.events, event.2.op ∈ flicker.events.map fun event => event.2.op :=
    fun event mem => mem_map_of_mem mem
  simp only [flicker_ops, mem_cons, not_mem_nil, or_false] at listed
  apply oneElement_of_events
  · intro event mem x dot op
    have known := listed event mem
    rw [op] at known
    simp only [Op.nodeAdd.injEq, reduceCtorEq, false_or] at known
    exact known.elim And.left And.left
  · intro event mem src dst label dot op
    have known := listed event mem
    rw [op] at known
    simp at known

omit [StrictEq V] in
theorem addressed_emptyState : (WarpState.empty : WarpState V).Addressed :=
  ⟨fun _ d tagged => absurd tagged (OrdSet.not_mem_empty d),
    fun _ d tagged => absurd tagged (OrdSet.not_mem_empty d)⟩

/-- The node is alive after the patch and was not before, and no diff entry says so. -/
theorem flicker_diff_inexact :
    OneElementPerDot (WarpState.empty.facts ∪ historyFacts [flicker]) ∧
      ∃ t diff, reducePatchesWithDiff [flicker] .empty = .ok (t, diff) ∧
        nodeStatus (lit "n") t = true ∧ diff.nodesAdded = [] ∧
        ¬ ExactDiff .empty t diff := by
  refine ⟨flicker_unique, _, _, rfl, by decide, by decide, fun claimed => ?_⟩
  have listed := (claimed.nodesAdded.2 (lit "n")).mpr ⟨by decide, by decide⟩
  exact absurd listed (by decide)

theorem reducePatchesWithDiff_exact_iff_flicker :
    ∃ t diff, reducePatchesWithDiff [flicker] .empty = .ok (t, diff) ∧
      reducePatches [flicker] .empty = .ok t ∧
      (ExactDiff .empty t diff ↔ TogglesSettle .empty [flicker]) :=
  reducePatchesWithDiff_exact_iff [flicker] .empty flicker_wellFormed addressed_emptyState
    flicker_unique

end GitWarp
