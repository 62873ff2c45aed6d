import GitWarp.Reducer.Convergence
import GitWarp.Reducer.PatchDiff

/-!
# What a tracked diff says

Within a patch each operation reports exactly the elements whose aliveness it
changes, as long as a dot tags one element. Merging keeps the net change of an
element since the last patch that changed it twice or more, so the merged diff
is the exact net diff when every such element is back, after the last of these
patches, to what it was before the reduction.
-/
namespace GitWarp

open Js Lib KeyCodec List

/-! ### Elements that carry the removed dots -/

variable (targetDots : OrdSet JsString) (orset : ORSet)

namespace DiffCalculator

/-- The two loops of `buildDotToElement` as one loop over tagged elements. -/
def matchPairs (targetDots : OrdSet JsString) :
    List (JsString × JsString) → OrdMap JsString JsString → Nat → OrdMap JsString JsString
  | [], dotToElement, _ => dotToElement
  | (element, d) :: rest, dotToElement, remaining =>
    if remaining = 0 then dotToElement
    else if targetDots.has d then
      matchPairs targetDots rest (dotToElement.set d element) (remaining - 1)
    else matchPairs targetDots rest dotToElement remaining

theorem matchPairs_zero (pairs m) : matchPairs targetDots pairs m 0 = m := by
  cases pairs <;> simp [matchPairs]

theorem matchPairs_dots (element) (dots rest m) (remaining) (some_left : remaining ≠ 0) :
    matchPairs targetDots (dots.map (fun d => (element, d)) ++ rest) m remaining =
      matchPairs targetDots rest (matchDots targetDots element dots m remaining).1
        (matchDots targetDots element dots m remaining).2 := by
  induction dots generalizing m remaining with
  | nil => simp [matchDots]
  | cons d dots ih =>
    simp only [map_cons, cons_append, matchPairs, some_left, if_false, matchDots]
    split
    · split
      next last => rw [last, matchPairs_zero, matchPairs_zero]
      next more => exact ih _ _ more
    · exact ih _ _ some_left

theorem matchEntries_eq_matchPairs (entries m) (remaining) :
    matchEntries targetDots entries m remaining = matchPairs targetDots
        (entries.flatMap fun entry => entry.2.toList.map fun d => (entry.1, d)) m remaining := by
  induction entries generalizing m remaining with
  | nil => simp [matchEntries, matchPairs]
  | cons entry rest ih =>
    rw [flatMap_cons, matchEntries]
    split
    next none_left => rw [none_left, matchPairs_zero]
    next some_left => rw [matchPairs_dots _ _ _ _ _ _ some_left, ih]

theorem get_matchPairs (pairs m) (remaining) (nodup : (pairs.map Prod.snd).Nodup)
    (fresh : ∀ pair ∈ pairs, m.get pair.2 = none)
    (inside : ∀ d e, m.get d = some e → d ∈ targetDots.toList)
    (counted : m.size + remaining = targetDots.toList.length) (d e) :
    (matchPairs targetDots pairs m remaining).get d = some e ↔
      m.get d = some e ∨ (e, d) ∈ pairs ∧ d ∈ targetDots := by
  -- with each dot listed once the early exit loses nothing
  induction pairs generalizing m remaining with
  | nil => simp [matchPairs]
  | cons pair rest ih =>
    obtain ⟨element, first⟩ := pair
    simp only [map_cons, nodup_cons] at nodup
    have freshRest : ∀ pair ∈ rest, m.get pair.2 = none :=
      (forall_mem_cons.mp fresh).2
    unfold matchPairs
    split
    next none_left =>
      -- All targets are already keys, so no later pair can carry one.
      constructor
      · exact Or.inl
      · rintro (old | ⟨mem, target⟩)
        · exact old
        · obtain ⟨e', found⟩ := m.get_of_size_eq inside
            (by omega) target
          exact absurd found (by simp [fresh (e, d) mem])
    next some_left =>
      split
      next target =>
        have absent : m.get first = none := fresh _ mem_cons_self
        rw [ih (m.set first element) (remaining - 1) nodup.2]
        · rw [OrdMap.get_set, mem_cons]
          by_cases same : first = d
          · subst same
            have notLater : (e, first) ∉ rest := fun mem =>
              nodup.1 (mem_map_of_mem (f := Prod.snd) mem)
            have wanted : first ∈ targetDots := by simpa using target
            simp [absent, notLater, wanted, eq_comm]
          · simp [same, Ne.symm same]
        · intro pair mem
          have differ : first ≠ pair.2 := fun same => nodup.1 (same ▸ mem_map_of_mem mem)
          simp [differ, freshRest pair mem]
        · intro d' e' found
          rw [OrdMap.get_set] at found
          split at found
          next same => exact same ▸ (by simpa using target)
          · exact inside d' e' found
        · rw [m.size_set_of_absent first absent]
          omega
      next other =>
        rw [ih m remaining nodup.2 freshRest inside counted, mem_cons]
        have untargeted : first ∉ targetDots := by simpa using other
        constructor
        · rintro (old | ⟨mem, target⟩)
          · exact Or.inl old
          · exact Or.inr ⟨Or.inr mem, target⟩
        · rintro (old | ⟨same | mem, target⟩)
          · exact Or.inl old
          · cases same
            exact absurd target untargeted
          · exact Or.inr ⟨mem, target⟩

/-- Each dot tags one element. -/
def OneElement (orset : ORSet) : Prop :=
  ∀ x y d, d ∈ orset.dotsOf x → d ∈ orset.dotsOf y → x = y

theorem mem_entryPairs :
    (e, d) ∈ (orset.entries.entries.flatMap fun entry => entry.2.toList.map fun d => (entry.1, d)) ↔
      d ∈ orset.dotsOf e := by
  simp only [mem_flatMap, mem_map, Prod.mk.injEq, Prod.exists]
  constructor
  · rintro ⟨x, dots, member, d', tagged, rfl, rfl⟩
    simpa [ORSet.dotsOf, (orset.entries.mem_entries_iff _).mp member] using tagged
  · intro tagged
    cases found : orset.entries.get e with
    | none => simp [ORSet.dotsOf, found] at tagged
    | some dots =>
      refine ⟨e, dots, (orset.entries.mem_entries_iff _).mpr found, d, ?_, rfl, rfl⟩
      simpa [ORSet.dotsOf, found] using tagged

theorem nodup_entryDots (unique : OneElement orset) :
    ((orset.entries.entries.flatMap fun entry =>
      entry.2.toList.map fun d => (entry.1, d)).map Prod.snd).Nodup := by
  have inner : ∀ entry ∈ orset.entries.entries,
      ((entry.2.toList.map fun d => (entry.1, d)).map Prod.snd).Nodup := by
    intro entry _
    simpa [Function.comp_def] using entry.2.nodup
  have entries_nodup := orset.entries.nodup
  have tagged : ∀ entry ∈ orset.entries.entries, ∀ d ∈ entry.2, d ∈ orset.dotsOf entry.1 := by
    intro entry member d tag
    simpa [ORSet.dotsOf, (orset.entries.mem_entries_iff _).mp member] using tag
  revert inner entries_nodup tagged
  generalize orset.entries.entries = entries
  intro inner entries_nodup tagged
  induction entries with
  | nil => simp
  | cons entry rest ih =>
    simp only [map_cons, nodup_cons] at entries_nodup
    rw [flatMap_cons, map_append, nodup_append]
    refine ⟨inner entry mem_cons_self, ih (forall_mem_cons.mp inner).2 entries_nodup.2
      (forall_mem_cons.mp tagged).2, ?_⟩
    rintro d here d' there rfl
    simp only [map_map, mem_map, Function.comp_apply, mem_flatMap] at here there
    obtain ⟨d₁, tag, rfl⟩ := here
    obtain ⟨pair, ⟨other, member, d₂, tag', rfl⟩, rfl⟩ := there
    have same := unique entry.1 other.1 d₂ (tagged entry mem_cons_self d₂ tag)
      (tagged other (mem_cons_of_mem _ member) d₂ tag')
    exact entries_nodup.1 (same ▸ mem_map_of_mem member)

theorem get_buildDotToElement (unique : OneElement orset) (targetDots) (d e) :
    (buildDotToElement orset targetDots).get d = some e ↔
      d ∈ orset.dotsOf e ∧ d ∈ targetDots := by
  rw [buildDotToElement, matchEntries_eq_matchPairs,
    get_matchPairs targetDots _ _ _ (nodup_entryDots orset unique) (by simp) (by simp)
      (by simp [OrdMap.size, OrdMap.empty, OrdSet.size]), mem_entryPairs]
  simp

theorem mem_aliveElements (dotToElement dots result) (x) :
    x ∈ aliveElements orset dotToElement dots result ↔
      x ∈ result ∨ orset.contains x = true ∧ ∃ d ∈ dots, dotToElement.get d = some x := by
  induction dots generalizing result with
  | nil => simp [aliveElements]
  | cons d rest ih =>
    unfold aliveElements
    split
    next missing => simp [ih, missing]
    next element found =>
      split
      next fresh =>
        simp only [Bool.and_eq_true, Bool.not_eq_true', OrdSet.has_eq_false_iff] at fresh
        rw [ih, OrdSet.mem_add]
        simp only [mem_cons, exists_eq_or_imp, found, Option.some.injEq]
        constructor
        · rintro ((old | rfl) | ⟨alive, later⟩)
          · exact Or.inl old
          · exact Or.inr ⟨fresh.2, Or.inl rfl⟩
          · exact Or.inr ⟨alive, Or.inr later⟩
        · rintro (old | ⟨alive, rfl | later⟩)
          · exact Or.inl (Or.inl old)
          · exact Or.inl (Or.inr rfl)
          · exact Or.inr ⟨alive, later⟩
      next stale =>
        rw [ih]
        simp only [mem_cons, exists_eq_or_imp, found, Option.some.injEq]
        constructor
        · rintro (old | ⟨alive, later⟩)
          · exact Or.inl old
          · exact Or.inr ⟨alive, Or.inr later⟩
        · rintro (old | ⟨alive, rfl | later⟩)
          · exact Or.inl old
          · left
            by_contra absent
            exact stale (by simp [absent, alive])
          · exact Or.inr ⟨alive, later⟩

theorem mem_aliveElementsForDots (unique : OneElement orset) (observedDots) (x) :
    x ∈ aliveElementsForDots orset observedDots ↔
      orset.contains x = true ∧ ∃ d ∈ observedDots, d ∈ orset.dotsOf x := by
  rw [aliveElementsForDots, mem_aliveElements]
  simp only [OrdSet.not_mem_empty, false_or, get_buildDotToElement orset unique, OrdSet.mem_toList]
  refine and_congr_right fun _ => ⟨?_, ?_⟩
  · rintro ⟨d, observed, tagged, -⟩
    exact ⟨d, observed, tagged⟩
  · rintro ⟨d, observed, tagged⟩
    exact ⟨d, observed, tagged, observed⟩

end DiffCalculator

/-! ### What one step does to aliveness -/

variable (s : ORSet)

namespace ORSet

theorem contains_add_of_ne (x) (other : x ≠ element) :
    (s.add element dot).contains x = s.contains x := by
  rw [Bool.eq_iff_iff, contains_iff, contains_iff]
  simp [other]

theorem contains_add_of_contains (element x) (alive : s.contains x = true) :
    (s.add element dot).contains x = true := by
  obtain ⟨d, tagged, live⟩ := s.contains_iff.mp alive
  exact (contains_iff _).mpr ⟨d, (mem_dotsOf_add s).mpr (Or.inl tagged), live⟩

theorem contains_of_contains_remove (x) (alive : (s.remove observed).contains x = true) :
    s.contains x = true := by
  obtain ⟨d, tagged, live⟩ := (contains_iff _).mp alive
  refine s.contains_iff.mpr ⟨d, tagged, fun tomb => live ?_⟩
  exact (mem_tombstones_remove s).mpr (Or.inl tomb)

theorem observed_of_removed (x) (alive : s.contains x = true)
    (dead : (s.remove observed).contains x = false) : ∃ d ∈ observed, d ∈ s.dotsOf x := by
  obtain ⟨d, tagged, live⟩ := s.contains_iff.mp alive
  refine ⟨d, ?_, tagged⟩
  by_contra unobserved
  have still : (s.remove observed).contains x = true := by
    refine (contains_iff _).mpr ⟨d, tagged, ?_⟩
    rw [mem_tombstones_remove]
    exact not_or.mpr ⟨live, unobserved⟩
  simp [still] at dead

theorem count_add_report :
    (if !s.contains element && (s.add element dot).contains element then [element]
      else []).count x = (!s.contains x && (s.add element dot).contains x).toNat ∧
      (s.contains x && !(s.add element dot).contains x) = false := by
  by_cases same : x = element
  · subst same
    cases alive : s.contains x
    · cases risen : (s.add x dot).contains x <;> simp
    · simp [s.contains_add_of_contains x x alive]
  · rw [s.contains_add_of_ne x same]
    refine ⟨?_, by simp⟩
    split <;> simp [Ne.symm same]

theorem count_remove_report (unique : DiffCalculator.OneElement s) :
    (DiffCalculator.noLongerAlive (s.remove observed)
      (DiffCalculator.aliveElementsForDots s observed)).count x =
        (s.contains x && !(s.remove observed).contains x).toNat ∧
      (!s.contains x && (s.remove observed).contains x) = false := by
  -- a remove reports exactly the elements that fall, once each, and nothing rises
  constructor
  · have nodup : (DiffCalculator.noLongerAlive (s.remove observed)
        (DiffCalculator.aliveElementsForDots s observed)).Nodup :=
      (DiffCalculator.aliveElementsForDots s observed).nodup.filter _
    have listed : x ∈ DiffCalculator.noLongerAlive (s.remove observed)
        (DiffCalculator.aliveElementsForDots s observed) ↔
        (s.contains x && !(s.remove observed).contains x) = true := by
      simp only [DiffCalculator.noLongerAlive, mem_filter, OrdSet.mem_toList,
        DiffCalculator.mem_aliveElementsForDots s unique, Bool.and_eq_true, Bool.not_eq_true']
      constructor
      · rintro ⟨⟨alive, _⟩, dead⟩
        exact ⟨alive, dead⟩
      · rintro ⟨alive, dead⟩
        exact ⟨⟨alive, s.observed_of_removed x alive dead⟩, dead⟩
    cases status : s.contains x && !(s.remove observed).contains x
    · rw [status] at listed
      simpa [count_eq_zero] using listed
    · rw [status] at listed
      simpa using count_eq_one_of_mem nodup (listed.mpr rfl)
  · cases dead : (s.remove observed).contains x
    · simp
    · simp [s.contains_of_contains_remove x dead]

end ORSet

/-! ### One operation -/

variable {V : Type} [StrictEq V]

def nodeStatus (x : JsString) (s : WarpState V) : Bool := s.nodeAlive.contains x

def edgeStatus (k : JsString) (s : WarpState V) : Bool := s.edgeAlive.contains k

/-- Nodes have names and edges have keys that decode to their parts. -/
structure WarpState.Addressed (s : WarpState V) : Prop where
  nodes : ∀ x d, d ∈ s.nodeAlive.dotsOf x → x ≠ []
  edges : ∀ k d, d ∈ s.edgeAlive.dotsOf k →
    ∃ src dst label, ValidId src ∧ ValidId dst ∧ ValidId label ∧ k = encodeEdgeKey src dst label

/-- The diff after an operation, its snapshot included. -/
def Op.report (op : Op V) (s : WarpState V) (eventId : EventId) (diff : PatchDiff V) :
    PatchDiff V :=
  op.accumulate diff (op.mutate s eventId) (op.snapshot s)

def PatchDiff.append (a b : PatchDiff V) : PatchDiff V :=
  ⟨a.nodesAdded ++ b.nodesAdded, a.nodesRemoved ++ b.nodesRemoved, a.edgesAdded ++ b.edgesAdded,
    a.edgesRemoved ++ b.edgesRemoved, a.propsChanged ++ b.propsChanged⟩

/-- What one operation reports by itself. -/
def Op.delta (op : Op V) (s : WarpState V) (eventId : EventId) : PatchDiff V :=
  op.report s eventId .empty

theorem accumulatePropDiff_eq_append {diff s nodeId key propKey} {prev : V} :
    accumulatePropDiff diff s nodeId key propKey prev =
      diff.append (accumulatePropDiff .empty s nodeId key propKey prev) := by
  unfold accumulatePropDiff
  split <;> simp [PatchDiff.append, PatchDiff.empty]

theorem report_eq_append (op : Op V) (s) (e) (diff) :
    op.report s e diff = diff.append (op.delta s e) := by
  cases op with
  | nodeAdd node dot | edgeAdd src dst label dot =>
    simp only [Op.delta, Op.report, Op.accumulate, Op.snapshot]
    split <;> simp [PatchDiff.append, PatchDiff.empty]
  | nodeRemove node observedDots | edgeRemove src dst label observedDots | blobValue node oid =>
    simp [Op.delta, Op.report, Op.accumulate, Op.snapshot, PatchDiff.append, PatchDiff.empty]
  | nodePropSet node key value | edgePropSet src dst label key value =>
    exact accumulatePropDiff_eq_append

theorem delta_nodeAdd (node dot) (s : WarpState V) (e) :
    (Op.nodeAdd node dot).delta s e =
      ⟨if !s.nodeAlive.contains node && (s.nodeAlive.add node dot).contains node then [node] else [],
        [], [], [], []⟩ := by
  have push : ∀ risen : Bool, (if risen then
      { (.empty : PatchDiff V) with nodesAdded := [] ++ [node] } else .empty) =
        ⟨if risen then [node] else [], [], [], [], []⟩ := by
    intro risen
    cases risen <;> rfl
  exact push _

theorem delta_edgeAdd (src dst label dot) (s : WarpState V) (e) :
    (Op.edgeAdd src dst label dot).delta s e =
      ⟨[], [], if !s.edgeAlive.contains (encodeEdgeKey src dst label) &&
        (s.edgeAlive.add (encodeEdgeKey src dst label) dot).contains (encodeEdgeKey src dst label)
        then [⟨src, dst, label⟩] else [], [], []⟩ := by
  have push : ∀ risen : Bool, (if risen then
      { (.empty : PatchDiff V) with edgesAdded := [] ++ [(⟨src, dst, label⟩ : EdgeParts)] } else .empty) =
        ⟨[], [], if risen then [⟨src, dst, label⟩] else [], [], []⟩ := by
    intro risen
    cases risen <;> rfl
  exact push _

theorem delta_nodeRemove (node) (dots) (s : WarpState V) (e) :
    (Op.nodeRemove node dots).delta s e =
      ⟨[], DiffCalculator.noLongerAlive (s.nodeAlive.remove (OrdSet.ofList dots))
        (DiffCalculator.aliveElementsForDots s.nodeAlive (OrdSet.ofList dots)), [], [], []⟩ := rfl

theorem delta_edgeRemove (src dst label) (dots) (s : WarpState V) (e) :
    (Op.edgeRemove src dst label dots).delta s e =
      ⟨[], [], [], (DiffCalculator.noLongerAlive (s.edgeAlive.remove (OrdSet.ofList dots))
        (DiffCalculator.aliveElementsForDots s.edgeAlive (OrdSet.ofList dots))).map
          decodeEdgeKey, []⟩ := rfl

/-- The operations that add or remove no element. -/
def Op.isProperty : Op V → Bool
  | .nodePropSet _ _ _ => true
  | .edgePropSet _ _ _ _ _ => true
  | .blobValue _ _ => true
  | _ => false

theorem accumulatePropDiff_elements {s nodeId key propKey} {prev : V} :
    ∃ props, accumulatePropDiff .empty s nodeId key propKey prev = ⟨[], [], [], [], props⟩ := by
  unfold accumulatePropDiff
  split
  · exact ⟨[], rfl⟩
  · exact ⟨_, rfl⟩

theorem delta_property (op : Op V) (s) (e) (property : op.isProperty = true) :
    (∃ props, op.delta s e = ⟨[], [], [], [], props⟩) ∧
      (op.mutate s e).nodeAlive = s.nodeAlive ∧ (op.mutate s e).edgeAlive = s.edgeAlive := by
  cases op with
  | nodePropSet node key value =>
    have frame := s.mutatePropLWW_frame (encodePropKey node key) e value
    exact ⟨accumulatePropDiff_elements, frame.1, frame.2.1⟩
  | edgePropSet src dst label key value =>
    have frame := s.mutatePropLWW_frame (encodeEdgePropKey src dst label key) e value
    exact ⟨accumulatePropDiff_elements, frame.1, frame.2.1⟩
  | blobValue node oid => exact ⟨⟨[], rfl⟩, rfl, rfl⟩
  | nodeAdd node dot | nodeRemove node observedDots | edgeAdd src dst label dot
  | edgeRemove src dst label observedDots => cases property

/-- An operation reports exactly the nodes whose aliveness it changes. -/
theorem delta_nodes (op : Op V) (s) (e) (unique : DiffCalculator.OneElement s.nodeAlive) (x) :
    (op.delta s e).nodesAdded.count x = (!nodeStatus x s && nodeStatus x (op.mutate s e)).toNat ∧
      (op.delta s e).nodesRemoved.count x =
        (nodeStatus x s && !nodeStatus x (op.mutate s e)).toNat := by
  cases h : op with
  | nodeAdd node dot =>
    obtain ⟨up, still⟩ := s.nodeAlive.count_add_report
    simp only [delta_nodeAdd, nodeStatus, Op.mutate]
    exact ⟨up, by rw [still]; rfl⟩
  | nodeRemove node observedDots =>
    obtain ⟨down, still⟩ :=
      s.nodeAlive.count_remove_report unique
    simp only [delta_nodeRemove, nodeStatus, Op.mutate]
    exact ⟨by rw [still]; rfl, down⟩
  | edgeAdd src dst label dot => simp [delta_edgeAdd, nodeStatus, Op.mutate]
  | edgeRemove src dst label observedDots => simp [delta_edgeRemove, nodeStatus, Op.mutate]
  | nodePropSet node key value =>
    obtain ⟨⟨props, shape⟩, same, -⟩ := delta_property (.nodePropSet node key value) s e rfl
    simp [shape, nodeStatus, same]
  | edgePropSet src dst label key value =>
    obtain ⟨⟨props, shape⟩, same, -⟩ :=
      delta_property (.edgePropSet src dst label key value) s e rfl
    simp [shape, nodeStatus, same]
  | blobValue node oid =>
    obtain ⟨⟨props, shape⟩, same, -⟩ := delta_property (.blobValue node oid : Op V) s e rfl
    simp [shape, nodeStatus, same]

omit [StrictEq V] in
theorem edgeKey_decodeEdgeKey (s : WarpState V) (addressed : s.Addressed) (k)
    (alive : s.edgeAlive.contains k = true) : PatchDiff.edgeKey (decodeEdgeKey k) = k := by
  obtain ⟨d, tagged, -⟩ := s.edgeAlive.contains_iff.mp alive
  obtain ⟨src, dst, label, validSrc, validDst, validLabel, rfl⟩ := addressed.edges k d tagged
  rw [decodeEdgeKey_encodeEdgeKey validSrc validDst validLabel]
  rfl

/-- An operation reports exactly the edges whose aliveness it changes. -/
theorem delta_edges (op : Op V) (s) (e) (unique : DiffCalculator.OneElement s.edgeAlive)
    (addressed : s.Addressed) (k) :
    ((op.delta s e).edgesAdded.map PatchDiff.edgeKey).count k =
        (!edgeStatus k s && edgeStatus k (op.mutate s e)).toNat ∧
      ((op.delta s e).edgesRemoved.map PatchDiff.edgeKey).count k =
        (edgeStatus k s && !edgeStatus k (op.mutate s e)).toNat := by
  cases h : op with
  | edgeAdd src dst label dot =>
    obtain ⟨up, still⟩ := s.edgeAlive.count_add_report
    simp only [delta_edgeAdd, edgeStatus, Op.mutate]
    refine ⟨?_, by rw [still]; rfl⟩
    rw [← up]
    split <;> rfl
  | edgeRemove src dst label observedDots =>
    obtain ⟨down, still⟩ :=
      s.edgeAlive.count_remove_report unique
    simp only [delta_edgeRemove, edgeStatus, Op.mutate]
    refine ⟨by rw [still]; rfl, ?_⟩
    have decoded : ∀ l : List JsString, (∀ k ∈ l, s.edgeAlive.contains k = true) →
        (l.map decodeEdgeKey).map PatchDiff.edgeKey = l := by
      intro l alive
      rw [map_map]
      exact (map_congr_left fun k mem =>
        edgeKey_decodeEdgeKey s addressed k (alive k mem)).trans (map_id l)
    rw [decoded, down]
    intro k mem
    have carried := (mem_filter.mp mem).1
    exact ((DiffCalculator.mem_aliveElementsForDots s.edgeAlive unique _ k).mp carried).1
  | nodeAdd node dot => simp [delta_nodeAdd, edgeStatus, Op.mutate]
  | nodeRemove node observedDots => simp [delta_nodeRemove, edgeStatus, Op.mutate]
  | nodePropSet node key value =>
    obtain ⟨⟨props, shape⟩, -, same⟩ := delta_property (.nodePropSet node key value) s e rfl
    simp [shape, edgeStatus, same]
  | edgePropSet src dst label key value =>
    obtain ⟨⟨props, shape⟩, -, same⟩ :=
      delta_property (.edgePropSet src dst label key value) s e rfl
    simp [shape, edgeStatus, same]
  | blobValue node oid =>
    obtain ⟨⟨props, shape⟩, -, same⟩ := delta_property (.blobValue node oid : Op V) s e rfl
    simp [shape, edgeStatus, same]

end GitWarp
