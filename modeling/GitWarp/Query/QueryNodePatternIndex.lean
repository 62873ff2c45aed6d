import GitWarp.Crdt.ORSet
import GitWarp.Lib.Search
import GitWarp.Lib.SortBy
import GitWarp.Query.MatchGlob

/-!
# The node pattern index

Patterns that are literals or prefixes are answered from the sorted keys of the entries of an
OR-set. The keys are cached with their number and taken again as long as the set has that
many entries. Additions only ever raise the number, but a compaction may drop an entry, and
a later addition may bring another one, so that the number is right and the keys are not.
-/
namespace GitWarp

open Js Lib List

variable (s : IndexedSet) (alive : ORSet)

namespace QueryNodePatternIndex

open Glob (GlobPattern matchGlob star Tested)

/-! ### Routes -/

inductive QueryNodePatternSegment
  | exact (value : JsString)
  | start (value : JsString)
  deriving DecidableEq

/-- A literal, or a prefix before a single star at the end. -/
def patternSegment (pattern : JsString) : Option QueryNodePatternSegment :=
  if pattern = [star] then none
  else
    match pattern.findIdx? (· = star) with
    | none => some (.exact pattern)
    | some wildcardIndex =>
      if wildcardIndex = pattern.length - 1 then some (.start (pattern.take wildcardIndex)) else none

/-- The segments of all patterns, or `none` where one of them is of another kind. -/
def patternRoute : List JsString → Option (List QueryNodePatternSegment)
  | [] => some []
  | entry :: patterns =>
    match patternSegment entry with
    | none => none
    | some segment => (patternRoute patterns).map (segment :: ·)

/-! ### Sorted keys -/

structure SortedEntryKeyCache where
  entryCount : Nat
  keys : List JsString

/-- An OR-set with the keys that are cached for it. -/
structure IndexedSet where
  alive : ORSet
  cached : Option SortedEntryKeyCache

def sortedKeys (alive : ORSet) : List JsString := sortBy id alive.entries.keys

def sortedEntryKeys (s : IndexedSet) : List JsString × IndexedSet :=
  match s.cached.filter fun cached => cached.entryCount = s.alive.entries.size with
  | some cached => (cached.keys, s)
  | none => (sortedKeys s.alive, { s with
      cached := some ⟨s.alive.entries.size, sortedKeys s.alive⟩ })

def lowerBound (keys : List JsString) (needle : JsString) : Nat :=
  lowerBoundLoop (fun i => keys[i]?.any fun key => decide (key < needle)) keys.length 0 keys.length

/-- The keys from the lower bound on, up to the first one that does not start with the prefix. -/
def keysFrom (keys : List JsString) (needle : JsString) : List JsString :=
  (keys.drop (lowerBound keys needle)).takeWhile fun key => needle.isPrefixOf key

/-! ### Candidates -/

def prefixCandidates (s : IndexedSet) (needle : JsString) : List JsString × IndexedSet :=
  let (keys, s) := sortedEntryKeys s
  ((keysFrom keys needle).filter s.alive.contains, s)

def segmentCandidates (s : IndexedSet) : QueryNodePatternSegment → List JsString × IndexedSet
  | .exact value => ([value].filter s.alive.contains, s)
  | .start value => prefixCandidates s value

/-- `indexedCandidates`: the candidates of each segment that were not emitted before. -/
def indexedCandidates (s : IndexedSet) (emitted : OrdSet JsString) :
    List QueryNodePatternSegment → OrdSet JsString × IndexedSet
  | [] => (emitted, s)
  | segment :: rest =>
    let (candidates, s) := segmentCandidates s segment
    indexedCandidates s (emitted.addAll candidates) rest

def liveCandidates (s : IndexedSet) (pattern : GlobPattern) : List JsString × IndexedSet :=
  match patternRoute pattern.patterns with
  | none => (s.alive.elements, s)
  | some route =>
    let (emitted, s) := indexedCandidates s .empty route
    (emitted.toList, s)

/-- `nodeMatches`; what is cached of a glob does not change the answer. -/
def nodeMatches (pattern : GlobPattern) (nodeId : JsString) : Bool :=
  match matchGlob .empty pattern nodeId with
  | .ok (answer, _) => answer
  | .error _ => false

def visibleNodes (s : IndexedSet) (pattern : GlobPattern) : List JsString :=
  (liveCandidates s pattern).1.filter fun nodeId =>
    s.alive.contains nodeId && nodeMatches pattern nodeId

/-! ### Runs -/

/-- A join gives a new set, for which nothing is cached. -/
inductive SetCall
  | add (element : JsString) (dot : Dot)
  | remove (observedDots : OrdSet JsString)
  | compact (includedVV : VersionVector)
  | join (other : ORSet)
  | query (pattern : GlobPattern)

def perform (s : IndexedSet) : SetCall → IndexedSet
  | .add element dot => { s with alive := s.alive.add element dot }
  | .remove observedDots => { s with alive := s.alive.remove observedDots }
  | .compact includedVV =>
    match s.alive.compact includedVV with
    | .ok compacted => { s with alive := compacted }
    | .error _ => s
  | .join other => ⟨s.alive.join other, none⟩
  | .query pattern => (liveCandidates s pattern).2

def reach (alive : ORSet) (calls : List SetCall) : IndexedSet := run perform ⟨alive, none⟩ calls

/-! ### Prefixes of sorted keys -/

theorem start_between (start a x : JsString) (low : ¬ a < start) (high : ¬ x < a)
    (below : start <+: x) : start <+: a := by
  induction start generalizing a x with
  | nil => exact nil_prefix
  | cons u start ih =>
    cases x with
    | nil => simp at below
    | cons w x =>
      obtain ⟨same, rest⟩ := cons_prefix_cons.mp below
      subst same
      cases a with
      | nil => exact absurd (nil_lt_cons u start) low
      | cons v a =>
        rw [cons_lt_cons_iff, not_or, not_and] at low high
        have same : u = v := le_antisymm (not_lt.mp low.1) (not_lt.mp high.1)
        subst same
        rw [cons_prefix_cons]
        exact ⟨rfl, ih a x (low.2 rfl) (high.2 rfl) rest⟩

theorem not_lt_of_start {start x : JsString} (below : start <+: x) : ¬ x < start := by
  obtain ⟨rest, rfl⟩ := below
  induction start with
  | nil => exact not_lt_nil _
  | cons u start ih =>
    rw [cons_append, cons_lt_cons_iff, not_or, not_and]
    exact ⟨lt_irrefl u, fun _ => ih⟩

theorem mem_takeWhile_start (keys : List JsString) {needle x : JsString}
    (sorted : keys.Pairwise (· < ·)) (high : ∀ key ∈ keys, ¬ key < needle) :
    x ∈ keys.takeWhile (fun key => needle.isPrefixOf key) ↔ x ∈ keys ∧ needle <+: x := by
  induction keys with
  | nil => simp
  | cons key keys ih =>
    obtain ⟨first, rest⟩ := pairwise_cons.mp sorted
    obtain ⟨low, later⟩ := forall_mem_cons.mp high
    rw [takeWhile_cons]
    split
    next starts =>
      rw [mem_cons, mem_cons, ih rest later]
      constructor
      · rintro (rfl | ⟨mem, below⟩)
        · exact ⟨Or.inl rfl, isPrefixOf_iff_prefix.mp starts⟩
        · exact ⟨Or.inr mem, below⟩
      · rintro ⟨rfl | mem, below⟩
        · exact Or.inl rfl
        · exact Or.inr ⟨mem, below⟩
    next other =>
      constructor
      · intro mem
        cases mem
      · rintro ⟨mem, below⟩
        exfalso
        apply other
        rw [ isPrefixOf_iff_prefix]
        rcases mem_cons.mp mem with rfl | further
        · exact below
        · exact start_between needle key x low (lt_asymm (first x further)) below

theorem mem_keysFrom (keys) (sorted : keys.Pairwise (· < ·)) :
    x ∈ keysFrom keys needle ↔ x ∈ keys ∧ needle <+: x := by
  have ordered := pairwise_iff_getElem.mp sorted
  obtain ⟨-, below, above⟩ := lowerBoundLoop_spec
    (fun i => keys[i]?.any fun key => decide (key < needle))
    (by
      intro i j earlier inside less
      rw [List.getElem?_eq_getElem inside] at less
      rw [List.getElem?_eq_getElem (by omega)]
      simp only [Option.any_some, decide_eq_true_eq] at less ⊢
      exact (ordered i j (by omega) inside earlier).trans less)
    keys.length 0 keys.length (by omega) (by omega) (Nat.le_refl _) (by simp) (by omega)
  have split := take_append_drop (lowerBound keys needle) keys
  have high : ∀ key ∈ keys.drop (lowerBound keys needle), ¬ key < needle := by
    intro key mem
    obtain ⟨i, bound, rfl⟩ := mem_iff_getElem.mp mem
    rw [length_drop] at bound
    have notBelow := above (lowerBound keys needle + i) (Nat.le_add_right _ _) (by omega)
    rw [List.getElem?_eq_getElem (by omega)] at notBelow
    simpa using notBelow
  rw [keysFrom, mem_takeWhile_start _ (sorted.sublist (drop_sublist _ _)) high]
  apply and_congr_left
  intro starts
  constructor
  · exact fun mem => (drop_sublist _ _).subset mem
  · intro mem
    rw [← split, mem_append] at mem
    rcases mem with early | late
    · -- what is before the lower bound is less than the prefix
      exfalso
      obtain ⟨i, bound, rfl⟩ := mem_iff_getElem.mp early
      have early : i < lowerBound keys needle ∧ i < keys.length := by
        rw [length_take] at bound
        omega
      have less := below i early.1
      rw [List.getElem?_eq_getElem early.2] at less
      simp only [Option.any_some, decide_eq_true_eq] at less
      rw [getElem_take] at starts
      exact absurd less (not_lt_of_start starts)
    · exact late

/-! ### What a route covers -/

theorem patternSegment_spec {segment} (routed : patternSegment pattern = some segment) :
    (segment = .exact pattern ∧ star ∉ pattern) ∨
      ∃ start, segment = .start start ∧ pattern = start ++ [star] ∧ star ∉ start := by
  unfold patternSegment at routed
  split at routed
  · cases routed
  · split at routed
    next absent =>
      cases routed
      left
      rw [List.findIdx?_eq_none_iff] at absent
      exact ⟨rfl, fun mem => by simpa using absent star mem⟩
    next wildcardIndex found =>
      split at routed
      next last =>
        cases routed
        right
        obtain ⟨inside, isStar, first⟩ := List.findIdx?_eq_some_iff_getElem.mp found
        refine ⟨_, rfl, ?_, fun mem => ?_⟩
        · have whole := take_append_drop wildcardIndex pattern
          rw [drop_eq_getElem_cons inside, of_decide_eq_true isStar,
            drop_eq_nil_of_le (by omega)] at whole
          exact whole.symm
        · obtain ⟨i, bound, same⟩ := mem_iff_getElem.mp mem
          rw [length_take] at bound
          rw [getElem_take] at same
          simpa [same] using first i (by omega)
      next => cases routed

theorem mem_patternRoute {segment} (route) (routed : patternRoute patterns = some route) :
    segment ∈ route ↔ ∃ p ∈ patterns, patternSegment p = some segment := by
  induction patterns generalizing route with
  | nil =>
    cases routed
    simp
  | cons entry patterns ih =>
    unfold patternRoute at routed
    split at routed
    · cases routed
    next first found =>
      obtain ⟨rest, later, rfl⟩ := Option.map_eq_some_iff.mp routed
      rw [mem_cons, ih rest later, exists_mem_cons_iff, found, Option.some.injEq, eq_comm]

theorem exists_segment (route) (routed : patternRoute patterns = some route) (mem : p ∈ patterns) :
    ∃ segment, patternSegment p = some segment := by
  induction patterns generalizing route with
  | nil => cases mem
  | cons entry patterns ih =>
    unfold patternRoute at routed
    split at routed
    · cases routed
    next first found =>
      obtain ⟨rest, later, rfl⟩ := Option.map_eq_some_iff.mp routed
      rcases mem_cons.mp mem with rfl | further
      · exact ⟨first, found⟩
      · exact ih rest later further

theorem nodeMatches_iff (nodeId) :
    nodeMatches pattern nodeId = true ↔ ∃ p ∈ pattern.patterns, Tested p nodeId := by
  obtain ⟨answer, after, matched, -, said⟩ :=
    Glob.matchGlob_spec .empty Glob.compiled_empty
  rw [nodeMatches, matched]
  exact said

theorem tested_exact (plain : star ∉ pattern) : Tested pattern x ↔ x = pattern := by
  rw [Tested, Glob.wildcards_plain pattern plain, Fills.letters_iff, or_iff_right]
  rintro rfl
  exact plain (mem_singleton.mpr rfl)

theorem start_of_tested {start x : JsString} (plain : star ∉ start)
    (tested : Tested (start ++ [star]) x) : start <+: x := by
  have expands := ((Glob.tested_iff _ x).mp tested).1
  rw [Glob.Expands, Glob.wildcards, map_append, ← Glob.wildcards,
    Glob.wildcards_plain start plain] at expands
  obtain ⟨tail, rfl, -⟩ := (Fills.append_iff start x).mp expands
  exact prefix_append start tail

/-! ### What a query finds -/

/-- Cached keys are sorted. -/
def Ordered (s : IndexedSet) : Prop := ∀ cached, s.cached = some cached → cached.keys.Pairwise (· < ·)

def keysInUse (s : IndexedSet) : List JsString := (sortedEntryKeys s).1

theorem mem_sortedKeys (x) : x ∈ sortedKeys alive ↔ x ∈ alive.entries.keys := mem_sortBy id _ x

theorem pairwise_sortedKeys : (sortedKeys alive).Pairwise (· < ·) := by
  have ordered : (sortedKeys alive).Pairwise fun a b => a ≤ b := pairwise_sortBy id _
  have distinct : (sortedKeys alive).Nodup := (perm_sortBy id _).nodup_iff.mpr alive.entries.nodup
  exact (ordered.and distinct).imp fun both => lt_of_le_of_ne both.1 both.2

theorem sortedEntryKeys_spec (ordered : Ordered s) :
    (sortedEntryKeys s).2.alive = s.alive ∧ keysInUse (sortedEntryKeys s).2 = keysInUse s ∧
      Ordered (sortedEntryKeys s).2 ∧ (keysInUse s).Pairwise (· < ·) := by
  unfold keysInUse sortedEntryKeys
  cases current : s.cached.filter fun cached => cached.entryCount = s.alive.entries.size with
  | some cached =>
    obtain ⟨held, same⟩ := Option.filter_eq_some_iff.mp current
    exact ⟨rfl, by simp [current], ordered, ordered cached held⟩
  | none =>
    refine ⟨rfl, by simp [Option.filter], fun cached held => ?_, pairwise_sortedKeys s.alive⟩
    cases held
    exact pairwise_sortedKeys s.alive

/-- What a segment finds among given keys. -/
def Found (keys : List JsString) (x : JsString) : QueryNodePatternSegment → Prop
  | .exact value => x = value
  | .start value => x ∈ keys ∧ value <+: x

theorem segmentCandidates_spec {segment} (ordered : Ordered s) :
    (segmentCandidates s segment).2.alive = s.alive ∧
      keysInUse (segmentCandidates s segment).2 = keysInUse s ∧
      Ordered (segmentCandidates s segment).2 ∧
      ∀ x, x ∈ (segmentCandidates s segment).1 ↔
        Found (keysInUse s) x segment ∧ s.alive.contains x = true := by
  cases segment with
  | exact value =>
    refine ⟨rfl, rfl, ordered, fun x => ?_⟩
    simp only [segmentCandidates, mem_filter, mem_singleton, Found]
  | start value =>
    obtain ⟨alive, keys, ordered', sorted⟩ := sortedEntryKeys_spec s ordered
    refine ⟨alive, keys, ordered', fun x => ?_⟩
    simp only [segmentCandidates, prefixCandidates, mem_filter, alive, Found]
    rw [← keysInUse, mem_keysFrom _ sorted]

theorem indexedCandidates_spec (s) (ordered : Ordered s) (emitted) :
    (indexedCandidates s emitted route).2.alive = s.alive ∧
      Ordered (indexedCandidates s emitted route).2 ∧
      ∀ x, x ∈ (indexedCandidates s emitted route).1 ↔ x ∈ emitted ∨
        (∃ segment ∈ route, Found (keysInUse s) x segment) ∧ s.alive.contains x = true := by
  induction route generalizing s emitted with
  | nil => exact ⟨rfl, ordered, fun x => by simp [indexedCandidates]⟩
  | cons segment route ih =>
    obtain ⟨alive, keys, ordered', found⟩ := segmentCandidates_spec s ordered
    obtain ⟨alive', ordered'', members⟩ := ih (segmentCandidates s segment).2 ordered'
      (emitted.addAll (segmentCandidates s segment).1)
    rw [indexedCandidates]
    refine ⟨alive'.trans alive, ordered'', fun x => ?_⟩
    rw [members, OrdSet.mem_addAll, found, alive, keys, exists_mem_cons_iff]
    constructor
    · rintro ((before | ⟨here, live⟩) | ⟨later, live⟩)
      · exact Or.inl before
      · exact Or.inr ⟨Or.inl here, live⟩
      · exact Or.inr ⟨Or.inr later, live⟩
    · rintro (before | ⟨here | later, live⟩)
      · exact Or.inl (Or.inl before)
      · exact Or.inl (Or.inr ⟨here, live⟩)
      · exact Or.inr ⟨later, live⟩

theorem liveCandidates_spec (ordered : Ordered s) (pattern) :
    (liveCandidates s pattern).2.alive = s.alive ∧ Ordered (liveCandidates s pattern).2 ∧
      (liveCandidates s pattern).1.Nodup ∧
      ∀ x, x ∈ (liveCandidates s pattern).1 ↔ (∀ route, patternRoute pattern.patterns = some route →
          ∃ segment ∈ route, Found (keysInUse s) x segment) ∧
        s.alive.contains x = true := by
  unfold liveCandidates
  cases routed : patternRoute pattern.patterns with
  | none =>
    refine ⟨rfl, ordered, s.alive.entries.nodup.filter _, fun x => ?_⟩
    simp [ORSet.mem_elements_iff]
  | some route =>
    obtain ⟨alive, ordered', members⟩ := indexedCandidates_spec s ordered .empty
    refine ⟨alive, ordered', (indexedCandidates s .empty route).1.nodup, fun x => ?_⟩
    simp only [OrdSet.mem_toList, members, OrdSet.not_mem_empty, false_or, Option.some.injEq,
      forall_eq']

/-- Every live element that the pattern matches by a prefix is among the cached keys, if they are
taken. -/
def Spared (s : IndexedSet) (pattern : GlobPattern) : Prop :=
  ∀ cached, s.cached = some cached → cached.entryCount = s.alive.entries.size →
    (patternRoute pattern.patterns).isSome = true →
      ∀ x, s.alive.contains x = true → nodeMatches pattern x = true →
        (x ∈ pattern.patterns ∧ star ∉ x) ∨ x ∈ cached.keys

/-- The visible nodes are the live elements that match, without duplicates. -/
def Exact (s : IndexedSet) (pattern : GlobPattern) : Prop :=
  (visibleNodes s pattern).Nodup ∧ ∀ x, x ∈ visibleNodes s pattern ↔
    s.alive.contains x = true ∧ nodeMatches pattern x = true

theorem mem_entries_of_contains (x) (live : alive.contains x = true) : x ∈ alive.entries.keys := by
  obtain ⟨d, tagged, -⟩ := alive.contains_iff.mp live
  rw [OrdMap.mem_keys_iff]
  unfold ORSet.dotsOf at tagged
  cases found : alive.entries.get x with
  | none => simp [found] at tagged
  | some dots => rfl

theorem found_iff (routed : patternRoute pattern.patterns = some route)
    (matched : nodeMatches pattern x = true) :
    (∃ segment ∈ route, Found (keysInUse s) x segment) ↔
      (x ∈ pattern.patterns ∧ star ∉ x) ∨ x ∈ keysInUse s := by
  -- a routed element that matches is found by a literal, or by a prefix if its key is in use
  constructor
  · rintro ⟨segment, member, found⟩
    obtain ⟨p, listed, isSegment⟩ := (mem_patternRoute route routed).mp member
    rcases patternSegment_spec isSegment with ⟨rfl, plain⟩ | ⟨start, rfl, -, -⟩
    · have same : x = p := found
      exact Or.inl ⟨same ▸ listed, same ▸ plain⟩
    · exact Or.inr found.1
  · rintro (⟨listed, plain⟩ | inUse)
    · obtain ⟨segment, isSegment⟩ := exists_segment route routed listed
      refine ⟨segment, (mem_patternRoute route routed).mpr ⟨x, listed, isSegment⟩, ?_⟩
      rcases patternSegment_spec isSegment with ⟨rfl, -⟩ | ⟨start, -, whole, -⟩
      · rfl
      · exact absurd (whole ▸ mem_append_right start (mem_singleton.mpr rfl)) plain
    · obtain ⟨p, listed, tested⟩ := (nodeMatches_iff x).mp matched
      obtain ⟨segment, isSegment⟩ := exists_segment route routed listed
      refine ⟨segment, (mem_patternRoute route routed).mpr ⟨p, listed, isSegment⟩, ?_⟩
      rcases patternSegment_spec isSegment with ⟨rfl, plain⟩ | ⟨start, rfl, rfl, plain⟩
      · exact (tested_exact plain).mp tested
      · exact ⟨inUse, start_of_tested plain tested⟩

theorem exact_iff_spared (ordered : Ordered s) : Exact s pattern ↔ Spared s pattern := by
  -- a query is exact exactly when the cached keys do not miss what it asks for
  obtain ⟨-, -, nodup, members⟩ := liveCandidates_spec s ordered pattern
  have visible : ∀ x, x ∈ visibleNodes s pattern ↔
      (∀ route, patternRoute pattern.patterns = some route →
        ∃ segment ∈ route, Found (keysInUse s) x segment) ∧
      s.alive.contains x = true ∧ nodeMatches pattern x = true := by
    intro x
    simp only [visibleNodes, mem_filter, members, Bool.and_eq_true]
    tauto
  constructor
  · rintro ⟨-, exact_⟩ cached held same routed x live matched
    obtain ⟨route, isRoute⟩ := Option.isSome_iff_exists.mp routed
    have found := ((visible x).mp ((exact_ x).mpr ⟨live, matched⟩)).1 route isRoute
    have inUse : keysInUse s = cached.keys := by
      unfold keysInUse sortedEntryKeys
      rw [held, Option.filter_some, if_pos (by simpa using same)]
    rw [← inUse]
    exact (found_iff s isRoute matched).mp found
  · intro spared
    refine ⟨nodup.filter _, fun x => ?_⟩
    rw [visible]
    refine ⟨fun both => both.2, fun both => ⟨fun route isRoute => ?_, both⟩⟩
    rw [found_iff s isRoute both.2]
    unfold keysInUse sortedEntryKeys
    cases current : s.cached.filter fun cached => cached.entryCount = s.alive.entries.size with
    | some cached =>
      obtain ⟨held, same⟩ := Option.filter_eq_some_iff.mp current
      exact spared cached held (of_decide_eq_true same) (by simp [isRoute]) x both.1 both.2
    | none =>
      -- the keys are those of the entries
      exact Or.inr ((mem_sortedKeys s.alive x).mpr (mem_entries_of_contains s.alive x both.1))

/-! ### Every run -/

theorem Ordered.perform {s} (ordered : Ordered s) (call) : Ordered (perform s call) := by
  cases call with
  | add element dot | remove observedDots => exact ordered
  | compact includedVV =>
    rw [QueryNodePatternIndex.perform]
    split
    · exact ordered
    · exact ordered
  | join other =>
    intro cached held
    cases held
  | query pattern => exact (liveCandidates_spec s ordered pattern).2.1

theorem ordered_reach : Ordered (reach alive calls) := by
  have kept : ∀ s : IndexedSet, Ordered s → Ordered (run perform s calls) := by
    induction calls with
    | nil => exact fun s ordered => ordered
    | cons call rest ih => exact fun s ordered => ih _ (ordered.perform call)
  exact kept _ fun cached held => by cases held

/-- After any calls on any set, a query gives the live elements that match, each once, exactly
when the cached keys, if they are taken, do not miss a live element that a prefix matches. -/
theorem pattern_index_exact_iff (alive : ORSet) (calls : List SetCall) (pattern : GlobPattern) :
    Exact (reach alive calls) pattern ↔ Spared (reach alive calls) pattern :=
  exact_iff_spared _ (ordered_reach alive)

/-! ### An entry that is replaced -/

def dotOf (counter : Nat) (positive : 0 < counter) : Dot := ⟨lit "w", counter, w_named, positive⟩

/-- A node is listed, removed and compacted away, and another one is added. -/
def replaceNode : List SetCall :=
  [.add (lit "n1") (dotOf 1 Nat.one_pos), .query (.one (lit "n*")),
    .remove (.ofList [lit "w:1"]), .compact (VersionVector.empty.put (lit "w") (by decide) 1),
    .add (lit "n2") (dotOf 2 Nat.two_pos)]

/-- The prefix query finds nothing, and the new node is alive and matches. -/
theorem stale_keys_miss_node :
    visibleNodes (reach .empty replaceNode) (.one (lit "n*")) = [] ∧
      (reach .empty replaceNode).alive.contains (lit "n2") = true ∧
      nodeMatches (.one (lit "n*")) (lit "n2") = true ∧
      ¬ Exact (reach .empty replaceNode) (.one (lit "n*")) := by
  have missed : visibleNodes (reach .empty replaceNode) (.one (lit "n*")) = [] := by decide +kernel
  have live : (reach .empty replaceNode).alive.contains (lit "n2") = true := by decide +kernel
  have matched : nodeMatches (.one (lit "n*")) (lit "n2") = true := by decide +kernel
  refine ⟨missed, live, matched, fun exact_ => ?_⟩
  have listed := (exact_.2 (lit "n2")).mpr ⟨live, matched⟩
  rw [missed] at listed
  cases listed

end QueryNodePatternIndex
end GitWarp
