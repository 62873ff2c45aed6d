import GitWarp.Lib.Tags
import GitWarp.Reducer.Convergence

/-!
# Garbage collection on one replica

The controller compacts the OR-Sets of its cached state with a version vector
that it computes from that state alone. The vector covers every dot the state
tags, so every tombstoned tag is dropped together with its tombstone, whatever
other replicas have seen. A patch or state that still carries such a dot then
brings its element back, unless it also carries the tombstone.
-/
namespace GitWarp

open Js Lib KeyCodec List

variable {V : Type}

/-! ### The controller's collection -/

/-- `entryDotsIter`. -/
def ORSet.entryDots (s : ORSet) : List JsString :=
  s.entries.values.flatMap fun dots => dots.toList

/-- `scanORSet`: raises each writer to the greatest counter among the dots. -/
def scanDots : List JsString → VersionVector → Except Failure VersionVector
  | [], vv => .ok vv
  | encodedDot :: rest, vv => do
    let dot ← Dot.decode encodedDot
    if vv.counter dot.writerId < dot.counter then
      scanDots rest (vv.put dot.writerId dot.named dot.counter)
    else scanDots rest vv

def computeAppliedVV (s : WarpState V) : Except Failure VersionVector := do
  let vv ← scanDots s.nodeAlive.entryDots .empty
  scanDots s.edgeAlive.entryDots vv

def gcFailure (phase : String) : Failure :=
  ⟨.warpError, lit "E_GC_COMPACT_FAILED",
    lit "GC compaction failed during " ++ lit phase ++ lit " phase"⟩

/-- `compactORSets`; a failure names the set that it was compacting. -/
def compactORSets (s : WarpState V) (appliedVV : VersionVector) : Except Failure (WarpState V) :=
  match s.nodeAlive.compact appliedVV with
  | .error _ => .error (gcFailure "nodeAlive")
  | .ok nodes =>
    match s.edgeAlive.compact appliedVV with
    | .error _ => .error (gcFailure "edgeAlive")
    | .ok edges => .ok { s with nodeAlive := nodes, edgeAlive := edges }

namespace ORSet

def countEntries (s : ORSet) : Nat := s.entryDots.length

def countTombstones (s : ORSet) : Nat := (s.entryDots.filter s.isTombstoned).length

end ORSet

structure GCExecuteResult where
  nodesCompacted : Nat
  edgesCompacted : Nat
  tombstonesRemoved : Nat

def executeGC (s : WarpState V) (appliedVV : VersionVector) :
    Except Failure (WarpState V × GCExecuteResult) := do
  let compacted ← compactORSets s appliedVV
  pure (compacted,
    { nodesCompacted := s.nodeAlive.countEntries - compacted.nodeAlive.countEntries
      edgesCompacted := s.edgeAlive.countEntries - compacted.edgeAlive.countEntries
      tombstonesRemoved := (s.nodeAlive.countTombstones + s.edgeAlive.countTombstones) -
        (compacted.nodeAlive.countTombstones + compacted.edgeAlive.countTombstones) })

/-- `runGC` on the cached state. Nothing runs between its two readings of the
frontier, so they agree and the compacted state is installed. -/
def runGC (cachedState : WarpState V) : Except Failure (WarpState V × GCExecuteResult) := do
  let appliedVV ← computeAppliedVV cachedState
  executeGC cachedState appliedVV

/-! ### The applied vector covers every tag -/

theorem mem_entryDots {s : ORSet} : d ∈ s.entryDots ↔ ∃ x, d ∈ s.dotsOf x := by
  simp only [ORSet.entryDots, OrdMap.values, mem_flatMap, mem_map]
  constructor
  · rintro ⟨dots, ⟨entry, member, rfl⟩, tagged⟩
    refine ⟨entry.1, ?_⟩
    simpa [ORSet.dotsOf, (s.entries.mem_entries_iff _).mp member] using tagged
  · rintro ⟨x, tagged⟩
    cases found : s.entries.get x with
    | none => simp [ORSet.dotsOf, found] at tagged
    | some dots =>
      refine ⟨dots, ⟨(x, dots), (s.entries.mem_entries_iff _).mpr found, rfl⟩, ?_⟩
      simpa [ORSet.dotsOf, found] using tagged

theorem scanDots_spec (vv) (decodable : ∀ d ∈ dots, ∃ dot, Dot.decode d = .ok dot) :
    ∃ scanned, scanDots dots vv = .ok scanned ∧ (∀ w, vv.counter w ≤ scanned.counter w) ∧
      ∀ d ∈ dots, ∀ dot, Dot.decode d = .ok dot → dot.counter ≤ scanned.counter dot.writerId := by
  induction dots generalizing vv with
  | nil => exact ⟨vv, rfl, fun _ => Nat.le_refl _, by simp⟩
  | cons first rest ih =>
    obtain ⟨dot, decoded⟩ := decodable first mem_cons_self
    -- The vector after this dot has counted it and has lowered no writer.
    have raised : ∃ next, scanDots (first :: rest) vv = scanDots rest next ∧
        (∀ w, vv.counter w ≤ next.counter w) ∧ dot.counter ≤ next.counter dot.writerId := by
      by_cases newer : vv.counter dot.writerId < dot.counter
      · refine ⟨vv.put dot.writerId dot.named dot.counter, ?_, fun w => ?_, ?_⟩
        · simp only [scanDots, decoded, bind, Except.bind, newer, if_true]
        · rw [VersionVector.counter_put]
          split
          next same =>
            subst same
            exact Nat.le_of_lt newer
          · exact Nat.le_refl _
        · simp
      · refine ⟨vv, ?_, fun w => Nat.le_refl _, Nat.le_of_not_lt newer⟩
        simp only [scanDots, decoded, bind, Except.bind, newer, if_false]
    obtain ⟨next, scans, grows, counted⟩ := raised
    obtain ⟨scanned, ok, above, covers⟩ :=
      ih next (forall_mem_cons.mp decodable).2
    refine ⟨scanned, by rw [scans, ok], fun w => Nat.le_trans (grows w) (above w), ?_⟩
    intro d mem dot' decoded'
    rcases mem_cons.mp mem with rfl | later
    · rw [decoded] at decoded'
      cases decoded'
      exact Nat.le_trans counted (above _)
    · exact covers d later dot' decoded'

/-- The tags and tombstones of a set. -/
def ORSet.tags (s : ORSet) : Tags JsString JsString := ⟨fun x d => d ∈ s.dotsOf x, (· ∈ s.tombstones)⟩

theorem ORSet.contains_iff_alive (s : ORSet) (x) : s.contains x = true ↔ s.tags.alive x :=
  s.contains_iff

theorem compact_covering {s : ORSet} (decodable : s.Decodable)
    (covers : ∀ x, ∀ d ∈ s.dotsOf x, ∀ dot, Dot.decode d = .ok dot →
      dot.counter ≤ vv.counter dot.writerId) :
    ∃ t, s.compact vv = .ok t ∧ t.tags = s.tags.collect := by
  -- compacting with a vector that covers every tag is a collection
  obtain ⟨t, compacted, tags, tombs⟩ := s.compact_spec vv decodable
  have compactable : ∀ x, ∀ d ∈ s.dotsOf x, (s.Compactable vv d ↔ d ∈ s.tombstones) := by
    intro x d tagged
    obtain ⟨dot, decoded⟩ := decodable x d tagged
    refine ⟨And.left, fun tomb => ⟨tomb, dot, decoded, ?_⟩⟩
    simpa [VersionVector.contains] using covers x d tagged dot decoded
  refine ⟨t, compacted, ?_⟩
  unfold ORSet.tags Tags.collect
  congr
  · ext x d
    rw [tags]
    refine and_congr_right fun tagged => not_congr ?_
    rw [compactable x d tagged]
    exact ⟨fun tomb => ⟨⟨x, tagged⟩, tomb⟩, And.right⟩
  · ext d
    rw [tombs]
    refine and_congr_right fun tomb => not_congr ⟨fun ⟨_, tagged⟩ => ⟨tagged, tomb⟩, ?_⟩
    rintro ⟨⟨x, tagged⟩, -⟩
    exact ⟨(compactable x d tagged).mpr tomb, x, tagged⟩

theorem runGC_spec (s : WarpState V) (nodes : s.nodeAlive.Decodable) (edges : s.edgeAlive.Decodable) :
    ∃ t result, runGC s = .ok (t, result) ∧ t.nodeAlive.tags = s.nodeAlive.tags.collect ∧
      t.edgeAlive.tags = s.edgeAlive.tags.collect ∧ t.prop = s.prop ∧
      t.observedFrontier = s.observedFrontier ∧ t.edgeBirthEvent = s.edgeBirthEvent := by
  -- a collection succeeds and drops exactly the tombstoned tags of both sets
  obtain ⟨vv, scannedNodes, -, coversNodes⟩ := scanDots_spec .empty (by
    intro d mem
    obtain ⟨x, tagged⟩ := mem_entryDots.mp mem
    exact nodes x d tagged)
  obtain ⟨vv', scannedEdges, above, coversEdges⟩ := scanDots_spec vv (by
    intro d mem
    obtain ⟨x, tagged⟩ := mem_entryDots.mp mem
    exact edges x d tagged)
  obtain ⟨n, compactedNodes, nodesLeft⟩ := compact_covering nodes
    fun x d tagged dot decoded => Nat.le_trans
      (coversNodes d (mem_entryDots.mpr ⟨x, tagged⟩) dot decoded) (above _)
  obtain ⟨e, compactedEdges, edgesLeft⟩ := compact_covering edges
    fun x d tagged dot decoded => coversEdges d (mem_entryDots.mpr ⟨x, tagged⟩) dot decoded
  have ran : ∃ result, runGC s = .ok ({ s with nodeAlive := n, edgeAlive := e }, result) := by
    simp only [runGC, computeAppliedVV, scannedNodes, scannedEdges, executeGC, compactORSets,
      compactedNodes, compactedEdges, bind, Except.bind]
    exact ⟨_, rfl⟩
  obtain ⟨result, ran⟩ := ran
  exact ⟨_, result, ran, nodesLeft, edgesLeft, rfl, rfl, rfl⟩

/-! ### Deliveries -/

/-- What a replica receives: a patch, or the state of a replica that reduced some patches. -/
inductive Delivery (V : Type)
  | patch (entry : PatchEntry V)
  | state (entries : List (PatchEntry V))

def Delivery.WellFormed : Delivery V → Prop
  | .patch entry => entry.WellFormed
  | .state entries => ∀ entry ∈ entries, entry.WellFormed

def Delivery.facts : Delivery V → Set (Fact V)
  | .patch entry => entry.facts
  | .state entries => historyFacts entries

def deliver : List (Delivery V) → WarpState V → Except Failure (WarpState V)
  | [], s => .ok s
  | .patch entry :: rest, s => do
    let next ← applyFast s entry
    deliver rest next
  | .state entries :: rest, s => do
    let other ← reducePatches entries .empty
    deliver rest (s.join other)

def deliveryFacts (deliveries : List (Delivery V)) : Set (Fact V) :=
  {f | ∃ delivery ∈ deliveries, f ∈ delivery.facts}

theorem deliveryFacts_cons (delivery) (rest : List (Delivery V)) :
    deliveryFacts (delivery :: rest) = delivery.facts ∪ deliveryFacts rest := by
  ext f
  simp [deliveryFacts]

theorem deliver_represents (s) (F : Set (Fact V))
    (valid : ∀ delivery ∈ deliveries, delivery.WellFormed) (before : Represents s F) :
    ∃ t, deliver deliveries s = .ok t ∧ Represents t (F ∪ deliveryFacts deliveries) := by
  induction deliveries generalizing s F with
  | nil => exact ⟨s, rfl, by simpa [deliveryFacts] using before⟩
  | cons delivery rest ih =>
    have later := fun d mem => valid d (mem_cons_of_mem delivery mem)
    have here := valid delivery mem_cons_self
    rw [deliveryFacts_cons, ← Set.union_assoc]
    cases delivery with
    | patch entry =>
      obtain ⟨next, reduced, after⟩ := reducePatches_represents s F
        (fun e mem => mem_singleton.mp mem ▸ here) before
      have same : historyFacts [entry] = entry.facts := by simp [historyFacts]
      rw [same] at after
      obtain ⟨t, delivered, final⟩ := ih next _ later after
      refine ⟨t, ?_, final⟩
      obtain ⟨applied, ok, last⟩ := bind_eq_ok.mp reduced
      cases last
      simp only [deliver, ok, bind, Except.bind]
      exact delivered
    | state entries =>
      obtain ⟨other, reduced, known⟩ := reduces_history here
      obtain ⟨t, delivered, final⟩ := ih (s.join other) _ later (before.join known)
      refine ⟨t, ?_, final⟩
      simp only [deliver, reduced, bind, Except.bind]
      exact delivered

/-! ### Tags and tombstones by facts -/

def nodeTagsIn (F : Set (Fact V)) : Tags JsString JsString :=
  ⟨fun x d => .nodeTag x d ∈ F, fun d => .nodeTomb d ∈ F⟩

def edgeTagsIn (F : Set (Fact V)) : Tags JsString JsString :=
  ⟨fun k d => .edgeTag k d ∈ F, fun d => .edgeTomb d ∈ F⟩

theorem Represents.tags_eq {F : Set (Fact V)} (represents : Represents s F) :
    s.nodeAlive.tags = nodeTagsIn F ∧ s.edgeAlive.tags = edgeTagsIn F := by
  constructor
  · simp only [ORSet.tags, nodeTagsIn, represents.nodeTags, represents.nodeTombs]
  · simp only [ORSet.tags, edgeTagsIn, represents.edgeTags, represents.edgeTombs]

theorem Represents.decodable {F : Set (Fact V)} (represents : Represents s F)
    (nodes : ∀ x d, Fact.nodeTag x d ∈ F → ∃ dot : Dot, d = dot.encode)
    (edges : ∀ x d, Fact.edgeTag x d ∈ F → ∃ dot : Dot, d = dot.encode) :
    s.nodeAlive.Decodable ∧ s.edgeAlive.Decodable := by
  constructor
  · intro x d tagged
    obtain ⟨dot, rfl⟩ := nodes x d ((represents.nodeTags x d).mp tagged)
    obtain ⟨decoded, ok, -⟩ := Dot.decode_encode dot
    exact ⟨decoded, ok⟩
  · intro x d tagged
    obtain ⟨dot, rfl⟩ := edges x d ((represents.edgeTags x d).mp tagged)
    obtain ⟨decoded, ok, -⟩ := Dot.decode_encode dot
    exact ⟨decoded, ok⟩

theorem entryFacts_encoded {entry : PatchEntry V} :
    (Fact.nodeTag x d ∈ entry.facts → ∃ dot : Dot, d = dot.encode) ∧
      (Fact.edgeTag x d ∈ entry.facts → ∃ dot : Dot, d = dot.encode) := by
  constructor
  · rintro ⟨effect, -, ⟨event, -, fact⟩ | ⟨w, same⟩ | ⟨tick, -, same⟩⟩
    · obtain ⟨dot, -, rfl⟩ := nodeTag_mem_facts.mp fact
      exact ⟨dot, rfl⟩
    · cases same
    · cases same
  · rintro ⟨effect, -, ⟨event, -, fact⟩ | ⟨w, same⟩ | ⟨tick, -, same⟩⟩
    · obtain ⟨-, -, -, dot, -, -, rfl⟩ := edgeTag_mem_facts.mp fact
      exact ⟨dot, rfl⟩
    · cases same
    · cases same

theorem deliveryFacts_encoded {deliveries : List (Delivery V)} :
    (Fact.nodeTag x d ∈ deliveryFacts deliveries → ∃ dot : Dot, d = dot.encode) ∧
      (Fact.edgeTag x d ∈ deliveryFacts deliveries → ∃ dot : Dot, d = dot.encode) := by
  constructor
  · rintro ⟨delivery, -, fact⟩
    cases delivery with
    | patch entry => exact entryFacts_encoded.1 fact
    | state entries =>
      obtain ⟨entry, -, inside⟩ := fact
      exact entryFacts_encoded.1 inside
  · rintro ⟨delivery, -, fact⟩
    cases delivery with
    | patch entry => exact entryFacts_encoded.2 fact
    | state entries =>
      obtain ⟨entry, -, inside⟩ := fact
      exact entryFacts_encoded.2 inside

/-! ### What a collection changes later -/

def visibleNode (s : WarpState V) (x : JsString) : Bool := s.nodeAlive.contains x

/-- An edge is visible while it is alive and both its endpoints are. -/
def visibleEdge (s : WarpState V) (k : JsString) : Bool :=
  s.edgeAlive.contains k && s.nodeAlive.contains (decodeEdgeKey k).src &&
    s.nodeAlive.contains (decodeEdgeKey k).dst

structure SameVisible (s t : WarpState V) : Prop where
  nodes : ∀ x, visibleNode s x = visibleNode t x
  edges : ∀ k, visibleEdge s k = visibleEdge t k

/-- Every element that a later delivery tags again with a collected dot, without that
dot's tombstone, is visible anyway; an edge with an invisible endpoint does not matter. -/
structure GcHarmless (before after : Set (Fact V)) : Prop where
  nodes : ∀ x, (nodeTagsIn before).revives (nodeTagsIn after) x →
    ((nodeTagsIn before).union (nodeTagsIn after)).alive x
  edges : ∀ k, (edgeTagsIn before).revives (edgeTagsIn after) k →
    ((nodeTagsIn before).union (nodeTagsIn after)).alive (decodeEdgeKey k).src →
    ((nodeTagsIn before).union (nodeTagsIn after)).alive (decodeEdgeKey k).dst →
    ((edgeTagsIn before).union (edgeTagsIn after)).alive k

theorem alive_after_collection {s c t t' : WarpState V} (before : Represents s F)
    (nodes : c.nodeAlive.tags = s.nodeAlive.tags.collect)
    (edges : c.edgeAlive.tags = s.edgeAlive.tags.collect) (plain : Represents t (F ∪ G))
    (collected : Represents t' (c.facts ∪ G)) :
    (∀ x, t.nodeAlive.contains x = true ↔ ((nodeTagsIn F).union (nodeTagsIn G)).alive x) ∧
      (∀ x, t'.nodeAlive.contains x = true ↔ ((nodeTagsIn F).union (nodeTagsIn G)).alive x ∨
        (nodeTagsIn F).revives (nodeTagsIn G) x) ∧
      (∀ k, t.edgeAlive.contains k = true ↔ ((edgeTagsIn F).union (edgeTagsIn G)).alive k) ∧
      ∀ k, t'.edgeAlive.contains k = true ↔ ((edgeTagsIn F).union (edgeTagsIn G)).alive k ∨
        (edgeTagsIn F).revives (edgeTagsIn G) k := by
  -- aliveness after later deliveries, without and with a collection in between
  have nodesLeft : nodeTagsIn c.facts = (nodeTagsIn F).collect := by
    rw [← before.tags_eq.1, ← nodes]
    rfl
  have edgesLeft : edgeTagsIn c.facts = (edgeTagsIn F).collect := by
    rw [← before.tags_eq.2, ← edges]
    rfl
  refine ⟨fun x => ?_, fun x => ?_, fun k => ?_, fun k => ?_⟩
  · rw [ORSet.contains_iff_alive, plain.tags_eq.1]
    rfl
  · rw [ORSet.contains_iff_alive, collected.tags_eq.1, ← Tags.alive_collect_union, ← nodesLeft]
    rfl
  · rw [ORSet.contains_iff_alive, plain.tags_eq.2]
    rfl
  · rw [ORSet.contains_iff_alive, collected.tags_eq.2, ← Tags.alive_collect_union, ← edgesLeft]
    rfl

/-- A collection anywhere in a run leaves the visible nodes and edges of every later
point unchanged exactly when it is harmless for what is delivered after it. -/
theorem gc_visible_iff (before after : List (Delivery V))
    (validBefore : ∀ delivery ∈ before, delivery.WellFormed)
    (validAfter : ∀ delivery ∈ after, delivery.WellFormed) :
    ∃ s c result t t', deliver before .empty = .ok s ∧ runGC s = .ok (c, result) ∧
      deliver after s = .ok t ∧ deliver after c = .ok t' ∧
      (SameVisible t t' ↔ GcHarmless (deliveryFacts before) (deliveryFacts after)) := by
  obtain ⟨s, delivered, knows⟩ := deliver_represents .empty ∅ validBefore represents_empty
  rw [Set.empty_union] at knows
  obtain ⟨nodesDecodable, edgesDecodable⟩ := knows.decodable
    (fun x d => deliveryFacts_encoded.1) (fun x d => deliveryFacts_encoded.2)
  obtain ⟨c, result, ran, nodes, edges, -⟩ := runGC_spec s nodesDecodable edgesDecodable
  obtain ⟨t, plainOk, plain⟩ := deliver_represents s _ validAfter knows
  obtain ⟨t', collectedOk, collected⟩ :=
    deliver_represents c _ validAfter (represents_facts c)
  obtain ⟨nodeT, nodeT', edgeT, edgeT'⟩ :=
    alive_after_collection knows nodes edges plain collected
  refine ⟨s, c, result, t, t', delivered, ran, plainOk, collectedOk, fun same => ⟨?_, ?_⟩,
    fun harmless => ?_⟩
  · intro x revived
    rw [← nodeT, ← visibleNode, same.nodes, visibleNode, nodeT']
    exact Or.inr revived
  · intro k revived src dst
    have visible : visibleEdge t k = true := by
      rw [same.edges]
      simp only [visibleEdge, Bool.and_eq_true, nodeT', edgeT']
      exact ⟨⟨Or.inr revived, Or.inl src⟩, Or.inl dst⟩
    simp only [visibleEdge, Bool.and_eq_true] at visible
    exact (edgeT k).mp visible.1.1
  · have sameNodes : ∀ x, t.nodeAlive.contains x = t'.nodeAlive.contains x := by
      intro x
      rw [Bool.eq_iff_iff, nodeT, nodeT']
      exact ⟨Or.inl, fun either => either.elim id (harmless.nodes x)⟩
    refine ⟨sameNodes, fun k => ?_⟩
    rw [Bool.eq_iff_iff]
    simp only [visibleEdge, Bool.and_eq_true, ← sameNodes, edgeT, edgeT', nodeT]
    constructor
    · exact fun ⟨⟨alive, src⟩, dst⟩ => ⟨⟨Or.inl alive, src⟩, dst⟩
    · exact fun ⟨⟨either, src⟩, dst⟩ =>
        ⟨⟨either.elim id fun revived => harmless.edges k revived src dst, src⟩, dst⟩

/-- A replica that has the add and the remove of a node collects, and then receives the
add again: the node is back, although without the collection it stays removed. -/
theorem gc_revives_removed_node :
    ∃ s c result t t', deliver [.patch sampleAdd, .patch sampleRemove] .empty = .ok s ∧
      runGC s = .ok (c, result) ∧ deliver [.patch sampleAdd] s = .ok t ∧
      deliver [.patch sampleAdd] c = .ok t' ∧
      visibleNode t (lit "n") = false ∧ visibleNode t' (lit "n") = true ∧ ¬ SameVisible t t' := by
  refine ⟨_, _, _, _, _, rfl, rfl, rfl, rfl, by decide, by decide, fun same => ?_⟩
  have agree := same.nodes (lit "n")
  revert agree
  decide

theorem gc_visible_iff_sample :
    ∃ s c result t t', deliver [.patch sampleAdd, .patch sampleRemove] .empty = .ok s ∧
      runGC s = .ok (c, result) ∧ deliver [.state [sampleAdd]] s = .ok t ∧
      deliver [.state [sampleAdd]] c = .ok t' ∧
      (SameVisible t t' ↔ GcHarmless (deliveryFacts [.patch sampleAdd, .patch sampleRemove])
        (deliveryFacts [.state [sampleAdd]])) := by
  refine gc_visible_iff _ _ (fun delivery member => ?_) (fun delivery member => ?_)
  · simp only [mem_cons, not_mem_nil, or_false] at member
    rcases member with rfl | rfl
    · exact sampleAdd_wellFormed
    · exact sampleRemove_wellFormed
  · cases mem_singleton.mp member
    exact fun entry listed => mem_singleton.mp listed ▸ sampleAdd_wellFormed

end GitWarp
