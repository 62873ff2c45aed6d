import GitWarp.Js.JsonText
import GitWarp.Lib.Grouping
import GitWarp.Index.Answering

/-!
# Verifying an index against a state

The verifier goes through a sample of the nodes that are alive in the state. It asks
the index whether each one is alive and compares the neighbours of both directions
with the visible edges of the state as sorted JSON signatures.
-/
namespace GitWarp

open Js Lib KeyCodec List

variable {V : Type}

variable (edges : List NeighborEdge) (s : WarpState V)

namespace MaterializedViewVerifier

open IndexTree (NeighborEdge Direction)

/-! ### The sample -/

/-- The queries of a `LogicalIndex` that the verifier makes. -/
structure LogicalIndex where
  isAlive : JsString → Bool
  getEdges : JsString → Direction → List NeighborEdge

structure VerifyError where
  nodeId : JsString
  direction : JsString
  expected : List JsString
  actual : List JsString

structure VerifyResult where
  passed : Nat
  failed : Nat
  errors : List VerifyError
  seed : Int

def mulberry32 (seed : Int) : BitVec 32 := BitVec.ofInt 32 seed + 0x6D2B79F5#32

/-- One draw: a number below one and the next state. -/
def rng (t : BitVec 32) : Rat × BitVec 32 :=
  let mixed := (t ^^^ (t >>> 15)) * (t ||| 1#32)
  let next := mixed ^^^ (mixed + (mixed ^^^ (mixed >>> 7)) * (mixed ||| 61#32))
  (((next ^^^ (next >>> 14)).toNat : Rat) / 4294967296, next)

/-- The filter of the sampling, one draw for each node. -/
def drawNodes (sampleRate : Rat) : List JsString → BitVec 32 → List JsString × BitVec 32
  | [], t => ([], t)
  | nodeId :: rest, t =>
    let (value, next) := rng t
    let (drawn, last) := drawNodes sampleRate rest next
    (if value < sampleRate then nodeId :: drawn else drawn, last)

def sampleNodes (allNodes : List JsString) (sampleRate : Rat) (seed : Int) : List JsString :=
  if 1 ≤ sampleRate then allNodes
  else if sampleRate ≤ 0 ∨ allNodes = [] then []
  else
    let (sampled, t) := drawNodes sampleRate allNodes (mulberry32 seed)
    -- an empty draw falls back to one node
    if sampled = [] then
      [allNodes.getD (Rat.floor ((rng t).1 * (allNodes.length : Rat))).toNat []]
    else sampled

/-! ### Adjacency of the state -/

abbrev AdjacencyMap := OrdMap JsString (List NeighborEdge)

structure GroundTruth where
  outgoing : AdjacencyMap
  incoming : AdjacencyMap

def pushAdjacencyEntry (map : AdjacencyMap) (key : JsString) (entry : NeighborEdge) :
    AdjacencyMap := map.push key entry

/-- The step of the loop over the edges of the state. -/
def pushEdge (s : WarpState V) (truth : GroundTruth) (edgeKey : JsString) : GroundTruth :=
  let edge := decodeEdgeKey edgeKey
  if !s.nodeAlive.contains edge.src || !s.nodeAlive.contains edge.dst then truth
  else
    { outgoing := pushAdjacencyEntry truth.outgoing edge.src ⟨edge.dst, edge.label⟩
      incoming := pushAdjacencyEntry truth.incoming edge.dst ⟨edge.src, edge.label⟩ }

def buildGroundTruthAdjacency (s : WarpState V) : GroundTruth :=
  s.edgeAlive.elements.foldl (pushEdge s) ⟨.empty, .empty⟩

/-! ### Signatures -/

def sortTexts (texts : List JsString) : List JsString := sortBy id texts

/-- `JSON.stringify` of a pair of a neighbour and its labels. -/
def signature (neighborId : JsString) (labels : List JsString) : JsString :=
  lit "[" ++ jsonString neighborId ++ lit ",[" ++ jsonStrings labels ++ lit "]]"

def canonicalizeNeighborSignatures (edges : List NeighborEdge) : List JsString :=
  let byNeighbor := groupBy NeighborEdge.neighborId NeighborEdge.label edges
  sortTexts (byNeighbor.entries.map fun entry => signature entry.1 (sortTexts entry.2))

/-! ### The comparison -/

def directionText : Direction → JsString
  | .out => lit "out"
  | .incoming => lit "in"
  | .both => lit "both"

def compareNodeDirection (nodeId : JsString) (direction : Direction) (index : LogicalIndex)
    (truthMap : AdjacencyMap) : Option VerifyError :=
  let actual := canonicalizeNeighborSignatures (index.getEdges nodeId direction)
  let expected := canonicalizeNeighborSignatures ((truthMap.get nodeId).getD [])
  if actual = expected then none
  else some ⟨nodeId, directionText direction, expected, actual⟩

structure VerifyAcc where
  passed : Nat
  errors : List VerifyError

/-- The body of the loop over the two directions. -/
def verifyDirection (nodeId : JsString) (index : LogicalIndex) (truth : GroundTruth)
    (acc : VerifyAcc) (direction : Direction) : VerifyAcc :=
  let truthMap := if direction = .out then truth.outgoing else truth.incoming
  match compareNodeDirection nodeId direction index truthMap with
  | some err => { acc with errors := acc.errors ++ [err] }
  | none => { acc with passed := acc.passed + 1 }

def verifyOneNode (index : LogicalIndex) (truth : GroundTruth) (acc : VerifyAcc)
    (nodeId : JsString) : VerifyAcc :=
  if !index.isAlive nodeId then
    { acc with errors := acc.errors ++ [⟨nodeId, lit "alive", [lit "true"], [lit "false"]⟩] }
  else [Direction.out, Direction.incoming].foldl (verifyDirection nodeId index truth) acc

def verifySampledNodes (sampled : List JsString) (index : LogicalIndex) (truth : GroundTruth) :
    VerifyAcc :=
  sampled.foldl (verifyOneNode index truth) ⟨0, []⟩

structure VerifyOptions where
  seed : Option Int
  sampleRate : Option Rat

/-- `verifyIndex`; the seed that stands in for a missing one is drawn outside. -/
def verifyIndex (s : WarpState V) (index : LogicalIndex) (options : VerifyOptions)
    (cryptoSeed : Int) : VerifyResult :=
  let seed := options.seed.getD cryptoSeed
  let sampleRate := options.sampleRate.getD (1 / 10)
  let allNodes := sortTexts s.nodeAlive.elements
  let sampled := sampleNodes allNodes sampleRate seed
  let truth := buildGroundTruthAdjacency s
  let acc := verifySampledNodes sampled index truth
  ⟨acc.passed, acc.errors.length, acc.errors, seed⟩

/-! ### What signatures tell -/

theorem perm_of_sortTexts : sortTexts a = sortTexts b ↔ a.Perm b := by
  constructor
  · intro same
    have sorted : (sortTexts a).Perm b := by
      rw [same]
      exact perm_sortBy id b
    exact (perm_sortBy id a).symm.trans sorted
  · intro perm
    have both : (sortTexts a).Perm (sortTexts b) :=
      (perm_sortBy id a).trans (perm.trans (perm_sortBy id b).symm)
    exact both.eq_of_pairwise (fun _ _ _ _ below above => le_antisymm below above)
      (pairwise_sortBy id a) (pairwise_sortBy id b)

theorem signature_inj {labels} (same : signature n labels = signature n' labels') :
    n = n' ∧ labels = labels' := by
  unfold signature at same
  simp only [append_assoc] at same
  -- the neighbour ends at its closing quote, the labels at the bracket after the last
  obtain ⟨names, rest⟩ := jsonString_append_inj (append_cancel_left same)
  have shape : lit "]]" = 0x5D :: lit "]" := rfl
  rw [shape] at rest
  exact ⟨names, jsonStrings_inj labels labels' (by decide) (by decide) (append_cancel_left rest)⟩

def labelsTo (edges : List NeighborEdge) (neighborId : JsString) : List JsString :=
  groupOf NeighborEdge.neighborId NeighborEdge.label edges neighborId

theorem count_labelsTo (n l) : (labelsTo edges n).count l = edges.count ⟨n, l⟩ := by
  induction edges with
  | nil => rfl
  | cons edge edges ih =>
    unfold labelsTo at ih ⊢
    rw [groupOf_cons, count_append, ih, count_cons]
    obtain ⟨neighbor, label⟩ := edge
    by_cases here : neighbor = n <;> by_cases named : label = l <;> simp [here, named]
    omega

theorem perm_iff_labelsTo (a b) : a.Perm b ↔ ∀ n, (labelsTo a n).Perm (labelsTo b n) := by
  simp only [perm_iff_count, count_labelsTo]
  constructor
  · intro counts n l
    exact counts ⟨n, l⟩
  · intro counts edge
    exact counts edge.neighborId edge.label

/-- A neighbour with its sorted labels, for each neighbour that occurs. -/
def signedNeighbors (edges : List NeighborEdge) : List (JsString × List JsString) :=
  (groupBy NeighborEdge.neighborId NeighborEdge.label edges).entries.map fun entry =>
    (entry.1, sortTexts entry.2)

theorem mem_signedNeighbors {labels} :
    (n, labels) ∈ signedNeighbors edges ↔
      labelsTo edges n ≠ [] ∧ labels = sortTexts (labelsTo edges n) := by
  unfold signedNeighbors
  rw [mem_map]
  have group := get_groupBy NeighborEdge.neighborId NeighborEdge.label edges
  constructor
  · rintro ⟨⟨n', held⟩, member, same⟩
    obtain ⟨rfl, rfl⟩ := Prod.mk.inj same
    rw [OrdMap.mem_entries_iff, group] at member
    split at member
    · cases member
    next filled =>
      obtain rfl := Option.some.inj member
      exact ⟨filled, rfl⟩
  · rintro ⟨filled, rfl⟩
    refine ⟨(n, labelsTo edges n), ?_, rfl⟩
    rw [OrdMap.mem_entries_iff, group]
    exact if_neg filled

theorem nodup_signedNeighbors : (signedNeighbors edges).Nodup := by
  have names : ((signedNeighbors edges).map Prod.fst).Nodup := by
    unfold signedNeighbors
    rw [map_map]
    exact (groupBy NeighborEdge.neighborId NeighborEdge.label edges).nodup
  exact names.of_map

theorem canonicalizeNeighborSignatures_eq_iff (a b) :
    canonicalizeNeighborSignatures a = canonicalizeNeighborSignatures b ↔ a.Perm b := by
  -- equal signatures mean the same edges, each as often
  have texts : ∀ edges, canonicalizeNeighborSignatures edges =
      sortTexts ((signedNeighbors edges).map fun pair => signature pair.1 pair.2) := by
    intro edges
    simp [canonicalizeNeighborSignatures, signedNeighbors, Function.comp_def]
  have injective : Function.Injective fun pair : JsString × List JsString =>
      signature pair.1 pair.2 := by
    intro pair pair' same
    obtain ⟨names, labels⟩ := signature_inj same
    exact Prod.ext names labels
  rw [texts, texts, perm_of_sortTexts, map_perm_map_iff injective,
    perm_ext_iff_of_nodup (nodup_signedNeighbors a) (nodup_signedNeighbors b),
    perm_iff_labelsTo]
  constructor
  · intro same n
    by_cases none : labelsTo a n = []
    · by_cases none' : labelsTo b n = []
      · rw [none, none']
      -- a neighbour of one side only has a signature of one side only
      · have mem := (same (n, _)).mpr ((mem_signedNeighbors b).mpr ⟨none', rfl⟩)
        exact absurd none ((mem_signedNeighbors a).mp mem).1
    · have mem := (same (n, _)).mp ((mem_signedNeighbors a).mpr ⟨none, rfl⟩)
      exact perm_of_sortTexts.mp ((mem_signedNeighbors b).mp mem).2
  · intro perm pair
    obtain ⟨n, labels⟩ := pair
    have sorted : sortTexts (labelsTo a n) = sortTexts (labelsTo b n) :=
      perm_of_sortTexts.mpr (perm n)
    have filled : labelsTo a n = [] ↔ labelsTo b n = [] := by
      constructor
      · intro none
        exact nil_perm.mp (none ▸ perm n)
      · intro none
        exact perm_nil.mp (none ▸ perm n)
    rw [mem_signedNeighbors, mem_signedNeighbors, sorted, Ne, Ne, filled]

/-! ### What the verifier compares with -/

/-- The edges that the state shows at a node, with their labels. -/
def visibleNeighbors (s : WarpState V) (direction : Direction) (x : JsString) :
    List NeighborEdge :=
  match direction with
  | .out => groupOf EdgeParts.src (fun e => ⟨e.dst, e.label⟩) (visibleEdges s) x
  | .incoming => groupOf EdgeParts.dst (fun e => ⟨e.src, e.label⟩) (visibleEdges s) x
  | .both => groupOf EdgeParts.src (fun e => ⟨e.dst, e.label⟩) (visibleEdges s) x ++
      groupOf EdgeParts.dst (fun e => ⟨e.src, e.label⟩) (visibleEdges s) x

theorem foldl_pushEdge (keys : List JsString) (alive : ∀ k ∈ keys, s.edgeAlive.contains k = true)
    (truth) :
    keys.foldl (pushEdge s) truth =
      ((keys.filter (visibleEdge s)).map decodeEdgeKey).foldl (fun truth edge =>
        ⟨truth.outgoing.push edge.src ⟨edge.dst, edge.label⟩,
          truth.incoming.push edge.dst ⟨edge.src, edge.label⟩⟩) truth := by
  induction keys generalizing truth with
  | nil => rfl
  | cons k keys ih =>
    have here := alive k mem_cons_self
    rw [foldl_cons, ih (fun k' mem => alive k' (mem_cons_of_mem _ mem))]
    have visible : visibleEdge s k = (s.nodeAlive.contains (decodeEdgeKey k).src &&
        s.nodeAlive.contains (decodeEdgeKey k).dst) := by
      simp [visibleEdge, here]
    rw [filter_cons, visible]
    unfold pushEdge
    by_cases src : s.nodeAlive.contains (decodeEdgeKey k).src = true <;>
      by_cases dst : s.nodeAlive.contains (decodeEdgeKey k).dst = true <;>
      simp [src, dst, pushAdjacencyEntry]

theorem foldl_pushes (edges : List EdgeParts) (truth) :
    edges.foldl (fun truth edge =>
        (⟨truth.outgoing.push edge.src ⟨edge.dst, edge.label⟩,
          truth.incoming.push edge.dst ⟨edge.src, edge.label⟩⟩ : GroundTruth)) truth =
      ⟨edges.foldl (fun map edge => map.push edge.src ⟨edge.dst, edge.label⟩) truth.outgoing,
        edges.foldl (fun map edge => map.push edge.dst ⟨edge.src, edge.label⟩)
          truth.incoming⟩ := by
  induction edges generalizing truth with
  | nil => rfl
  | cons edge edges ih => rw [foldl_cons, ih, foldl_cons, foldl_cons]

theorem buildGroundTruthAdjacency_spec (x) :
    ((buildGroundTruthAdjacency s).outgoing.get x).getD [] = visibleNeighbors s .out x ∧
      ((buildGroundTruthAdjacency s).incoming.get x).getD [] =
        visibleNeighbors s .incoming x := by
  have alive : ∀ k ∈ s.edgeAlive.elements, s.edgeAlive.contains k = true := fun k mem =>
    (ORSet.mem_elements_iff s.edgeAlive).mp mem
  unfold buildGroundTruthAdjacency
  rw [foldl_pushEdge s _ alive, foldl_pushes]
  exact ⟨getD_groupBy EdgeParts.src _ (visibleEdges s) x,
    getD_groupBy EdgeParts.dst _ (visibleEdges s) x⟩

/-! ### Runs of the verifier -/

/-- The index agrees with the state about one node: it is alive there, and both
directions list the visible edges, each once, in some order. -/
structure AgreesAt (s : WarpState V) (index : LogicalIndex) (x : JsString) : Prop where
  alive : index.isAlive x = true
  out : (index.getEdges x .out).Perm (visibleNeighbors s .out x)
  incoming : (index.getEdges x .incoming).Perm (visibleNeighbors s .incoming x)

theorem compareNodeDirection_eq_none (x) (direction index truthMap) :
    compareNodeDirection x direction index truthMap = none ↔
      (index.getEdges x direction).Perm ((truthMap.get x).getD []) := by
  rw [← canonicalizeNeighborSignatures_eq_iff]
  by_cases same : canonicalizeNeighborSignatures (index.getEdges x direction) =
      canonicalizeNeighborSignatures ((truthMap.get x).getD [])
  · simp [compareNodeDirection, same]
  · simp [compareNodeDirection, same]

theorem verifyDirection_errors (x) (index truth acc direction) :
    (verifyDirection x index truth acc direction).errors = [] ↔
      acc.errors = [] ∧ (index.getEdges x direction).Perm
        (((if direction = .out then truth.outgoing else truth.incoming).get x).getD []) := by
  unfold verifyDirection
  rw [← compareNodeDirection_eq_none]
  cases found : compareNodeDirection x direction index
      (if direction = .out then truth.outgoing else truth.incoming) with
  | some err | none => simp [found]

theorem verifyOneNode_errors (index acc) (x) :
    (verifyOneNode index (buildGroundTruthAdjacency s) acc x).errors = [] ↔
      acc.errors = [] ∧ AgreesAt s index x := by
  obtain ⟨outTruth, inTruth⟩ := buildGroundTruthAdjacency_spec s x
  unfold verifyOneNode
  cases alive : index.isAlive x with
  | false =>
    constructor
    · intro none
      simp at none
    · rintro ⟨-, agrees⟩
      rw [agrees.alive] at alive
      cases alive
  | true =>
    simp only [Bool.not_true, Bool.false_eq_true, if_false, foldl_cons, foldl_nil]
    rw [verifyDirection_errors, verifyDirection_errors, if_pos rfl, if_neg (by decide), outTruth,
      inTruth, and_assoc]
    constructor
    · rintro ⟨before, out, incoming⟩
      exact ⟨before, alive, out, incoming⟩
    · rintro ⟨before, agrees⟩
      exact ⟨before, agrees.out, agrees.incoming⟩

theorem verifySampledNodes_errors (index) (sampled : List JsString) (acc) :
    (sampled.foldl (verifyOneNode index (buildGroundTruthAdjacency s)) acc).errors = [] ↔
      acc.errors = [] ∧ ∀ x ∈ sampled, AgreesAt s index x := by
  induction sampled generalizing acc with
  | nil => simp
  | cons x rest ih =>
    rw [foldl_cons, ih, verifyOneNode_errors, forall_mem_cons, and_assoc]

/-- A full sample reports no failure exactly when the index agrees with the state about
every node that is alive in the state. -/
theorem verifyIndex_exact (s : WarpState V) (index : LogicalIndex) (options : VerifyOptions)
    (cryptoSeed : Int) (full : 1 ≤ options.sampleRate.getD (1 / 10)) :
    (verifyIndex s index options cryptoSeed).failed = 0 ↔
      ∀ x, visibleNode s x = true → AgreesAt s index x := by
  have sampled : sampleNodes (sortTexts s.nodeAlive.elements) (options.sampleRate.getD (1 / 10))
      (options.seed.getD cryptoSeed) = sortTexts s.nodeAlive.elements := if_pos full
  unfold verifyIndex
  simp only [sampled, verifySampledNodes, length_eq_zero_iff, verifySampledNodes_errors, true_and]
  constructor
  · intro agrees x shown
    exact agrees x ((mem_sortBy id _ x).mpr ((ORSet.mem_elements_iff s.nodeAlive).mpr shown))
  · intro agrees x member
    exact agrees x ((ORSet.mem_elements_iff s.nodeAlive).mp ((mem_sortBy id _ x).mp member))

/-- An index that knows the road from `x` to `y`. -/
def roadIndex : LogicalIndex where
  isAlive nodeId := decide (nodeId = lit "x" ∨ nodeId = lit "y")
  getEdges nodeId direction :=
    match direction with
    | .out => if nodeId = lit "x" then [⟨lit "y", lit "road"⟩] else []
    | .incoming => if nodeId = lit "y" then [⟨lit "x", lit "road"⟩] else []
    | .both => []

theorem verifyIndex_exact_road :
    ∃ s : WarpState Nat, reducePatches [roadPatch] .empty = .ok s ∧
      AgreesAt s roadIndex (lit "y") :=
  ⟨_, rfl, (verifyIndex_exact _ roadIndex ⟨none, some 1⟩ 5 (by simp)).mp (by decide +kernel)
    (lit "y") (by decide +kernel)⟩

/-- A stray node that only the index knows is not looked at. -/
theorem strayNode_passes :
    (verifyIndex (WarpState.empty : WarpState Nat) roadIndex ⟨some 0, some 1⟩ 0).failed = 0 ∧
      roadIndex.isAlive (lit "x") = true ∧
      visibleNode (WarpState.empty : WarpState Nat) (lit "x") = false ∧
      roadIndex.getEdges (lit "x") .out ≠ [] ∧
      visibleNeighbors (WarpState.empty : WarpState Nat) .out (lit "x") = [] := by
  decide +kernel

end MaterializedViewVerifier
end GitWarp
