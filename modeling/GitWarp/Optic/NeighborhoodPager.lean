import GitWarp.Index.Answering
import GitWarp.Lib.BinaryHeap
import GitWarp.Optic.PageCursor

/-!
# Pages of a neighbourhood

The index has one bitmap of neighbours for each label of a node. A page merges
them with a heap in the order of the neighbours' numbers and passes over
candidates that are not alive. The next page starts behind the last candidate.
-/
namespace GitWarp

open Js Lib List

variable {V : Type}

open IndexTree (Direction maxLocalId)

/-! ### Candidates -/

structure NeighborhoodOpticEdge where
  direction : Side
  neighborId : JsString
  label : JsString
  deriving DecidableEq

structure NeighborhoodBitmapCandidate extends NeighborhoodCandidatePosition where
  bitmap : OrdSet Nat
  index : Nat

/-- A label and its number both ways. -/
structure NeighborhoodLabelRegistry where
  byId : OrdMap Nat JsString
  byName : OrdMap JsString Nat

def directionOrder : Side → Nat
  | .incoming => 0
  | .out => 1

/-- `compareCandidates`. -/
def positionKey (p : NeighborhoodCandidatePosition) : Nat ×ₗ Nat ×ₗ JsString :=
  toLex (directionOrder p.direction, toLex (p.globalId, p.label))

def requestedDirections : Direction → List Side
  | .both => [.incoming, .out]
  | .incoming => [.incoming]
  | .out => [.out]

def readableDirections (direction : Direction) (after : Option NeighborhoodCandidatePosition) :
    List Side :=
  (requestedDirections direction).filter fun candidate =>
    after.all fun after => decide (directionOrder after.direction ≤ directionOrder candidate)

def bitmapBasisInvalid (message : String) : Failure :=
  ⟨.queryError, lit "E_OPTIC_BASIS_INVALID", lit message⟩

/-- `bitmap.at(index)`, in ascending order. -/
def bitmapValueAt (bitmap : OrdSet Nat) (index : Nat) : Except Failure Nat :=
  match (sortBy id bitmap.toList)[index]? with
  | none =>
    .error (bitmapBasisInvalid "Neighborhood bitmap rank resolved outside the candidate set.")
  | some value => .ok value

/-- `bitmap.rank(value)`: how many members are not above the value. -/
def bitmapRank (bitmap : OrdSet Nat) (value : Nat) : Nat :=
  (bitmap.toList.filter fun member => decide (member ≤ value)).length

def rankBefore (bitmap : OrdSet Nat) (value : Nat) : Nat :=
  if value = 0 then 0 else bitmapRank bitmap (value - 1)

def firstCandidateIndex (bitmap : OrdSet Nat) (after : Option NeighborhoodCandidatePosition)
    (direction : Side) (label : JsString) : Nat :=
  match after with
  | none => 0
  | some after =>
    if directionOrder after.direction < directionOrder direction then 0
    else if directionOrder direction < directionOrder after.direction then bitmap.size
    else if label ≤ after.label then bitmapRank bitmap after.globalId
    else rankBefore bitmap after.globalId

def candidateAt (bitmap : OrdSet Nat) (index : Nat) (direction : Side) (label : JsString) :
    Except Failure NeighborhoodBitmapCandidate :=
  (bitmapValueAt bitmap index).map fun globalId => ⟨⟨direction, globalId, label⟩, bitmap, index⟩

abbrev CandidateHeap := Array NeighborhoodBitmapCandidate

def candidateKey (c : NeighborhoodBitmapCandidate) : Nat ×ₗ Nat ×ₗ JsString :=
  positionKey c.toNeighborhoodCandidatePosition

def labelsPresentInShard (buckets : EdgeBitmaps) (registry : NeighborhoodLabelRegistry) :
    List (JsString × Nat) :=
  let present := (OrdSet.ofList (buckets.keys.filterMap fun key =>
    match key.1 with
    | .all => none
    | .label labelId => some labelId)).toList
  sortBy Prod.fst (present.filterMap fun labelId =>
    (registry.byId.get labelId).map fun label => (label, labelId))

def selectedLabels (buckets : EdgeBitmaps) (registry : NeighborhoodLabelRegistry)
    (requested : List JsString) : List (JsString × Nat) :=
  if requested = [] then labelsPresentInShard buckets registry
  else requested.filterMap fun label =>
    (registry.byName.get label).map fun labelId => (label, labelId)

def addLabelBitmap (buckets : EdgeBitmaps) (after : Option NeighborhoodCandidatePosition)
    (direction : Side) (sourceGlobalId : Nat) (heap : CandidateHeap) (selected : JsString × Nat) :
    Except Failure CandidateHeap :=
  match buckets.get (.label selected.2, sourceGlobalId) with
  | none => .ok heap
  | some bitmap =>
    let index := firstCandidateIndex bitmap after direction selected.1
    if index < bitmap.size then
      (candidateAt bitmap index direction selected.1).map (heapPush candidateKey heap)
    else .ok heap

/-- The loop of `createNeighborhoodCandidateHeap` over the selected labels. -/
def addLabelBitmaps (buckets : EdgeBitmaps) (after : Option NeighborhoodCandidatePosition)
    (direction : Side) (sourceGlobalId : Nat) :
    List (JsString × Nat) → CandidateHeap → Except Failure CandidateHeap
  | [], heap => .ok heap
  | selected :: rest, heap => do
    let next ← addLabelBitmap buckets after direction sourceGlobalId heap selected
    addLabelBitmaps buckets after direction sourceGlobalId rest next

/-- Takes the least candidate out; its successor in the bitmap comes in. -/
def popAndAdvance (heap : CandidateHeap) :
    Except Failure (NeighborhoodBitmapCandidate × CandidateHeap) :=
  match heapPop candidateKey heap with
  | none => .error (bitmapBasisInvalid "Neighborhood bitmap candidate heap is empty.")
  | some (candidate, rest) =>
    if candidate.index + 1 < candidate.bitmap.size then do
      let next ← candidateAt candidate.bitmap (candidate.index + 1) candidate.direction
        candidate.label
      pure (candidate, heapPush candidateKey rest next)
    else .ok (candidate, rest)

/-! ### Collecting a page -/

structure NeighborhoodBitmapPageResult where
  edges : List NeighborhoodOpticEdge
  hasMore : Bool
  last : Option NeighborhoodCandidatePosition
  resumeAfter : List (Option NeighborhoodCandidatePosition)

/-- What the candidates of a heap still have to give: a bound for the loop. -/
def candidatesLeft (heap : CandidateHeap) : Nat :=
  (heap.toList.map fun c => c.bitmap.size - c.index).sum

def NeighborhoodBitmapPageResult.list (page : NeighborhoodBitmapPageResult)
    (p : NeighborhoodCandidatePosition) (neighborId : JsString) : NeighborhoodBitmapPageResult where
  edges := page.edges ++ [⟨p.direction, neighborId, p.label⟩]
  hasMore := false
  last := some p
  resumeAfter := page.resumeAfter ++ [page.last]

namespace IndexTree

/-- `decodeLabels`. -/
def labelRegistry (t : IndexTree V) : NeighborhoodLabelRegistry :=
  ⟨.ofList (t.labels.entries.map Prod.swap), t.labels⟩

/-- `decodeMeta`: the nodes by their numbers. -/
def byGlobalId (t : IndexTree V) : OrdMap Nat JsString :=
  .ofList (t.nodeToGlobal.entries.map Prod.swap)

/-- The shard of the adjacency that the node falls into. -/
def edgeShard (t : IndexTree V) (direction : Side) (nodeId : JsString) : EdgeBitmaps :=
  let store := match direction with
    | .out => t.fwd
    | .incoming => t.rev
  store.filterKeys fun key => decide (key.2 / maxLocalId = (computeShardKey nodeId).val)

def hasAdjacency (t : IndexTree V) (direction : Direction) (nodeId : JsString) : Bool :=
  (requestedDirections direction).any fun candidate =>
    !(t.edgeShard candidate nodeId).entries.isEmpty

def readSourceGlobalId (t : IndexTree V) (nodeId : JsString) : Option Nat :=
  match t.byGlobalId.entries.find? fun entry => entry.2 = nodeId with
  | none => none
  | some (globalId, _) => if t.alive.has globalId then some globalId else none

def resolveLiveNode (t : IndexTree V) (globalId : Nat) : Option JsString :=
  if t.alive.has globalId then t.byGlobalId.get globalId else none

def readCandidateHeap (t : IndexTree V) (after : Option NeighborhoodCandidatePosition)
    (direction : Side) (nodeId : JsString) (requestedLabels : List JsString)
    (sourceGlobalId : Nat) : Except Failure CandidateHeap :=
  let buckets := t.edgeShard direction nodeId
  addLabelBitmaps buckets after direction sourceGlobalId
    (selectedLabels buckets t.labelRegistry requestedLabels) #[]

/-- The loop of `collectDirection`. -/
def collectLoop (t : IndexTree V) (limit : Nat) :
    Nat → CandidateHeap → NeighborhoodBitmapPageResult → Except Failure NeighborhoodBitmapPageResult
  | 0, _, page => .ok page
  | fuel + 1, heap, page =>
    if heap.isEmpty then .ok page
    else do
      let (candidate, rest) ← popAndAdvance heap
      match t.resolveLiveNode candidate.globalId with
      | none => t.collectLoop limit fuel rest page
      | some neighborId =>
        let position := candidate.toNeighborhoodCandidatePosition
        if page.edges.length = limit then .ok { page with hasMore := true }
        else t.collectLoop limit fuel rest (page.list position neighborId)

/-- `collectDirection` for each direction in turn, until one of them has more. -/
def collectDirections (t : IndexTree V) (limit : Nat)
    (after : Option NeighborhoodCandidatePosition) (nodeId : JsString)
    (requestedLabels : List JsString) (sourceGlobalId : Nat) :
    List Side → NeighborhoodBitmapPageResult → Except Failure NeighborhoodBitmapPageResult
  | [], page => .ok page
  | direction :: rest, page => do
    let heap ← t.readCandidateHeap after direction nodeId requestedLabels sourceGlobalId
    let result ← t.collectLoop limit (candidatesLeft heap) heap page
    if result.hasMore then pure result
    else t.collectDirections limit after nodeId requestedLabels sourceGlobalId rest result

def collectNeighborhoodBitmapPage (t : IndexTree V) (limit : Nat)
    (after : Option NeighborhoodCandidatePosition) (direction : Direction) (nodeId : JsString)
    (requestedLabels : List JsString) (sourceGlobalId : Nat) :
    Except Failure NeighborhoodBitmapPageResult :=
  t.collectDirections limit after nodeId requestedLabels sourceGlobalId
    (readableDirections direction after) ⟨[], false, after, []⟩

end IndexTree

/-! ### Sorted bitmaps -/

/-- The members of a bitmap in ascending order. -/
def bitmapValues (bitmap : OrdSet Nat) : List Nat := sortBy id bitmap.toList

variable (bitmap : OrdSet Nat)

theorem mem_bitmapValues (v) : v ∈ bitmapValues bitmap ↔ v ∈ bitmap :=
  mem_sortBy id bitmap.toList v

theorem ascending_bitmapValues : (bitmapValues bitmap).Pairwise fun a b => a < b := by
  have sorted := pairwise_sortBy id bitmap.toList
  have distinct : (bitmapValues bitmap).Nodup :=
    (perm_sortBy id bitmap.toList).nodup_iff.mpr bitmap.nodup
  apply (sorted.and distinct).imp
  rintro a b ⟨below, apart⟩
  exact lt_of_le_of_ne below apart

theorem length_bitmapValues : (bitmapValues bitmap).length = bitmap.size :=
  (perm_sortBy id bitmap.toList).length_eq

theorem mem_drop_rank (value v) :
    v ∈ (bitmapValues bitmap).drop (bitmapRank bitmap value) ↔ v ∈ bitmap ∧ value < v := by
  -- behind the rank of a value are the greater members
  have rank : bitmapRank bitmap value =
      ((bitmapValues bitmap).filter fun mem => decide (mem ≤ value)).length :=
    (((perm_sortBy id bitmap.toList).filter _).length_eq).symm
  rw [rank, ← mem_bitmapValues]
  have ascending := ascending_bitmapValues bitmap
  generalize bitmapValues bitmap = values at ascending
  induction values with
  | nil => simp
  | cons first rest ih =>
    obtain ⟨least, sorted⟩ := pairwise_cons.mp ascending
    have inner := ih sorted
    by_cases low : first ≤ value
    · rw [filter_cons_of_pos (by simpa using low), length_cons, drop_succ_cons, mem_cons]
      apply Iff.trans inner
      constructor
      · exact fun ⟨mem, above⟩ => ⟨Or.inr mem, above⟩
      · rintro ⟨rfl | mem, above⟩
        · omega
        · exact ⟨mem, above⟩
    · -- nothing is dropped: every member is above the value
      have all_ : ∀ w ∈ first :: rest, value < w := by
        intro w mem
        rcases mem_cons.mp mem with rfl | later
        · omega
        · have above := least w later
          omega
      have none_ : ((first :: rest).filter fun mem => decide (mem ≤ value)) = [] := by
        apply filter_eq_nil_iff.mpr
        intro w mem
        have above := all_ w mem
        simp
        omega
      rw [none_]
      exact ⟨fun mem => ⟨mem, all_ v mem⟩, fun both => both.1⟩

theorem mem_drop_rankBefore (value v) :
    v ∈ (bitmapValues bitmap).drop (rankBefore bitmap value) ↔ v ∈ bitmap ∧ value ≤ v := by
  unfold rankBefore
  split
  next zero => simp [zero, mem_bitmapValues]
  next positive =>
    rw [mem_drop_rank]
    have same : value - 1 < v ↔ value ≤ v := by omega
    rw [same]

/-! ### Positions -/

theorem directionOrder_injective : Function.Injective directionOrder := by
  intro a b same
  cases a <;> cases b <;> first | rfl | cases same

theorem positionKey_injective : Function.Injective positionKey := by
  intro p q same
  have parts : (directionOrder p.direction, (p.globalId, p.label)) =
      (directionOrder q.direction, (q.globalId, q.label)) := same
  cases p
  cases q
  simp_all [directionOrder_injective.eq_iff]

theorem positionKey_lt (p q) :
    positionKey p < positionKey q ↔ directionOrder p.direction < directionOrder q.direction ∨
      p.direction = q.direction ∧ (p.globalId < q.globalId ∨
        p.globalId = q.globalId ∧ p.label < q.label) := by
  simp only [positionKey, Prod.Lex.toLex_lt_toLex, directionOrder_injective.eq_iff]

/-- Behind the position where a reading resumes. -/
def Behind (after : Option NeighborhoodCandidatePosition) (p : NeighborhoodCandidatePosition) :
    Prop :=
  ∀ q ∈ after, positionKey q < positionKey p

/-- A bitmap resumes at its first member behind the position. -/
theorem mem_drop_firstCandidateIndex (after) (direction label v) :
    v ∈ (bitmapValues bitmap).drop (firstCandidateIndex bitmap after direction label) ↔
      v ∈ bitmap ∧ Behind after ⟨direction, v, label⟩ := by
  unfold firstCandidateIndex
  cases after with
  | none => simp [Behind, mem_bitmapValues]
  | some q =>
    simp only [Behind, Option.mem_some_iff, forall_eq', positionKey_lt]
    split
    next later => simp [mem_bitmapValues, later]
    next notLater =>
      split
      next earlier =>
        have ended : (bitmapValues bitmap).drop bitmap.size = [] :=
          drop_eq_nil_of_le (le_of_eq (length_bitmapValues bitmap))
        have apart : q.direction ≠ direction := by
          rintro rfl
          exact lt_irrefl _ earlier
        simp [ended, notLater, apart]
      next notEarlier =>
        have same : q.direction = direction :=
          directionOrder_injective (le_antisymm (not_lt.mp notEarlier) (not_lt.mp notLater))
        split
        next low =>
          rw [mem_drop_rank]
          simp [same, not_lt.mpr low]
        next high =>
          rw [mem_drop_rankBefore]
          simp [same, not_le.mp high, le_iff_lt_or_eq]

end GitWarp
