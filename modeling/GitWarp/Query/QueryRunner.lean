import GitWarp.Js.Text
import GitWarp.Lib.OrdMap
import GitWarp.Lib.SortBy

/-!
# Hops of a query

A query carries a working set of nodes through its operations. A hop of depth one collects the
neighbours of the set; any other depth is walked level by level, and a node counts at the
first level that meets it, where the working set itself is level zero. The two therefore part
where a member of the working set is a neighbour of a member.
-/
namespace GitWarp

open Js Lib List

variable (strand : List JsString)

namespace Query

/-! ### The runner -/

inductive QueryDirection
  | outgoing
  | incoming

structure QueryNeighborOptions where
  label : Option JsString
  direction : QueryDirection

structure QueryNeighborEntry where
  nodeId : JsString
  label : JsString

/-- The lookups of a read model that a hop uses. -/
structure QueryReadModel where
  neighbors : JsString → QueryNeighborOptions → List QueryNeighborEntry

def sortIds (ids : OrdSet JsString) : List JsString := sortBy id ids.toList

def collectMatchingNeighbors (readModel : QueryReadModel) (options : QueryNeighborOptions)
    (nodeId : JsString) : List JsString :=
  (readModel.neighbors nodeId options).map QueryNeighborEntry.nodeId

variable (readModel : QueryReadModel) (options : QueryNeighborOptions)

def applyHop (strand : List JsString) : List JsString :=
  sortIds (strand.foldl (fun next nodeId =>
    next.addAll (collectMatchingNeighbors readModel options nodeId)) .empty)

/-- A level under expansion: the nodes met so far and the next level. -/
structure Expansion where
  visited : OrdSet JsString
  nextLevel : OrdSet JsString

def Expansion.meet (e : Expansion) (id : JsString) : Expansion :=
  if id ∈ e.visited then e else ⟨e.visited.add id, e.nextLevel.add id⟩

def expandBfsLevel (currentLevel visited : OrdSet JsString) : Expansion :=
  currentLevel.toList.foldl (fun e nodeId =>
    (collectMatchingNeighbors readModel options nodeId).foldl Expansion.meet e) ⟨visited, .empty⟩

/-- The loop of `runBfsLoop`, with the hops that are left. -/
def bfsHops (minDepth : Nat) :
    Nat → Nat → OrdSet JsString → OrdSet JsString → OrdSet JsString → OrdSet JsString
  | 0, _, _, _, result => result
  | left + 1, hop, visited, currentLevel, result =>
    let e := expandBfsLevel readModel options currentLevel visited
    let result := if hop ≥ minDepth then result.addAll e.nextLevel.toList else result
    if e.nextLevel.size = 0 then result
    else bfsHops minDepth left (hop + 1) e.visited e.nextLevel result

def runBfsLoop (strand : List JsString) (minDepth maxDepth : Nat) : OrdSet JsString :=
  let visited := OrdSet.ofList strand
  bfsHops readModel options minDepth maxDepth 1 visited visited
    (if minDepth = 0 then visited else .empty)

def applyMultiHop (strand : List JsString) (minDepth maxDepth : Nat) : List JsString :=
  sortIds (runBfsLoop readModel options strand minDepth maxDepth)

def applyTraversalOp (strand : List JsString) (minD maxD : Nat) : List JsString :=
  if minD = 1 ∧ maxD = 1 then applyHop readModel options strand
  else applyMultiHop readModel options strand minD maxD

/-! ### What a hop collects -/

variable {readModel options}

theorem mem_sortIds (ids) (x) : x ∈ sortIds ids ↔ x ∈ ids := by
  rw [sortIds, mem_sortBy, OrdSet.mem_toList]

theorem sortIds_eq_iff (ids ids') : sortIds ids = sortIds ids' ↔ ∀ x, x ∈ ids ↔ x ∈ ids' := by
  rw [sortIds, sortIds, sortBy_eq_iff]
  · rfl
  · simpa using ids.nodup
  · simpa using ids'.nodup

theorem mem_applyHop (x) :
    x ∈ applyHop readModel options strand ↔
      ∃ nodeId ∈ strand, x ∈ collectMatchingNeighbors readModel options nodeId := by
  have collected : ∀ next : OrdSet JsString,
      x ∈ strand.foldl (fun next nodeId =>
        next.addAll (collectMatchingNeighbors readModel options nodeId)) next ↔
      x ∈ next ∨ ∃ nodeId ∈ strand, x ∈ collectMatchingNeighbors readModel options nodeId := by
    induction strand with
    | nil => simp
    | cons nodeId strand ih =>
      intro next
      rw [foldl_cons, ih, OrdSet.mem_addAll, exists_mem_cons_iff, or_assoc]
  rw [applyHop, mem_sortIds, collected]
  simp

theorem mem_meetAll (ids : List JsString) (e) (x) :
    (x ∈ (ids.foldl Expansion.meet e).visited ↔ x ∈ e.visited ∨ x ∈ ids) ∧
      (x ∈ (ids.foldl Expansion.meet e).nextLevel ↔
        x ∈ e.nextLevel ∨ (x ∈ ids ∧ x ∉ e.visited)) := by
  induction ids generalizing e with
  | nil => simp
  | cons id ids ih =>
    obtain ⟨visited, next⟩ := ih (e.meet id)
    rw [foldl_cons, visited, next, Expansion.meet]
    split
    next known =>
      -- a node that was met before changes nothing
      constructor
      · simp only [mem_cons]
        grind
      · simp only [mem_cons]
        grind
    next fresh =>
      simp only [OrdSet.mem_add, mem_cons]
      constructor
      · grind
      · grind

theorem mem_expandBfsLevel (currentLevel visited) (x) :
    x ∈ (expandBfsLevel readModel options currentLevel visited).nextLevel ↔
      (∃ nodeId ∈ currentLevel, x ∈ collectMatchingNeighbors readModel options nodeId) ∧
        x ∉ visited := by
  -- the next level holds the neighbours of the level that were not met before
  have expanded : ∀ (level : List JsString) (e : Expansion), (∀ y ∈ e.nextLevel, y ∈ e.visited) →
      (x ∈ (level.foldl (fun e nodeId =>
        (collectMatchingNeighbors readModel options nodeId).foldl Expansion.meet e) e).nextLevel ↔
      x ∈ e.nextLevel ∨ (∃ nodeId ∈ level, x ∈ collectMatchingNeighbors readModel options nodeId) ∧
          x ∉ e.visited) := by
    intro level
    induction level with
    | nil => simp
    | cons nodeId level ih =>
      intro e within
      rw [foldl_cons, ih]
      · obtain ⟨visited, next⟩ :=
          mem_meetAll (collectMatchingNeighbors readModel options nodeId) e x
        grind
      · intro y mem
        obtain ⟨visited, next⟩ :=
          mem_meetAll (collectMatchingNeighbors readModel options nodeId) e y
        rw [visited]
        rcases next.mp mem with before | ⟨listed, -⟩
        · exact Or.inl (within y before)
        · exact Or.inr listed
  rw [expandBfsLevel, expanded _ _ (by simp)]
  simp

theorem subset_bfsHops (minDepth left hop) (visited currentLevel result) (x) (mem : x ∈ result) :
    x ∈ bfsHops readModel options minDepth left hop visited currentLevel result := by
  induction left generalizing hop visited currentLevel result with
  | zero => exact mem
  | succ left ih =>
    rw [bfsHops]
    have kept : x ∈ (if hop ≥ minDepth then result.addAll
        (expandBfsLevel readModel options currentLevel visited).nextLevel.toList else result) := by
      split
      · exact (OrdSet.mem_addAll _).mpr (Or.inl mem)
      · exact mem
    split
    · exact kept
    · exact ih _ _ _ _ kept

theorem bfsHops_mono (more hop) (visited currentLevel result) (longer : left ≤ more) (x)
    (mem : x ∈ bfsHops readModel options minDepth left hop visited currentLevel result) :
    x ∈ bfsHops readModel options minDepth more hop visited currentLevel result := by
  induction left generalizing more hop visited currentLevel result with
  | zero => exact subset_bfsHops _ _ _ _ _ _ x mem
  | succ left ih =>
    cases more with
    | zero => omega
    | succ more =>
      rw [bfsHops] at mem ⊢
      split at mem
      next last =>
        rw [if_pos last]
        exact mem
      next further =>
        rw [if_neg further]
        exact ih more _ _ _ _ (by omega) mem

theorem applyMultiHop_mono (longer : maxDepth ≤ more) :
    applyMultiHop readModel options strand minDepth maxDepth ⊆
      applyMultiHop readModel options strand minDepth more := by
  intro x mem
  rw [applyMultiHop, mem_sortIds] at mem ⊢
  exact bfsHops_mono more 1 _ _ _ longer x mem

theorem mem_applyMultiHop_one (x) :
    x ∈ applyMultiHop readModel options strand 1 1 ↔
      (∃ nodeId ∈ strand, x ∈ collectMatchingNeighbors readModel options nodeId) ∧
        x ∉ strand := by
  rw [applyMultiHop, mem_sortIds, runBfsLoop, bfsHops]
  simp only [bfsHops, ge_iff_le, Nat.le_refl, if_true, ite_self, OrdSet.mem_addAll,
    OrdSet.mem_toList, mem_expandBfsLevel, OrdSet.mem_ofList]
  simp

/-- No member of the working set is a neighbour of a member. -/
def Apart (readModel : QueryReadModel) (options : QueryNeighborOptions) (strand : List JsString) :
    Prop :=
  ∀ nodeId ∈ strand, ∀ x ∈ collectMatchingNeighbors readModel options nodeId, x ∉ strand

instance (readModel : QueryReadModel) (options : QueryNeighborOptions) (strand : List JsString) :
    Decidable (Apart readModel options strand) :=
  inferInstanceAs (Decidable (∀ nodeId ∈ strand, ∀ x ∈ _, x ∉ strand))

theorem applyHop_eq_iff :
    applyHop readModel options strand = applyMultiHop readModel options strand 1 1 ↔
      Apart readModel options strand := by
  constructor
  · intro same nodeId member x neighbor inside
    have collected := (mem_applyHop strand x).mpr ⟨nodeId, member, neighbor⟩
    rw [same, mem_applyMultiHop_one] at collected
    exact collected.2 inside
  · intro apart
    rw [applyHop, applyMultiHop, sortIds_eq_iff]
    intro x
    rw [← mem_sortIds, ← mem_sortIds, ← applyHop, ← applyMultiHop, mem_applyHop,
      mem_applyMultiHop_one]
    constructor
    · rintro ⟨nodeId, member, neighbor⟩
      exact ⟨⟨nodeId, member, neighbor⟩, apart nodeId member x neighbor⟩
    · exact fun both => both.1

/-- The hop of depth one is the walk at depth one, and a larger maximal depth only adds nodes,
exactly when no member of the working set is a neighbour of a member. -/
theorem hops_consistent_iff (readModel : QueryReadModel) (options : QueryNeighborOptions)
    (strand : List JsString) :
    (applyTraversalOp readModel options strand 1 1 = applyMultiHop readModel options strand 1 1 ∧
      ∀ a b c, a ≤ b → b ≤ c → applyTraversalOp readModel options strand a b ⊆
        applyTraversalOp readModel options strand a c) ↔
      Apart readModel options strand := by
  have fast : applyTraversalOp readModel options strand 1 1 = applyHop readModel options strand := by
    simp [applyTraversalOp]
  constructor
  · rintro ⟨same, -⟩
    exact (applyHop_eq_iff strand).mp (fast ▸ same)
  · intro apart
    have walked := (applyHop_eq_iff strand).mpr apart
    -- under the condition every depth is walked
    have general : ∀ a b, applyTraversalOp readModel options strand a b =
        applyMultiHop readModel options strand a b := by
      intro a b
      unfold applyTraversalOp
      split
      next one =>
        rw [one.1, one.2]
        exact walked
      next => rfl
    refine ⟨general 1 1, fun a b c _ longer => ?_⟩
    rw [general, general]
    exact applyMultiHop_mono strand longer

/-! ### A pair of neighbours -/

/-- Edges `a → b` and `b → a`. -/
def mutualNeighbors : QueryReadModel :=
  ⟨fun nodeId _ =>
    if nodeId = lit "a" then [⟨lit "b", lit "l"⟩]
    else if nodeId = lit "b" then [⟨lit "a", lit "l"⟩]
    else []⟩

/-- From both nodes one hop finds both, and the walk of depth one to two finds none. -/
theorem hops_inconsistent :
    applyTraversalOp mutualNeighbors ⟨none, .outgoing⟩ [lit "a", lit "b"] 1 1 = [lit "a", lit "b"] ∧
    applyMultiHop mutualNeighbors ⟨none, .outgoing⟩ [lit "a", lit "b"] 1 1 = [] ∧
    applyTraversalOp mutualNeighbors ⟨none, .outgoing⟩ [lit "a", lit "b"] 1 2 = [] := by
  decide +kernel

end Query
end GitWarp
