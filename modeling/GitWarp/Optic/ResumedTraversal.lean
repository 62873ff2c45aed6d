import GitWarp.Lib.Crawl
import GitWarp.Optic.CheckpointTailTraversalReader
import GitWarp.Optic.LosslessPaging

/-!
# Resuming a traversal

The reads of a traversal are compared with one breadth-first crawl without limits:
a cursor holds a state of that crawl, and a read takes some of its edges off. As the
cursor keeps the visited nodes, a read that is stopped by their number is stopped
again and again.
-/
namespace GitWarp

open Js Lib List

variable {V : Type}

open IndexTree (Direction)

variable {steps : List (CrawlStep JsString NeighborhoodOpticEdge)}
  {options : TraversalOpticReadOptions} {queue : List (Place JsString)} {all seen : Finset JsString}
  {start : JsString} {cursor : Option TraversalOpticCursor} {state : TraversalRunState}
  {page : NeighborhoodPage} (visited : OrdSet JsString)

namespace CheckpointTailTraversalReader

/-! ### Reads of pages -/

section

variable (edgesOf : JsString → List NeighborhoodOpticEdge)
  (stands : JsString → Option JsString → Nat → Prop)

/-- A page holds the edges of a node from a place on, and cursors that stand for places. -/
structure PageFrom (x : JsString) (k size : Nat) (page : NeighborhoodPage) : Prop where
  edges : page.edges = ((edgesOf x).drop k).take size
  ends : page.cursor = none → (edgesOf x).length ≤ k + size
  goes : ∀ next, page.cursor = some next →
    k + size < (edgesOf x).length ∧ stands x (some next) (k + size)
  resumes : ∀ i < page.edges.length, ∃ cursor, page.resumeCursors[i]? = some cursor ∧
    stands x cursor (k + i)

/-- How neighbourhoods are read page by page. -/
structure Paged (readNeighborhood : TraversalNeighborhoodRead) (direction : Direction)
    (labels : List JsString) : Prop where
  start : ∀ x, stands x none 0
  page : ∀ x cursor k (size : Nat), stands x cursor k → 0 < size → size ≤ 1000 →
    ∃ page, readNeighborhood x ⟨some direction, some labels, cursor, some size⟩ = .ok page ∧
      PageFrom edgesOf stands x k size page
  refused : ∀ x cursor (size : Nat), 1000 < size →
    ∃ failure, readNeighborhood x ⟨some direction, some labels, cursor, some size⟩ = .error failure

variable {edgesOf stands}

section

variable (from_ : PageFrom edgesOf stands x k size page)
include from_

theorem PageFrom.at (i) (edge) (here : page.edges[i]? = some edge) :
    (edgesOf x)[k + i]? = some edge := by
  rw [from_.edges, List.getElem?_take] at here
  split at here
  next => rw [← here, List.getElem?_drop]
  next => cases here

theorem PageFrom.passed (ended : page.cursor = none) :
    (edgesOf x)[k + page.edges.length]? = none := by
  have short := from_.ends ended
  rw [List.getElem?_eq_none_iff, from_.edges, length_take, length_drop]
  omega

theorem PageFrom.full {next} (goes : page.cursor = some next) : page.edges.length = size := by
  have longer := (from_.goes next goes).1
  rw [from_.edges, length_take, length_drop]
  omega

end

end

/-! ### States of a run -/

def seenOf (visited : OrdSet JsString) : Finset JsString := visited.toList.toFinset

theorem mem_seenOf : x ∈ seenOf visited ↔ x ∈ visited :=
  mem_toFinset

theorem card_seenOf : (seenOf visited).card = visited.size :=
  toFinset_card_of_nodup visited.nodup

theorem seenOf_add (x) : seenOf (visited.add x) = insert x (seenOf visited) := by
  ext y
  rw [mem_seenOf, OrdSet.mem_add, Finset.mem_insert, mem_seenOf, or_comm]

theorem seenOf_ofList (ids) : seenOf (.ofList ids) = ids.toFinset := by
  ext y
  rw [mem_seenOf, OrdSet.mem_ofList, mem_toFinset]

def listedEdge (step : CrawlStep JsString NeighborhoodOpticEdge) : TraversalOpticEdge :=
  traversalEdge step.source step.edge step.depth

def crawlOf (edgesOf : JsString → List NeighborhoodOpticEdge)
    (traversal : NormalizedTraversalOptions) : Crawl JsString NeighborhoodOpticEdge where
  edgesOf := edgesOf
  target := NeighborhoodOpticEdge.neighborId
  maxDepth := traversal.maxDepth
  goal := traversal.goalNodeId

section

variable (edgesOf : JsString → List NeighborhoodOpticEdge)
  (stands : JsString → Option JsString → Nat → Prop) (traversal : NormalizedTraversalOptions)

structure EntryAt (entry : TraversalOpticFrontierEntry) (p : Place JsString) : Prop where
  node : entry.nodeId = p.node
  depth : entry.depth = p.depth
  cursor : stands p.node entry.edgeCursor p.listed

structure StateAt (state : TraversalRunState) (queue : List (Place JsString)) : Prop where
  same : state.traversal = traversal
  frontier : List.Forall₂ (EntryAt stands) state.frontier queue
  room : state.visited.size ≤ traversal.maxNodes
  away : ∀ goal, traversal.goalNodeId = some goal → goal ∉ seenOf state.visited

/-- What a read can come to: it has listed all steps, or it has listed some and its cursor is the
state of the crawl behind them. It stops early only if the nodes are too many. -/
inductive Stopped (before : List TraversalOpticEdge)
    (steps : List (CrawlStep JsString NeighborhoodOpticEdge)) (all : Finset JsString)
    (result : TraversalOpticReadResult) : Prop
  | ended (none_ : result.cursor = none) (edges : result.edges = before ++ steps.map listedEdge)
      (room : all.card ≤ traversal.maxNodes)
  | opened (cursor : TraversalOpticCursor) (queue : List (Place JsString))
      (first rest : List (CrawlStep JsString NeighborhoodOpticEdge))
      (resumes : result.cursor = some cursor) (cut : steps = first ++ rest)
      (edges : result.edges = before ++ first.map listedEdge)
      (frontier : List.Forall₂ (EntryAt stands) cursor.frontier queue)
      (room : cursor.visitedNodeIds.toFinset.card ≤ traversal.maxNodes)
      (away : ∀ goal, traversal.goalNodeId = some goal → goal ∉ cursor.visitedNodeIds.toFinset)
      (lists : (crawlOf edgesOf traversal).Lists cursor.visitedNodeIds.toFinset queue rest all)
      (enough : traversal.maxNodes < all.card ∨ traversal.maxEdges ≤ result.edges.length)

/-- What a step of a run can come to; `rounds` bounds the rounds that are left. -/
inductive Outcome (before : List TraversalOpticEdge)
    (steps : List (CrawlStep JsString NeighborhoodOpticEdge)) (all : Finset JsString)
    (rounds : Nat) : TraversalExpansion → Prop
  | stopped (result : TraversalOpticReadResult)
      (stop : Stopped edgesOf stands traversal before steps all result) :
      Outcome before steps all rounds (.result result)
  | goes (state : TraversalRunState) (queue : List (Place JsString))
      (first rest : List (CrawlStep JsString NeighborhoodOpticEdge)) (cut : steps = first ++ rest)
      (edges : state.resultEdges = before ++ first.map listedEdge)
      (at_ : StateAt stands traversal state queue)
      (lists : (crawlOf edgesOf traversal).Lists (seenOf state.visited) queue rest all)
      (fewer : state.frontier.length + (traversal.maxNodes - state.visited.size) ≤ rounds) :
      Outcome before steps all rounds (.proceed state)

/-- Where a read starts: at its node, or in the state that a cursor holds. -/
inductive Standing (start : JsString) :
    Option TraversalOpticCursor → Finset JsString → List (Place JsString) → Prop
  | fresh : Standing start none {start} [⟨start, 0, 0⟩]
  | resumed (cursor : TraversalOpticCursor) (queue : List (Place JsString))
      (frontier : List.Forall₂ (EntryAt stands) cursor.frontier queue) :
      Standing start (some cursor) cursor.visitedNodeIds.toFinset queue

variable {edgesOf stands traversal}

theorem Stopped.append {all}
    (stop : Stopped edgesOf stands traversal (before ++ first.map listedEdge) rest all result) :
    Stopped edgesOf stands traversal before (first ++ rest) all result := by
  cases stop with
  | ended none_ edges room => exact .ended none_ (by simpa using edges) room
  | opened cursor queue next rest resumes cut edges frontier room away lists enough =>
    exact .opened cursor queue (first ++ next) rest resumes (by rw [cut, append_assoc])
      (by simpa using edges) frontier room away lists enough

theorem Outcome.cons {all}
    (comes : Outcome edgesOf stands traversal (before ++ [listedEdge step]) steps all rounds
      outcome) (le : rounds ≤ rounds') :
    Outcome edgesOf stands traversal before (step :: steps) all rounds' outcome := by
  cases comes with
  | stopped result stop =>
    have single : [listedEdge step] = [step].map listedEdge := rfl
    rw [single] at stop
    exact .stopped result stop.append
  | goes state queue first rest cut edges at_ lists fewer =>
    exact .goes state queue (step :: first) rest (by rw [cut, cons_append])
      (by simpa using edges) at_ lists (fewer.trans le)

variable (state) in
theorem opened_at {all} (at_ : StateAt stands traversal state queue)
    (lists : (crawlOf edgesOf traversal).Lists (seenOf state.visited) queue steps all)
    (enough : traversal.maxNodes < all.card ∨ traversal.maxEdges ≤ state.resultEdges.length) :
    Stopped edgesOf stands traversal state.resultEdges steps all (openTraversalResult state) := by
  have seen : (sortBy id state.visited.toList).toFinset = seenOf state.visited := by
    ext x
    simp [seenOf]
  refine .opened (.create state.frontier state.visited.toList) queue [] steps rfl rfl
    (append_nil _).symm at_.frontier ?_ ?_ ?_ enough
  · rw [TraversalOpticCursor.create, seen, card_seenOf]
    exact at_.room
  · rw [TraversalOpticCursor.create, seen]
    exact at_.away
  · rw [TraversalOpticCursor.create, seen]
    exact lists

/-! ### A page -/

theorem processEdges_spec (entry : EntryAt stands current p) (within : p.depth < traversal.maxDepth)
    (from_ : PageFrom edgesOf stands p.node p.listed size page) (start : ∀ x, stands x none 0)
    (edges) (i) (suffix : edges = page.edges.drop i) (inside : i ≤ page.edges.length)
    (state queue steps) (at_ : StateAt stands traversal state queue)
    (lists : (crawlOf edgesOf traversal).Lists (seenOf state.visited)
      ({ p with listed := p.listed + i } :: queue) steps all) (full : page.cursor ≠ none →
      traversal.maxEdges ≤ state.resultEdges.length + edges.length) :
    ∃ outcome, processEdges current page i edges state = .ok outcome ∧
      Outcome edgesOf stands traversal state.resultEdges steps all
        (state.frontier.length + (traversal.maxNodes - state.visited.size)) outcome := by
  -- the edges of a page are listed as the crawl lists them
  induction edges generalizing i state queue steps with
  | nil =>
    have last : i = page.edges.length := by
      have ended := drop_eq_nil_iff.mp suffix.symm
      omega
    subst last
    rw [processEdges]
    cases goes : page.cursor with
    | none =>
      have passed := lists.of_passed (from_.passed goes)
      exact ⟨_, rfl, .goes state queue [] steps rfl (append_nil _).symm at_ passed le_rfl⟩
    | some next =>
      -- the page is full, and the entry goes back to the front with its cursor
      refine ⟨_, rfl, .stopped _ (opened_at { state with
        frontier := ⟨current.nodeId, current.depth, some next⟩ :: state.frontier } ?_ lists
        (Or.inr ?_))⟩
      · refine ⟨at_.same, .cons ⟨entry.node, entry.depth, ?_⟩ at_.frontier, at_.room, at_.away⟩
        have place := (from_.goes next goes).2
        rw [← from_.full goes] at place
        exact place
      · simpa [goes] using full
  | cons edge rest ih =>
    have here : page.edges[i]? = some edge := by
      have first := congrArg (fun l => l[0]?) suffix
      simpa using first.symm
    have edgeAt := from_.at i edge here
    obtain ⟨less, -⟩ := List.getElem?_eq_some_iff.mp here
    obtain ⟨cursor, offered, stands_⟩ := from_.resumes i less
    have later : rest = page.edges.drop (i + 1) := by
      rw [← drop_drop, ← suffix]
      rfl
    have counted : page.cursor ≠ none → traversal.maxEdges ≤
        (state.resultEdges ++ [traversalEdge p.node edge (p.depth + 1)]).length +
          rest.length := by
      intro some_
      have bound := full some_
      rw [length_cons] at bound
      rw [length_append, length_singleton]
      omega
    have depth : (crawlOf edgesOf traversal).maxDepth = traversal.maxDepth := rfl
    have goal : (crawlOf edgesOf traversal).goal = traversal.goalNodeId := rfl
    rw [processEdges, resumeCursorForEdge, offered, entry.node, entry.depth]
    simp only [bind, Except.bind]
    by_cases old : edge.neighborId ∈ state.visited
    · -- the node is known: only the edge is listed
      obtain ⟨left, rfl, lists'⟩ := lists.of_known within edgeAt ((mem_seenOf _).mpr old)
      obtain ⟨outcome, ok, comes⟩ := ih (i + 1) later less
        { state with resultEdges := state.resultEdges ++ [traversalEdge p.node edge (p.depth + 1)] }
        queue left ⟨at_.same, at_.frontier, at_.room, at_.away⟩ lists' counted
      refine ⟨outcome, ?_, comes.cons le_rfl⟩
      rw [maybeOpenForNodeLimit, if_pos (Or.inl ((OrdSet.has_iff _ _).mpr old))]
      simp only [addTraversalNeighbor, (OrdSet.has_iff _ _).mpr old, if_true]
      exact ok
    · have new : edge.neighborId ∉ seenOf state.visited := fun seen => old ((mem_seenOf _).mp seen)
      have absent := (OrdSet.has_eq_false_iff _ _).mpr old
      by_cases room : state.visited.size < traversal.maxNodes
      · rw [maybeOpenForNodeLimit, if_pos (Or.inr (by rw [at_.same]; exact room))]
        simp only [addTraversalNeighbor, absent, Bool.false_eq_true, if_false]
        have grown : (state.visited.add edge.neighborId).size = state.visited.size + 1 :=
          OrdSet.size_add _ _ old
        rcases lists.of_new within edgeAt new with ⟨found, rfl, rfl⟩ | ⟨missed, left, rfl, lists'⟩
        · -- the goal: the read ends, and so does the crawl
          rw [goal] at found
          refine ⟨_, by rw [if_pos (by rw [at_.same]; exact found)]; rfl, .stopped _ (.ended rfl rfl ?_)⟩
          change (insert edge.neighborId (seenOf state.visited)).card ≤ _
          rw [← seenOf_add, card_seenOf, grown]
          exact room
        · rw [goal] at missed
          rw [if_neg (by rw [at_.same]; exact missed), at_.same]
          change (crawlOf edgesOf traversal).Lists (insert edge.neighborId (seenOf state.visited))
            _ left all at lists'
          rw [← seenOf_add] at lists'
          have away : ∀ goal, traversal.goalNodeId = some goal →
              goal ∉ seenOf (state.visited.add edge.neighborId) := by
            intro goal named mem
            rw [seenOf_add, Finset.mem_insert] at mem
            rcases mem with rfl | mem
            · exact missed named
            · exact at_.away goal named mem
          by_cases deeper : p.depth + 1 < traversal.maxDepth
          · rw [if_pos deeper]
            rw [Crawl.queued, if_pos (by rw [depth]; exact deeper), cons_append] at lists'
            obtain ⟨outcome, ok, comes⟩ := ih (i + 1) later less
              ⟨traversal, state.visited.add edge.neighborId,
                state.frontier ++ [(⟨edge.neighborId, p.depth + 1, none⟩ :
                  TraversalOpticFrontierEntry)],
                state.resultEdges ++ [traversalEdge p.node edge (p.depth + 1)]⟩
              (queue ++ [(⟨edge.neighborId, p.depth + 1, 0⟩ : Place JsString)]) left
              ⟨rfl, rel_append at_.frontier (.cons ⟨rfl, rfl, start _⟩ .nil), by
                dsimp only; omega, away⟩ lists' counted
            refine ⟨outcome, ok, comes.cons ?_⟩
            simp only [length_append, length_singleton]
            omega
          · rw [if_neg deeper]
            rw [Crawl.queued, if_neg (by rw [depth]; exact deeper), append_nil] at lists'
            obtain ⟨outcome, ok, comes⟩ := ih (i + 1) later less
              ⟨traversal, state.visited.add edge.neighborId, state.frontier,
                state.resultEdges ++ [traversalEdge p.node edge (p.depth + 1)]⟩ queue left
              ⟨rfl, at_.frontier, by dsimp only; omega, away⟩ lists' counted
            refine ⟨outcome, ok, comes.cons ?_⟩
            dsimp only
            omega
      · -- one node more is too many: the crawl is left where it is
        have more := lists.card_lt within edgeAt new
        rw [card_seenOf] at more
        rw [maybeOpenForNodeLimit, if_neg (by rw [at_.same, absent]; simpa using room)]
        refine ⟨_, rfl, .stopped _ (opened_at { state with
          frontier := ⟨current.nodeId, current.depth, cursor⟩ :: state.frontier } ?_ lists
          (Or.inl ?_))⟩
        · exact ⟨at_.same, .cons ⟨entry.node, entry.depth, stands_⟩ at_.frontier, at_.room, at_.away⟩
        · omega

/-! ### A read -/

theorem normalizeTraversalOptions_cursor
    (accepted : normalizeTraversalOptions start options = .ok traversal) :
    normalizeTraversalOptions start { options with cursor } = .ok { traversal with cursor } := by
  unfold normalizeTraversalOptions at accepted ⊢
  dsimp only at accepted ⊢
  split at accepted
  next => cases accepted
  next usual =>
    rw [if_neg usual]
    simp only [bind_eq_ok] at accepted ⊢
    obtain ⟨maxDepth, deep, maxNodes, nodes, maxEdges, edges, made⟩ := accepted
    cases made
    exact ⟨maxDepth, deep, maxNodes, nodes, maxEdges, edges, rfl⟩

theorem requireTraversalBound_ok (ok : requireTraversalBound least message value = .ok n) :
    least ≤ n := by
  unfold requireTraversalBound at ok
  split at ok
  next => cases ok
  next value =>
    split at ok
    next => cases ok
    next fits =>
      cases ok
      omega

theorem normalizeTraversalOptions_bounds
    (accepted : normalizeTraversalOptions start options = .ok traversal) :
    0 < traversal.maxNodes ∧ 0 < traversal.maxEdges := by
  unfold normalizeTraversalOptions at accepted
  dsimp only at accepted
  split at accepted
  next => cases accepted
  next =>
    simp only [bind_eq_ok] at accepted
    obtain ⟨maxDepth, deep, maxNodes, nodes, maxEdges, edges, made⟩ := accepted
    cases made
    have someNodes := requireTraversalBound_ok nodes
    have someEdges := requireTraversalBound_ok edges
    dsimp only
    omega

theorem drained_spec {all} (at_ : StateAt stands traversal state queue)
    (lists : (crawlOf edgesOf traversal).Lists (seenOf state.visited) queue steps all)
    (none_ : state.frontier = []) : Stopped edgesOf stands traversal state.resultEdges steps all
      (traversalStateResult state (drainedFrontierCompleteness state)) := by
  have empty_ := at_.frontier
  rw [none_, forall₂_nil_left_iff] at empty_
  subst empty_
  cases lists with
  | done =>
    refine .ended ?_ (append_nil _).symm (by rw [card_seenOf]; exact at_.room)
    rw [traversalStateResult, traversalResult, traversalCursor, drainedFrontierCompleteness]
    split <;> rfl

variable {readNeighborhood : TraversalNeighborhoodRead}

section

variable (paged : Paged edgesOf stands readNeighborhood traversal.direction traversal.labels)
  (narrow : traversal.maxEdges ≤ 1000 ∨ traversal.maxDepth = 0)

include paged narrow

theorem expandFrontierEntry_spec {all} (entry : EntryAt stands current p)
    (at_ : StateAt stands traversal state queue)
    (lists : (crawlOf edgesOf traversal).Lists (seenOf state.visited) (p :: queue) steps all)
    (room : state.resultEdges.length < traversal.maxEdges) :
    ∃ outcome, expandFrontierEntry readNeighborhood state current = .ok outcome ∧
      Outcome edgesOf stands traversal state.resultEdges steps all
        (state.frontier.length + (traversal.maxNodes - state.visited.size)) outcome := by
  rw [expandFrontierEntry, at_.same, entry.depth]
  by_cases end_ : traversal.maxDepth ≤ p.depth
  · rw [if_pos end_]
    exact ⟨_, rfl, .goes state queue [] steps rfl (append_nil _).symm at_ (lists.of_deep end_)
      le_rfl⟩
  · rw [if_neg end_]
    -- the page is as long as the edges that may still be listed
    obtain ⟨page, ok, from_⟩ := paged.page p.node current.edgeCursor p.listed
      (traversal.maxEdges - state.resultEdges.length) entry.cursor (by omega) (by omega)
    have limit : (traversal.maxEdges : Int) - state.resultEdges.length =
        ((traversal.maxEdges - state.resultEdges.length : Nat) : Int) := by omega
    rw [readNeighborhoodForEntry, entry.node, limit, ok]
    apply processEdges_spec entry (not_le.mp end_) from_ paged.start page.edges 0 rfl (Nat.zero_le _)
      state queue steps at_ lists
    intro some_
    obtain ⟨next, goes⟩ := Option.ne_none_iff_exists'.mp some_
    rw [from_.full goes]
    omega

theorem drainFrontier_spec {all} (fuel) (at_ : StateAt stands traversal state queue)
    (lists : (crawlOf edgesOf traversal).Lists (seenOf state.visited) queue steps all)
    (rounds : state.frontier.length + (traversal.maxNodes - state.visited.size) ≤ fuel) :
    ∃ result, drainFrontier readNeighborhood fuel state = .ok result ∧
      Stopped edgesOf stands traversal state.resultEdges steps all result := by
  -- a run takes steps of the crawl until it stops
  induction fuel generalizing state queue steps with
  | zero => exact ⟨_, rfl, drained_spec at_ lists (length_eq_zero_iff.mp (by omega))⟩
  | succ fuel ih =>
    rw [drainFrontier]
    split
    next none_ => exact ⟨_, rfl, drained_spec at_ lists none_⟩
    next current rest shape =>
      obtain ⟨p, queue', entry, others, rfl⟩ : ∃ p queue', EntryAt stands current p ∧
          List.Forall₂ (EntryAt stands) rest queue' ∧ queue = p :: queue' := by
        have front := at_.frontier
        rw [shape] at front
        cases front with
        | cons entry others => exact ⟨_, _, entry, others, rfl⟩
      rw [at_.same]
      split
      next full => exact ⟨_, rfl, opened_at _ at_ lists (Or.inr full)⟩
      next few =>
        have behind : StateAt stands traversal
            ⟨traversal, state.visited, rest, state.resultEdges⟩ _ :=
          ⟨rfl, others, at_.room, at_.away⟩
        obtain ⟨outcome, ok, comes⟩ :=
          expandFrontierEntry_spec paged narrow entry behind lists (not_le.mp few)
        simp only [bind, Except.bind]
        rw [ok]
        cases comes with
        | stopped result stop => exact ⟨result, rfl, stop⟩
        | goes state' queue' first left cut edges at' lists' fewer =>
          rw [shape, length_cons] at rounds
          dsimp only at fewer
          obtain ⟨result, read, stop⟩ := ih at' lists' (by omega)
          rw [edges] at stop
          exact ⟨result, read, cut ▸ stop.append⟩

theorem read_spec {all} (accepted : normalizeTraversalOptions start options = .ok traversal)
    (standing : Standing stands start cursor seen queue) (room : seen.card ≤ traversal.maxNodes)
    (away : ∀ goal, traversal.goalNodeId = some goal → goal ∉ seen)
    (lists : (crawlOf edgesOf traversal).Lists seen queue steps all) :
    ∃ result, read readNeighborhood start { options with cursor } = .ok result ∧
      Stopped edgesOf stands traversal [] steps all result := by
  -- only the cursor tells the options of this read from those of the first one
  obtain ⟨state, created, at_, visited, first⟩ : ∃ state,
      createTraversalRunState start { options with cursor } = .ok state ∧
      StateAt stands { traversal with cursor } state queue ∧ seenOf state.visited = seen ∧
      state.resultEdges = [] := by
    rw [createTraversalRunState, normalizeTraversalOptions_cursor accepted]
    refine ⟨_, rfl, ?_⟩
    cases standing with
    | fresh =>
      have seen : seenOf (.ofList [start]) = {start} := by rw [seenOf_ofList]; rfl
      refine ⟨⟨rfl, .cons ⟨rfl, rfl, paged.start start⟩ .nil, ?_, ?_⟩, seen, rfl⟩
      · rw [← card_seenOf]
        exact le_of_eq_of_le (congrArg Finset.card seen) room
      · intro goal named mem
        exact away goal named (seen ▸ mem)
    | resumed cursor queue frontier =>
      have seen := seenOf_ofList cursor.visitedNodeIds
      refine ⟨⟨rfl, frontier, ?_, ?_⟩, seen, rfl⟩
      · rw [← card_seenOf]
        exact le_of_eq_of_le (congrArg Finset.card seen) room
      · intro goal named mem
        exact away goal named (seen ▸ mem)
  have open_ : isGoalAlreadyVisited state = false := by
    rw [isGoalAlreadyVisited, at_.same]
    dsimp only
    split
    next => rfl
    next goal named =>
      rw [OrdSet.has_eq_false_iff, ← mem_seenOf, visited]
      exact away goal named
  have paged' : Paged edgesOf stands readNeighborhood
      ({ traversal with cursor } : NormalizedTraversalOptions).direction
      ({ traversal with cursor } : NormalizedTraversalOptions).labels := paged
  have lists' : (crawlOf edgesOf { traversal with cursor }).Lists (seenOf state.visited) queue steps
      all := by
    rw [visited]
    exact lists
  obtain ⟨result, ok, stop⟩ := drainFrontier_spec paged' narrow
    (state.frontier.length + state.traversal.maxNodes) at_ lists' (by rw [at_.same]; omega)
  refine ⟨result, ?_, ?_⟩
  · rw [read, created]
    simp only [bind, Except.bind, open_, Bool.false_eq_true, if_false]
    exact ok
  · rw [first] at stop
    cases stop with
    | ended none_ edges room => exact .ended none_ edges room
    | opened cursor queue first rest resumes cut edges frontier room away lists enough =>
      exact .opened cursor queue first rest resumes cut edges frontier room away lists enough

/-! ### All reads -/

/-- Where the nodes are few enough, the reads list the crawl to its end. -/
theorem resumed_of_room {all} (accepted : normalizeTraversalOptions start options = .ok traversal)
    (standing : Standing stands start cursor seen queue) (room : seen.card ≤ traversal.maxNodes)
    (away : ∀ goal, traversal.goalNodeId = some goal → goal ∉ seen)
    (lists : (crawlOf edgesOf traversal).Lists seen queue steps all)
    (fits : all.card ≤ traversal.maxNodes) :
    Resumed readNeighborhood start options cursor (steps.map listedEdge) := by
  -- every read that does not end the crawl lists an edge
  induction left : steps.length using Nat.strongRecOn generalizing cursor seen queue steps with
  | ind n ih =>
    obtain ⟨result, ok, stop⟩ := read_spec paged narrow accepted standing room away lists
    cases stop with
    | ended none_ edges _ =>
      have whole := Resumed.last cursor result ok none_
      rw [edges] at whole
      exact whole
    | opened next queue' first rest resumes cut edges frontier room' away' lists' enough =>
      have positive := (normalizeTraversalOptions_bounds accepted).2
      have listed := congrArg List.length edges
      rw [nil_append, length_map] at listed
      subst cut
      rw [length_append] at left
      have later := ih rest.length (by omega) (.resumed next queue' frontier) room' away' lists' rfl
      have whole := Resumed.more cursor result next _ ok resumes later
      rw [edges, nil_append, ← map_append] at whole
      exact whole

theorem not_resumed {all} (accepted : normalizeTraversalOptions start options = .ok traversal)
    (resumed : Resumed readNeighborhood start options cursor edges)
    (standing : Standing stands start cursor seen queue) (room : seen.card ≤ traversal.maxNodes)
    (away : ∀ goal, traversal.goalNodeId = some goal → goal ∉ seen)
    (lists : (crawlOf edgesOf traversal).Lists seen queue steps all) :
    all.card ≤ traversal.maxNodes := by
  -- where the nodes are too many, no read is the last one
  induction resumed generalizing seen queue steps with
  | last cursor result ok ended =>
    obtain ⟨result', ok', stop⟩ := read_spec paged narrow accepted standing room away lists
    rw [ok] at ok'
    cases ok'
    cases stop with
    | ended _ _ fits => exact fits
    | opened next _ _ _ resumes =>
      rw [ended] at resumes
      cases resumes
  | more cursor result next rest ok resumes later ih =>
    obtain ⟨result', ok', stop⟩ := read_spec paged narrow accepted standing room away lists
    rw [ok] at ok'
    cases ok'
    cases stop with
    | ended _ _ fits => exact fits
    | opened next' queue' _ _ resumes' _ _ frontier room' away' lists' _ =>
      rw [resumes] at resumes'
      cases resumes'
      exact ih (.resumed next queue' frontier) room' away' lists'

end

theorem Resumed.unique (resumed : Resumed readNeighborhood start options cursor edges)
    (other : Resumed readNeighborhood start options cursor edges') : edges = edges' := by
  induction resumed generalizing edges' with
  | last cursor result ok ended =>
    cases other with
    | last _ result' ok' _ =>
      rw [ok] at ok'
      cases ok'
      rfl
    | more _ result' next rest ok' resumes _ =>
      rw [ok] at ok'
      cases ok'
      rw [ended] at resumes
      cases resumes
  | more cursor result next rest ok resumes later ih =>
    cases other with
    | last _ result' ok' ended =>
      rw [ok] at ok'
      cases ok'
      rw [ended] at resumes
      cases resumes
    | more _ result' next' rest' ok' resumes' later' =>
      rw [ok] at ok'
      cases ok'
      rw [resumes] at resumes'
      cases resumes'
      rw [ih later']

section

variable (paged : Paged edgesOf stands readNeighborhood traversal.direction traversal.labels)
  (accepted : normalizeTraversalOptions start options = .ok traversal)
include paged accepted

theorem read_refused (wide : 1000 < traversal.maxEdges) (deep : 0 < traversal.maxDepth)
    (away : traversal.goalNodeId ≠ some start) :
    ∃ failure, read readNeighborhood start { options with cursor := none } = .error failure := by
  -- a first read of more edges than a page may have fails, unless it asks for no page
  obtain ⟨failure, refused⟩ := paged.refused start none traversal.maxEdges wide
  have room := (normalizeTraversalOptions_bounds accepted).1
  obtain ⟨fuel, enough⟩ : ∃ fuel, 1 + traversal.maxNodes = fuel + 1 :=
    ⟨traversal.maxNodes, by omega⟩
  have open_ : isGoalAlreadyVisited ⟨{ traversal with cursor := none }, .ofList [start],
      [⟨start, 0, none⟩], []⟩ = false := by
    rw [isGoalAlreadyVisited]
    dsimp only
    split
    next => rfl
    next goal named =>
      rw [OrdSet.has_eq_false_iff, OrdSet.mem_ofList, mem_singleton]
      rintro rfl
      exact away named
  refine ⟨failure, ?_⟩
  rw [read, createTraversalRunState, normalizeTraversalOptions_cursor accepted]
  simp only [bind, Except.bind, pure, Except.pure, Option.map_none, Option.getD_none, open_,
    Bool.false_eq_true, if_false, length_singleton]
  rw [enough, drainFrontier]
  dsimp only [length_nil]
  have whole : (traversal.maxEdges : Int) - (([] : List TraversalOpticEdge).length : Nat) =
      traversal.maxEdges := by simp
  rw [if_neg (by omega), expandFrontierEntry, if_neg (not_le.mpr deep), readNeighborhoodForEntry,
    whole, refused]
  rfl

theorem resumed_iff {all} (from_ : (crawlOf edgesOf traversal).From start whole all) :
    (∀ edges, Resumed readNeighborhood start options none edges ↔ edges = whole.map listedEdge) ↔
      all.card ≤ traversal.maxNodes ∧ (traversal.maxEdges ≤ 1000 ∨ traversal.maxDepth = 0 ∨
          traversal.goalNodeId = some start) := by
  -- resuming with the same options lists the crawl just if its nodes are few enough and a page
  -- may have as many edges as a read
  have bounds := normalizeTraversalOptions_bounds accepted
  cases from_ with
  | there here =>
    -- the first read finds the goal at once
    have named : traversal.goalNodeId = some start := here
    have visited : isGoalAlreadyVisited ⟨{ traversal with cursor := none }, .ofList [start],
        [⟨start, 0, none⟩], []⟩ = true := by
      rw [isGoalAlreadyVisited]
      simp [named]
    have ended : Resumed readNeighborhood start options none [] := by
      apply Resumed.last none (goalAlreadyVisitedResult
        ⟨{ traversal with cursor := none }, .ofList [start], [⟨start, 0, none⟩], []⟩)
      · rw [read, createTraversalRunState, normalizeTraversalOptions_cursor accepted]
        simp only [bind, Except.bind, pure, Except.pure, Option.map_none, Option.getD_none, visited,
          if_true]
      · rfl
    constructor
    · intro _
      refine ⟨?_, Or.inr (Or.inr named)⟩
      rw [Finset.card_singleton]
      exact bounds.1
    · rintro - edges
      exact ⟨fun resumed => resumed.unique ended, fun same => same ▸ ended⟩
  | search _ _ away lists =>
    have missed : traversal.goalNodeId ≠ some start := away
    have elsewhere : ∀ goal, traversal.goalNodeId = some goal → goal ∉ ({start} : Finset JsString) := by
      intro goal named mem
      rw [Finset.mem_singleton.mp mem] at named
      exact missed named
    constructor
    · intro listed
      obtain ⟨edges, resumed⟩ : ∃ edges, Resumed readNeighborhood start options none edges :=
        ⟨_, (listed _).mpr rfl⟩
      have narrow : traversal.maxEdges ≤ 1000 ∨ traversal.maxDepth = 0 := by
        by_contra wide
        rw [not_or, not_le] at wide
        obtain ⟨failure, refused⟩ := read_refused paged accepted wide.1 (by omega) missed
        cases resumed with
        | last _ result ok | more _ result next rest ok => rw [refused] at ok; cases ok
      refine ⟨not_resumed paged narrow accepted resumed .fresh ?_ elsewhere lists, ?_⟩
      · rw [Finset.card_singleton]
        exact bounds.1
      · exact narrow.imp_right Or.inl
    · rintro ⟨fits, narrow⟩ edges
      have narrow' : traversal.maxEdges ≤ 1000 ∨ traversal.maxDepth = 0 := by
        rcases narrow with few | flat | here
        · exact Or.inl few
        · exact Or.inr flat
        · exact absurd here missed
      have room : ({start} : Finset JsString).card ≤ traversal.maxNodes := by
        rw [Finset.card_singleton]
        exact bounds.1
      have resumed := resumed_of_room paged narrow' accepted .fresh room elsewhere lists fits
      exact ⟨fun other => other.unique resumed, fun same => same ▸ resumed⟩

end

end

/-! ### Edges of a traversal -/

theorem listedEdge_injective (same : listedEdge step = listedEdge step') :
    (step.source, step.edge) = (step'.source, step'.edge) := by
  obtain ⟨source, ⟨side, n, label⟩, depth⟩ := step
  obtain ⟨source', ⟨side', n', label'⟩, depth'⟩ := step'
  cases side <;> cases side' <;> simp_all [listedEdge, traversalEdge]

theorem nodup_listedEdge (once : (steps.map fun step => (step.source, step.edge)).Nodup) :
    (steps.map listedEdge).Nodup := by
  rw [nodup_map_iff_inj_on (once.of_map _)]
  intro step mem step' member' same
  have pair := listedEdge_injective same
  exact inj_on_of_nodup_map once mem member' pair

end CheckpointTailTraversalReader

/-! ### The neighbourhoods of an index -/

namespace IndexTree

variable {t : IndexTree V} {s : WarpState V}

def edgesAt (t : IndexTree V) (checkpointSha : JsString) (direction : Direction)
    (labels : List JsString) (x : JsString) : List NeighborhoodOpticEdge :=
  (t.livePositions ⟨checkpointSha, x, direction, normalizeLabels labels⟩).map t.listing

/-- The cursor stands for a place in the list of live positions. -/
def StandsAt (t : IndexTree V) (checkpointSha : JsString) (direction : Direction)
    (labels : List JsString) (x : JsString) (cursor : Option JsString) (k : Nat) : Prop :=
  k ≤ (t.livePositions ⟨checkpointSha, x, direction, normalizeLabels labels⟩).length ∧
    Stands ⟨checkpointSha, x, direction, normalizeLabels labels⟩ cursor
      (resumeAt (t.livePositions ⟨checkpointSha, x, direction, normalizeLabels labels⟩) k)

theorem edgesAt_spec (reflects : t.Reflects s) (keyed : s.Keyed) (checkpointSha) (direction labels)
    (x) :
    (t.edgesAt checkpointSha direction labels x).Nodup ∧
      ∀ edge, edge ∈ t.edgesAt checkpointSha direction labels x ↔
        Requested direction labels edge ∧ partsOf x edge ∈ visibleEdges s := by
  have spec := neighborhood_spec reflects keyed checkpointSha x direction labels
  rw [neighborhood_none, filterMap_listed t (t.alive_livePositions _)] at spec
  exact spec

/-- The ends and the labels of the visible edges can be written into cursors. -/
def WellFormedEdges (s : WarpState V) : Prop :=
  ∀ e ∈ visibleEdges s, isWellFormed e.src = true ∧ isWellFormed e.dst = true ∧
    isWellFormed e.label = true

theorem spelled_of_edges (reflects : t.Reflects s) (keyed : s.Keyed) (direction) {labels}
    (sha : isWellFormed checkpointSha = true) (asked : ∀ label ∈ labels, isWellFormed label = true)
    (formed : WellFormedEdges s) (x) :
    t.Spelled ⟨checkpointSha, x, direction, normalizeLabels labels⟩ := by
  intro p mem
  -- a node with an edge is an end of it
  have listed : t.listing p ∈ t.edgesAt checkpointSha direction labels x :=
    mem_map_of_mem mem
  have visible := (((edgesAt_spec reflects keyed checkpointSha direction labels x).2 _).mp listed).2
  have node : isWellFormed x = true := by
    obtain ⟨src, dst, -⟩ := formed _ visible
    cases side : (t.listing p).direction with
    | out =>
      rw [partsOf, side] at src
      exact src
    | incoming =>
      rw [partsOf, side] at dst
      exact dst
  have named : ∀ edge, partsOf x edge ∈ visibleEdges s → isWellFormed edge.label = true := by
    intro edge seen
    have label := (formed _ seen).2.2
    unfold partsOf at label
    split at label <;> exact label
  exact spelled_of_wellFormed reflects keyed direction sha node asked named p
    mem

open CheckpointTailTraversalReader

theorem pageFrom_of_answer {checkpointSha direction labels x}
    (answer : t.AnswerAt ⟨checkpointSha, x, direction, normalizeLabels labels⟩ size k page) :
    PageFrom (t.edgesAt checkpointSha direction labels)
      (t.StandsAt checkpointSha direction labels) x k size page where
  edges := answer.edges
  ends none_ := by
    by_contra more
    rw [edgesAt, length_map, not_le] at more
    obtain ⟨next, resumes, -⟩ := answer.goes more
    rw [none_] at resumes
    cases resumes
  goes next resumes := by
    rw [edgesAt, length_map]
    by_cases more : k + size <
        (t.livePositions ⟨checkpointSha, x, direction, normalizeLabels labels⟩).length
    · obtain ⟨next', resumes', stands⟩ := answer.goes more
      rw [resumes] at resumes'
      cases resumes'
      exact ⟨more, le_of_lt more, stands⟩
    · rw [answer.ends (not_lt.mp more)] at resumes
      cases resumes
  resumes i inside := by
    have apart := answer.resumes.length_eq
    rw [length_range] at apart
    have here : i < page.resumeCursors.length := by omega
    have place := answer.resumes.get here (by rw [length_range]; exact inside)
    rw [get_eq_getElem, get_eq_getElem, getElem_range] at place
    refine ⟨page.resumeCursors[i], List.getElem?_eq_getElem here, ?_, place⟩
    have count := congrArg List.length answer.edges
    rw [length_take, length_drop, length_map] at count
    omega

theorem paged_traversalNeighborhood (reflects : t.Reflects s) (keyed : s.Keyed) (direction) {labels}
    (sha : isWellFormed checkpointSha = true) (asked : ∀ label ∈ labels, isWellFormed label = true)
    (formed : WellFormedEdges s) :
    Paged (t.edgesAt checkpointSha direction labels) (t.StandsAt checkpointSha direction labels)
      (t.traversalNeighborhood checkpointSha) direction labels where
  start x := ⟨Nat.zero_le _, rfl⟩
  page x cursor k size stands positive small := by
    have sized : parseNeighborhoodLimit (some (size : Int)) = .ok size := by
      rw [parseNeighborhoodLimit, Option.getD_some, maxPageSize, if_neg (by omega)]
      rfl
    have spelled := spelled_of_edges reflects keyed direction sha asked formed x
    obtain ⟨page, read, answer⟩ := answer_at reflects.edges.toNumbered
      (CheckpointTailOpticSource.normalizeLabels_nodup labels) spelled sized stands.1
      stands.2
    exact ⟨page, read, pageFrom_of_answer answer⟩
  refused x cursor size wide := by
    refine ⟨invalidLimitError, ?_⟩
    have refused : parseNeighborhoodLimit (some (size : Int)) = .error invalidLimitError := by
      rw [parseNeighborhoodLimit, Option.getD_some, maxPageSize, if_pos (by omega)]
    rw [traversalNeighborhood, readCheckpointNeighborhoodPage, refused]
    rfl

/-- Resuming a traversal with the same options lists the edges of one crawl without limits, each of
them once, just if the crawl sees no more nodes than the traversal may and a neighbourhood page, if
one is read, may have as many edges as a read of the traversal. -/
theorem resumed_traversal_iff (s : WarpState V) (keyed : s.Keyed) (t : IndexTree V)
    (built : IndexTree.build s = .ok t) (checkpointSha start : JsString)
    (options : TraversalOpticReadOptions) (traversal : NormalizedTraversalOptions)
    (accepted : normalizeTraversalOptions start options = .ok traversal)
    (sha : isWellFormed checkpointSha = true)
    (asked : ∀ label ∈ traversal.labels, isWellFormed label = true) (formed : WellFormedEdges s) :
    ∃ edgesOf : JsString → List NeighborhoodOpticEdge,
      (∀ x, (edgesOf x).Nodup ∧ ∀ edge, edge ∈ edgesOf x ↔
        Requested traversal.direction traversal.labels edge ∧ partsOf x edge ∈ visibleEdges s) ∧
      (∃ whole all, (crawlOf edgesOf traversal).From start whole all) ∧
      ∀ whole all, (crawlOf edgesOf traversal).From start whole all → (whole.map listedEdge).Nodup ∧
        ((∀ edges, Resumed (t.traversalNeighborhood checkpointSha) start options none edges ↔
            edges = whole.map listedEdge) ↔
          all.card ≤ traversal.maxNodes ∧ (traversal.maxEdges ≤ 1000 ∨ traversal.maxDepth = 0 ∨
              traversal.goalNodeId = some start)) := by
  have reflects := build_reflects keyed t built
  have lists := edgesAt_spec reflects keyed checkpointSha traversal.direction traversal.labels
  have paged := paged_traversalNeighborhood reflects keyed traversal.direction sha asked formed
  refine ⟨t.edgesAt checkpointSha traversal.direction traversal.labels, lists, ?_, ?_⟩
  · -- the nodes of the visible edges are finitely many
    apply Crawl.exists_from ((visibleEdges s).flatMap fun e => [e.src, e.dst]).toFinset
    intro x edge member
    have visible := (((lists x).2 edge).mp member).2
    rw [mem_toFinset, mem_flatMap]
    refine ⟨_, visible, ?_⟩
    change edge.neighborId ∈ _
    unfold partsOf
    split <;> simp
  · intro whole all from_
    exact ⟨nodup_listedEdge (from_.nodup fun x => (lists x).1), resumed_iff paged accepted from_⟩

/-! ### Two neighbours -/

/-- A traversal from `n` of depth one. -/
def fromN (maxNodes maxEdges : Int) : TraversalOpticReadOptions :=
  ⟨none, none, none, some 1, some maxNodes, some maxEdges, none, none⟩

def readFromN (maxNodes maxEdges : Int) (cursor : Option TraversalOpticCursor) :
    Except Failure TraversalOpticReadResult :=
  read ((forkedTree edgeToC).traversalNeighborhood (lit "cccc")) (lit "n")
    { fromN maxNodes maxEdges with cursor }

def beforeThird : TraversalOpticCursor :=
  ⟨[⟨lit "n", 0, some (lit "git-warp:neighborhood-cursor:1:cccc|n|out||out|1375731712|l")⟩],
    [lit "c", lit "n"]⟩

/-- With two nodes the cursor comes back from every read, and a thousand and one edges are refused
where both edges fit into a page. -/
theorem resume_makes_no_progress :
    (∀ edges, ¬ Resumed ((forkedTree edgeToC).traversalNeighborhood (lit "cccc")) (lit "n")
      (fromN 2 10) none edges) ∧
    readFromN 2 10 (some beforeThird) = (readFromN 2 10 none).map (fun result =>
      { result with edges := [] }) ∧
    readFromN 10 1001 none = .error invalidLimitError := by
  have first : (readFromN 2 10 none).map TraversalOpticReadResult.cursor =
      .ok (some beforeThird) := by decide +kernel
  have again : (readFromN 2 10 (some beforeThird)).map TraversalOpticReadResult.cursor =
      .ok (some beforeThird) := by decide +kernel
  have stuck : ∀ cursor edges, Resumed ((forkedTree edgeToC).traversalNeighborhood (lit "cccc"))
      (lit "n") (fromN 2 10) cursor edges → cursor ≠ none ∧ cursor ≠ some beforeThird := by
    intro cursor edges resumed
    induction resumed with
    | last cursor result ok ended =>
      constructor
      · rintro rfl
        rw [readFromN, ok, Except.map, ended] at first
        cases first
      · rintro rfl
        rw [readFromN, ok, Except.map, ended] at again
        cases again
    | more cursor result next rest ok resumes later ih =>
      constructor
      · rintro rfl
        rw [readFromN, ok, Except.map, resumes] at first
        cases first
        exact ih.2 rfl
      · rintro rfl
        rw [readFromN, ok, Except.map, resumes] at again
        cases again
        exact ih.2 rfl
  exact ⟨fun edges resumed => (stuck none edges resumed).1 rfl, by decide +kernel,
    by decide +kernel⟩

theorem resumed_traversal_iff_forked :
    ∃ (whole : List (CrawlStep JsString NeighborhoodOpticEdge)) (all : Finset JsString),
      (whole.map listedEdge).Nodup ∧
      ((∀ edges, Resumed ((forkedTree edgeToC).traversalNeighborhood (lit "cccc")) (lit "n")
          (fromN 3 1) none edges ↔ edges = whole.map listedEdge) ↔
        all.card ≤ 3 ∧ (1 ≤ 1000 ∨ 1 = 0 ∨ (none : Option JsString) = some (lit "n"))) := by
  obtain ⟨keyed, built⟩ := forked_built edgeToC (by decide +kernel) (by decide +kernel)
  obtain ⟨edgesOf, -, ⟨whole, all, from_⟩, spec⟩ := resumed_traversal_iff _ keyed _ built
    (lit "cccc") (lit "n") (fromN 3 1) ⟨lit "n", .out, [], 1, 3, 1, none, none⟩ rfl (by decide)
    (by simp) (by unfold WellFormedEdges; decide +kernel)
  exact ⟨whole, all, spec whole all from_⟩

end IndexTree
end GitWarp
