import GitWarp.Query.CheapestPath

/-!
# Searching from both ends

Both searches keep their own invariant, and the best meeting is no dearer than the two
scores of any node. When no open node of either side has a priority below it, no walk is
cheaper. A search that stops at its node limit returns the best meeting so far.
-/
namespace GitWarp

open Js Lib List

namespace Query

open IndexTree (NeighborEdge Direction)

structure MeetOk (side other : SearchSide) (mu : WithTop Rat) (meeting : Option JsString) :
    Prop where
  lower : ∀ x c c', side.gScore.get x = some c → other.gScore.get x = some c' →
    mu ≤ ((c + c' : Rat) : WithTop Rat)
  exact : ∀ m, meeting = some m → ∃ c c', side.gScore.get m = some c ∧
    other.gScore.get m = some c' ∧ mu = ((c + c' : Rat) : WithTop Rat)

theorem MeetOk.symm (ok : MeetOk side other mu meeting) : MeetOk other side mu meeting := by
  constructor
  · intro x c c' first second
    rw [add_comm]
    exact ok.lower x c' c second first
  · intro m met
    obtain ⟨c, c', first, second, same⟩ := ok.exact m met
    exact ⟨c', c, second, first, by rw [add_comm]; exact same⟩

theorem MeetOk.congr (ok : MeetOk side other mu meeting) (same : side'.gScore = side.gScore) :
    MeetOk side' other mu meeting := by
  constructor
  · rw [same]
    exact ok.lower
  · rw [same]
    exact ok.exact

theorem MeetOk.meetAt {progress : BiProgress}
    (ok : MeetOk progress.side other progress.mu progress.meeting)
    (first : progress.side.gScore.get x = some c) (second : other.gScore.get x = some c') :
    MeetOk (progress.meetAt x (c + c')).side other (progress.meetAt x (c + c')).mu
      (progress.meetAt x (c + c')).meeting := by
  unfold BiProgress.meetAt
  split
  next taken =>
    have below : ((c + c' : Rat) : WithTop Rat) ≤ progress.mu := by
      rcases taken with less | ⟨same, -⟩
      · exact le_of_lt less
      · exact le_of_eq same
    constructor
    · exact fun y d d' left right => le_trans below (ok.lower y d d' left right)
    · intro m met
      cases met
      exact ⟨c, c', first, second, rfl⟩
  next => exact ok

theorem meetAt_side {progress : BiProgress} : (progress.meetAt x total).side = progress.side := by
  unfold BiProgress.meetAt
  split <;> rfl

variable {rule : SearchRule} {estimate : JsString → Rat}

theorem relaxMeeting_side (other) (current) (progress edge) :
    (relaxMeeting rule other current progress edge).side =
      relaxEdge rule current progress.side edge := by
  unfold relaxMeeting relaxEdge
  split
  · rfl
  · simp only []
    split
    · cases other.gScore.get edge.neighborId with
      | none => rfl
      | some otherG => exact meetAt_side
    · rfl

theorem foldl_relaxMeeting_side (other) (current) (edges : List NeighborEdge) (progress) :
    (edges.foldl (relaxMeeting rule other current) progress).side =
      edges.foldl (relaxEdge rule current) progress.side := by
  induction edges generalizing progress with
  | nil => rfl
  | cons edge edges ih => rw [foldl_cons, ih, relaxMeeting_side, foldl_cons]

/-- A relaxed node is met when the other side has a score for it. -/
theorem MeetOk.relaxMeeting (ok : MeetOk progress.side other progress.mu progress.meeting) (current)
    (edge) :
    MeetOk (relaxMeeting rule other current progress edge).side other
      (relaxMeeting rule other current progress edge).mu
      (relaxMeeting rule other current progress edge).meeting := by
  unfold Query.relaxMeeting
  split
  · exact ok
  simp only []
  generalize progress.side.scoreOf current + rule.weightOf current edge = tentG
  split
  next improved =>
    have better := improves_spec.1 improved
    have score : ∀ x, (progress.side.record edge.neighborId current tentG
        (rule.priorityOf edge.neighborId tentG)).gScore.get x =
          if edge.neighborId = x then some tentG else progress.side.gScore.get x :=
      fun x => OrdMap.get_set _ _
    cases held : other.gScore.get edge.neighborId with
    | none =>
      -- the other side does not know the node, so the meeting is elsewhere
      constructor
      · intro x c c' first second
        rw [score] at first
        split at first
        next same =>
          rw [← same, held] at second
          cases second
        next => exact ok.lower x c c' first second
      · intro m met
        obtain ⟨c, c', first, second, same⟩ := ok.exact m met
        refine ⟨c, c', ?_, second, same⟩
        rw [score, if_neg]
        · exact first
        · rintro rfl
          rw [held] at second
          cases second
    | some otherG =>
      have known : ∀ c', other.gScore.get edge.neighborId = some c' → c' = otherG := by
        intro c' held'
        rw [held] at held'
        exact (Option.some.inj held').symm
      simp only [BiProgress.meetAt]
      split
      next taken =>
        have below : ((tentG + otherG : Rat) : WithTop Rat) ≤ progress.mu := by
          rcases taken with less | ⟨same, -⟩
          · exact le_of_lt less
          · exact le_of_eq same
        constructor
        · intro x c c' first second
          rw [score] at first
          split at first
          next same =>
            cases first
            subst same
            rw [known c' second]
          next => exact le_trans below (ok.lower x c c' first second)
        · intro m met
          cases met
          exact ⟨tentG, otherG, by rw [score, if_pos rfl], held, rfl⟩
      next kept =>
        have above : progress.mu ≤ ((tentG + otherG : Rat) : WithTop Rat) :=
          not_lt.mp fun less => kept (Or.inl less)
        constructor
        · intro x c c' first second
          rw [score] at first
          split at first
          next same =>
            cases first
            subst same
            rw [known c' second]
            exact above
          next => exact ok.lower x c c' first second
        · intro m met
          obtain ⟨c, c', first, second, same⟩ := ok.exact m met
          by_cases here : edge.neighborId = m
          · -- at the meeting itself the sum can only have dropped, and it did not
            subst here
            refine ⟨tentG, c', by rw [score, if_pos rfl], second, ?_⟩
            have drop := better c first
            rw [known c' second] at same ⊢
            apply le_antisymm above
            show _ ≤ progress.mu
            rw [show progress.mu = _ from same]
            exact WithTop.coe_le_coe.mpr (by linarith)
          · exact ⟨c, c', by rw [score, if_neg here]; exact first, second, same⟩
  next => exact ok

theorem MeetOk.relaxMeetings (ok : MeetOk progress.side other progress.mu progress.meeting)
    {edges : List NeighborEdge} :
    MeetOk (edges.foldl (Query.relaxMeeting rule other current) progress).side other
      (edges.foldl (Query.relaxMeeting rule other current) progress).mu
      (edges.foldl (Query.relaxMeeting rule other current) progress).meeting := by
  induction edges generalizing progress with
  | nil => exact ok
  | cons edge edges ih => exact ih (ok.relaxMeeting current edge)

theorem expandHead_spec (consistent : ConsistentEstimate (ArcOf rule neighbors) estimate)
    (ranks : RanksBy rule estimate) (ok : SearchOk (ArcOf rule neighbors) estimate s progress.side)
    (okOther : SearchOk arc' estimate' s' other)
    (meets : MeetOk progress.side other progress.mu progress.meeting)
    (popped : progress.side.heap.extractMin = some (current, rest)) :
    SearchOk (ArcOf rule neighbors) estimate s
        (expandHead rule neighbors other progress current rest).2.side ∧
      MeetOk (expandHead rule neighbors other progress current rest).2.side other
        (expandHead rule neighbors other progress current rest).2.mu
        (expandHead rule neighbors other progress current rest).2.meeting := by
  -- expanding the head of one queue keeps that search and the meeting
  unfold expandHead
  split
  next stale => exact ⟨ok.drop popped stale, meets.congr rfl⟩
  next fresh =>
    simp only [foldl_relaxMeeting_side]
    have meetsNow : MeetOk (progress.side.visit current rest) other progress.mu
        progress.meeting := meets.congr rfl
    have head : ∃ met : BiProgress, met = (if current ∈ other.visited then
          BiProgress.meetAt { progress with side := progress.side.visit current rest } current
            ((progress.side.visit current rest).scoreOf current + other.scoreOf current)
          else { progress with side := progress.side.visit current rest }) ∧
        met.side = progress.side.visit current rest ∧
        MeetOk met.side other met.mu met.meeting := by
      refine ⟨_, rfl, ?_, ?_⟩
      · split
        · exact meetAt_side
        · rfl
      · split
        next seen =>
          -- marked on both sides, so both sides have a score
          obtain ⟨c, held, -⟩ :=
            ok.fine.cheapest_of_popped consistent ok.relaxed popped fresh
          obtain ⟨c', held', -⟩ := okOther.fine.settled current seen
          have first : (progress.side.visit current rest).scoreOf current = c := by
            show (progress.side.gScore.get current).getD 0 = c
            rw [held]
            rfl
          have second : other.scoreOf current = c' := by
            unfold SearchSide.scoreOf
            rw [held']
            rfl
          rw [first, second]
          exact MeetOk.meetAt meetsNow held held'
        next => exact meetsNow
    obtain ⟨met, define, side, meetsMet⟩ := head
    rw [← define]
    constructor
    · rw [side]
      exact ok.expand consistent ranks popped fresh
    · have all : MeetOk ((neighbors current).foldl (Query.relaxMeeting rule other current) met).side
          other _ _ := meetsMet.relaxMeetings
      rw [foldl_relaxMeeting_side] at all
      exact all

/-! ### The loop -/

variable {provider : NeighborProvider} {query : BiQuery}

/-- The incoming edges of a node are the outgoing edges to it. -/
def Mirrored (provider : NeighborProvider) : Prop :=
  ∀ labels x y label, ⟨y, label⟩ ∈ provider.getNeighbors x .out labels ↔
    ⟨x, label⟩ ∈ provider.getNeighbors y .incoming labels

/-- The arcs forward. -/
abbrev BiQuery.arc (provider : NeighborProvider) (query : BiQuery) :
    JsString → JsString → Rat → Prop :=
  ArcOf query.forward (query.outgoing provider)

abbrev BiQuery.backArc (provider : NeighborProvider) (query : BiQuery) :
    JsString → JsString → Rat → Prop :=
  ArcOf query.backward (query.incoming provider)

theorem backArc_iff (mirrored : Mirrored provider) (w) :
    query.backArc provider x y w ↔ reversed (query.arc provider) x y w := by
  constructor
  · rintro ⟨⟨_, label⟩, listed, rfl, rfl⟩
    exact ⟨⟨x, label⟩, (mirrored query.labels _ x label).mpr listed, rfl, rfl⟩
  · rintro ⟨⟨_, label⟩, listed, rfl, rfl⟩
    exact ⟨⟨y, label⟩, (mirrored query.labels y _ label).mp listed, rfl, rfl⟩

/-- The estimates of a search from both ends are consistent, and nothing is left at the ends. -/
structure BiQuery.Consistent (provider : NeighborProvider) (query : BiQuery) : Prop where
  forward : ConsistentEstimate (query.arc provider)
    fun nodeId => query.forwardHeuristic nodeId query.goal
  backward : ConsistentEstimate (query.backArc provider)
    fun nodeId => query.backwardHeuristic nodeId query.start
  goal : query.forwardHeuristic query.goal query.goal = 0
  start : query.backwardHeuristic query.start query.start = 0

/-- What holds at every turn of the loop. -/
structure BiOk (provider : NeighborProvider) (query : BiQuery) (state : BiState) : Prop where
  fwd : SearchOk (query.arc provider) (fun nodeId => query.forwardHeuristic nodeId query.goal)
    query.start state.fwd
  bwd : SearchOk (query.backArc provider)
    (fun nodeId => query.backwardHeuristic nodeId query.start) query.goal state.bwd
  meets : MeetOk state.fwd state.bwd state.mu state.meeting

theorem SearchOk.start_side : SearchOk arc estimate s (.start s (estimate s)) :=
  ⟨.start_side, fun x mem => absurd mem (OrdSet.not_mem_empty x)⟩

theorem BiOk.initial (differ : query.start ≠ query.goal) : BiOk provider query query.initial := by
  refine ⟨.start_side, .start_side, ?_, ?_⟩
  · intro x c c' first second
    -- at first the sides score different nodes
    have left : (OrdMap.empty.set query.start (0 : Rat)).get x = some c := first
    have right : (OrdMap.empty.set query.goal (0 : Rat)).get x = some c' := second
    rw [OrdMap.get_set] at left right
    split at left
    next same =>
      split at right
      next same' => exact absurd (same.trans same'.symm) differ
      next => cases right
    next => cases left
  · intro m met
    cases met

theorem biLoop_forward {head} (state : BiState) (room : ¬ query.maxNodes ≤ state.explored)
    (more : ¬ state.mu ≤ state.leastPriority)
    (forward : state.fwd.heap.peekPriority ≤ state.bwd.heap.peekPriority)
    (popped : state.fwd.heap.extractMin = some head) :
    biLoop provider query state =
      biLoop provider query (state.expandForward provider query head.1 head.2) := by
  rw [biLoop.eq_def, if_neg room, if_neg more, if_pos forward]
  split
  next nothing => rw [popped] at nothing; cases nothing
  next popped' =>
    rw [popped] at popped'
    cases popped'
    rfl

/-- What each expansion keeps holds in the end. The loop stops at the node limit, or when no open
node can improve on the meeting. -/
theorem biLoop_run {P : BiState → Prop}
    (forward : ∀ state current rest, P state →
      state.fwd.heap.extractMin = some (current, rest) →
        P (state.expandForward provider query current rest))
    (backward : ∀ state current rest, P state →
      state.bwd.heap.extractMin = some (current, rest) →
        P (state.expandBackward provider query current rest)) (start : P state) :
    P (biLoop provider query state) ∧
      (query.maxNodes ≤ (biLoop provider query state).explored ∨
        (biLoop provider query state).mu ≤ (biLoop provider query state).leastPriority) := by
  have exhausted : ∀ heap : MinHeap JsString, heap.extractMin = none → heap.peekPriority = ⊤ := by
    intro heap nothing
    have bare := heap.extractMin_eq_none.mp nothing
    unfold MinHeap.peekPriority
    rw [Array.toList_eq_nil_iff.mp bare]
    rfl
  induction state using biLoop.induct provider query with
  | case1 state full =>
    rw [biLoop.eq_def, if_pos full]
    exact ⟨start, Or.inl full⟩
  | case2 state go done =>
    rw [biLoop.eq_def, if_neg go, if_pos done]
    exact ⟨start, Or.inr done⟩
  | case3 state go more ahead nothing =>
    -- an empty queue has the greatest priority, so both are empty
    exfalso
    apply more
    have top := exhausted _ nothing
    rw [top, top_le_iff] at ahead
    unfold BiState.leastPriority
    rw [top, ahead]
    exact le_top
  | case4 state go more ahead current rest popped ih =>
    rw [biLoop_forward _ go more ahead popped]
    exact ih (forward _ _ _ start popped)
  | case5 state go more behind nothing =>
    exfalso
    apply behind
    rw [exhausted _ nothing]
    exact le_top
  | case6 state go more behind current rest popped ih =>
    rw [biLoop.eq_def, if_neg go, if_neg more, if_neg behind]
    split
    next nothing => rw [popped] at nothing; cases nothing
    next popped' =>
      rw [popped] at popped'
      cases popped'
      exact ih (backward _ _ _ start popped)

theorem biLoop_spec (consistent : query.Consistent provider) (ok : BiOk provider query state) :
    BiOk provider query (biLoop provider query state) ∧
      (query.maxNodes ≤ (biLoop provider query state).explored ∨
        (biLoop provider query state).mu ≤ (biLoop provider query state).leastPriority) := by
  refine biLoop_run (fun state current rest ok popped => ?_) (fun state current rest ok popped => ?_)
    ok
  · let progress : BiProgress := ⟨state.fwd, state.mu, state.meeting⟩
    have fwd : SearchOk _ _ _ progress.side := ok.fwd
    obtain ⟨side, meets⟩ :=
      expandHead_spec consistent.forward (fun _ _ => rfl) fwd ok.bwd ok.meets popped
    exact ⟨side, ok.bwd, meets⟩
  · let progress : BiProgress := ⟨state.bwd, state.mu, state.meeting⟩
    have bwd : SearchOk _ _ _ progress.side := ok.bwd
    obtain ⟨side, meets⟩ :=
      expandHead_spec consistent.backward (fun _ _ => rfl) bwd ok.fwd ok.meets.symm popped
    exact ⟨ok.fwd, side, meets.symm⟩

/-! ### The path -/

theorem Traced.reverse_eq {path : List JsString} (traced : Traced pred s path x) :
    path.reverse = x :: path.reverse.tail := by
  cases traced with
  | here => rfl
  | step _ _ _ _ =>
    rw [reverse_append]
    rfl

theorem followLoop_traced {next} (traced : Traced next goal path x) (turns)
    (enough : path.length ≤ turns + 1) : followLoop next goal turns x = path.reverse.tail := by
  induction traced generalizing turns with
  | here =>
    cases turns with
    | zero => rfl
    | succ turns => exact if_pos rfl
  | step before entry other _ ih =>
    rw [length_append] at enough
    have one : 1 ≤ List.length (α := JsString) _ := length_pos_of_mem before.start_mem
    cases turns with
    | zero =>
      simp only [length_cons, length_nil] at enough
      omega
    | succ turns =>
      unfold followLoop
      rw [if_neg other, entry]
      show _ :: followLoop next goal turns _ = _
      rw [ih turns (by simp only [length_cons, length_nil] at enough; omega), reverse_append]
      exact (Traced.reverse_eq before).symm

theorem BiOk.walk (ok : BiOk provider query state) (mirrored : Mirrored provider)
    (met : state.meeting = some meeting) :
    ∃ c : Rat, state.mu = c ∧ CostWalk (query.arc provider) query.start
      (reconstructBiPath state.fwd.predMap state.bwd.predMap query.start query.goal meeting)
      query.goal c := by
  obtain ⟨c, c', first, second, same⟩ := ok.meets.exact meeting met
  refine ⟨c + c', same, ?_⟩
  have front := ok.fwd.fine.reconstruct first
  obtain ⟨path, traced⟩ := ok.bwd.fine.exists_traced second
  have back : CostWalk (query.arc provider) meeting path.reverse query.goal c' :=
    ((ok.bwd.fine.costWalk traced second).mono fun x y w leads =>
      (backArc_iff mirrored w).mp leads).reverse
  unfold reconstructBiPath
  rw [followLoop_traced traced _ traced.length_le]
  exact front.append back

theorem BiOk.mu_le (ok : BiOk provider query state) (consistent : query.Consistent provider)
    (done : state.mu ≤ state.leastPriority)
    (walk : CostWalk (query.arc provider) query.start path query.goal c) :
    state.mu ≤ (c : WithTop Rat) := by
  by_cases marked : query.goal ∈ state.fwd.visited
  · -- the goal is marked, with its least cost; backwards its score is zero
    obtain ⟨cost, held, least⟩ := ok.fwd.fine.settled query.goal marked
    have below := ok.meets.lower query.goal cost 0 held ok.bwd.fine.start
    rw [add_zero] at below
    exact le_trans below (WithTop.coe_le_coe.mpr (least path c walk))
  · obtain ⟨y, cy, held, fresh, below⟩ :=
      ok.fwd.fine.open_on_walk consistent.forward ok.fwd.relaxed walk marked
    obtain ⟨entry, member, -, priority⟩ := ok.fwd.fine.queued y cy held fresh
    have head := state.fwd.heap.peekPriority_le member
    have least : state.leastPriority ≤ state.fwd.heap.peekPriority := min_le_left _ _
    apply le_trans done (le_trans least (le_trans head _))
    rw [WithTop.coe_le_coe, priority]
    have nothing_left := consistent.goal
    linarith

variable (provider query)

/-- The search has stopped at its node limit although an open node might improve on the
meeting. -/
def CutShort : Prop :=
  query.maxNodes ≤ (biLoop provider query query.initial).explored ∧
    (biLoop provider query query.initial).leastPriority < (biLoop provider query query.initial).mu

variable {provider query}

theorem searchBothEnds_spec (mirrored : Mirrored provider) (consistent : query.Consistent provider)
    (nonneg : ∀ x y w, query.arc provider x y w → 0 ≤ w) (result)
    (run : searchBothEnds provider query = .ok result) :
    CostWalk (query.arc provider) query.start result.path query.goal result.totalCost ∧
      (¬ CutShort provider query →
        Cheapest (query.arc provider) query.start query.goal result.totalCost) := by
  -- what a search from both ends returns is a walk at the returned cost, and it is cheapest
  -- unless the search was cut short
  obtain ⟨⟨⟩, -, run⟩ := bind_eq_ok.mp run
  split at run
  next same =>
    cases run
    constructor
    · rw [← same]
      exact .here
    · exact fun _ path c walk => walk.nonneg nonneg
  next differ =>
    obtain ⟨ok, stop⟩ := biLoop_spec consistent (.initial differ)
    simp only [] at run
    cases met : (biLoop provider query query.initial).meeting with
    | none =>
      rw [met] at run
      cases run
    | some meeting =>
      rw [met] at run
      cases run
      obtain ⟨cost, mu, walk⟩ := ok.walk mirrored met
      have total : (biLoop provider query query.initial).mu.untopD 0 = cost := by
        rw [mu]
        rfl
      constructor
      · rw [total]
        exact walk
      · intro whole path c other
        have done : (biLoop provider query query.initial).mu ≤
            (biLoop provider query query.initial).leastPriority := by
          rcases stop with full | done
          · exact not_lt.mp fun less => whole ⟨full, less⟩
          · exact done
        have below := ok.mu_le consistent done other
        rw [mu] at below
        rw [total]
        exact WithTop.coe_le_coe.mp below

/-! ### The three searches together -/

def WeightedArc (weightFn : WeightFn) (neighbors : JsString → List NeighborEdge)
    (x y : JsString) (w : Rat) : Prop :=
  ∃ edge ∈ neighbors x, edge.neighborId = y ∧ weightFn x edge.neighborId edge.label = w

theorem Optimal.totalCost_eq (left : Optimal arc s goal first) (right : Optimal arc s goal second) :
    first.totalCost = second.totalCost :=
  le_antisymm (left.least _ _ right.walk) (right.least _ _ left.walk)

section OneEnd

variable {params : TraversalParams} {goal : JsString} {weights : WeightChoice}
  {weightFn : WeightFn}

theorem weightedShortestPath_optimal (resolved : resolveWeightFn weights = .ok weightFn)
    (nonneg : ∀ x y label, 0 ≤ weightFn x y label) (result)
    (run : weightedShortestPath provider params goal weights = .ok result) :
    Optimal (WeightedArc weightFn (neighborsOf provider params)) params.start goal result := by
  obtain ⟨chosen, same, run⟩ := bind_eq_ok.mp run
  rw [resolved] at same
  cases same
  obtain ⟨⟨⟩, -, run⟩ := bind_eq_ok.mp run
  -- without an estimate, consistency says that weights are not negative
  have consistent : ConsistentEstimate
      (WeightedArc weightFn (neighborsOf provider params)) fun _ => 0 := by
    rintro x y w ⟨edge, -, -, rfl⟩
    have more := nonneg x edge.neighborId edge.label
    linarith
  apply bestFirstLoop_spec ?_ ?_ ?_ run
  · exact fun _ => 0
  · exact consistent
  · exact fun _ _ => (add_zero _).symm
  · exact .start_side

theorem aStarSearch_optimal (resolved : resolveWeightFn weights = .ok weightFn)
    (consistent : ConsistentEstimate (WeightedArc weightFn (neighborsOf provider params))
      fun nodeId => heuristicFn nodeId goal) (result)
    (run : aStarSearch provider params goal weights heuristicFn = .ok result) :
    Optimal (WeightedArc weightFn (neighborsOf provider params)) params.start goal result := by
  obtain ⟨chosen, same, run⟩ := bind_eq_ok.mp run
  rw [resolved] at same
  cases same
  obtain ⟨⟨⟩, -, run⟩ := bind_eq_ok.mp run
  have start : SearchOk (WeightedArc weightFn (neighborsOf provider params))
      (fun nodeId => heuristicFn nodeId goal) params.start
      (.start params.start (heuristicFn params.start goal)) := .start_side
  apply bestFirstLoop_spec ?_ ?_ ?_ run
  · exact fun nodeId => heuristicFn nodeId goal
  · exact consistent
  · exact fun _ _ => rfl
  · exact start

end OneEnd

/-- What is returned is a cheapest walk, and so what the three searches return costs the same. -/
structure CheapestPaths (provider : NeighborProvider) (weights : WeightChoice)
    (weightFn : WeightFn) (params : TraversalParams) (query : BiQuery) : Prop where
  dijkstra : ∀ result, weightedShortestPath provider params query.goal weights = .ok result →
    Optimal (WeightedArc weightFn (neighborsOf provider params)) params.start query.goal result
  aStar : ∀ result,
    aStarSearch provider params query.goal weights query.forwardHeuristic = .ok result →
      Optimal (WeightedArc weightFn (neighborsOf provider params)) params.start query.goal result
  bothEnds : ∀ result, bidirectionalAStar provider query.toBiParams weights = .ok result →
    Optimal (WeightedArc weightFn (query.outgoing provider)) query.start query.goal result
  agree : params.start = query.start → params.direction = .out → params.labels = query.labels →
    ∀ first second third, weightedShortestPath provider params query.goal weights = .ok first →
      aStarSearch provider params query.goal weights query.forwardHeuristic = .ok second →
      bidirectionalAStar provider query.toBiParams weights = .ok third →
        first.totalCost = second.totalCost ∧ second.totalCost = third.totalCost

theorem bidirectionalAStar_eq (resolved : resolveWeightFn weights = .ok query.weightFn) :
    bidirectionalAStar provider query.toBiParams weights = searchBothEnds provider query := by
  unfold bidirectionalAStar
  rw [resolved]
  rfl

theorem biLoop_explored (counted : state.explored = state.fwd.visited.size + state.bwd.visited.size) :
    (biLoop provider query state).explored = (biLoop provider query state).fwd.visited.size +
        (biLoop provider query state).bwd.visited.size := by
  -- each expansion counts a node that it marks
  have expand : ∀ (rule : SearchRule) (neighbors : JsString → List NeighborEdge)
      (other : SearchSide) (progress : BiProgress) (current : JsString)
      (rest : MinHeap JsString),
      (expandHead rule neighbors other progress current rest).2.side.visited.size =
        progress.side.visited.size +
          (expandHead rule neighbors other progress current rest).1 := by
    intro rule neighbors other progress current rest
    unfold expandHead
    split
    · rfl
    next fresh =>
      simp only [foldl_relaxMeeting_side, foldl_relaxEdge_visited]
      rw [← OrdSet.size_add _ _ fresh]
      split
      · rw [meetAt_side]
        rfl
      · rfl
  refine (@biLoop_run provider query state
    (fun state => state.explored = state.fwd.visited.size + state.bwd.visited.size)
    (fun state current rest counted popped => ?_) (fun state current rest counted popped => ?_)
    counted).1
  · have marked : (state.expandForward provider query current rest).fwd.visited.size =
        state.fwd.visited.size + _ := expand query.forward (query.outgoing provider) state.bwd
          ⟨state.fwd, state.mu, state.meeting⟩ current rest
    rw [marked]
    show state.explored + _ = _ + _ + state.bwd.visited.size
    rw [counted]
    exact Nat.add_right_comm _ _ _
  · have marked : (state.expandBackward provider query current rest).bwd.visited.size =
        state.bwd.visited.size + _ := expand query.backward (query.incoming provider) state.fwd
          ⟨state.bwd, state.mu, state.meeting⟩ current rest
    rw [marked]
    show state.explored + _ = state.fwd.visited.size + (_ + _)
    rw [counted]
    exact Nat.add_assoc _ _ _

theorem SideOk.visited_subset (ok : SideOk arc estimate s side) {nodes : List JsString}
    (first : s ∈ nodes) (closed : ∀ x y w, x ∈ nodes → arc x y w → y ∈ nodes) :
    side.visited.size ≤ nodes.length := by
  have inside : ∀ {path : List JsString} {x : JsString} {c : Rat},
      CostWalk arc s path x c → x ∈ nodes := by
    intro path x c walk
    induction walk with
    | here => exact first
    | step _ last ih => exact closed _ _ _ ih last
  apply (subperm_of_subset side.visited.nodup _).length_le
  intro x mem
  obtain ⟨c, held, -⟩ := ok.settled x mem
  obtain ⟨path, walk⟩ := ok.realized x c held
  exact inside walk

theorem not_cutShort_of_bound (consistent : query.Consistent provider)
    (differ : query.start ≠ query.goal) (nodes : List JsString)
    (ends : query.start ∈ nodes ∧ query.goal ∈ nodes)
    (closed : ∀ x y w, x ∈ nodes → query.arc provider x y w → y ∈ nodes)
    (closedBack : ∀ x y w, x ∈ nodes → query.backArc provider x y w → y ∈ nodes)
    (enough : nodes.length + nodes.length < query.maxNodes) : ¬ CutShort provider query := by
  rintro ⟨full, -⟩
  obtain ⟨ok, -⟩ := biLoop_spec consistent (.initial differ)
  have counted : (biLoop provider query query.initial).explored = _ + _ :=
    biLoop_explored rfl
  have front := ok.fwd.fine.visited_subset ends.1 closed
  have back := ok.bwd.fine.visited_subset ends.2 closedBack
  omega

/-! ### A road and a detour -/

/-- A graph given by its edges, each with its ends and its label. -/
def listedGraph (edges : List (JsString × JsString × JsString)) : NeighborProvider where
  hasNode nodeId := edges.any fun edge => decide (edge.1 = nodeId ∨ edge.2.1 = nodeId)
  getNeighbors nodeId direction labels :=
    let admitted := edges.filter fun edge => labels.all fun chosen => chosen.has edge.2.2
    let outgoing := (admitted.filter fun edge => decide (edge.1 = nodeId)).map
      fun edge => ⟨edge.2.1, edge.2.2⟩
    let incoming := (admitted.filter fun edge => decide (edge.2.1 = nodeId)).map
      fun edge => ⟨edge.1, edge.2.2⟩
    match direction with
    | .out => outgoing
    | .incoming => incoming
    | .both => outgoing ++ incoming

theorem listedGraph_mirrored (edges) : Mirrored (listedGraph edges) := by
  intro labels x y label
  simp only [listedGraph, mem_map, mem_filter, decide_eq_true_eq,
    NeighborEdge.mk.injEq, Prod.exists]
  constructor
  · rintro ⟨a, b, l, ⟨admitted, rfl⟩, rfl, rfl⟩
    exact ⟨a, b, l, ⟨admitted, rfl⟩, rfl, rfl⟩
  · rintro ⟨a, b, l, ⟨admitted, rfl⟩, rfl, rfl⟩
    exact ⟨a, b, l, ⟨admitted, rfl⟩, rfl, rfl⟩

/-- A toll road leads straight to `t`; the way through `a` is cheaper. -/
def tollGraph : NeighborProvider :=
  listedGraph [(lit "s", lit "a", lit "road"), (lit "a", lit "t", lit "road"),
    (lit "s", lit "t", lit "toll")]

def tollWeight : WeightFn := fun _ _ label => if label = lit "toll" then 10 else 1

def tollWeights : WeightChoice := ⟨some tollWeight, none⟩

def tollQuery (maxNodes : Nat) : BiQuery where
  start := lit "s"
  goal := lit "t"
  labels := none
  forwardHeuristic := fun _ _ => 0
  backwardHeuristic := fun _ _ => 0
  maxNodes := maxNodes
  weightFn := tollWeight

def tollParams : TraversalParams := ⟨lit "s", .out, none, 100, 1000⟩

end Query
end GitWarp
