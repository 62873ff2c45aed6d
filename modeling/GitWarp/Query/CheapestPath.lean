import GitWarp.Lib.CostWalk
import GitWarp.Query.WeightedPathFinding

/-!
# Cheapest paths

With a consistent estimate, every score is the cost of a walk, every marked node has its
least cost, and every node with a better way still open is on the queue. So the node that
comes off the queue has its least cost, however ties are broken.
-/
namespace GitWarp

open Js Lib List OrdMap OrdSet

namespace Query

open IndexTree (NeighborEdge Direction)

/-- The arcs that a search follows. -/
def ArcOf (rule : SearchRule) (neighbors : JsString → List NeighborEdge) (x y : JsString)
    (w : Rat) : Prop :=
  ∃ edge ∈ neighbors x, edge.neighborId = y ∧ rule.weightOf x edge = w

variable {arc : JsString → JsString → Rat → Prop} {estimate : JsString → Rat} {s : JsString}

/-- What holds of a search in the middle of a relaxation too. -/
structure SideOk (arc : JsString → JsString → Rat → Prop) (estimate : JsString → Rat)
    (s : JsString) (side : SearchSide) : Prop where
  start : side.gScore.get s = some 0
  realized : ∀ x c, side.gScore.get x = some c → ∃ path, CostWalk arc s path x c
  scored : ∀ x c, side.gScore.get x = some c → x ≠ s → ∃ p cp w,
    side.predMap.get x = some p ∧ p ∈ side.visited ∧ side.gScore.get p = some cp ∧
      arc p x w ∧ c = cp + w
  earlier : ∀ (n : Nat) x, side.visited.toList[n]? = some x → x ≠ s → ∃ p,
    side.predMap.get x = some p ∧ ∃ m < n, side.visited.toList[m]? = some p
  settled : ∀ x ∈ side.visited, ∃ c, side.gScore.get x = some c ∧ Cheapest arc s x c
  queued : ∀ x c, side.gScore.get x = some c → x ∉ side.visited →
    ∃ entry ∈ side.heap.entries, entry.item = x ∧ entry.priority = c + estimate x
  sound : ∀ entry ∈ side.heap.entries, ∃ c, side.gScore.get entry.item = some c ∧
    c + estimate entry.item ≤ entry.priority

/-- The arcs from a marked node are relaxed. -/
def Relaxed (arc : JsString → JsString → Rat → Prop) (side : SearchSide) (x : JsString) : Prop :=
  ∀ cx, side.gScore.get x = some cx → ∀ y w, arc x y w →
    ∃ cy, side.gScore.get y = some cy ∧ cy ≤ cx + w

theorem SideOk.start_side : SideOk arc estimate s (.start s (estimate s)) := by
  have only : ∀ x c, (SearchSide.start s (estimate s)).gScore.get x = some c → x = s ∧ c = 0 := by
    intro x c held
    have held' : (OrdMap.empty.set s (0 : Rat)).get x = some c := held
    rw [get_set] at held'
    split at held'
    next same => exact ⟨same.symm, (Option.some.inj held').symm⟩
    next => cases held'
  have entries : (SearchSide.start s (estimate s)).heap.entries = [⟨s, estimate s⟩] :=
    perm_singleton.mp (MinHeap.empty.perm_insert)
  have start : (SearchSide.start s (estimate s)).gScore.get s = some 0 := by
    show (OrdMap.empty.set s (0 : Rat)).get s = some 0
    simp
  constructor
  · exact start
  · intro x c held
    obtain ⟨rfl, rfl⟩ := only x c held
    exact ⟨_, .here⟩
  · intro x c held other
    exact absurd (only x c held).1 other
  · intro n x there
    cases there
  · intro x mem
    exact absurd mem (not_mem_empty x)
  · intro x c held _
    obtain ⟨rfl, rfl⟩ := only x c held
    exact ⟨_, mem_singleton_self _, rfl, (zero_add _).symm⟩
  · intro entry mem
    rw [mem_singleton.mp mem]
    exact ⟨0, start, le_of_eq (zero_add _)⟩

theorem SideOk.drop (ok : SideOk arc estimate s side)
    (sub : ∀ entry ∈ rest.entries, entry ∈ side.heap.entries)
    (dropped : ∀ entry ∈ side.heap.entries, entry.item ∉ side.visited → entry ∈ rest.entries) :
    SideOk arc estimate s { side with heap := rest } := by
  refine ⟨ok.start, ok.realized, ok.scored, ok.earlier, ok.settled, ?_, ?_⟩
  · intro x c held fresh
    obtain ⟨entry, member, rfl, priority⟩ := ok.queued x c held fresh
    exact ⟨entry, dropped entry member fresh, rfl, priority⟩
  · exact fun entry member => ok.sound entry (sub entry member)

section

variable (ok : SideOk arc estimate s side) (consistent : ConsistentEstimate arc estimate)
  (relaxed : ∀ x ∈ side.visited, Relaxed arc side x)
include ok consistent relaxed

theorem SideOk.open_on_walk (walk : CostWalk arc s path x c) (fresh : x ∉ side.visited) :
    ∃ y cy, side.gScore.get y = some cy ∧ y ∉ side.visited ∧
      cy + estimate y ≤ c + estimate x := by
  induction walk with
  | here => exact ⟨s, 0, ok.start, fresh, le_refl _⟩
  | @step path u x c w first last ih =>
    by_cases marked : u ∈ side.visited
    · -- the last arc is relaxed, and the score of its source is least
      obtain ⟨cu, held, least⟩ := ok.settled u marked
      obtain ⟨cx, held', below⟩ := relaxed u marked cu held x w last
      have lower := least path c first
      exact ⟨x, cx, held', fresh, by linarith⟩
    · obtain ⟨y, cy, held, fresh', below⟩ := ih marked
      have drop := consistent u x w last
      exact ⟨y, cy, held, fresh', by linarith⟩

section

variable (popped : side.heap.extractMin = some (current, rest)) (fresh : current ∉ side.visited)
include popped fresh

theorem SideOk.cheapest_of_popped :
    ∃ c, side.gScore.get current = some c ∧ Cheapest arc s current c := by
  obtain ⟨priority, perm, least⟩ := side.heap.extractMin_spec popped
  obtain ⟨c, held, above⟩ :=
    ok.sound ⟨current, priority⟩ (perm.mem_iff.mpr mem_cons_self)
  refine ⟨c, held, fun path c' walk => ?_⟩
  obtain ⟨y, cy, held', fresh', below⟩ := ok.open_on_walk consistent relaxed walk fresh
  obtain ⟨entry, member, rfl, same⟩ := ok.queued y cy held' fresh'
  have first : priority ≤ entry.priority := by
    rcases least entry member with less | ⟨equal, -⟩
    · exact le_of_lt less
    · exact le_of_eq equal
  linarith

/-- Taking an unmarked node off the queue and marking it. -/
theorem SideOk.visit : SideOk arc estimate s (side.visit current rest) := by
  obtain ⟨cost, held, least⟩ := ok.cheapest_of_popped consistent relaxed popped fresh
  obtain ⟨priority, perm, -⟩ := side.heap.extractMin_spec popped
  have marks : ∀ x, x ∈ (side.visit current rest).visited ↔ x ∈ side.visited ∨ x = current :=
    fun x => mem_add _ _
  have order : (side.visit current rest).visited.toList = side.visited.toList ++ [current] :=
    toList_add _ _ fresh
  constructor
  · exact ok.start
  · exact ok.realized
  · intro x c score other
    obtain ⟨p, cp, w, pred, member, rest'⟩ := ok.scored x c score other
    exact ⟨p, cp, w, pred, (marks p).mpr (Or.inl member), rest'⟩
  · intro n x there other
    rw [order] at there ⊢
    by_cases old : n < side.visited.toList.length
    · rw [List.getElem?_append_left old] at there
      obtain ⟨p, pred, m, less, before⟩ := ok.earlier n x there other
      exact ⟨p, pred, m, less, by rw [List.getElem?_append_left (by omega)]; exact before⟩
    · -- the new mark comes last, and its predecessor is marked
      have last : n = side.visited.toList.length ∧ x = current := by
        rw [List.getElem?_append_right (by omega)] at there
        have zero : n - side.visited.toList.length = 0 := by
          by_contra more
          rw [List.getElem?_eq_none (by simp; omega)] at there
          cases there
        rw [zero] at there
        exact ⟨by omega, (Option.some.inj there).symm⟩
      obtain ⟨rfl, rfl⟩ := last
      obtain ⟨p, cp, w, pred, member, -⟩ := ok.scored x cost held other
      obtain ⟨m, less, before⟩ := mem_iff_getElem.mp member
      refine ⟨p, pred, m, less, ?_⟩
      rw [List.getElem?_append_left less, ← before]
      exact List.getElem?_eq_getElem less
  · intro x member
    rcases (marks x).mp member with old | rfl
    · exact ok.settled x old
    · exact ⟨cost, held, least⟩
  · intro x c score unmarked
    rw [marks, not_or] at unmarked
    obtain ⟨entry, member, rfl, same⟩ := ok.queued x c score unmarked.1
    rcases mem_cons.mp (perm.mem_iff.mp member) with first | later
    · exact absurd (by rw [first]) unmarked.2
    · exact ⟨entry, later, rfl, same⟩
  · intro entry member
    exact ok.sound entry (perm.mem_iff.mpr (mem_cons_of_mem _ member))

end

end

/-! ### Relaxing an arc -/

/-- Scores only get better, and marked nodes keep theirs. -/
structure Improves (before after : SearchSide) : Prop where
  visited : after.visited = before.visited
  lower : ∀ x c, before.gScore.get x = some c → ∃ c' ≤ c, after.gScore.get x = some c'
  marked : ∀ x ∈ before.visited, after.gScore.get x = before.gScore.get x

theorem Improves.refl : Improves side side :=
  ⟨rfl, fun _ c held => ⟨c, le_refl c, held⟩, fun _ _ => rfl⟩

theorem Improves.trans (one : Improves first second) (two : Improves second third) :
    Improves first third := by
  refine ⟨two.visited.trans one.visited, ?_, ?_⟩
  · intro x c held
    obtain ⟨c', below, held'⟩ := one.lower x c held
    obtain ⟨c'', below', held''⟩ := two.lower x c' held'
    exact ⟨c'', le_trans below' below, held''⟩
  · intro x mem
    exact (two.marked x (one.visited ▸ mem)).trans (one.marked x mem)

theorem Relaxed.improves {after} (relaxed : Relaxed arc before x) (improves : Improves before after)
    (marked : x ∈ before.visited) : Relaxed arc after x := by
  intro cx held y w leads
  rw [improves.marked x marked] at held
  obtain ⟨cy, held', below⟩ := relaxed cx held y w leads
  obtain ⟨cy', lower, held''⟩ := improves.lower y cy held'
  exact ⟨cy', held'', le_trans lower below⟩

/-- An improvement of a score is recorded with its predecessor and put on the queue. -/
theorem SideOk.record (ok : SideOk arc estimate s side)
    (consistent : ConsistentEstimate arc estimate) (marked : current ∈ side.visited)
    (held : side.gScore.get current = some cost) (leads : arc current y w)
    (fresh : y ∉ side.visited) (better : ∀ c, side.gScore.get y = some c → cost + w ≤ c) :
    SideOk arc estimate s
        (side.record y current (cost + w) (cost + w + estimate y)) ∧
      Improves side (side.record y current (cost + w) (cost + w + estimate y)) := by
  have score : ∀ x, (side.record y current (cost + w) (cost + w + estimate y)).gScore.get x =
      if y = x then some (cost + w) else side.gScore.get x := fun x => get_set _ _
  have pred : ∀ x, (side.record y current (cost + w) (cost + w + estimate y)).predMap.get x =
      if y = x then some current else side.predMap.get x := fun x => get_set _ _
  have entries : ∀ entry,
      entry ∈ (side.record y current (cost + w) (cost + w + estimate y)).heap.entries ↔
        entry = ⟨y, cost + w + estimate y⟩ ∨ entry ∈ side.heap.entries :=
    fun entry => MinHeap.mem_insert _ _ _ _
  have apart : ∀ x ∈ side.visited, y ≠ x := fun x member same => fresh (same ▸ member)
  obtain ⟨path, walk⟩ := ok.realized current cost held
  have longer := walk.step leads
  refine ⟨⟨?_, ?_, ?_, ?_, ?_, ?_, ?_⟩, ⟨rfl, ?_, ?_⟩⟩
  · rw [score]
    split
    next same =>
      -- a walk back to the start costs nothing less than nothing
      subst same
      have least := better 0 ok.start
      have drop := consistent.walk longer
      congr 1
      linarith
    next => exact ok.start
  · intro x c held'
    rw [score] at held'
    split at held'
    next same =>
      cases held'
      exact same ▸ ⟨_, longer⟩
    next => exact ok.realized x c held'
  · intro x c held' other
    rw [score] at held'
    rw [pred]
    split at held'
    next same =>
      cases held'
      subst same
      refine ⟨current, cost, w, if_pos rfl, marked, ?_, leads, rfl⟩
      rw [score, if_neg (apart current marked)]
      exact held
    next differ =>
      obtain ⟨p, cp, w', pred', member, score', rest⟩ := ok.scored x c held' other
      refine ⟨p, cp, w', by rw [if_neg differ]; exact pred', member, ?_, rest⟩
      rw [score, if_neg (apart p member)]
      exact score'
  · intro n x there other
    have member : x ∈ side.visited := mem_of_getElem? there
    rw [pred, if_neg (apart x member)]
    exact ok.earlier n x there other
  · intro x member
    rw [score, if_neg (apart x member)]
    exact ok.settled x member
  · intro x c held' unmarked
    rw [score] at held'
    split at held'
    next same =>
      cases held'
      subst same
      exact ⟨_, (entries _).mpr (Or.inl rfl), rfl, rfl⟩
    next =>
      obtain ⟨entry, member, item, priority⟩ := ok.queued x c held' unmarked
      exact ⟨entry, (entries entry).mpr (Or.inr member), item, priority⟩
  · intro entry member
    rcases (entries entry).mp member with rfl | old
    · exact ⟨cost + w, by rw [score, if_pos rfl], le_refl _⟩
    · obtain ⟨c, held', below⟩ := ok.sound entry old
      rw [score]
      split
      next same =>
        have least := better c (same ▸ held')
        exact ⟨cost + w, rfl, by linarith⟩
      next => exact ⟨c, held', below⟩
  · intro x c held'
    rw [score]
    split
    next same => exact ⟨cost + w, better c (same ▸ held'), rfl⟩
    next => exact ⟨c, le_refl c, held'⟩
  · intro x member
    rw [score, if_neg (apart x member)]

/-- What an improvement compares with. -/
theorem improves_spec {side : SearchSide} :
    (side.improves nodeId current tentG = true → ∀ c, side.gScore.get nodeId = some c → tentG ≤ c) ∧
      (side.improves nodeId current tentG = false →
        ∃ c, side.gScore.get nodeId = some c ∧ c ≤ tentG) := by
  unfold SearchSide.improves
  cases held : side.gScore.get nodeId with
  | none =>
    constructor
    · intro _ c absent
      cases absent
    · intro absurdity
      cases absurdity
  | some best =>
    simp only [Bool.or_eq_true, Bool.and_eq_true, decide_eq_true_eq]
    constructor
    · rintro (less | ⟨same, -⟩) c found
      · exact Option.some.inj found ▸ le_of_lt less
      · exact Option.some.inj found ▸ le_of_eq same
    · intro worse
      refine ⟨best, rfl, ?_⟩
      by_contra above
      simp [not_le.mp above] at worse

variable {rule : SearchRule} {neighbors : JsString → List NeighborEdge}

/-- The rule ranks a node by its score and an estimate. -/
def RanksBy (rule : SearchRule) (estimate : JsString → Rat) : Prop :=
  ∀ nodeId tentG, rule.priorityOf nodeId tentG = tentG + estimate nodeId

section

variable (ok : SideOk (ArcOf rule neighbors) estimate s side)
  (consistent : ConsistentEstimate (ArcOf rule neighbors) estimate) (ranks : RanksBy rule estimate)
  (marked : current ∈ side.visited)
include ok consistent ranks marked

/-- Relaxing an edge of a marked node. -/
theorem SideOk.relaxEdge (listed : edge ∈ neighbors current) :
    SideOk (ArcOf rule neighbors) estimate s (relaxEdge rule current side edge) ∧
      Improves side (relaxEdge rule current side edge) ∧
      ∀ cost, side.gScore.get current = some cost →
        ∃ c, (relaxEdge rule current side edge).gScore.get edge.neighborId = some c ∧
          c ≤ cost + rule.weightOf current edge := by
  obtain ⟨cost, held, least⟩ := ok.settled current marked
  have leads : ArcOf rule neighbors current edge.neighborId (rule.weightOf current edge) :=
    ⟨edge, listed, rfl, rfl⟩
  have scoreOf : side.scoreOf current = cost := by
    unfold SearchSide.scoreOf
    rw [held]
    rfl
  have only : ∀ c, side.gScore.get current = some c → c = cost := by
    intro c held'
    rw [held] at held'
    exact (Option.some.inj held').symm
  unfold Query.relaxEdge
  split
  next old =>
    -- a marked neighbour has its least cost already
    refine ⟨ok, .refl, fun c held' => ?_⟩
    obtain ⟨c', score, least'⟩ := ok.settled edge.neighborId old
    obtain ⟨path, walk⟩ := ok.realized current cost held
    exact ⟨c', score, only c held' ▸ least' _ _ (walk.step leads)⟩
  next fresh =>
    simp only [scoreOf]
    obtain ⟨better, worse⟩ := improves_spec
    split
    next improved =>
      rw [ranks]
      obtain ⟨ok', improves⟩ := ok.record consistent marked held leads fresh (better improved)
      refine ⟨ok', improves, fun c held' => ⟨cost + rule.weightOf current edge, ?_, ?_⟩⟩
      · exact (get_set _ _).trans (if_pos rfl)
      · rw [only c held']
    next kept =>
      refine ⟨ok, .refl, fun c held' => ?_⟩
      obtain ⟨c', score, below⟩ := worse (Bool.eq_false_iff.mpr kept)
      exact ⟨c', score, only c held' ▸ below⟩

theorem SideOk.relaxEdges {edges : List NeighborEdge}
    (listed : ∀ edge ∈ edges, edge ∈ neighbors current) :
    SideOk (ArcOf rule neighbors) estimate s (edges.foldl (Query.relaxEdge rule current) side) ∧
      Improves side (edges.foldl (Query.relaxEdge rule current) side) ∧
      ∀ cost, side.gScore.get current = some cost → ∀ edge ∈ edges,
        ∃ c, (edges.foldl (Query.relaxEdge rule current) side).gScore.get edge.neighborId =
          some c ∧ c ≤ cost + rule.weightOf current edge := by
  -- relaxing listed edges of a marked node, one after the other
  induction edges generalizing side with
  | nil => exact ⟨ok, .refl, by simp⟩
  | cons edge edges ih =>
    obtain ⟨okNow, improved, first⟩ :=
      ok.relaxEdge consistent ranks marked (listed edge mem_cons_self)
    obtain ⟨okRest, improvedRest, rest⟩ := ih okNow (improved.visited ▸ marked)
      (forall_mem_cons.mp listed).2
    refine ⟨okRest, improved.trans improvedRest, fun cost held => ?_⟩
    have held' : (Query.relaxEdge rule current side edge).gScore.get current = some cost := by
      rw [improved.marked current marked]
      exact held
    intro other mem
    rcases mem_cons.mp mem with rfl | later
    · obtain ⟨c, score, below⟩ := first cost held
      obtain ⟨c', lower, score'⟩ := improvedRest.lower _ c score
      exact ⟨c', score', le_trans lower below⟩
    · exact rest cost held' other later

end

/-- What holds of a search between two turns of its loop. -/
structure SearchOk (arc : JsString → JsString → Rat → Prop) (estimate : JsString → Rat)
    (s : JsString) (side : SearchSide) : Prop where
  fine : SideOk arc estimate s side
  relaxed : ∀ x ∈ side.visited, Relaxed arc side x

theorem SearchOk.expand (ok : SearchOk (ArcOf rule neighbors) estimate s side)
    (consistent : ConsistentEstimate (ArcOf rule neighbors) estimate)
    (ranks : RanksBy rule estimate) (popped : side.heap.extractMin = some (current, rest))
    (fresh : current ∉ side.visited) :
    SearchOk (ArcOf rule neighbors) estimate s
      ((neighbors current).foldl (relaxEdge rule current) (side.visit current rest)) := by
  have visited := ok.fine.visit consistent ok.relaxed popped fresh
  have marked : current ∈ (side.visit current rest).visited :=
    (mem_add _ _).mpr (Or.inr rfl)
  obtain ⟨ok', improves, all⟩ :=
    visited.relaxEdges consistent ranks marked fun _ mem => mem
  refine ⟨ok', fun x mem => ?_⟩
  rw [improves.visited] at mem
  rcases (mem_add _ _).mp mem with old | rfl
  · have before : Relaxed _ (side.visit current rest) x := ok.relaxed x old
    exact before.improves improves mem
  · rintro cx held y w ⟨edge, listed, rfl, rfl⟩
    rw [improves.marked x marked] at held
    exact all cx held edge listed

theorem SearchOk.drop (ok : SearchOk arc estimate s side)
    (popped : side.heap.extractMin = some (current, rest)) (stale : current ∈ side.visited) :
    SearchOk arc estimate s { side with heap := rest } := by
  obtain ⟨priority, perm, -⟩ := side.heap.extractMin_spec popped
  refine ⟨ok.fine.drop ?_ ?_, ok.relaxed⟩
  · exact fun entry mem => perm.mem_iff.mpr (mem_cons_of_mem _ mem)
  · intro entry mem unmarked
    rcases mem_cons.mp (perm.mem_iff.mp mem) with first | later
    · exact absurd (first ▸ stale) unmarked
    · exact later

/-! ### The path -/

section

variable (ok : SideOk arc estimate s side)
include ok

theorem SideOk.costWalk (traced : Traced side.predMap s path x) (held : side.gScore.get x = some c) :
    CostWalk arc s path x c := by
  induction traced generalizing c with
  | here =>
    rw [ok.start] at held
    cases held
    exact .here
  | step _ entry other _ ih =>
    obtain ⟨p, cp, w, pred, -, score, leads, rfl⟩ := ok.scored _ c held other
    rw [entry] at pred
    cases pred
    exact .step (ih score) leads

/-- Every node with a score is traced back to the start. -/
theorem SideOk.exists_traced (held : side.gScore.get x = some c) :
    ∃ path, Traced side.predMap s path x := by
  have marked : ∀ y ∈ side.visited, ∃ path, Traced side.predMap s path y ∧
      ∀ z ∈ path, z ∈ side.visited := by
    intro y mem
    obtain ⟨n, less, there⟩ := mem_iff_getElem.mp mem
    have rank : side.visited.toList[n]? = some y := by
      rw [List.getElem?_eq_getElem less, there]
    obtain ⟨path, traced, -, all⟩ := Lib.exists_traced
      (fun n z => side.visited.toList[n]? = some z)
      (fun n m z first second =>
        (List.getElem?_inj (List.getElem?_eq_some_iff.mp first).1 side.visited.nodup).mp
          (first.trans second.symm))
      (fun n z first other => ok.earlier n z first other) y rank
    refine ⟨path, traced, fun z on => ?_⟩
    obtain ⟨m, -, there'⟩ := all z on
    exact mem_of_getElem? there'
  by_cases first : x = s
  · subst first
    exact ⟨[x], .here⟩
  · by_cases mem : x ∈ side.visited
    · obtain ⟨path, traced, -⟩ := marked x mem
      exact ⟨path, traced⟩
    · -- an unmarked node comes right after a marked one
      obtain ⟨p, cp, w, pred, member', -⟩ := ok.scored x c held first
      obtain ⟨path, traced, inside⟩ := marked p member'
      exact ⟨path ++ [x], .step traced pred first fun on => mem (inside x on)⟩

theorem SideOk.reconstruct (held : side.gScore.get x = some c) :
    CostWalk arc s (reconstructPath side.predMap s x) x c := by
  obtain ⟨path, traced⟩ := ok.exists_traced held
  rw [reconstructPath_traced traced]
  exact ok.costWalk traced held

end

/-! ### Dijkstra and A* -/

variable {provider : NeighborProvider} {params : TraversalParams} {goal : JsString}

/-- A returned path is a walk to the goal at the returned cost, and none is cheaper. -/
structure Optimal (arc : JsString → JsString → Rat → Prop) (s goal : JsString)
    (result : WeightedPath) : Prop where
  walk : CostWalk arc s result.path goal result.totalCost
  least : Cheapest arc s goal result.totalCost

theorem bestFirstLoop_spec
    (consistent : ConsistentEstimate (ArcOf rule (neighborsOf provider params)) estimate)
    (ranks : RanksBy rule estimate)
    (ok : SearchOk (ArcOf rule (neighborsOf provider params)) estimate params.start side)
    (run : bestFirstLoop provider params goal rule side = .ok result) :
    Optimal (ArcOf rule (neighborsOf provider params)) params.start goal result := by
  induction side using bestFirstLoop.induct provider params goal rule with
  | case1 side full =>
    rw [bestFirstLoop.eq_def, if_pos full] at run
    cases run
  | case2 side go none_ =>
    rw [bestFirstLoop.eq_def, if_neg go] at run
    split at run
    next => cases run
    next popped => rw [none_] at popped; cases popped
  | case3 side go current rest popped stale ih =>
    rw [bestFirstLoop.eq_def, if_neg go] at run
    split at run
    next none_ => rw [popped] at none_; cases none_
    next popped' =>
      rw [popped] at popped'
      cases popped'
      rw [if_pos stale] at run
      exact ih (ok.drop popped stale) run
  | case4 side go rest popped fresh =>
    rw [bestFirstLoop.eq_def, if_neg go] at run
    split at run
    next none_ => rw [popped] at none_; cases none_
    next popped' =>
      rw [popped] at popped'
      cases popped'
      rw [if_neg fresh] at run
      simp only [if_true] at run
      cases run
      obtain ⟨c, held, least⟩ := ok.fine.cheapest_of_popped consistent ok.relaxed popped fresh
      have visited := ok.fine.visit consistent ok.relaxed popped fresh
      have scoreOf : (side.visit goal rest).scoreOf goal = c := by
        show (side.gScore.get goal).getD 0 = c
        rw [held]
        rfl
      constructor
      · show CostWalk _ _ _ _ ((side.visit goal rest).scoreOf goal)
        rw [scoreOf]
        exact visited.reconstruct held
      · show Cheapest _ _ _ ((side.visit goal rest).scoreOf goal)
        rw [scoreOf]
        exact least
  | case5 side go current rest popped fresh next_ other ih =>
    rw [bestFirstLoop.eq_def, if_neg go] at run
    split at run
    next none_ => rw [popped] at none_; cases none_
    next popped' =>
      rw [popped] at popped'
      cases popped'
      rw [if_neg fresh] at run
      simp only [] at run
      rw [if_neg other] at run
      exact ih (ok.expand consistent ranks popped fresh) run

end Query
end GitWarp
