import Mathlib.Data.Finset.Card
import Mathlib.Algebra.GroupWithZero.Nat
import Mathlib.Data.List.Nodup

/-!
# Breadth-first crawls

A crawl has a set of seen nodes and a queue of places: a node, its depth and how
many of its edges are already listed. The relation below describes all that a
crawl still lists, so a crawl that is stopped after some of its edges is the same
relation with those edges taken off.
-/
namespace Lib

open List

variable {N E : Type} [DecidableEq N]

structure Crawl (N E : Type) where
  edgesOf : N → List E
  target : E → N
  maxDepth : Nat
  goal : Option N

/-- A node of the queue, and how many of its edges have been listed. -/
structure Place (N : Type) where
  node : N
  depth : Nat
  listed : Nat

/-- An edge, where it was found and how far from the start it leads. -/
structure CrawlStep (N E : Type) where
  source : N
  edge : E
  depth : Nat

variable {queue : List (Place N)} {steps : List (CrawlStep N E)} {p : Place N} {seen all : Finset N}
  {step : CrawlStep N E}

namespace Crawl

variable (crawl : Crawl N E)

/-- A node of the last layer is not queued. -/
def queued (n : N) (depth : Nat) : List (Place N) :=
  if depth < crawl.maxDepth then [⟨n, depth, 0⟩] else []

/-- `crawl.Lists seen queue steps all`: from here on the steps are listed, and then all these nodes
are seen. -/
inductive Lists : Finset N → List (Place N) → List (CrawlStep N E) → Finset N → Prop
  | done (seen : Finset N) : Lists seen [] [] seen
  | deep (seen all : Finset N) (p : Place N) (queue : List (Place N))
      (steps : List (CrawlStep N E)) (end_ : crawl.maxDepth ≤ p.depth)
      (later : Lists seen queue steps all) : Lists seen (p :: queue) steps all
  | passed (seen all : Finset N) (p : Place N) (queue : List (Place N))
      (steps : List (CrawlStep N E)) (end_ : (crawl.edgesOf p.node)[p.listed]? = none)
      (later : Lists seen queue steps all) : Lists seen (p :: queue) steps all
  | known (seen all : Finset N) (p : Place N) (queue : List (Place N)) (e : E)
      (steps : List (CrawlStep N E)) (within : p.depth < crawl.maxDepth)
      (edge : (crawl.edgesOf p.node)[p.listed]? = some e) (old : crawl.target e ∈ seen)
      (later : Lists seen ({ p with listed := p.listed + 1 } :: queue) steps all) :
      Lists seen (p :: queue) (⟨p.node, e, p.depth + 1⟩ :: steps) all
  | goal (seen : Finset N) (p : Place N) (queue : List (Place N)) (e : E)
      (within : p.depth < crawl.maxDepth) (edge : (crawl.edgesOf p.node)[p.listed]? = some e)
      (new : crawl.target e ∉ seen) (found : crawl.goal = some (crawl.target e)) :
      Lists seen (p :: queue) [⟨p.node, e, p.depth + 1⟩] (insert (crawl.target e) seen)
  | fresh (seen all : Finset N) (p : Place N) (queue : List (Place N)) (e : E)
      (steps : List (CrawlStep N E)) (within : p.depth < crawl.maxDepth)
      (edge : (crawl.edgesOf p.node)[p.listed]? = some e) (new : crawl.target e ∉ seen)
      (missed : crawl.goal ≠ some (crawl.target e))
      (later : Lists (insert (crawl.target e) seen)
        ({ p with listed := p.listed + 1 } :: queue ++ crawl.queued (crawl.target e) (p.depth + 1))
        steps all) :
      Lists seen (p :: queue) (⟨p.node, e, p.depth + 1⟩ :: steps) all

/-- The whole crawl from a node. -/
inductive From (start : N) : List (CrawlStep N E) → Finset N → Prop
  | there (here : crawl.goal = some start) : From start [] {start}
  | search (steps : List (CrawlStep N E)) (all : Finset N) (away : crawl.goal ≠ some start)
      (lists : crawl.Lists {start} [⟨start, 0, 0⟩] steps all) : From start steps all

variable {crawl}

/-! ### Taking a crawl apart -/

section

variable (lists : crawl.Lists seen (p :: queue) steps all)
include lists

theorem Lists.of_deep (end_ : crawl.maxDepth ≤ p.depth) : crawl.Lists seen queue steps all := by
  cases lists with
  | deep _ _ _ _ _ _ later | passed _ _ _ _ _ _ later => exact later
  | known _ _ _ _ _ _ within | goal _ _ _ _ within | fresh _ _ _ _ _ _ within => omega

theorem Lists.of_passed (end_ : (crawl.edgesOf p.node)[p.listed]? = none) :
    crawl.Lists seen queue steps all := by
  cases lists with
  | deep _ _ _ _ _ _ later | passed _ _ _ _ _ _ later => exact later
  | known _ _ _ _ _ _ _ edge | goal _ _ _ _ _ edge | fresh _ _ _ _ _ _ _ edge => simp [end_] at edge

theorem Lists.of_known (within : p.depth < crawl.maxDepth)
    (edge : (crawl.edgesOf p.node)[p.listed]? = some e) (old : crawl.target e ∈ seen) :
    ∃ rest, steps = ⟨p.node, e, p.depth + 1⟩ :: rest ∧
      crawl.Lists seen ({ p with listed := p.listed + 1 } :: queue) rest all := by
  cases lists with
  | deep _ _ _ _ _ end_ => omega
  | passed _ _ _ _ _ end_ => simp [end_] at edge
  | known _ _ _ _ e' rest _ edge' _ later =>
    obtain rfl : e = e' := Option.some.inj (edge.symm.trans edge')
    exact ⟨rest, rfl, later⟩
  | goal _ _ _ e' _ edge' new | fresh _ _ _ _ e' _ _ edge' new =>
    obtain rfl : e = e' := Option.some.inj (edge.symm.trans edge')
    exact absurd old new

theorem Lists.of_new (within : p.depth < crawl.maxDepth)
    (edge : (crawl.edgesOf p.node)[p.listed]? = some e) (new : crawl.target e ∉ seen) :
    (crawl.goal = some (crawl.target e) ∧ steps = [⟨p.node, e, p.depth + 1⟩] ∧
        all = insert (crawl.target e) seen) ∨
      crawl.goal ≠ some (crawl.target e) ∧ ∃ rest, steps = ⟨p.node, e, p.depth + 1⟩ :: rest ∧
        crawl.Lists (insert (crawl.target e) seen)
          ({ p with listed := p.listed + 1 } :: queue ++
            crawl.queued (crawl.target e) (p.depth + 1)) rest all := by
  cases lists with
  | deep _ _ _ _ _ end_ => omega
  | passed _ _ _ _ _ end_ => simp [end_] at edge
  | known _ _ _ _ e' _ _ edge' old =>
    obtain rfl : e = e' := Option.some.inj (edge.symm.trans edge')
    exact absurd old new
  | goal _ _ _ e' _ edge' _ found =>
    obtain rfl : e = e' := Option.some.inj (edge.symm.trans edge')
    exact Or.inl ⟨found, rfl, rfl⟩
  | fresh _ _ _ _ e' rest _ edge' _ missed later =>
    obtain rfl : e = e' := Option.some.inj (edge.symm.trans edge')
    exact Or.inr ⟨missed, rest, rfl, later⟩

end

/-! ### One crawl from every state -/

/-- What is still to be listed at the places of a queue. -/
def left (crawl : Crawl N E) (queue : List (Place N)) : Nat :=
  (queue.map fun p => (crawl.edgesOf p.node).length - p.listed + 1).sum

omit [DecidableEq N] in
@[simp] theorem left_cons (p) (queue) :
    crawl.left (p :: queue) = (crawl.edgesOf p.node).length - p.listed + 1 + crawl.left queue := by
  simp [left]

theorem exists_lists {nodes : Finset N} (bounded : ∀ n, ∀ e ∈ crawl.edgesOf n,
    crawl.target e ∈ nodes) (seen) (queue) : ∃ steps all, crawl.Lists seen queue steps all := by
  -- a crawl among finitely many nodes ends
  -- fewer nodes are unseen, or less is left at the places
  induction unseen : (nodes \ seen).card using Nat.strongRecOn generalizing seen queue with
  | ind m outer =>
    induction size : crawl.left queue using Nat.strongRecOn generalizing queue with
    | ind k inner =>
      cases queue with
      | nil => exact ⟨[], seen, .done seen⟩
      | cons p queue =>
        rw [left_cons] at size
        by_cases end_ : crawl.maxDepth ≤ p.depth
        · obtain ⟨steps, all, later⟩ := inner _ (by omega) queue rfl
          exact ⟨steps, all, .deep _ _ _ _ _ end_ later⟩
        have within : p.depth < crawl.maxDepth := not_le.mp end_
        cases edge : (crawl.edgesOf p.node)[p.listed]? with
        | none =>
          obtain ⟨steps, all, later⟩ := inner _ (by omega) queue rfl
          exact ⟨steps, all, .passed _ _ _ _ _ edge later⟩
        | some e =>
          have inside : p.listed < (crawl.edgesOf p.node).length := by
            obtain ⟨inside, -⟩ := List.getElem?_eq_some_iff.mp edge
            exact inside
          by_cases old : crawl.target e ∈ seen
          · obtain ⟨steps, all, later⟩ := inner _ (by rw [← size, left_cons]; dsimp only; omega)
              ({ p with listed := p.listed + 1 } :: queue) rfl
            exact ⟨_, all, .known _ _ _ _ e steps within edge old later⟩
          · by_cases found : crawl.goal = some (crawl.target e)
            · exact ⟨_, _, .goal _ _ _ e within edge old found⟩
            · have fewer : (nodes \ insert (crawl.target e) seen).card < (nodes \ seen).card := by
                apply Finset.card_lt_card
                rw [Finset.ssubset_iff_of_subset
                  (Finset.sdiff_subset_sdiff le_rfl (Finset.subset_insert _ _))]
                have inside : crawl.target e ∈ nodes := bounded _ e (mem_of_getElem? edge)
                exact ⟨crawl.target e, Finset.mem_sdiff.mpr ⟨inside, old⟩, by simp⟩
              obtain ⟨steps, all, later⟩ := outer _ (unseen ▸ fewer) (insert (crawl.target e) seen)
                ({ p with listed := p.listed + 1 } :: queue ++
                  crawl.queued (crawl.target e) (p.depth + 1)) rfl
              exact ⟨_, all, .fresh _ _ _ _ e steps within edge old found later⟩

theorem exists_from (nodes : Finset N) (bounded : ∀ n, ∀ e ∈ crawl.edgesOf n,
    crawl.target e ∈ nodes) (start : N) : ∃ steps all, crawl.From start steps all := by
  by_cases here : crawl.goal = some start
  · exact ⟨_, _, .there here⟩
  · obtain ⟨steps, all, lists⟩ := exists_lists bounded {start} [⟨start, 0, 0⟩]
    exact ⟨_, _, .search steps all here lists⟩

/-! ### What a crawl sees -/

theorem Lists.subset (lists : crawl.Lists seen queue steps all) : seen ⊆ all := by
  induction lists with
  | done => exact le_rfl
  | deep _ _ _ _ _ _ _ ih | passed _ _ _ _ _ _ _ ih | known _ _ _ _ _ _ _ _ _ _ ih => exact ih
  | goal seen p queue e => exact Finset.subset_insert _ _
  | fresh seen all p queue e steps _ _ _ _ _ ih =>
    exact (Finset.subset_insert _ _).trans ih

theorem Lists.card_lt (lists : crawl.Lists seen (p :: queue) steps all)
    (within : p.depth < crawl.maxDepth) (edge : (crawl.edgesOf p.node)[p.listed]? = some e)
    (new : crawl.target e ∉ seen) : seen.card < all.card := by
  have grown : insert (crawl.target e) seen ⊆ all := by
    rcases lists.of_new within edge new with ⟨-, -, rfl⟩ | ⟨-, rest, -, later⟩
    · exact le_rfl
    · exact later.subset
  have counted := Finset.card_le_card grown
  rw [Finset.card_insert_of_notMem new] at counted
  exact counted

/-- Where an edge that is still to be listed comes from. -/
def Ahead (crawl : Crawl N E) (seen : Finset N) (queue : List (Place N)) (step : CrawlStep N E) :
    Prop :=
  (∃ p ∈ queue, step.source = p.node ∧ step.edge ∈ (crawl.edgesOf p.node).drop p.listed) ∨
    step.source ∉ seen

omit [DecidableEq N] in
theorem ahead_tail (ahead : crawl.Ahead seen queue step) : crawl.Ahead seen (p :: queue) step := by
  rcases ahead with ⟨q, member, from_⟩ | new
  · exact Or.inl ⟨q, mem_cons_of_mem _ member, from_⟩
  · exact Or.inr new

omit [DecidableEq N] in
theorem ahead_next (ahead : crawl.Ahead seen ({ p with listed := p.listed + 1 } :: queue) step) :
    crawl.Ahead seen (p :: queue) step := by
  rcases ahead with ⟨q, member, source, edge⟩ | new
  · rcases mem_cons.mp member with rfl | member
    · refine Or.inl ⟨p, mem_cons_self, source, ?_⟩
      rw [← drop_drop] at edge
      exact mem_of_mem_drop edge
    · exact Or.inl ⟨q, mem_cons_of_mem _ member, source, edge⟩
  · exact Or.inr new

omit [DecidableEq N] in
theorem mem_queued (mem : q ∈ crawl.queued n depth) : q.node = n := by
  unfold queued at mem
  split at mem
  next =>
    rw [mem_singleton.mp mem]
  next => cases mem

theorem ahead_fresh (new : n ∉ seen) (ahead : crawl.Ahead (insert n seen)
      ({ p with listed := p.listed + 1 } :: queue ++ crawl.queued n depth) step) :
    crawl.Ahead seen (p :: queue) step := by
  rcases ahead with ⟨q, member, source, edge⟩ | unseen
  · rcases mem_append.mp member with member | last
    · exact ahead_next (Or.inl ⟨q, member, source, edge⟩)
    · rw [mem_queued last] at source
      exact Or.inr (source ▸ new)
  · exact Or.inr fun old => unseen (Finset.mem_insert_of_mem old)

/-- The places of a queue stand for different nodes that are all seen. -/
structure Distinct (seen : Finset N) (queue : List (Place N)) : Prop where
  nodup : (queue.map Place.node).Nodup
  seen : ∀ p ∈ queue, p.node ∈ seen

omit [DecidableEq N] in
theorem Distinct.tail {seen} (distinct : Distinct seen (p :: queue)) :
    Distinct seen queue where
  nodup := (nodup_cons.mp distinct.nodup).2
  seen q mem := distinct.seen q (mem_cons_of_mem _ mem)

omit [DecidableEq N] in
theorem Distinct.next {seen} (distinct : Distinct seen (p :: queue)) :
    Distinct seen ({ p with listed := p.listed + 1 } :: queue) where
  nodup := distinct.nodup
  seen q mem := by
    rcases mem_cons.mp mem with rfl | later
    · exact distinct.seen p mem_cons_self
    · exact distinct.seen q (mem_cons_of_mem _ later)

theorem Distinct.fresh {seen} (distinct : Distinct seen queue) (n : N) (new : n ∉ seen) (depth) :
    Distinct (insert n seen) (queue ++ crawl.queued n depth) where
  nodup := by
    unfold queued
    split
    next =>
      rw [map_append, nodup_append]
      refine ⟨distinct.nodup, nodup_singleton n, ?_⟩
      rintro a mem b last rfl
      obtain ⟨q, inside, rfl⟩ := mem_map.mp mem
      rw [map_singleton, mem_singleton] at last
      have same : q.node = n := last
      exact new (same ▸ distinct.seen q inside)
    next =>
      rw [append_nil]
      exact distinct.nodup
  seen q mem := by
    rcases mem_append.mp mem with old | last
    · exact Finset.mem_insert_of_mem (distinct.seen q old)
    · rw [mem_queued last]
      exact Finset.mem_insert_self n seen

omit [DecidableEq N] in
theorem ahead_here (edge : (crawl.edgesOf p.node)[p.listed]? = some e) :
    crawl.Ahead seen (p :: queue) ⟨p.node, e, depth⟩ := by
  obtain ⟨inside, rfl⟩ := List.getElem?_eq_some_iff.mp edge
  refine Or.inl ⟨p, mem_cons_self, rfl, ?_⟩
  rw [drop_eq_getElem_cons inside]
  exact mem_cons_self

omit [DecidableEq N] in
theorem not_ahead (depth) (once : (crawl.edgesOf p.node).Nodup)
    (distinct : Distinct seen (p :: queue)) (edge : (crawl.edgesOf p.node)[p.listed]? = some e) :
    ¬ crawl.Ahead seen ({ p with listed := p.listed + 1 } :: queue) ⟨p.node, e, depth⟩ := by
  rintro (⟨q, member, source, later⟩ | unseen)
  · rcases mem_cons.mp member with rfl | member
    · obtain ⟨inside, rfl⟩ := List.getElem?_eq_some_iff.mp edge
      have rest := drop_eq_getElem_cons inside
      have twice := once.sublist (drop_sublist p.listed _)
      rw [rest] at twice
      exact (nodup_cons.mp twice).1 later
    · -- the other places stand for other nodes
      have apart := (nodup_cons.mp distinct.nodup).1
      exact apart (mem_map.mpr ⟨q, member, source.symm⟩)
  · exact unseen (distinct.seen p mem_cons_self)

/-- Where every node lists its edges once, a crawl does. -/
theorem Lists.nodup (once : ∀ n, (crawl.edgesOf n).Nodup) (lists : crawl.Lists seen queue steps all)
    (distinct : Distinct seen queue) :
    (steps.map fun step => (step.source, step.edge)).Nodup ∧
      ∀ step ∈ steps, crawl.Ahead seen queue step := by
  induction lists with
  | done => exact ⟨nodup_nil, fun step mem => nomatch mem⟩
  | deep seen all p queue steps _ _ ih | passed seen all p queue steps _ _ ih =>
    obtain ⟨nodup, ahead⟩ := ih distinct.tail
    exact ⟨nodup, fun step mem => ahead_tail (ahead step mem)⟩
  | known seen all p queue e steps within edge old later ih =>
    obtain ⟨nodup, ahead⟩ := ih distinct.next
    refine ⟨?_, ?_⟩
    · rw [map_cons, nodup_cons]
      refine ⟨?_, nodup⟩
      rintro mem
      obtain ⟨⟨source, edge', depth⟩, inside, same⟩ := mem_map.mp mem
      cases same
      exact not_ahead depth (once p.node) distinct edge (ahead _ inside)
    · intro step mem
      rcases mem_cons.mp mem with rfl | rest
      · exact ahead_here edge
      · exact ahead_next (ahead step rest)
  | goal seen p queue e within edge new found =>
    refine ⟨nodup_singleton _, ?_⟩
    intro step mem
    rw [mem_singleton] at mem
    subst mem
    exact ahead_here edge
  | fresh seen all p queue e steps within edge new missed later ih =>
    obtain ⟨nodup, ahead⟩ := ih (distinct.next.fresh _ new _)
    refine ⟨?_, ?_⟩
    · rw [map_cons, nodup_cons]
      refine ⟨?_, nodup⟩
      rintro mem
      obtain ⟨⟨source, edge', depth⟩, inside, same⟩ := mem_map.mp mem
      cases same
      have front := ahead _ inside
      rcases front with ⟨q, place, source, later⟩ | unseen
      · rcases mem_append.mp place with place | last
        · exact not_ahead depth (once p.node) distinct edge
            (Or.inl ⟨q, place, source, later⟩)
        · dsimp only at source
          rw [mem_queued last] at source
          exact new (source ▸ distinct.seen p mem_cons_self)
      · exact unseen (Finset.mem_insert_of_mem (distinct.seen p mem_cons_self))
    · intro step mem
      rcases mem_cons.mp mem with rfl | rest
      · exact ahead_here edge
      · exact ahead_fresh new (ahead step rest)

theorem From.nodup (once : ∀ n, (crawl.edgesOf n).Nodup) (whole : crawl.From start steps all) :
    (steps.map fun step => (step.source, step.edge)).Nodup := by
  cases whole with
  | there => exact nodup_nil
  | search _ _ _ lists =>
    apply (lists.nodup once ?_).1
    constructor
    · exact nodup_singleton start
    · intro p mem
      rw [mem_singleton.mp mem]
      exact Finset.mem_singleton_self start

end Crawl
end Lib
