import GitWarp.Lib.BinaryHeap
import Mathlib.Data.Multiset.Filter
import Mathlib.Data.Prod.Lex

/-!
# Runs of a heap

Whatever calls a `MinHeap` receives, each extraction serves an entry that is least in
priority, and among those of its priority least for the tie breaker.
-/
namespace GitWarp.Query

open Lib List

variable {T P R : Type} [LinearOrder P] [LinearOrder R] (tieBreaker : T → R)

structure Queued (T P : Type) where
  item : T
  priority : P

/-- What `_compare` compares. The tie breaker goes by the rank of items, which is one and the
same for all where there is none. -/
def Queued.key (entry : Queued T P) : P ×ₗ R := toLex (entry.priority, tieBreaker entry.item)

inductive HeapCall (T P : Type)
  | insert (item : T) (priority : P)
  | extractMin

/-- The answers of the extractions, in order, and the heap at the end. -/
def runCalls : Array (Queued T P) → List (HeapCall T P) → List (Option T) × Array (Queued T P)
  | heap, [] => ([], heap)
  | heap, .insert item priority :: calls =>
    runCalls (heapPush (Queued.key tieBreaker) heap ⟨item, priority⟩) calls
  | heap, .extractMin :: calls =>
    match heapPop (Queued.key tieBreaker) heap with
    | none =>
      let (answers, last) := runCalls heap calls
      (none :: answers, last)
    | some (first, rest) =>
      let (answers, last) := runCalls rest calls
      (some first.item :: answers, last)

/-- Calls on a collection of entries: an extraction takes an entry that none comes before. -/
inductive Served : Multiset (Queued T P) → List (HeapCall T P) → List (Option T) →
    Multiset (Queued T P) → Prop
  | done (pending) : Served pending [] [] pending
  | insert {item priority} : Served (⟨item, priority⟩ ::ₘ pending) calls answers rest →
      Served pending (.insert item priority :: calls) answers rest
  | nothing : Served 0 calls answers rest → Served 0 (.extractMin :: calls) (none :: answers) rest
  | extract {first} : (∀ entry ∈ pending, first.priority < entry.priority ∨
        first.priority = entry.priority ∧ tieBreaker first.item ≤ tieBreaker entry.item) →
      Served pending calls answers rest →
      Served (first ::ₘ pending) (.extractMin :: calls) (some first.item :: answers) rest

def insertedItems : List (HeapCall T P) → Multiset T
  | [] => 0
  | .insert item _ :: calls => item ::ₘ insertedItems calls
  | .extractMin :: calls => insertedItems calls

/-- What was pending and what has been inserted has been answered or is left, once each. -/
theorem Served.conserved {pending rest : Multiset (Queued T P)}
    (served : Served tieBreaker pending calls answers rest) :
    pending.map Queued.item + insertedItems calls =
      (answers.filterMap id : Multiset T) + rest.map Queued.item := by
  induction served with
  | done pending => simp [insertedItems]
  | insert _ ih | nothing _ ih => simpa [insertedItems] using ih
  | extract _ _ ih => simpa [insertedItems, ← Multiset.cons_coe] using ih

theorem served_runCalls (calls) (heap : Array (Queued T P))
    (ordered : Ordered (keyAt (Queued.key tieBreaker) heap)) :
    Served tieBreaker heap.toList calls (runCalls tieBreaker heap calls).1
      (runCalls tieBreaker heap calls).2.toList := by
  induction calls generalizing heap with
  | nil => exact .done _
  | cons call calls ih =>
    cases call with
    | insert item priority =>
      have next := ih _ (heapPush_ordered _ heap ordered (a := ⟨item, priority⟩))
      rw [Multiset.coe_eq_coe.mpr (perm_heapPush _ heap _)] at next
      exact .insert next
    | extractMin =>
      rw [runCalls]
      cases popped : heapPop (Queued.key tieBreaker) heap with
      | none =>
        rw [heapPop_eq_none, Array.isEmpty_iff] at popped
        subst popped
        exact .nothing (ih _ ordered)
      | some taken =>
        obtain ⟨ordered', perm, least⟩ := heapPop_spec _ heap ordered popped
        rw [Multiset.coe_eq_coe.mpr perm]
        refine .extract (fun entry mem => ?_) (ih _ ordered')
        have listed := perm.mem_iff.mpr (mem_cons_of_mem _ mem)
        exact Prod.Lex.toLex_le_toLex.mp (least entry (Array.mem_toList_iff.mp listed))

/-- Every run from an empty heap serves its entries in order, and no item is lost or
answered twice. -/
theorem heap_runs (calls : List (HeapCall T P)) :
    let run := runCalls tieBreaker #[] calls
    Served tieBreaker 0 calls run.1 run.2.toList ∧
      insertedItems calls = (run.1.filterMap id : Multiset T) + run.2.toList.map Queued.item := by
  have served := served_runCalls tieBreaker calls #[] fun i _ => by simp [keyAt]
  exact ⟨served, by simpa using served.conserved⟩

end GitWarp.Query
