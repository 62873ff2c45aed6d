import GitWarp.Lib.BinaryHeap
import GitWarp.Lib.OrdMap
import Mathlib.Data.Prod.Lex
import Mathlib.Algebra.Order.Ring.Rat

/-!
# Priority queues

A binary heap of items with priorities. The item of least priority comes out first, and
among items of equal priority the least one.
-/
namespace GitWarp

open Lib

namespace Query

variable {T : Type} [LinearOrder T]

structure HeapEntry (T : Type) where
  item : T
  priority : Rat
  deriving DecidableEq

/-- `_compare` with the order of the items as tie breaker. -/
def HeapEntry.rank (entry : HeapEntry T) : Rat ×ₗ T := toLex (entry.priority, entry.item)

/-- A priority queue: no entry of the heap comes before its parent. -/
structure MinHeap (T : Type) [LinearOrder T] where
  heap : Array (HeapEntry T)
  ordered : Ordered (keyAt HeapEntry.rank heap)

namespace MinHeap

def empty : MinHeap T := ⟨#[], fun i _ => by simp [keyAt]⟩

def insert (queue : MinHeap T) (item : T) (priority : Rat) : MinHeap T :=
  ⟨heapPush HeapEntry.rank queue.heap ⟨item, priority⟩,
    heapPush_ordered HeapEntry.rank queue.heap queue.ordered⟩

def extractMin (queue : MinHeap T) : Option (T × MinHeap T) :=
  match popped : heapPop HeapEntry.rank queue.heap with
  | none => none
  | some (entry, rest) =>
    some (entry.item, ⟨rest, (heapPop_spec HeapEntry.rank _ queue.ordered popped).1⟩)

def isEmpty (queue : MinHeap T) : Bool := queue.heap.isEmpty

def size (queue : MinHeap T) : Nat := queue.heap.size

/-- The least priority, above every priority where the queue is empty. -/
def peekPriority (queue : MinHeap T) : WithTop Rat :=
  match queue.heap[0]? with
  | none => ⊤
  | some first => first.priority

def entries (queue : MinHeap T) : List (HeapEntry T) := queue.heap.toList

@[simp] theorem entries_empty : (empty : MinHeap T).entries = [] := rfl

section

variable (queue : MinHeap T)
include queue

theorem length_entries : queue.entries.length = queue.size :=
  Array.length_toList

theorem perm_insert :
    (queue.insert item priority).entries.Perm (⟨item, priority⟩ :: queue.entries) :=
  perm_heapPush HeapEntry.rank queue.heap _

@[simp] theorem mem_insert (item : T) (priority) (entry) :
    entry ∈ (queue.insert item priority).entries ↔
      entry = ⟨item, priority⟩ ∨ entry ∈ queue.entries := by
  rw [queue.perm_insert.mem_iff, List.mem_cons]

theorem extractMin_eq_none : queue.extractMin = none ↔ queue.entries = [] := by
  unfold extractMin entries
  rw [Array.toList_eq_nil_iff, ← Array.isEmpty_iff, ← heapPop_eq_none HeapEntry.rank]
  split
  next nothing => exact iff_of_true rfl nothing
  next entry rest popped => exact iff_of_false (by simp) (by rw [popped]; simp)

theorem extractMin_spec {item rest} (popped : queue.extractMin = some (item, rest)) :
    ∃ priority, queue.entries.Perm (⟨item, priority⟩ :: rest.entries) ∧ ∀ entry ∈ queue.entries,
        priority < entry.priority ∨ priority = entry.priority ∧ item ≤ entry.item := by
  unfold extractMin at popped
  split at popped
  next => cases popped
  next first others taken =>
    cases popped
    obtain ⟨-, perm, least⟩ := heapPop_spec HeapEntry.rank _ queue.ordered taken
    refine ⟨first.priority, perm, fun entry mem => ?_⟩
    have below := least entry (Array.mem_toList_iff.mp mem)
    exact (Prod.Lex.toLex_le_toLex.mp below)

theorem peekPriority_le (mem : entry ∈ queue.entries) : queue.peekPriority ≤ entry.priority := by
  obtain ⟨i, within, rfl⟩ := Array.mem_iff_getElem.mp (Array.mem_toList_iff.mp mem)
  have root := queue.ordered.root_le _ i
  rw [keyAt_of_lt HeapEntry.rank _ within, keyAt] at root
  unfold peekPriority
  cases front : queue.heap[0]? with
  | none =>
    rw [front] at root
    exact absurd root (by simp)
  | some first =>
    rw [front] at root
    have below := WithTop.coe_le_coe.mp root
    apply WithTop.coe_le_coe.mpr
    rcases Prod.Lex.toLex_le_toLex.mp below with less | same
    · exact le_of_lt less
    · exact le_of_eq same.1

theorem isEmpty_iff : queue.isEmpty = true ↔ queue.entries = [] := by
  unfold isEmpty entries
  rw [Array.isEmpty_iff, Array.toList_eq_nil_iff]

end

end MinHeap
end Query
end GitWarp
