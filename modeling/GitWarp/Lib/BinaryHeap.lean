import Mathlib.Order.WithBot
import Mathlib.Data.List.Perm.Basic

/-!
# Binary heaps

An array as a binary tree in level order: the parent of the place `i` is
`(i - 1) / 2`, and no entry has a smaller key than its parent. Keys are read as a
function of the place, with the top key where the array has ended.
-/
namespace Lib

open List

variable {A K : Type} [LinearOrder K]

/-! ### Keys by place -/

def parent (i : Nat) : Nat := (i - 1) / 2

theorem parent_lt (inner : 0 < i) : parent i < i := by
  unfold parent
  omega

/-- No key is below the key of its parent. -/
def Ordered (f : Nat → WithTop K) : Prop := ∀ i, 0 < i → f (parent i) ≤ f i

/-- Ordered except above `i`, and what is below `i` may move up to its place. -/
structure UpReady (f : Nat → WithTop K) (i : Nat) : Prop where
  apart : ∀ j, 0 < j → j ≠ i → f (parent j) ≤ f j
  across : ∀ j, 0 < j → parent j = i → 0 < i → f (parent i) ≤ f j

/-- Ordered except below `i`, and what is below `i` may move up to its place. -/
structure DownReady (f : Nat → WithTop K) (i : Nat) : Prop where
  apart : ∀ j, 0 < j → parent j ≠ i → f (parent j) ≤ f j
  across : ∀ j, 0 < j → parent j = i → 0 < i → f (parent i) ≤ f j

variable (f : Nat → WithTop K)

theorem Ordered.root_le (ordered : Ordered f) (i) : f 0 ≤ f i := by
  induction i using Nat.strong_induction_on with
  | h i ih =>
    by_cases first : i = 0
    · rw [first]
    · have inner : 0 < i := Nat.pos_of_ne_zero first
      exact le_trans (ih (parent i) (parent_lt inner)) (ordered i inner)

/-- The keys after two places have been exchanged. -/
def exchange (f : Nat → WithTop K) (i j : Nat) (n : Nat) : WithTop K :=
  if n = i then f j else if n = j then f i else f n

theorem UpReady.done (i) (ready : UpReady f i) (settled : 0 < i → f (parent i) ≤ f i) :
    Ordered f := by
  intro j inner
  by_cases here : j = i
  · exact here ▸ settled (here ▸ inner)
  · exact ready.apart j inner here

theorem UpReady.step (i) (ready : UpReady f i) (inner : 0 < i) (below : f i < f (parent i)) :
    UpReady (exchange f i (parent i)) (parent i) := by
  have up := parent_lt inner
  constructor
  · intro j positive other
    have down := parent_lt positive
    unfold exchange
    by_cases here : j = i
    · -- the edge that was out of order
      subst here
      simp [Nat.ne_of_lt up, le_of_lt below]
    · by_cases sibling : parent j = parent i
      · simp only [here, other, sibling, Nat.ne_of_lt up, if_false, if_true]
        exact le_trans (le_of_lt below) (sibling ▸ ready.apart j positive here)
      · by_cases child : parent j = i
        · simp only [here, other, child, if_false, if_true]
          exact ready.across j positive child inner
        · simp only [here, other, child, sibling, if_false]
          exact ready.apart j positive here
  · intro j positive child inner'
    have upper := parent_lt inner'
    have grand := ready.apart (parent i) inner' (Nat.ne_of_lt up)
    have apart : parent (parent i) ≠ i := by omega
    unfold exchange
    simp only [apart, Nat.ne_of_lt upper, if_false]
    by_cases here : j = i
    · simp [here, grand]
    · have other : j ≠ parent i := by
        have down := parent_lt positive
        omega
      simp only [here, other, if_false]
      exact le_trans grand (child ▸ ready.apart j positive here)

theorem DownReady.done (i) (ready : DownReady f i) (settled : ∀ j, 0 < j → parent j = i → f i ≤ f j) :
    Ordered f := by
  intro j inner
  by_cases here : parent j = i
  · exact here ▸ settled j inner here
  · exact ready.apart j inner here

theorem DownReady.step (ready : DownReady f i) (inner : 0 < c) (child : parent c = i)
    (least : ∀ j, 0 < j → parent j = i → f c ≤ f j) (below : f c < f i) :
    DownReady (exchange f i c) c := by
  have down := parent_lt inner
  constructor
  · intro j positive other
    have lower := parent_lt positive
    unfold exchange
    by_cases sibling : parent j = i
    · have apart : j ≠ i := by omega
      by_cases here : j = c
      · simp [here, child, Nat.ne_of_gt (child ▸ down), le_of_lt below]
      · simp only [sibling, apart, here, if_true, if_false]
        exact least j positive sibling
    · have elsewhere : j ≠ c := by
        rintro rfl
        exact sibling child
      by_cases here : j = i
      · -- the edge above the place that was lifted
        subst here
        simp only [Nat.ne_of_lt lower, other, if_true, if_false]
        exact ready.across c inner child positive
      · simp only [here, elsewhere, sibling, other, if_false]
        exact ready.apart j positive sibling
  · intro j positive below_c _
    have lower := parent_lt positive
    have apart : j ≠ i := by omega
    have elsewhere : j ≠ c := by omega
    unfold exchange
    simp only [child, apart, elsewhere, if_true, if_false]
    have kept := ready.apart j positive (by omega)
    rwa [below_c] at kept

/-! ### Arrays -/

variable (key : A → K)

/-- The key at a place, above every key where there is none. -/
def keyAt (heap : Array A) (i : Nat) : WithTop K :=
  match heap[i]? with
  | none => ⊤
  | some a => key a

/-- Moves an entry up until its parent is not above it. -/
def siftUp : Nat → Array A → Nat → Array A
  | 0, heap, _ => heap
  | fuel + 1, heap, i =>
    if i = 0 ∨ keyAt key heap (parent i) ≤ keyAt key heap i then heap
    else siftUp fuel (heap.swapIfInBounds i (parent i)) (parent i)

def heapPush (heap : Array A) (a : A) : Array A :=
  siftUp key heap.size (heap.push a) heap.size

def smallerChildIndex (heap : Array A) (i : Nat) : Option Nat :=
  if heap.size ≤ i * 2 + 1 then none
  else if i * 2 + 2 < heap.size ∧ keyAt key heap (i * 2 + 2) < keyAt key heap (i * 2 + 1) then
    some (i * 2 + 2)
  else some (i * 2 + 1)

/-- Moves an entry down until no child is below it. -/
def siftDown : Nat → Array A → Nat → Array A
  | 0, heap, _ => heap
  | fuel + 1, heap, i =>
    match smallerChildIndex key heap i with
    | none => heap
    | some child =>
      if keyAt key heap i ≤ keyAt key heap child then heap
      else siftDown fuel (heap.swapIfInBounds i child) child

/-- Takes out the first entry; the last one takes its place and moves down. -/
def heapPop (heap : Array A) : Option (A × Array A) :=
  match heap[0]?, heap.back? with
  | some first, some last =>
    if heap.pop.isEmpty then some (first, heap.pop)
    else some (first, siftDown key heap.size (heap.pop.setIfInBounds 0 last) 0)
  | _, _ => none

variable (heap : Array A)

omit [LinearOrder K] in
theorem keyAt_of_size_le (i) (ended : heap.size ≤ i) : keyAt key heap i = ⊤ := by
  simp [keyAt, Array.getElem?_eq_none ended]

omit [LinearOrder K] in
theorem keyAt_of_lt (within) : keyAt key heap i = key heap[i] := by
  simp [keyAt, within]

omit [LinearOrder K] in
theorem keyAt_swap (left : i < heap.size) (right : j < heap.size) :
    keyAt key (heap.swapIfInBounds i j) = exchange (keyAt key heap) i j := by
  funext n
  rw [keyAt, Array.swapIfInBounds_def, dif_pos left, dif_pos right, Array.getElem?_swap, exchange]
  by_cases atRight : j = n
  · by_cases atLeft : n = i
    · subst atLeft
      subst atRight
      simp [keyAt_of_lt key heap right]
    · simp [atRight, atLeft, keyAt_of_lt key heap left]
  · by_cases atLeft : i = n
    · simp [atRight, atLeft, keyAt_of_lt key heap right]
    · simp [atRight, atLeft, Ne.symm atRight, Ne.symm atLeft, keyAt]

theorem perm_swap : (heap.swapIfInBounds i j).toList.Perm heap.toList := by
  rw [Array.swapIfInBounds_def]
  split
  next left =>
    split
    next right => exact (Array.swap_perm left right).toList
    next => rfl
  next => rfl

theorem perm_siftUp (fuel heap i) : (siftUp key fuel heap i).toList.Perm heap.toList := by
  induction fuel generalizing heap i with
  | zero => rfl
  | succ fuel ih =>
    rw [siftUp]
    split
    next => rfl
    next => exact (ih _ _).trans (perm_swap heap)

theorem perm_siftDown (fuel heap i) : (siftDown key fuel heap i).toList.Perm heap.toList := by
  induction fuel generalizing heap i with
  | zero => rfl
  | succ fuel ih =>
    rw [siftDown]
    split
    next => rfl
    next child _ =>
      split
      next => rfl
      next => exact (ih _ _).trans (perm_swap heap)

theorem siftUp_ordered (fuel heap i) (within : i < heap.size) (enough : i ≤ fuel)
    (ready : UpReady (keyAt key heap) i) : Ordered (keyAt key (siftUp key fuel heap i)) := by
  induction fuel generalizing heap i with
  | zero => exact ready.done _ _ fun inner => absurd inner (by omega)
  | succ fuel ih =>
    rw [siftUp]
    split
    next settled =>
      apply ready.done
      intro inner
      exact settled.resolve_left (Nat.ne_of_gt inner)
    next unsettled =>
      rw [not_or, not_le] at unsettled
      have inner : 0 < i := Nat.pos_of_ne_zero unsettled.1
      have up := parent_lt inner
      apply ih
      · rw [Array.size_swapIfInBounds]
        omega
      · omega
      · rw [keyAt_swap key heap within (by omega)]
        exact ready.step _ _ inner unsettled.2

theorem heapPush_ordered (ordered : Ordered (keyAt key heap)) :
    Ordered (keyAt key (heapPush key heap a)) := by
  have kept : ∀ j, j ≠ heap.size → keyAt key (heap.push a) j = keyAt key heap j := by
    intro j other
    simp [keyAt, Array.getElem?_push, other]
  apply siftUp_ordered key _ _ _ (by simp) le_rfl
  constructor
  · intro j inner other
    have up := parent_lt inner
    rw [kept j other]
    by_cases last : parent j = heap.size
    · rw [keyAt_of_size_le key heap j (by omega)]
      exact le_top
    · rw [kept _ last]
      exact ordered j inner
  · -- nothing is below the new place
    intro j inner below _
    have up := parent_lt inner
    rw [kept j (by omega), keyAt_of_size_le key heap j (by omega)]
    exact le_top

theorem perm_heapPush (a : A) : (heapPush key heap a).toList.Perm (a :: heap.toList) := by
  apply (perm_siftUp key _ _ _).trans
  rw [Array.toList_push]
  exact perm_append_comm

theorem smallerChildIndex_spec (chosen : smallerChildIndex key heap i = some c) :
    0 < c ∧ c < heap.size ∧ parent c = i ∧
      ∀ j, 0 < j → parent j = i → keyAt key heap c ≤ keyAt key heap j := by
  -- the chosen child is least among the children
  have child : ∀ j, 0 < j → parent j = i → j = i * 2 + 1 ∨ j = i * 2 + 2 := by
    unfold parent
    omega
  unfold smallerChildIndex at chosen
  split at chosen
  next => cases chosen
  next inside =>
    split at chosen
    next right =>
      cases chosen
      refine ⟨by omega, right.1, by unfold parent; omega, fun j inner below => ?_⟩
      rcases child j inner below with rfl | rfl
      · exact le_of_lt right.2
      · exact le_rfl
    next left =>
      cases chosen
      refine ⟨by omega, by omega, by unfold parent; omega, fun j inner below => ?_⟩
      rcases child j inner below with rfl | rfl
      · exact le_rfl
      · by_cases within : i * 2 + 2 < heap.size
        · exact not_lt.mp fun lower => left ⟨within, lower⟩
        · rw [keyAt_of_size_le key heap (i * 2 + 2) (not_lt.mp within)]
          exact le_top

theorem siftDown_ordered (fuel heap i) (enough : heap.size ≤ i + fuel)
    (ready : DownReady (keyAt key heap) i) : Ordered (keyAt key (siftDown key fuel heap i)) := by
  induction fuel generalizing heap i with
  | zero =>
    apply ready.done
    intro j inner below
    have up := parent_lt inner
    rw [keyAt_of_size_le key heap j (by omega)]
    exact le_top
  | succ fuel ih =>
    rw [siftDown]
    cases chosen : smallerChildIndex key heap i with
    | none =>
      apply ready.done
      intro j inner below
      unfold smallerChildIndex at chosen
      split at chosen
      next ended =>
        have up : i * 2 + 1 ≤ j := by
          unfold parent at below
          omega
        rw [keyAt_of_size_le key heap j (by omega)]
        exact le_top
      next => split at chosen <;> cases chosen
    | some c =>
      obtain ⟨inner, within, child, least⟩ := smallerChildIndex_spec key heap chosen
      have down := parent_lt inner
      dsimp only
      split
      next settled =>
        exact ready.done _ _ fun j positive below => le_trans settled (least j positive below)
      next unsettled =>
        apply ih
        · rw [Array.size_swapIfInBounds]
          omega
        · rw [keyAt_swap key heap (by omega) within]
          exact ready.step _ inner child least (not_le.mp unsettled)

theorem heapPop_eq_none : heapPop key heap = none ↔ heap.isEmpty = true := by
  rw [Array.isEmpty_iff_size_eq_zero]
  unfold heapPop
  constructor
  · intro nothing
    by_contra some_
    have inside : 0 < heap.size := by omega
    have last : heap.size - 1 < heap.size := by omega
    have front : heap[0]? = some heap[0] := Array.getElem?_eq_getElem inside
    have back : heap.back? = some heap[heap.size - 1] := by
      exact Array.getElem?_eq_getElem last
    rw [front, back] at nothing
    dsimp only at nothing
    split at nothing <;> cases nothing
  · intro bare
    rw [Array.getElem?_eq_none (by omega)]

/-- Taking the first entry out leaves the others in a heap, and none of them is below it. -/
theorem heapPop_spec (ordered : Ordered (keyAt key heap))
    (popped : heapPop key heap = some (first, rest)) :
    Ordered (keyAt key rest) ∧ heap.toList.Perm (first :: rest.toList) ∧
      ∀ a ∈ heap, key first ≤ key a := by
  have least : ∀ b, heap[0]? = some b → ∀ a ∈ heap, key b ≤ key a := by
    intro b found a mem
    obtain ⟨i, within, rfl⟩ := Array.mem_iff_getElem.mp mem
    have root := ordered.root_le _ i
    rw [keyAt_of_lt key heap within, keyAt, found] at root
    exact WithTop.coe_le_coe.mp root
  unfold heapPop at popped
  split at popped
  next b c front back =>
    have split : heap.toList = heap.pop.toList ++ [c] := by
      rw [Array.toList_pop]
      exact (dropLast_append_getLast? c (by rw [← Array.getLast?_toList] at back; exact back)).symm
    split at popped
    next bare =>
      cases popped
      -- the first entry was the only one
      have none_ : heap.pop.toList = [] := by
        rw [Array.isEmpty_iff.mp bare]
      rw [none_, nil_append] at split
      have same : first = c := by
        rw [← Array.getElem?_toList, split] at front
        exact (Option.some.inj front).symm
      refine ⟨?_, by rw [none_, split, same], least first front⟩
      intro i _
      rw [keyAt_of_size_le key heap.pop i (by rw [Array.isEmpty_iff.mp bare]; exact Nat.zero_le i)]
      exact le_top
    next more =>
      cases popped
      obtain ⟨d, middle, shape⟩ : ∃ d middle, heap.pop.toList = d :: middle := by
        cases inside : heap.pop.toList with
        | nil => exact absurd (Array.isEmpty_iff.mpr (Array.toList_eq_nil_iff.mp inside)) more
        | cons d middle => exact ⟨d, middle, rfl⟩
      have same : d = first := by
        rw [← Array.getElem?_toList, split, shape] at front
        exact Option.some.inj front
      refine ⟨?_, ?_, least first front⟩
      · -- only the first place has a new key
        apply siftDown_ordered key _ _ _ (by simp)
        have kept : ∀ j, j ≠ 0 → keyAt key (heap.pop.setIfInBounds 0 c) j =
            if j < heap.size - 1 then keyAt key heap j else ⊤ := by
          intro j other
          rw [keyAt, Array.getElem?_setIfInBounds_ne (Ne.symm other), Array.getElem?_pop]
          split_ifs <;> rfl
        constructor
        · intro j inner below
          have up := parent_lt inner
          rw [kept j (by omega), kept _ below]
          by_cases within : j < heap.size - 1
          · rw [if_pos within, if_pos (by omega)]
            exact ordered j inner
          · rw [if_neg within]
            exact le_top
        · intro j _ _ none_
          exact absurd none_ (lt_irrefl 0)
      · apply List.Perm.symm
        apply ((perm_siftDown key _ _ _).cons first).trans
        rw [split, shape, same, Array.toList_setIfInBounds, shape, set_cons_zero]
        have rotated : (middle ++ [c]).Perm ([c] ++ middle) := perm_append_comm
        exact rotated.symm.cons first
  next => cases popped

end Lib
