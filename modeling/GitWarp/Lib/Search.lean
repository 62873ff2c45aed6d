import Mathlib.Data.List.Basic
import Mathlib.Order.Basic

/-!
# Binary search

The two loops that search a sorted sequence: one for the first position that is
not below the target, one for an exact hit. Both run on positions; the sequence
enters only through the comparison.
-/
namespace Lib

/-- The first position in `[lo, hi)` that is not below the target, or `hi`. -/
def lowerBoundLoop (below : Nat → Bool) : Nat → Nat → Nat → Nat
  | 0, lo, _ => lo
  | fuel + 1, lo, hi =>
    if lo < hi then
      let mid := (lo + hi) / 2
      if below mid then lowerBoundLoop below fuel (mid + 1) hi
      else lowerBoundLoop below fuel lo mid
    else lo

theorem lowerBoundLoop_spec (below)
    (sorted : ∀ i j, i < j → j < size → below j = true → below i = true)
    (fuel lo hi) (enough : hi - lo ≤ fuel) (ordered : lo ≤ hi) (inside : hi ≤ size)
    (left : ∀ i < lo, below i = true) (right : ∀ i, hi ≤ i → i < size → below i = false) :
    let found := lowerBoundLoop below fuel lo hi
    found ≤ size ∧ (∀ i < found, below i = true) ∧
      ∀ i, found ≤ i → i < size → below i = false := by
  induction fuel generalizing lo hi with
  | zero =>
    have closed : lo = hi := by omega
    subst closed
    exact ⟨inside, left, right⟩
  | succ fuel ih =>
    simp only [lowerBoundLoop]
    split
    next gap =>
      split
      next smaller =>
        refine ih _ _ (by omega) (by omega) inside (fun i small => ?_) right
        by_cases last : i = (lo + hi) / 2
        · exact last ▸ smaller
        · exact sorted i ((lo + hi) / 2) (by omega) (by omega) smaller
      next notSmaller =>
        refine ih _ _ (by omega) (by omega) (by omega) left fun i large small => ?_
        by_contra isBelow
        by_cases first : i = (lo + hi) / 2
        · exact notSmaller (first ▸ by simpa using isBelow)
        · exact notSmaller (sorted ((lo + hi) / 2) i (by omega) small (by simpa using isBelow))
    next closed =>
      have same : lo = hi := by omega
      subst same
      exact ⟨inside, left, right⟩

/-- A position in `[lo, hi)` where the comparison is zero. -/
def searchLoop (cmp : Nat → Int) : Nat → Nat → Nat → Option Nat
  | 0, _, _ => none
  | fuel + 1, lo, hi =>
    if lo < hi then
      let mid := (lo + hi - 1) / 2
      if cmp mid = 0 then some mid
      else if cmp mid < 0 then searchLoop cmp fuel (mid + 1) hi
      else searchLoop cmp fuel lo mid
    else none

theorem searchLoop_some (cmp) (fuel lo hi i) (found : searchLoop cmp fuel lo hi = some i) :
    cmp i = 0 ∧ lo ≤ i ∧ i < hi := by
  induction fuel generalizing lo hi with
  | zero => simp [searchLoop] at found
  | succ fuel ih =>
    simp only [searchLoop] at found
    split at found
    next gap =>
      split at found
      next hit =>
        cases found
        exact ⟨hit, by omega, by omega⟩
      · split at found
        · obtain ⟨hit, low, high⟩ := ih _ _ found
          exact ⟨hit, by omega, high⟩
        · obtain ⟨hit, low, high⟩ := ih _ _ found
          exact ⟨hit, low, by omega⟩
    · cases found

theorem searchLoop_none {cmp size} (sorted : ∀ i j, i < j → j < size → cmp j ≤ 0 → cmp i < 0)
    (fuel lo hi) (enough : hi - lo ≤ fuel) (inside : hi ≤ size)
    (missed : searchLoop cmp fuel lo hi = none) (i) (low : lo ≤ i) (high : i < hi) : cmp i ≠ 0 := by
  induction fuel generalizing lo hi with
  | zero => omega
  | succ fuel ih =>
    simp only [searchLoop] at missed
    split at missed
    next gap =>
      split at missed
      · cases missed
      next noHit =>
        split at missed
        next smaller =>
          by_cases after : (lo + hi - 1) / 2 + 1 ≤ i
          · exact ih _ _ (by omega) inside missed after high
          · by_cases same : i = (lo + hi - 1) / 2
            · exact same ▸ noHit
            · have := sorted i ((lo + hi - 1) / 2) (by omega) (by omega) (by omega)
              omega
        next larger =>
          by_cases before : i < (lo + hi - 1) / 2
          · exact ih _ _ (by omega) (by omega) missed low before
          · by_cases same : i = (lo + hi - 1) / 2
            · exact same ▸ noHit
            · intro zero
              have := sorted ((lo + hi - 1) / 2) i (by omega) (by omega) (by omega)
              omega
    · omega

end Lib
