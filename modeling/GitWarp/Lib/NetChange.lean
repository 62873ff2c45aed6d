import Mathlib.Data.List.Count

/-!
# Net change from batches of toggles

Each batch of steps reports its rises and its falls, and reports are folded by
cancelling whatever appears on both sides. The fold keeps the net change since the
last batch that toggled more than once.
-/
namespace Lib

open List

/-! ### Rises and falls along a trace -/

/-- How often a status starting at `c` goes up along a trace. -/
def rises : Bool → List Bool → Nat
  | _, [] => 0
  | c, b :: rest => (!c && b).toNat + rises b rest

/-- How often a status starting at `c` goes down along a trace. -/
def falls : Bool → List Bool → Nat
  | _, [] => 0
  | c, b :: rest => (c && !b).toNat + falls b rest

/-- The status at the end of a trace. -/
def settle (c : Bool) (trace : List Bool) : Bool := trace.getLastD c

theorem settle_cons (c b) (rest) : settle c (b :: rest) = settle b rest := by
  cases rest <;> rfl

theorem rises_add_start (c) (trace) :
    rises c trace + c.toNat = falls c trace + (settle c trace).toNat := by
  induction trace generalizing c with
  | nil => simp [rises, falls, settle]
  | cons b rest ih =>
    rw [settle_cons]
    simp only [rises, falls]
    cases c <;> cases b <;> simp at * <;> omega

theorem settle_iff_of_steady {trace} (steady : settle c trace = true → falls c trace = 0) :
    settle c trace = true ↔ (c = true ∨ 0 < rises c trace) ∧ ¬ 0 < falls c trace := by
  have balance := rises_add_start c trace
  cases finish : settle c trace with
  | true =>
    have still := steady finish
    rw [finish, still] at balance
    cases c <;> simp at * <;> omega
  | false =>
    rw [finish] at balance
    cases c <;> simp at * <;> omega

theorem falls_of_single (c) (trace) (short : trace.length ≤ 1) (finish : settle c trace = true) :
    falls c trace = 0 := by
  match trace, short with
  | [], _ => rfl
  | [b], _ => cases c <;> cases b <;> simp_all [falls, settle]

theorem both_ways (c) {trace} (twice : 2 ≤ rises c trace + falls c trace) :
    0 < rises c trace ∧ 0 < falls c trace := by
  have balance := rises_add_start c trace
  have start := Bool.toNat_le c
  have finish := Bool.toNat_le (settle c trace)
  omega

/-- The status that a folded report is relative to: the one after the last batch with
two or more toggles, or else the first. -/
def baseline (base c : Bool) : List (List Bool) → Bool
  | [] => base
  | trace :: rest =>
    baseline (if 2 ≤ rises c trace + falls c trace then settle c trace else base)
      (settle c trace) rest

/-! ### Cancelling reports -/

variable {E K : Type} [BEq K] [LawfulBEq K] (key : E → K)

/-- The items of `kept` whose key `other` does not list. -/
def cancel (kept other : List E) : List E :=
  kept.filter fun e => !(other.map key).contains (key e)

theorem count_cancel (kept other) (k : K) :
    ((cancel key kept other).map key).count k =
      if (other.map key).contains k then 0 else (kept.map key).count k := by
  induction kept with
  | nil => simp [cancel]
  | cons e rest ih =>
    by_cases listed : (other.map key).contains (key e) = true
    · have dropped : cancel key (e :: rest) other = cancel key rest other :=
        filter_cons_of_neg (by simp only [listed, Bool.not_true, Bool.false_eq_true, not_false_iff])
      rw [dropped, ih]
      split
      · rfl
      next absent =>
        have differ : key e ≠ k := fun same => absent (same ▸ listed)
        simp [differ]
    · have stays : cancel key (e :: rest) other = e :: cancel key rest other :=
        filter_cons_of_pos (by simpa using listed)
      rw [stays, map_cons, count_cons, ih]
      split
      next present =>
        have differ : key e ≠ k := fun same => listed (same ▸ present)
        simp [differ]
      · simp [count_cons]

/-- The report `(added, removed)` says of `k` exactly its change from `base` to `c`. -/
structure Reports (added removed : List E) (base c : Bool) (k : K) : Prop where
  added : (added.map key).count k = (!base && c).toNat
  removed : (removed.map key).count k = (base && !c).toNat

variable {key}

/-- Folding in the report of one more batch. -/
theorem Reports.cancel {added removed added' removed' base c k}
    (sofar : Reports key added removed base c k) (trace)
    (up : (added'.map key).count k = rises c trace)
    (down : (removed'.map key).count k = falls c trace) :
    Reports key (cancel key (added ++ added') (removed ++ removed'))
      (cancel key (removed ++ removed') (added ++ added'))
      (if 2 ≤ rises c trace + falls c trace then settle c trace else base) (settle c trace) k := by
  have total : ((added ++ added').map key).count k = (!base && c).toNat + rises c trace := by
    rw [map_append, count_append, sofar.added, up]
  have total' : ((removed ++ removed').map key).count k = (base && !c).toNat + falls c trace := by
    rw [map_append, count_append, sofar.removed, down]
  have balance := rises_add_start c trace
  have listed : ((added ++ added').map key).contains k = true ↔
      0 < (!base && c).toNat + rises c trace := by
    rw [contains_iff_mem, ← count_pos_iff, total]
  have listed' : ((removed ++ removed').map key).contains k = true ↔
      0 < (base && !c).toNat + falls c trace := by
    rw [contains_iff_mem, ← count_pos_iff, total']
  by_cases twice : 2 ≤ rises c trace + falls c trace
  · obtain ⟨upward, downward⟩ := both_ways c twice
    constructor
    · rw [count_cancel, if_pos (listed'.mpr (by omega)), if_pos twice]
      simp
    · rw [count_cancel, if_pos (listed.mpr (by omega)), if_pos twice]
      simp
  · rw [if_neg twice]
    generalize settle c trace = finish at *
    constructor
    · rw [count_cancel, total]
      simp only [listed']
      cases base <;> cases c <;> cases finish <;>
        simp only [Bool.not_false, Bool.not_true, Bool.and_true, Bool.and_false, Bool.toNat_true,
          Bool.toNat_false] at * <;> split <;> omega
    · rw [count_cancel, total']
      simp only [listed]
      cases base <;> cases c <;> cases finish <;>
        simp only [Bool.not_false, Bool.not_true, Bool.and_true, Bool.and_false, Bool.toNat_true,
          Bool.toNat_false] at * <;> split <;> omega

end Lib
