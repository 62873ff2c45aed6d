import Mathlib.Data.List.Basic

/-!
# Steps that are refused when they go over a limit

A metered step does what a free step does and counts. Since the count never falls, a
sequence of metered steps succeeds exactly when the count at its end is within the limit.
-/
namespace Lib

variable {S T A E : Type}

/-- The step on the larger state, where the count after the free step decides. -/
structure Metered (limit : Nat) (refusal : E) (good : S → Prop) (count : S → Nat)
    (shown : S → T) (free : S → S) (step : T → Except E T) : Prop where
  kept : ∀ s, good s → good (free s)
  grows : ∀ s, good s → count s ≤ count (free s)
  eq : ∀ s, good s → count s ≤ limit →
    step (shown s) = if count (free s) ≤ limit then .ok (shown (free s)) else .error refusal

namespace Metered

variable {limit : Nat} {refusal : E} {good : S → Prop} {count : S → Nat} {shown : S → T}

theorem pure : Metered limit refusal good count shown id Except.ok := by
  constructor
  · exact fun _ held => held
  · exact fun s _ => Nat.le_refl (count s)
  · intro s _ within
    exact (if_pos within).symm

theorem andThen {later} (left : Metered limit refusal good count shown first step)
    (right : Metered limit refusal good count shown later next) :
    Metered limit refusal good count shown (fun s => later (first s))
      (fun t => step t >>= next) := by
  constructor
  · exact fun s held => right.kept _ (left.kept s held)
  · exact fun s held => Nat.le_trans (left.grows s held) (right.grows _ (left.kept s held))
  · intro s held within
    have more := right.grows _ (left.kept s held)
    show (step (shown s) >>= next) = _
    rw [left.eq s held within]
    by_cases middle : count (first s) ≤ limit
    · rw [if_pos middle]
      exact right.eq _ (left.kept s held) middle
    · -- what is refused in the middle would be refused at the end
      rw [if_neg middle, if_neg (by omega)]
      rfl

theorem silent (change) (changed : T → T) (kept : ∀ s, good s → good (change s))
    (same : ∀ s, count (change s) = count s) (agrees : ∀ s, changed (shown s) = shown (change s)) :
    Metered limit refusal good count shown change (fun t => .ok (changed t)) := by
  constructor
  · exact kept
  · exact fun s _ => Nat.le_of_eq (same s).symm
  · intro s _ within
    rw [same, if_pos within]
    exact congrArg Except.ok (agrees s)

theorem reading {B : Type} {read : S → B} (shownRead : T → B) {free : B → S → S}
    {step : B → T → Except E T} (alike : ∀ s, shownRead (shown s) = read s)
    (each : ∀ b, Metered limit refusal good count shown (free b) (step b)) :
    Metered limit refusal good count shown (fun s => free (read s) s)
      (fun t => step (shownRead t) t) := by
  constructor
  · exact fun s held => (each (read s)).kept s held
  · exact fun s held => (each (read s)).grows s held
  · intro s held within
    rw [alike]
    exact (each (read s)).eq s held within

theorem foldlM
    (each : ∀ a, Metered limit refusal good count shown (fun s => free s a) (fun t => step t a))
    {items : List A} :
    Metered limit refusal good count shown (fun s => items.foldl free s)
      (fun t => items.foldlM step t) := by
  induction items with
  | nil => exact pure
  | cons a items ih => exact (each a).andThen ih

end Metered
end Lib
