import Mathlib.Algebra.Order.Ring.Rat
import Mathlib.Tactic.Linarith

/-!
# Walks with costs

An arc leads from node to node at a cost. A walk lists the nodes that it goes through and
adds the costs up. Walks compose, and a walk along the reversed arcs is a walk back.
-/
namespace Lib

open List

variable {A : Type}

/-- The nodes of a walk from `s`, its last node and its cost. -/
inductive CostWalk (arc : A → A → Rat → Prop) (s : A) : List A → A → Rat → Prop
  | here : CostWalk arc s [s] s 0
  | step {path : List A} {x y : A} {c w : Rat} : CostWalk arc s path x c → arc x y w →
      CostWalk arc s (path ++ [y]) y (c + w)

/-- A walk at no more cost than any other one with the same ends. -/
def Cheapest (arc : A → A → Rat → Prop) (s x : A) (c : Rat) : Prop :=
  ∀ path c', CostWalk arc s path x c' → c ≤ c'

/-- The arcs of the reversed graph. -/
def reversed (arc : A → A → Rat → Prop) (x y : A) (w : Rat) : Prop := arc y x w

namespace CostWalk

variable {arc : A → A → Rat → Prop} {s x : A} {path : List A} {c : Rat}

theorem ne_nil (walk : CostWalk arc s path x c) : path ≠ [] := by
  cases walk with
  | here => exact cons_ne_nil _ _
  | step => exact append_ne_nil_of_right_ne_nil _ (cons_ne_nil _ _)

theorem nonneg (walk : CostWalk arc s path x c) (positive : ∀ x y w, arc x y w → 0 ≤ w) :
    0 ≤ c := by
  induction walk with
  | here => exact le_refl 0
  | step _ last ih =>
    have more := positive _ _ _ last
    linarith

theorem mono (walk : CostWalk arc s path x c) (sub : ∀ x y w, arc x y w → arc' x y w) :
    CostWalk arc' s path x c := by
  induction walk with
  | here => exact .here
  | step _ last ih => exact .step ih (sub _ _ _ last)

theorem cons (first : arc t s w) (walk : CostWalk arc s path x c) :
    CostWalk arc t (t :: path) x (w + c) := by
  induction walk with
  | here =>
    have alone : CostWalk arc t ([t] ++ [s]) s (0 + w) := .step .here first
    rw [zero_add] at alone
    rw [add_zero]
    exact alone
  | step _ last ih =>
    have longer := CostWalk.step ih last
    rw [add_assoc] at longer
    exact longer

theorem append (walk : CostWalk arc s path x c) (rest : CostWalk arc x path' t c') :
    CostWalk arc s (path ++ path'.tail) t (c + c') := by
  induction rest with
  | here => simpa using walk
  | step before last ih =>
    have longer := CostWalk.step ih last
    rw [tail_append_of_ne_nil before.ne_nil, ← append_assoc, ← add_assoc]
    exact longer

theorem reverse (walk : CostWalk (reversed arc) s path x c) : CostWalk arc x path.reverse s c := by
  induction walk with
  | here => exact .here
  | step _ last ih =>
    rw [reverse_append, add_comm]
    exact ih.cons last

end CostWalk

/-- No estimate drops by more than the cost of an arc. -/
def ConsistentEstimate (arc : A → A → Rat → Prop) (estimate : A → Rat) : Prop :=
  ∀ x y w, arc x y w → estimate x ≤ w + estimate y

theorem ConsistentEstimate.walk (consistent : ConsistentEstimate arc estimate) {path : List A}
    (walk : CostWalk arc s path x c) : estimate s ≤ c + estimate x := by
  induction walk with
  | here => rw [zero_add]
  | step _ last ih =>
    have drop := consistent _ _ _ last
    linarith

end Lib
