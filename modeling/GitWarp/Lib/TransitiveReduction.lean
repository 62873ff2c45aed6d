import Mathlib.Logic.Relation

/-!
# Transitive reduction

An arc is direct when no longer walk has its ends. In a graph without cycles the direct arcs
reach what all arcs reach, and every relation that reaches the same contains them. So they are
the least relation with this reach.
-/
namespace Lib

open Relation (TransGen ReflTransGen)

variable {A : Type} {r : A → A → Prop}

/-- An arc that no longer walk makes superfluous. -/
def Direct (r : A → A → Prop) (x y : A) : Prop :=
  r x y ∧ ¬ ∃ z, r x z ∧ TransGen r z y

/-- Where arcs raise a rank, the direct arcs reach what all arcs reach. -/
theorem transGen_direct_iff {rank : A → Nat} (rises : ∀ x y, r x y → rank x < rank y) (x y : A) :
    TransGen (Direct r) x y ↔ TransGen r x y := by
  constructor
  · intro walk
    exact Relation.TransGen.mono (fun _ _ direct => direct.1) _ _ walk
  · have above : ∀ x y, TransGen r x y → rank x < rank y := by
      intro x y walk
      induction walk with
      | single leads => exact rises _ _ leads
      | tail _ leads ih => exact Nat.lt_trans ih (rises _ _ leads)
    -- by induction on the difference of the ranks
    have within : ∀ (n : Nat) x y, TransGen r x y → rank y ≤ rank x + n →
        TransGen (Direct r) x y := by
      intro n
      induction n with
      | zero =>
        intro x y walk near
        have rise := above x y walk
        omega
      | succ n ih =>
        intro x y walk near
        cases walk with
        | single leads =>
          by_cases longer : ∃ z, r x z ∧ TransGen r z y
          · obtain ⟨z, first, rest⟩ := longer
            have low := rises x z first
            have high := above z y rest
            exact (ih x z (.single first) (by omega)).trans (ih z y rest (by omega))
          · exact .single ⟨leads, longer⟩
        | tail first last =>
          have low := above _ _ first
          have high := rises _ _ last
          exact (ih _ _ first (by omega)).trans (ih _ _ (.single last) (by omega))
    intro walk
    exact within (rank y) x y walk (by omega)

theorem direct_subset (q) (same : ∀ x y, TransGen q x y ↔ TransGen r x y) (x y : A)
    (direct : Direct r x y) : q x y := by
  have walk := (same x y).mpr (.single direct.1)
  rcases Relation.TransGen.head'_iff.mp walk with ⟨z, first, rest⟩
  rcases Relation.reflTransGen_iff_eq_or_transGen.mp rest with rfl | more
  · exact first
  · -- the walk goes through another node, so the arc is superfluous
    exfalso
    have left := (same x z).mp (.single first)
    have right := (same z y).mp more
    obtain ⟨w, step, middle⟩ := Relation.TransGen.head'_iff.mp left
    exact direct.2 ⟨w, step, Relation.TransGen.trans_right middle right⟩

end Lib
