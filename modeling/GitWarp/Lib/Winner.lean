import Mathlib.Order.Lattice

/-!
# Greatest-stamp registers

A register keeps, of all the writes it has seen, one with the greatest stamp. When
no two different writes share a stamp, the register is a function of their set.
-/
namespace Lib

variable {R E : Type} [LinearOrder E] (stamp : R → E)

/-- The later of two registers; the first is kept on equal stamps. -/
def later : Option R → Option R → Option R
  | none, b => b
  | some a, none => some a
  | some a, some b => if stamp b ≤ stamp a then some a else some b

/-- `r` holds a write with the greatest stamp among `writes`. -/
def Winner (writes : R → Prop) : Option R → Prop
  | none => ∀ w, ¬ writes w
  | some r => writes r ∧ ∀ w, writes w → stamp w ≤ stamp r

/-- No two different writes share a stamp. -/
def Stamped (writes : R → Prop) : Prop :=
  ∀ w w', writes w → writes w' → stamp w = stamp w' → w = w'

variable {stamp}

theorem Winner.later (left : Winner stamp writes a) (right : Winner stamp writes' b) :
    Winner stamp (fun w => writes w ∨ writes' w) (later stamp a b) := by
  cases a with
  | none =>
    cases b with
    | none => exact fun w either => either.elim (left w) (right w)
    | some b => exact ⟨Or.inr right.1, fun w either =>
        either.elim (fun old => absurd old (left w)) (right.2 w)⟩
  | some a =>
    cases b with
    | none => exact ⟨Or.inl left.1, fun w either =>
        either.elim (left.2 w) (fun new => absurd new (right w))⟩
    | some b =>
      simp only [Lib.later]
      split
      next below =>
        refine ⟨Or.inl left.1, fun w either => ?_⟩
        rcases either with old | new
        · exact left.2 w old
        · exact le_trans (right.2 w new) below
      next above =>
        refine ⟨Or.inr right.1, fun w either => ?_⟩
        rcases either with old | new
        · exact le_trans (left.2 w old) (le_of_lt (not_le.mp above))
        · exact right.2 w new

theorem winner_single : Winner stamp (fun w => w = r) (some r) :=
  ⟨rfl, fun _ same => le_of_eq (congrArg stamp same)⟩

theorem Winner.congr (wins : Winner stamp writes a) (same : ∀ w, writes w ↔ writes' w) :
    Winner stamp writes' a := by
  have equal : writes = writes' := funext fun w => propext (same w)
  exact equal ▸ wins

theorem Winner.unique (stamped : Stamped stamp writes) (left : Winner stamp writes a)
    (right : Winner stamp writes b) : a = b := by
  cases a with
  | none =>
    cases b with
    | none => rfl
    | some b => exact absurd right.1 (left b)
  | some a =>
    cases b with
    | none => exact absurd left.1 (right a)
    | some b =>
      have equal : stamp a = stamp b := le_antisymm (right.2 a left.1) (left.2 b right.1)
      rw [stamped a b left.1 right.1 equal]

/-- More writes leave the register alone exactly when each of them is at or below an old one. -/
theorem Winner.eq_iff_absorbed {writes extra : R → Prop}
    (stamped : Stamped stamp fun w => writes w ∨ extra w) (old : Winner stamp writes a)
    (new : Winner stamp (fun w => writes w ∨ extra w) b) :
    a = b ↔ ∀ w, extra w → ∃ w', writes w' ∧ stamp w ≤ stamp w' := by
  constructor
  · rintro rfl w added
    cases a with
    | none => exact absurd (Or.inr added) (new w)
    | some r => exact ⟨r, old.1, new.2 w (Or.inr added)⟩
  · intro absorbed
    refine Winner.unique stamped ?_ new
    cases a with
    | none =>
      intro w either
      rcases either with present | added
      · exact old w present
      · obtain ⟨w', present, -⟩ := absorbed w added
        exact old w' present
    | some r =>
      refine ⟨Or.inl old.1, fun w either => ?_⟩
      rcases either with present | added
      · exact old.2 w present
      · obtain ⟨w', present, below⟩ := absorbed w added
        exact le_trans below (old.2 w' present)

end Lib
