import GitWarp.Lib.OrdMap
import GitWarp.Lib.Layers

/-!
# Predecessor maps

A search records for each node it meets the node it came from. Where the predecessors of a
node get closer to the start in some measure, following them back spells out a path, and the
path has no more steps than the map has entries.
-/
namespace Lib

open List

variable {K : Type} [DecidableEq K]

/-- The path that following the predecessors back to the start spells out. -/
inductive Traced (pred : OrdMap K K) (s : K) : List K → K → Prop
  | here : Traced pred s [s] s
  | step {path : List K} {x y : K} : Traced pred s path x → pred.get y = some x → y ≠ s →
      y ∉ path → Traced pred s (path ++ [y]) y

namespace Traced

variable {pred : OrdMap K K} {s : K} {path : List K} {x : K}

section

variable (traced : Traced pred s path x)
include traced

theorem nodup : path.Nodup := by
  induction traced with
  | here => exact nodup_singleton _
  | step _ _ _ fresh ih =>
    apply nodup_append.mpr
    refine ⟨ih, nodup_singleton _, ?_⟩
    intro z mem w only same
    rw [mem_singleton] at only
    exact fresh (only ▸ same ▸ mem)

theorem mem_keys (z : K) (mem : z ∈ path) : z = s ∨ z ∈ pred.keys := by
  induction traced with
  | here => exact Or.inl (mem_singleton.mp mem)
  | step _ entry _ _ ih =>
    rcases mem_append.mp mem with old | new
    · exact ih old
    · right
      rw [mem_singleton.mp new, OrdMap.mem_keys_iff, entry]
      rfl

theorem start_mem : s ∈ path := by
  induction traced with
  | here => exact mem_singleton_self _
  | step _ _ _ _ ih => exact mem_append_left _ ih

theorem length_le : path.length ≤ pred.size + 1 := by
  have covered : path ⊆ s :: pred.keys := by
    intro z mem
    rcases traced.mem_keys z mem with rfl | key
    · exact mem_cons_self
    · exact mem_cons_of_mem _ key
  have shorter := (subperm_of_subset traced.nodup covered).length_le
  show path.length ≤ pred.entries.length + 1
  rw [← length_map (f := Prod.fst)]
  exact shorter

theorem simplePath {next} (steps : ∀ y p, pred.get y = some p → y ∈ path → y ≠ s → next p y) :
    SimplePath next s path x := by
  induction traced with
  | here => exact .here
  | step _ entry other fresh ih =>
    apply SimplePath.step (ih fun y p held mem => steps y p held (mem_append_left _ mem))
    · exact steps _ _ entry (mem_append_right _ (mem_singleton_self _)) other
    · exact fresh

end

end Traced

/-- Predecessors of smaller rank lead back to the start. -/
theorem exists_traced (ranked : Nat → K → Prop) (unique : ∀ n m x, ranked n x → ranked m x → n = m)
    (back : ∀ n x, ranked n x → x ≠ s → ∃ p, pred.get x = some p ∧ ∃ m < n, ranked m p) (x : K)
    (start : ranked n x) :
    ∃ path, Traced pred s path x ∧ path.length ≤ n + 1 ∧ ∀ z ∈ path, ∃ m ≤ n, ranked m z := by
  induction n using Nat.strongRecOn generalizing x with
  | ind n ih =>
    by_cases first : x = s
    · subst first
      refine ⟨[x], .here, by simp, ?_⟩
      intro z mem
      rw [mem_singleton.mp mem]
      exact ⟨n, Nat.le_refl n, start⟩
    · obtain ⟨p, entry, m, less, ranked'⟩ := back n x start first
      obtain ⟨path, traced, length, below⟩ := ih m less p ranked'
      refine ⟨path ++ [x], .step traced entry first ?_, ?_, ?_⟩
      · -- the nodes before it rank below it
        intro mem
        obtain ⟨k, low, again⟩ := below x mem
        have same := unique n k x start again
        omega
      · rw [length_append]
        show path.length + 1 ≤ n + 1
        omega
      · intro z mem
        rcases mem_append.mp mem with old | new
        · obtain ⟨k, low, there⟩ := below z old
          exact ⟨k, by omega, there⟩
        · rw [mem_singleton.mp new]
          exact ⟨n, Nat.le_refl n, start⟩

end Lib
