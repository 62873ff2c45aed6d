import GitWarp.Lib.CostWalk

/-!
# Heaviest walks

A table holds the greatest cost of a walk to each node that can be reached. While
no arc leaves a node yet, one more arc to it changes the table at this node only.
So a table can be kept while the arcs come in, one at a time, where the arcs to a
node come before the arcs from it.
-/
namespace Lib

open List

variable {A : Type}

/-- The cost of some walk, and no walk costs more. -/
structure Heaviest (arc : A → A → Rat → Prop) (s x : A) (c : Rat) : Prop where
  walk : ∃ path, CostWalk arc s path x c
  most : ∀ path c', CostWalk arc s path x c' → c' ≤ c

/-- The greatest costs of the walks from `s`. -/
structure HeaviestTable (arc : A → A → Rat → Prop) (s : A) (dist : A → Option Rat) : Prop where
  held : ∀ x c, dist x = some c → Heaviest arc s x c
  missing : ∀ x, dist x = none → ∀ path c, ¬ CostWalk arc s path x c

/-- One arc more. -/
inductive WithArc (arc : A → A → Rat → Prop) (n y : A) (w : Rat) : A → A → Rat → Prop
  | old (u v : A) (c : Rat) (there : arc u v c) : WithArc arc n y w u v c
  | new : WithArc arc n y w n y w

theorem CostWalk.of_withArc {path : List A} (leaf : ∀ v c, ¬ arc y v c) (apart : n ≠ y)
    (walk : CostWalk (WithArc arc n y w) s path x c) :
    CostWalk arc s path x c ∨ x = y ∧ ∃ before d, path = before ++ [y] ∧ c = d + w ∧
      CostWalk arc s before n d := by
  induction walk with
  | here => exact Or.inl .here
  | step walk last ih =>
    rcases ih with inside | ⟨rfl, -⟩
    · cases last with
      | old _ _ _ there => exact Or.inl (.step inside there)
      | new => exact Or.inr ⟨rfl, _, _, rfl, rfl, inside⟩
    · -- the walk would leave the node
      cases last with
      | old _ _ _ there => exact absurd there (leaf _ _)
      | new => exact absurd rfl apart

namespace HeaviestTable

variable {arc : A → A → Rat → Prop} {s n y : A} {w : Rat} {dist : A → Option Rat}

theorem of_no_arc (none_ : ∀ x y w, ¬ arc x y w) (start : dist s = some 0)
    (other : ∀ x, x ≠ s → dist x = none) : HeaviestTable arc s dist where
  held x c there := by
    by_cases first : x = s
    · subst first
      rw [start] at there
      cases there
      refine ⟨⟨_, .here⟩, fun path c' walk => ?_⟩
      cases walk with
      | here => exact le_refl 0
      | step _ last => exact absurd last (none_ _ _ _)
    · rw [other x first] at there
      cases there
  missing x gone path c walk := by
    cases walk with
    | here => rw [start] at gone; cases gone
    | step _ last => exact absurd last (none_ _ _ _)

section

variable (table : HeaviestTable arc s dist)
include table

/-- A table with one arc more. -/
theorem withArc [DecidableEq A] (leaf : ∀ v c, ¬ arc y v c) (apart : n ≠ y) {d}
    (there : dist n = some d) {dist'} (same : ∀ x, x ≠ y → dist' x = dist x)
    (here : dist' y = some (max ((dist y).getD (d + w)) (d + w))) :
    HeaviestTable (WithArc arc n y w) s dist' where
  held x c at_ := by
    by_cases target : x = y
    · subst target
      rw [here] at at_
      cases at_
      obtain ⟨⟨before, walk⟩, most⟩ := table.held n d there
      have wider : ∀ u v c, arc u v c → WithArc arc n x w u v c := fun u v c => .old u v c
      have longer := (walk.mono wider).step .new
      constructor
      · -- the greater one of the two costs is that of a walk
        cases old : dist x with
        | none =>
          rw [Option.getD_none, max_self]
          exact ⟨_, longer⟩
        | some b =>
          rw [Option.getD_some]
          rcases max_choice b (d + w) with left | right
          · rw [left]
            obtain ⟨path, kept⟩ := (table.held x b old).walk
            exact ⟨path, kept.mono fun u v c => .old u v c⟩
          · rw [right]
            exact ⟨_, longer⟩
      · intro path c' walk'
        rcases walk'.of_withArc leaf apart with inside | ⟨-, before', d', -, rfl, toN⟩
        · cases old : dist x with
          | none => exact absurd inside (table.missing x old path c')
          | some b =>
            exact ((table.held x b old).most path c' inside).trans (le_max_left _ _)
        · have bound := most before' d' toN
          exact le_trans (by linarith) (le_max_right _ _)
    · rw [same x target] at at_
      obtain ⟨⟨path, walk⟩, most⟩ := table.held x c at_
      refine ⟨⟨path, walk.mono fun u v c => .old u v c⟩, fun path' c' walk' => ?_⟩
      rcases walk'.of_withArc leaf apart with inside | ⟨rfl, -⟩
      · exact most path' c' inside
      · exact absurd rfl target
  missing x gone path c walk := by
    by_cases target : x = y
    · subst target
      rw [here] at gone
      cases gone
    · rw [same x target] at gone
      rcases walk.of_withArc leaf apart with inside | ⟨rfl, -⟩
      · exact table.missing x gone path c inside
      · exact target rfl

theorem withArc_of_missing (gone : dist n = none) : HeaviestTable (WithArc arc n y w) s dist := by
  have back : ∀ path x c, CostWalk (WithArc arc n y w) s path x c → CostWalk arc s path x c := by
    intro path x c walk
    induction walk with
    | here => exact .here
    | step walk last ih =>
      cases last with
      | old _ _ _ there => exact .step ih there
      | new => exact absurd ih (table.missing n gone _ _)
  constructor
  · intro x c at_
    obtain ⟨⟨path, walk⟩, most⟩ := table.held x c at_
    exact ⟨⟨path, walk.mono fun u v c => .old u v c⟩,
      fun path' c' walk' => most path' c' (back path' x c' walk')⟩
  · exact fun x none_ path c walk => table.missing x none_ path c (back path x c walk)

theorem congr (same : ∀ x y w, arc x y w ↔ arc' x y w) : HeaviestTable arc' s dist := by
  have equal : arc = arc' := by
    funext x y w
    exact propext (same x y w)
  exact equal ▸ table

end

end HeaviestTable

/-! ### Walks through some nodes -/

/-- The arcs from some nodes. -/
def Through (nodes : List A) (arc : A → A → Rat → Prop) (x y : A) (w : Rat) : Prop :=
  x ∈ nodes ∧ arc x y w

theorem CostWalk.last_mem {path : List A} (walk : CostWalk arc s path x c) : x ∈ path := by
  cases walk with
  | here => exact mem_singleton_self _
  | step => exact mem_append_right _ (mem_singleton_self _)

/-- All nodes of a walk but its last one are among the nodes that it may pass through. -/
theorem CostWalk.through_iff {path : List A} :
    CostWalk (Through nodes arc) s path x c ↔
      CostWalk arc s path x c ∧ ∀ z ∈ path.dropLast, z ∈ nodes := by
  constructor
  · intro walk
    refine ⟨walk.mono fun u v w both => both.2, ?_⟩
    have front : ∀ {path : List A} {x : A} {c : Rat}, CostWalk (Through nodes arc) s path x c →
        x ∈ nodes → ∀ z ∈ path, z ∈ nodes := by
      intro path x c walk last
      induction walk with
      | here =>
        intro z mem
        rw [mem_singleton.mp mem]
        exact last
      | step _ leads ih =>
        intro z mem
        rcases mem_append.mp mem with before | end_
        · exact ih leads.1 z before
        · rw [mem_singleton.mp end_]
          exact last
    cases walk with
    | here => simp
    | step before leads =>
      rw [dropLast_concat]
      exact front before leads.1
  · rintro ⟨walk, inside⟩
    induction walk with
    | here => exact .here
    | step before leads ih =>
      rw [dropLast_concat] at inside
      refine .step (ih fun z mem => inside z (dropLast_subset _ mem)) ⟨?_, leads⟩
      exact inside _ before.last_mem

end Lib
