import Mathlib.Data.List.Dedup
import GitWarp.Lib.SortBy

/-!
# Walks and breadth-first layers

The nodes at one distance from a start form a layer, and each layer is found from the
one before: its nodes are the successors that no earlier layer has.
-/
namespace Lib

open List

variable {A : Type}

/-- A walk of so many steps. -/
inductive Walk (next : A → A → Prop) (s : A) : Nat → A → Prop
  | here : Walk next s 0 s
  | step {n : Nat} {x y : A} : Walk next s n x → next x y → Walk next s (n + 1) y

/-- The least length of a walk. -/
def AtDistance (next : A → A → Prop) (s : A) (d : Nat) (x : A) : Prop :=
  Walk next s d x ∧ ∀ k < d, ¬ Walk next s k x

section Distances

variable {next : A → A → Prop} {s : A}

theorem walk_zero (x : A) : Walk next s 0 x ↔ x = s := by
  constructor
  · intro walk
    cases walk
    rfl
  · rintro rfl
    exact .here

theorem walk_succ (n) (y : A) : Walk next s (n + 1) y ↔ ∃ x, Walk next s n x ∧ next x y := by
  constructor
  · intro walk
    cases walk with
    | step first last => exact ⟨_, first, last⟩
  · rintro ⟨x, first, last⟩
    exact .step first last

theorem AtDistance.unique (first : AtDistance next s d x) (second : AtDistance next s d' x) :
    d = d' := by
  rcases Nat.lt_trichotomy d d' with less | same | more
  · exact absurd first.1 (second.2 d less)
  · exact same
  · exact absurd second.1 (first.2 d' more)

theorem exists_distance (walk : Walk next s n x) : ∃ d ≤ n, AtDistance next s d x := by
  induction n using Nat.strongRecOn with
  | ind n ih =>
    by_cases shorter : ∃ k < n, Walk next s k x
    · obtain ⟨k, less, shortWalk⟩ := shorter
      obtain ⟨d, below, distance⟩ := ih k less shortWalk
      exact ⟨d, by omega, distance⟩
    · exact ⟨n, Nat.le_refl n, walk, fun k less short => shorter ⟨k, less, short⟩⟩

theorem atDistance_zero : AtDistance next s 0 x ↔ x = s := by
  constructor
  · intro distance
    exact (walk_zero x).mp distance.1
  · rintro rfl
    exact ⟨.here, fun k less => absurd less (Nat.not_lt_zero k)⟩

theorem atDistance_succ :
    AtDistance next s (d + 1) y ↔
      (∃ x, AtDistance next s d x ∧ next x y) ∧ ∀ k ≤ d, ¬ AtDistance next s k y := by
  constructor
  · intro distance
    obtain ⟨x, walk, last⟩ := (walk_succ d y).mp distance.1
    obtain ⟨k, below, closer⟩ := exists_distance walk
    have same : k = d := by
      by_contra differ
      exact distance.2 (k + 1) (by omega) (.step closer.1 last)
    subst same
    exact ⟨⟨x, closer, last⟩, fun k' near there => distance.2 k' (by omega) there.1⟩
  · rintro ⟨⟨x, closer, last⟩, far⟩
    refine ⟨.step closer.1 last, fun k less walk => ?_⟩
    obtain ⟨d', below, distance⟩ := exists_distance walk
    exact far d' (by omega) distance

theorem AtDistance.next_le (distance : AtDistance next s d x) (last : next x y) :
    ∃ d' ≤ d + 1, AtDistance next s d' y :=
  exists_distance (.step distance.1 last)

theorem not_atDistance_of_empty (empty : ∀ x, ¬ AtDistance next s d x) (beyond : d ≤ k) (x : A) :
    ¬ AtDistance next s k x := by
  induction k generalizing x with
  | zero =>
    obtain rfl : d = 0 := by omega
    exact empty x
  | succ k ih =>
    intro distance
    by_cases last : d = k + 1
    · exact empty x (last ▸ distance)
    · obtain ⟨⟨y, closer, -⟩, -⟩ := atDistance_succ.mp distance
      exact ih (by omega) y closer

theorem within_succ {seen seen' : A → Prop} (old : ∀ x, seen x ↔ ∃ k ≤ d, AtDistance next s k x)
    (grows : ∀ x, seen x → seen' x) (new : ∀ x, seen' x → ¬ seen x → AtDistance next s (d + 1) x)
    (closed : ∀ x y, AtDistance next s d x → next x y → seen' y) (x : A) :
    seen' x ↔ ∃ k ≤ d + 1, AtDistance next s k x := by
  -- a set that holds the nodes up to a distance and gains their successors, at one step more,
  -- holds the nodes up to the next distance
  constructor
  · intro there
    by_cases before : seen x
    · obtain ⟨k, near, distance⟩ := (old x).mp before
      exact ⟨k, by omega, distance⟩
    · exact ⟨d + 1, Nat.le_refl _, new x there before⟩
  · rintro ⟨k, near, distance⟩
    by_cases last : k = d + 1
    · subst last
      obtain ⟨⟨y, closer, step⟩, -⟩ := atDistance_succ.mp distance
      exact closed y x closer step
    · exact grows x ((old x).mpr ⟨k, by omega, distance⟩)

end Distances

/-! ### Simple paths -/

/-- The nodes of a path that visits none twice, and its last node. -/
inductive SimplePath (next : A → A → Prop) (s : A) : List A → A → Prop
  | here : SimplePath next s [s] s
  | step {path : List A} {x y : A} : SimplePath next s path x → next x y → y ∉ path →
      SimplePath next s (path ++ [y]) y

theorem SimplePath.walk {next} {x : A} (simple : SimplePath next s path x) :
    ∃ n, path.length = n + 1 ∧ Walk next s n x := by
  induction simple with
  | here => exact ⟨0, rfl, .here⟩
  | step _ last _ ih =>
    obtain ⟨n, length, walk⟩ := ih
    exact ⟨n + 1, by rw [length_append, length]; rfl, .step walk last⟩

/-! ### Layers -/

section Layers

variable [LinearOrder A] (successors : A → List A)

/-- The successors of a layer that neither it nor an earlier one has, in order. -/
def nextLayer (seen current : List A) : List A :=
  sortBy id ((current.flatMap successors).dedup.filter fun y => decide (y ∉ seen ++ current))

/-- The nodes of the layers below, and the layer itself. -/
def layers (s : A) : Nat → List A × List A
  | 0 => ([], [s])
  | d + 1 =>
    let (seen, current) := layers s d
    (seen ++ current, nextLayer successors seen current)

/-- The step relation of a successor function. -/
def Succeeds (successors : A → List A) (x y : A) : Prop := y ∈ successors x

/-- Nodes by distance, then by their own order. -/
def Before (next : A → A → Prop) (s x y : A) : Prop :=
  ∀ d d', AtDistance next s d x → AtDistance next s d' y → d < d' ∨ d = d' ∧ x < y

variable (s : A)

theorem mem_layers : (∀ x, x ∈ (layers successors s d).1 ↔
      ∃ k < d, AtDistance (Succeeds successors) s k x) ∧
    ∀ x, x ∈ (layers successors s d).2 ↔ AtDistance (Succeeds successors) s d x := by
  induction d with
  | zero =>
    constructor
    · intro x
      simp [layers]
    · intro x
      rw [atDistance_zero]
      exact mem_singleton
  | succ d ih =>
    obtain ⟨seen, current⟩ := ih
    constructor
    · intro x
      show x ∈ (layers successors s d).1 ++ (layers successors s d).2 ↔ _
      rw [mem_append, seen, current]
      constructor
      · rintro (⟨k, less, distance⟩ | distance)
        · exact ⟨k, by omega, distance⟩
        · exact ⟨d, by omega, distance⟩
      · rintro ⟨k, less, distance⟩
        by_cases last : k = d
        · exact Or.inr (last ▸ distance)
        · exact Or.inl ⟨k, by omega, distance⟩
    · intro y
      show y ∈ nextLayer successors (layers successors s d).1 (layers successors s d).2 ↔ _
      unfold nextLayer
      rw [mem_sortBy, mem_filter, mem_dedup, mem_flatMap, decide_eq_true_eq,
        mem_append, seen, current, atDistance_succ]
      constructor
      · rintro ⟨⟨x, listed, last⟩, fresh⟩
        refine ⟨⟨x, (current x).mp listed, last⟩, fun k near there => fresh ?_⟩
        by_cases same : k = d
        · exact Or.inr (same ▸ there)
        · exact Or.inl ⟨k, by omega, there⟩
      · rintro ⟨⟨x, closer, last⟩, far⟩
        refine ⟨⟨x, (current x).mpr closer, last⟩, ?_⟩
        rintro (⟨k, less, there⟩ | there)
        · exact far k (by omega) there
        · exact far d (Nat.le_refl d) there

theorem pairwise_layer (d) : (layers successors s d).2.Pairwise (· < ·) := by
  cases d with
  | zero => exact pairwise_singleton _ _
  | succ d =>
    show (nextLayer successors (layers successors s d).1 (layers successors s d).2).Pairwise _
    have sorted := pairwise_sortBy id (((layers successors s d).2.flatMap successors).dedup.filter
      fun y => decide (y ∉ (layers successors s d).1 ++ (layers successors s d).2))
    have distinct := (perm_sortBy id (((layers successors s d).2.flatMap successors).dedup.filter
      fun y => decide (y ∉ (layers successors s d).1 ++ (layers successors s d).2))).nodup_iff.mpr
        ((nodup_dedup _).filter _)
    exact (sorted.and distinct).imp fun both => lt_of_le_of_ne both.1 both.2

theorem pairwise_seen : (layers successors s d).1.Pairwise (Before (Succeeds successors) s) := by
  induction d with
  | zero => exact List.Pairwise.nil
  | succ d ih =>
    show ((layers successors s d).1 ++ (layers successors s d).2).Pairwise _
    obtain ⟨seen, current⟩ := mem_layers successors s
    rw [pairwise_append]
    refine ⟨ih, ?_, ?_⟩
    · apply (pairwise_layer successors s d).imp_of_mem
      intro x y left right less k k' first second
      rw [first.unique ((current x).mp left), second.unique ((current y).mp right)]
      exact Or.inr ⟨rfl, less⟩
    · intro x left y right k k' first second
      obtain ⟨d', less, distance⟩ := (seen x).mp left
      rw [first.unique distance, second.unique ((current y).mp right)]
      exact Or.inl less

theorem nodup_seen : (layers successors s d).1.Nodup := by
  obtain ⟨seen, -⟩ := mem_layers successors s
  apply (pairwise_seen successors s).imp_of_mem
  intro x y left right before same
  subst same
  obtain ⟨k, -, distance⟩ := (seen x).mp left
  rcases before k k distance distance with less | ⟨-, less⟩
  · exact absurd less (Nat.lt_irrefl k)
  · exact absurd less (lt_irrefl x)

theorem seen_start (d e) (later : d ≤ e) :
    (layers successors s d).1 <+: (layers successors s e).1 := by
  induction e with
  | zero =>
    obtain rfl : d = 0 := by omega
    exact prefix_refl _
  | succ e ih =>
    by_cases last : d = e + 1
    · exact last ▸ prefix_refl _
    · exact (ih (by omega)).trans (prefix_append _ _)

end Layers

end Lib
