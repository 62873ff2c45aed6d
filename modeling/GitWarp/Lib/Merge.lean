import GitWarp.Lib.SortBy

/-!
# Merging sorted sources

Several sorted lists are merged by taking the least of their first members, the
earliest of them where there is more than one. What comes out is the stable sort
of the lists in their order.
-/
namespace Lib

open List

variable {A K : Type} [LinearOrder K] (key : A → K)

theorem sortBy_extract (before after) (x : A) (above : ∀ a ∈ before, key x < key a)
    (least : ∀ a ∈ after, key x ≤ key a) :
    sortBy key (before ++ x :: after) = x :: sortBy key (before ++ after) := by
  induction before with
  | nil =>
    rw [nil_append, nil_append, sortBy, insertionSort_cons, ← sortBy]
    -- everything that has been sorted is at least the member
    cases sorted : sortBy key after with
    | nil => rfl
    | cons first rest =>
      have mem : first ∈ after := by
        rw [← mem_sortBy key, sorted]
        exact mem_cons_self
      rw [orderedInsert_cons, if_pos (least first mem)]
  | cons a before ih =>
    have inner := ih (forall_mem_cons.mp above).2
    rw [cons_append, cons_append, sortBy, insertionSort_cons, ← sortBy, inner,
      orderedInsert_cons, if_neg (not_le.mpr (above a mem_cons_self)), sortBy, sortBy,
      insertionSort_cons]

theorem le_of_le_head {source : List A} (sorted : source.Pairwise fun a b => key a ≤ key b) (k : K)
    (low : ∀ a ∈ source.head?, k ≤ key a) : ∀ a ∈ source, k ≤ key a := by
  intro a mem
  cases source with
  | nil => cases mem
  | cons first rest =>
    have start := low first rfl
    rcases mem_cons.mp mem with rfl | later
    · exact start
    · exact le_trans start ((pairwise_cons.mp sorted).1 a later)

/-- Taking the first member of the earliest source whose first member is least. -/
theorem sortBy_flatten_take (before after) (x : A) (rest)
    (sorted : ∀ source ∈ before ++ (x :: rest) :: after, source.Pairwise fun a b => key a ≤ key b)
    (above : ∀ source ∈ before, ∀ a ∈ source.head?, key x < key a)
    (least : ∀ source ∈ after, ∀ a ∈ source.head?, key x ≤ key a) :
    sortBy key (before ++ (x :: rest) :: after).flatten =
      x :: sortBy key (before ++ rest :: after).flatten := by
  rw [flatten_append, flatten_cons, cons_append, sortBy_extract key, flatten_append, flatten_cons]
  · intro a mem
    obtain ⟨source, listed, inside⟩ := mem_flatten.mp mem
    have ordered := sorted source (mem_append_left _ listed)
    cases source with
    | nil => cases inside
    | cons first others =>
      have start := above _ listed first rfl
      rcases mem_cons.mp inside with rfl | later
      · exact start
      · exact lt_of_lt_of_le start ((pairwise_cons.mp ordered).1 a later)
  · intro a mem
    rcases mem_append.mp mem with own | other
    · have ordered := sorted (x :: rest) (mem_append_right _ mem_cons_self)
      exact (pairwise_cons.mp ordered).1 a own
    · obtain ⟨source, listed, inside⟩ := mem_flatten.mp other
      exact le_of_le_head key
        (sorted source (mem_append_right _ (mem_cons_of_mem _ listed))) _
        (least source listed) a inside

end Lib
