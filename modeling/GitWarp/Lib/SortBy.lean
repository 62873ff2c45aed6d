import Mathlib.Data.List.Sort
import Mathlib.Data.List.Perm.Basic

/-!
# Sorting by a key

A stable sort by a key. When no two members share a key the result is fixed by
the members alone, so two listings of one set sort to the same list.
-/
namespace Lib

open List

variable {A K : Type} [LinearOrder K]

/-- A stable sort of a list by the keys of its members. -/
def sortBy (key : A → K) (members : List A) : List A :=
  members.insertionSort fun a b => key a ≤ key b

variable (key : A → K)

theorem perm_sortBy (members) : (sortBy key members).Perm members :=
  perm_insertionSort _ members

@[simp] theorem mem_sortBy (members) (a : A) : a ∈ sortBy key members ↔ a ∈ members :=
  mem_insertionSort _

theorem pairwise_sortBy (members) : (sortBy key members).Pairwise fun a b => key a ≤ key b := by
  exact pairwise_insertionSort _ members

theorem sortBy_eq_of_perm (distinct : (members.map key).Nodup) (same : members.Perm members') :
    sortBy key members = sortBy key members' := by
  have perm : (sortBy key members).Perm (sortBy key members') :=
    (perm_sortBy key members).trans (same.trans (perm_sortBy key members').symm)
  apply perm.eq_of_pairwise ?_ (pairwise_sortBy key members) (pairwise_sortBy key members')
  intro a b left right below above
  rw [mem_sortBy] at left right
  exact inj_on_of_nodup_map distinct left (same.mem_iff.mpr right) (le_antisymm below above)

theorem sortBy_eq_iff (left : (members.map key).Nodup) (right : (members'.map key).Nodup) :
    sortBy key members = sortBy key members' ↔ ∀ a, a ∈ members ↔ a ∈ members' := by
  constructor
  · intro same a
    rw [← mem_sortBy key members, same, mem_sortBy]
  · intro same
    apply sortBy_eq_of_perm key left
    exact (perm_ext_iff_of_nodup left.of_map right.of_map).mpr same

theorem sortBy_congr {K'} [LinearOrder K'] {key' : A → K'}
    (same : ∀ a b, key a ≤ key b ↔ key' a ≤ key' b) (members) :
    sortBy key members = sortBy key' members := by
  simp only [sortBy, same]

/-- Insertion by a comparison that only refines a key still sorts by the key. -/
theorem pairwise_insertionSort_key (r) [DecidableRel r] (ordered : ∀ a b, r a b → key a ≤ key b)
    (unordered : ∀ a b, ¬ r a b → key b ≤ key a) (members : List A) :
    (members.insertionSort r).Pairwise fun a b => key a ≤ key b := by
  have inserted : ∀ (a : A) (sorted : List A), (sorted.Pairwise fun b c => key b ≤ key c) →
      (sorted.orderedInsert r a).Pairwise fun b c => key b ≤ key c := by
    intro a sorted
    induction sorted with
    | nil => exact fun _ => pairwise_singleton _ a
    | cons b rest ih =>
      intro pairwise
      obtain ⟨first, others⟩ := pairwise_cons.mp pairwise
      rw [orderedInsert_cons]
      split
      next before =>
        refine pairwise_cons.mpr ⟨?_, pairwise⟩
        intro c mem
        rcases mem_cons.mp mem with rfl | later
        · exact ordered a c before
        · exact le_trans (ordered a b before) (first c later)
      next after =>
        refine pairwise_cons.mpr ⟨?_, ih others⟩
        intro c mem
        rcases (mem_orderedInsert r).mp mem with rfl | later
        · exact unordered c b after
        · exact first c later
  induction members with
  | nil => exact List.Pairwise.nil
  | cons a rest ih =>
    exact inserted a _ ih

theorem map_sortBy (f) :
    (sortBy (fun b => key (f b)) members).map f = sortBy key (members.map f) := by
  apply map_insertionSort
  exact fun _ _ _ _ => Iff.rfl

end Lib
