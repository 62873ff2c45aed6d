import GitWarp.Lib.TopologicalOrder

/-!
# Taking what nothing leads to

A topological order is built from its front. Every node carries the number of edges to it that
are still counted, and a node is ready when that is none. When a node is taken, the edges from
it are released one after another.
-/
namespace Lib

open List

open Relation (TransGen)

variable {A : Type} [BEq A] [LawfulBEq A]

/-- The edges are counted that start at nodes which are left, or that are pending. -/
structure Taking (successors : A → List A) (all sorted left pending ready : List A)
    (degree : A → Int) : Prop where
  split : all.Perm (sorted ++ left)
  degrees : ∀ x, degree x = ((pending ++ left.flatMap successors).count x : Nat)
  inside : ∀ x ∈ pending, x ∈ left
  mem_ready : ∀ x, x ∈ ready ↔ x ∈ left ∧ degree x = 0
  nodup : ready.Nodup
  order : ∀ before y rest, sorted = before ++ y :: rest →
    Available (· ∈ all) (fun x y => y ∈ successors x) before y

namespace Taking

variable {successors : A → List A} {all sorted left pending ready : List A} {degree : A → Int}

/-- The last edge to a node makes it ready. -/
theorem release [DecidableEq A] (taking : Taking successors all sorted left (x :: pending) ready degree)
    {degree' ready'} (lower : ∀ y, degree' y = if x = y then degree x - 1 else degree y)
    (perm : ready'.Perm (if degree x - 1 = 0 then x :: ready else ready)) :
    Taking successors all sorted left pending ready' degree' := by
  have counted := taking.degrees x
  rw [cons_append, count_cons_self] at counted
  have fresh : x ∉ ready := by
    intro listed
    have zero := ((taking.mem_ready x).mp listed).2
    omega
  refine ⟨taking.split, fun y => ?_, fun y mem => taking.inside y (mem_cons_of_mem _ mem),
    fun y => ?_, perm.nodup_iff.mpr ?_, taking.order⟩
  · rw [lower]
    by_cases same : x = y
    · subst same
      rw [if_pos rfl]
      omega
    · rw [if_neg same, taking.degrees, cons_append, count_cons_of_ne same]
  · rw [perm.mem_iff, lower]
    by_cases same : x = y
    · subst same
      have left := taking.inside x mem_cons_self
      by_cases last : degree x - 1 = 0 <;> simp [last, fresh, left]
    · rw [if_neg same, ← taking.mem_ready]
      by_cases last : degree x - 1 = 0 <;> simp [last, Ne.symm same]
  · by_cases last : degree x - 1 = 0
    · rw [if_pos last]
      exact nodup_cons.mpr ⟨fresh, taking.nodup⟩
    · rw [if_neg last]
      exact taking.nodup

/-- Ready is what may come next. -/
theorem mem_ready_iff (taking : Taking successors all sorted left [] ready degree)
    (distinct : all.Nodup) (x) :
    x ∈ ready ↔ Available (· ∈ all) (fun x y => y ∈ successors x) sorted x := by
  have apart := nodup_append.mp (taking.split.nodup_iff.mp distinct)
  have mem_all : ∀ y, y ∈ all ↔ y ∈ sorted ∨ y ∈ left := fun y => by
    rw [taking.split.mem_iff, mem_append]
  rw [taking.mem_ready, taking.degrees, nil_append, Int.natCast_eq_zero, count_eq_zero]
  simp only [mem_flatMap, not_exists, not_and, Available, mem_all]
  constructor
  · rintro ⟨here, none⟩
    refine ⟨Or.inr here, fun listed => apart.2.2 x listed x here rfl, fun u mem leads => ?_⟩
    exact mem.resolve_right fun left => none u left leads
  · rintro ⟨mem, fresh, earlier⟩
    refine ⟨mem.resolve_left fresh, fun u left leads => ?_⟩
    exact apart.2.2 u (earlier u (Or.inr left) leads) u left rfl

/-- A ready node is taken, and its edges are pending. -/
theorem take (taking : Taking successors all sorted left [] ready degree)
    (distinct : all.Nodup) (closed : ∀ x ∈ all, ∀ y ∈ successors x, y ∈ all) {u rest}
    (perm : ready.Perm (u :: rest)) :
    Taking successors all (sorted ++ [u]) (left.erase u) (successors u) rest degree := by
  have listed := perm.mem_iff.mpr mem_cons_self
  obtain ⟨here, none⟩ := (taking.mem_ready u).mp listed
  have next := (taking.mem_ready_iff distinct u).mp listed
  obtain ⟨fresh, distinctRest⟩ := nodup_cons.mp (perm.nodup_iff.mp taking.nodup)
  have distinctLeft := (nodup_append.mp (taking.split.nodup_iff.mp distinct)).2.1
  have edges : ∀ x, degree x = ((successors u ++ (left.erase u).flatMap successors).count x : Nat) := by
    intro x
    rw [taking.degrees, nil_append, ((perm_cons_erase here).flatMap_right _).count_eq, flatMap_cons]
  have order := snoc_splits taking.order next
  refine ⟨?_, edges, fun x leads => ?_, fun x => ?_, distinctRest, order⟩
  · rw [append_assoc]
    exact taking.split.trans ((perm_cons_erase here).append_left _)
  · rw [distinctLeft.mem_erase_iff]
    have counted := edges x
    have positive := count_pos_iff.mpr leads
    rw [count_append] at counted
    refine ⟨fun same => ?_, ?_⟩
    · rw [same, none] at counted
      rw [same] at positive
      omega
    · -- what precedes a node that was taken was taken before it
      have listed := taking.split.mem_iff.mp (closed u next.1 x leads)
      refine (mem_append.mp listed).resolve_left fun old => ?_
      obtain ⟨before, rest, split⟩ := append_of_mem old
      have earlier := (taking.order before x rest split).2.2 u next.1 leads
      exact next.2.1 (split ▸ mem_append_left _ earlier)
  · rw [distinctLeft.mem_erase_iff, and_assoc, ← taking.mem_ready, perm.mem_iff, mem_cons]
    constructor
    · exact fun listed => ⟨fun same => fresh (same ▸ listed), Or.inr listed⟩
    · exact fun ⟨other, listed⟩ => listed.resolve_left other

/-- Where nothing is ready, an edge leads to each node that is left from another one. -/
theorem back (taking : Taking successors all sorted left [] [] degree) (y) (here : y ∈ left) :
    ∃ x, x ∈ left ∧ y ∈ successors x := by
  have counted : degree y ≠ 0 := fun zero => by
    simpa using (taking.mem_ready y).mpr ⟨here, zero⟩
  rw [taking.degrees, nil_append, Ne, Int.natCast_eq_zero, count_eq_zero, not_not,
    mem_flatMap] at counted
  exact counted

theorem exists_cycle_of_left (taking : Taking successors all sorted left [] [] degree)
    (some : left ≠ []) : ∃ x, x ∈ all ∧ TransGen (fun x y => y ∈ successors x) x x := by
  obtain ⟨x, start, cycle⟩ := exists_cycle (r := fun x y => y ∈ successors x) left (· ∈ left)
    (fun _ => id) (exists_mem_of_ne_nil _ some) taking.back
  exact ⟨x, taking.split.mem_iff.mpr (mem_append_right _ start), cycle⟩

end Taking
end Lib
