import GitWarp.Lib.OrdMap
import Mathlib.Logic.Relation

/-!
# Sweeps over what can be reached

A sweep marks nodes when it meets them and keeps those whose successors it has not
met yet. Whether it takes them one at a time or a whole frontier at a time, the
marked nodes are those that can be reached when nothing is pending.
-/
namespace Lib

open List

variable {A : Type}

/-- What can be reached from some starts. -/
def Reaches (r : A → A → Prop) (starts : List A) (x : A) : Prop :=
  ∃ s ∈ starts, Relation.ReflTransGen r s x

theorem Reaches.step {x y : A} (reached : Reaches r starts x) (leads : r x y) :
    Reaches r starts y := by
  obtain ⟨s, member, walk⟩ := reached
  exact ⟨s, member, walk.tail leads⟩

/-- The marked nodes, and those of them that are pending. -/
structure Sweep (A : Type) where
  visited : OrdSet A
  pending : List A

variable [DecidableEq A]

namespace Sweep

def meet (sweep : Sweep A) (y : A) : Sweep A :=
  if y ∈ sweep.visited then sweep else ⟨sweep.visited.add y, sweep.pending ++ [y]⟩

/-- What is met anew is marked and pending, in one order. -/
theorem foldl_meet (ys : List A) (sweep) :
    (∃ fresh, (ys.foldl meet sweep).visited.toList = sweep.visited.toList ++ fresh ∧
      (ys.foldl meet sweep).pending = sweep.pending ++ fresh) ∧
    ∀ x, x ∈ (ys.foldl meet sweep).visited ↔ x ∈ sweep.visited ∨ x ∈ ys := by
  induction ys generalizing sweep with
  | nil => exact ⟨⟨[], by simp⟩, by simp⟩
  | cons y ys ih =>
    obtain ⟨⟨fresh, marked, pending⟩, members⟩ := ih (sweep.meet y)
    unfold meet at marked pending members
    rw [foldl_cons]
    unfold meet
    split at marked
    next old =>
      rw [if_pos old] at pending members
      refine ⟨⟨fresh, ?_, ?_⟩, fun x => ?_⟩
      · rw [if_pos old]
        exact marked
      · rw [if_pos old]
        exact pending
      · rw [if_pos old]
        refine (members x).trans ⟨?_, ?_⟩
        · rintro (before | later)
          · exact Or.inl before
          · exact Or.inr (mem_cons_of_mem _ later)
        · rintro (before | later)
          · exact Or.inl before
          · rcases mem_cons.mp later with rfl | later
            · exact Or.inl old
            · exact Or.inr later
    next new =>
      rw [if_neg new] at pending members
      refine ⟨⟨y :: fresh, ?_, ?_⟩, fun x => ?_⟩
      · rw [if_neg new]
        refine marked.trans ?_
        rw [OrdSet.toList_add _ _ new, append_assoc]
        rfl
      · rw [if_neg new]
        refine pending.trans ?_
        rw [append_assoc]
        rfl
      · rw [if_neg new]
        refine (members x).trans ?_
        rw [OrdSet.mem_add, mem_cons, or_assoc]

/-- Nodes taken and nodes pending make up the marked nodes, and the successors of the nodes taken
are marked. -/
structure Ok (successors : A → List A) (good : A → Prop) (taken : List A) (sweep : Sweep A) :
    Prop where
  split : sweep.visited.toList = taken ++ sweep.pending
  closed : ∀ x ∈ taken, ∀ y ∈ successors x, y ∈ sweep.visited
  good : ∀ x ∈ sweep.visited, good x

variable {successors : A → List A} {good : A → Prop} {taken : List A} {sweep : Sweep A}

theorem Ok.take {visited x} (rest) (ok : Ok successors good taken ⟨visited, x :: rest⟩)
    (stays : ∀ x y, good x → y ∈ successors x → good y) :
    Ok successors good (taken ++ [x]) ((successors x).foldl meet ⟨visited, rest⟩) := by
  obtain ⟨⟨fresh, marked, pending⟩, members⟩ := foldl_meet (successors x) ⟨visited, rest⟩
  have here : x ∈ visited := by
    have listed : x ∈ taken ++ x :: rest := by simp
    rw [← OrdSet.mem_toList, show visited.toList = _ from ok.split]
    exact listed
  constructor
  · rw [marked, pending, show visited.toList = _ from ok.split]
    simp
  · intro z mem y leads
    rw [members]
    rcases mem_append.mp mem with before | now
    · exact Or.inl (ok.closed z before y leads)
    · rw [mem_singleton.mp now] at leads
      exact Or.inr leads
  · intro z mem
    rcases (members z).mp mem with old | new
    · exact ok.good z old
    · exact stays x z (ok.good x here) new

/-- Taking a whole frontier: while part of it is left, the rest comes before what is met. -/
theorem Ok.takeAll {visited frontier} (next)
    (ok : Ok successors good taken ⟨visited, frontier ++ next⟩)
    (stays : ∀ x y, good x → y ∈ successors x → good y) :
    Ok successors good (taken ++ frontier)
      (frontier.foldl (fun sweep x => (successors x).foldl meet sweep) ⟨visited, next⟩) := by
  induction frontier generalizing taken visited next with
  | nil => simpa using ok
  | cons x frontier ih =>
    have one := ok.take (frontier ++ next) stays
    -- what is met goes to the end in both ways of counting
    obtain ⟨⟨fresh, marked, pending⟩, -⟩ :=
      foldl_meet (successors x) ⟨visited, frontier ++ next⟩
    obtain ⟨⟨fresh', marked', pending'⟩, -⟩ := foldl_meet (successors x) ⟨visited, next⟩
    have agree : ((successors x).foldl meet ⟨visited, frontier ++ next⟩).visited =
        ((successors x).foldl meet ⟨visited, next⟩).visited := by
      have same : ∀ (ys : List A) (one two : Sweep A), one.visited = two.visited →
          (ys.foldl meet one).visited = (ys.foldl meet two).visited := by
        intro ys
        induction ys with
        | nil => exact fun _ _ equal => equal
        | cons y ys ihs =>
          intro one two equal
          apply ihs
          unfold meet
          rw [equal]
          split
          · exact equal
          · rfl
      exact same _ _ _ rfl
    have equal : fresh = fresh' := by
      rw [agree, marked'] at marked
      exact (append_cancel_left marked).symm
    have shape : (successors x).foldl meet ⟨visited, frontier ++ next⟩ =
        ⟨((successors x).foldl meet ⟨visited, next⟩).visited,
          frontier ++ ((successors x).foldl meet ⟨visited, next⟩).pending⟩ := by
      rw [pending', ← agree, ← equal, ← append_assoc]
      exact congrArg (Sweep.mk _) pending
    rw [shape] at one
    have rest := ih _ one
    rw [append_assoc] at rest
    exact rest

theorem Ok.mem_iff (follows : ∀ x y, r x y ↔ y ∈ successors x)
    (ok : Ok successors (Reaches r starts) taken sweep) (begun : ∀ s ∈ starts, s ∈ sweep.visited)
    (done : sweep.pending = []) (x : A) : x ∈ sweep.visited ↔ Reaches r starts x := by
  constructor
  · exact ok.good x
  · rintro ⟨s, member, walk⟩
    have all : sweep.visited.toList = taken := by
      rw [ok.split, done, append_nil]
    induction walk with
    | refl => exact begun s member
    | tail _ leads ih =>
      refine ok.closed _ ?_ _ ((follows _ _).mp leads)
      rw [← all]
      exact ih

theorem Ok.length_le (ok : Ok successors good taken sweep) {nodes : List A}
    (inside : ∀ x, good x → x ∈ nodes) : taken.length + sweep.pending.length ≤ nodes.length := by
  have shorter := (subperm_of_subset sweep.visited.nodup
    (fun x mem => inside x (ok.good x mem))).length_le
  rw [ok.split, length_append] at shorter
  exact shorter

/-! ### The order of marking -/

/-- A sweep that takes the first pending node each time marks the nodes in this order. -/
inductive Sweeps (successors : A → List A) : Sweep A → List A → Prop
  | done (visited : OrdSet A) : Sweeps successors ⟨visited, []⟩ visited.toList
  | take (visited : OrdSet A) (x : A) (rest order : List A)
      (later : Sweeps successors ((successors x).foldl meet ⟨visited, rest⟩) order) :
      Sweeps successors ⟨visited, x :: rest⟩ order

theorem Sweeps.unique (sweeps : Sweeps successors sweep order)
    (other : Sweeps successors sweep order') : order = order' := by
  induction sweeps with
  | done visited =>
    cases other
    rfl
  | take visited x rest order later ih =>
    cases other with
    | take _ _ _ _ later' => exact ih later'

end Sweep

/-- The breadth-first order of what can be reached from some starts. -/
def BreadthFirst (successors : A → List A) (starts order : List A) : Prop :=
  Sweep.Sweeps successors ⟨.ofList starts, (OrdSet.ofList starts).toList⟩ order

end Lib
