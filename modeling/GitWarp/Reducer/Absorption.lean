import GitWarp.Reducer.Addressing

/-!
# Facts that change nothing

Two states that represent a set of facts and a larger one are equal exactly
when the larger set says nothing new: its tags and tombstones are old, its
property writes and edge births are at or below old ones, and its counters are
covered. A list of patches can be left out of a history exactly when the rest
of the history absorbs its facts.
-/
namespace GitWarp

open Js Lib

variable {V : Type}

/-- The facts `G` add nothing to a state that represents `F`. -/
structure Absorbed (F G : Set (Fact V)) : Prop where
  nodeTags : ∀ x d, .nodeTag x d ∈ G → .nodeTag x d ∈ F
  nodeTombs : ∀ d, .nodeTomb d ∈ G → .nodeTomb d ∈ F
  edgeTags : ∀ k d, .edgeTag k d ∈ G → .edgeTag k d ∈ F
  edgeTombs : ∀ d, .edgeTomb d ∈ G → .edgeTomb d ∈ F
  writes : ∀ k r, .write k r ∈ G → ∃ r', .write k r' ∈ F ∧ r.eventId ≤ r'.eventId
  births : ∀ k e, .birth k e ∈ G → ∃ e', .birth k e' ∈ F ∧ e ≤ e'
  seen : ∀ w n, .seen w n ∈ G → n = 0 ∨ ∃ m, n ≤ m ∧ .seen w m ∈ F

theorem absorbed_of_subset {F G : Set (Fact V)} (subset : G ⊆ F) : Absorbed F G where
  nodeTags := fun _ _ mem => subset mem
  nodeTombs := fun _ mem => subset mem
  edgeTags := fun _ _ mem => subset mem
  edgeTombs := fun _ mem => subset mem
  writes := fun _ r mem => ⟨r, subset mem, le_refl _⟩
  births := fun _ e mem => ⟨e, subset mem, le_refl _⟩
  seen := fun _ n mem => Or.inr ⟨n, Nat.le_refl n, subset mem⟩

theorem mem_iff_mem_union {A : Type} {f : A → Fact V} {F G : Set (Fact V)} {inS inT : A → Prop}
    (old : ∀ a, inS a ↔ f a ∈ F) (new : ∀ a, inT a ↔ f a ∈ F ∪ G) :
    (∀ a, inS a ↔ inT a) ↔ ∀ a, f a ∈ G → f a ∈ F := by
  constructor
  · intro same a added
    exact (old a).mp ((same a).mpr ((new a).mpr (Or.inr added)))
  · intro known a
    rw [old, new]
    exact ⟨Or.inl, fun either => either.elim id (known a)⟩

/-- Representing more facts gives an equal state exactly when they are absorbed. -/
theorem Represents.equiv_iff_absorbed {F G : Set (Fact V)} (distinct : OneWritePerEvent (F ∪ G))
    (left : Represents s F) (right : Represents t (F ∪ G)) : s.Equiv t ↔ Absorbed F G := by
  have props : ∀ k, s.prop.get k = t.prop.get k ↔
      ∀ r, Fact.write k r ∈ G → ∃ r', Fact.write k r' ∈ F ∧ r.eventId ≤ r'.eventId :=
    fun k => Winner.eq_iff_absorbed (distinct k) (left.writes k) (right.writes k)
  have births : ∀ k, s.edgeBirthEvent.get k = t.edgeBirthEvent.get k ↔
      ∀ e, Fact.birth k e ∈ G → ∃ e', Fact.birth k e' ∈ F ∧ e ≤ e' :=
    fun k => Winner.eq_iff_absorbed (fun _ _ _ _ same => same) (left.births k) (right.births k)
  have seen : (∀ w, s.observedFrontier.counter w = t.observedFrontier.counter w) ↔
      ∀ w n, Fact.seen w n ∈ G → n = 0 ∨ ∃ m, n ≤ m ∧ Fact.seen w m ∈ F := by
    constructor
    · intro same w n added
      have reached := (right.seen w n).mpr (Or.inr ⟨n, Nat.le_refl n, Or.inr added⟩)
      rw [← same w] at reached
      exact (left.seen w n).mp reached
    · intro covered w
      apply Nat.le_antisymm
      · rcases (left.seen w _).mp (Nat.le_refl _) with zero | ⟨m, le, mem⟩
        · omega
        · exact (right.seen w _).mpr (Or.inr ⟨m, le, Or.inl mem⟩)
      · rcases (right.seen w _).mp (Nat.le_refl _) with zero | ⟨m, le, old | added⟩
        · omega
        · exact (left.seen w _).mpr (Or.inr ⟨m, le, old⟩)
        · rcases covered w m added with zero | ⟨m', le', mem⟩
          · omega
          · exact (left.seen w _).mpr (Or.inr ⟨m', le.trans le', mem⟩)
  have nodeTags := fun x => mem_iff_mem_union (f := Fact.nodeTag x) (left.nodeTags x) (right.nodeTags x)
  have edgeTags := fun x => mem_iff_mem_union (f := Fact.edgeTag x) (left.edgeTags x) (right.edgeTags x)
  have nodeTombs := mem_iff_mem_union (f := Fact.nodeTomb) left.nodeTombs right.nodeTombs
  have edgeTombs := mem_iff_mem_union (f := Fact.edgeTomb) left.edgeTombs right.edgeTombs
  constructor
  · intro same
    obtain ⟨sameNodes, sameNodeTombs⟩ := (ORSet.equiv_iff _).mp same.nodeAlive
    obtain ⟨sameEdges, sameEdgeTombs⟩ := (ORSet.equiv_iff _).mp same.edgeAlive
    exact {
      nodeTags := fun x => (nodeTags x).mp (sameNodes x)
      nodeTombs := nodeTombs.mp sameNodeTombs
      edgeTags := fun x => (edgeTags x).mp (sameEdges x)
      edgeTombs := edgeTombs.mp sameEdgeTombs
      writes := fun k => (props k).mp (same.prop k)
      births := fun k => (births k).mp (same.edgeBirthEvent k)
      seen := seen.mp ((VersionVector.equiv_iff_counter _ _).mp same.observedFrontier) }
  · intro absorbed
    exact {
      nodeAlive := (ORSet.equiv_iff _).mpr
        ⟨fun x => (nodeTags x).mpr (absorbed.nodeTags x), nodeTombs.mpr absorbed.nodeTombs⟩
      edgeAlive := (ORSet.equiv_iff _).mpr
        ⟨fun x => (edgeTags x).mpr (absorbed.edgeTags x), edgeTombs.mpr absorbed.edgeTombs⟩
      prop := fun k => (props k).mpr (absorbed.writes k)
      observedFrontier := (VersionVector.equiv_iff_counter _ _).mpr (seen.mpr absorbed.seen)
      edgeBirthEvent := fun k => (births k).mpr (absorbed.births k) }

theorem reducePatches_equiv_iff_absorbed {kept lost all : List (PatchEntry V)}
    (valid : ∀ entry ∈ all, entry.WellFormed) (consistent : Consistent all)
    (whole : ∀ entry, entry ∈ all ↔ entry ∈ kept ∨ entry ∈ lost) :
    ∃ s t, reducePatches kept .empty = .ok s ∧ reducePatches all .empty = .ok t ∧
      (s.Equiv t ↔ Absorbed (historyFacts kept) (historyFacts lost)) := by
  obtain ⟨s, left, knowsKept⟩ := reduces_history
    fun entry mem => valid entry ((whole entry).mpr (Or.inl mem))
  obtain ⟨t, right, knowsAll⟩ := reduces_history valid
  have split : historyFacts all = historyFacts kept ∪ historyFacts lost := by
    rw [← historyFacts_append]
    apply historyFacts_congr
    intro entry
    rw [whole, List.mem_append]
  rw [split] at knowsAll
  refine ⟨s, t, left, right, knowsKept.equiv_iff_absorbed ?_ knowsAll⟩
  rw [← split]
  exact consistent.oneWritePerEvent

end GitWarp
