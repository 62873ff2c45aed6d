import Mathlib.Logic.Basic

/-!
# Tags and tombstones

The abstract observed-remove set: a relation that tags elements with dots and a
set of tombstoned dots. An element is alive while one of its dots is not
tombstoned. Collecting drops every tombstoned tag together with its tombstone;
the lemma says what that can change once more tags and tombstones arrive.
-/
namespace Lib

variable {X D : Type}

structure Tags (X D : Type) where
  tag : X → D → Prop
  tomb : D → Prop

namespace Tags

def alive (F : Tags X D) (x : X) : Prop := ∃ d, F.tag x d ∧ ¬ F.tomb d

def union (F G : Tags X D) : Tags X D :=
  ⟨fun x d => F.tag x d ∨ G.tag x d, fun d => F.tomb d ∨ G.tomb d⟩

/-- Both tagged and tombstoned. -/
def collected (F : Tags X D) (d : D) : Prop := (∃ x, F.tag x d) ∧ F.tomb d

/-- What a collection leaves. -/
def collect (F : Tags X D) : Tags X D :=
  ⟨fun x d => F.tag x d ∧ ¬ F.collected d, fun d => F.tomb d ∧ ¬ F.collected d⟩

/-- A collected dot tags the element again, and its tombstone does not come with it. -/
def revives (F later : Tags X D) (x : X) : Prop :=
  ∃ d, F.collected d ∧ later.tag x d ∧ ¬ later.tomb d

theorem alive_collect_union (F later : Tags X D) (x : X) :
    (F.collect.union later).alive x ↔ (F.union later).alive x ∨ F.revives later x := by
  constructor
  · rintro ⟨d, tagged, live⟩
    simp only [collect, union, not_or, not_and, not_not] at live
    rcases tagged with ⟨old, kept⟩ | new
    · exact Or.inl ⟨d, Or.inl old, fun tomb =>
        tomb.elim (fun was => kept (live.1 was)) live.2⟩
    · by_cases gone : F.collected d
      · exact Or.inr ⟨d, gone, new, live.2⟩
      · exact Or.inl ⟨d, Or.inr new, fun tomb =>
          tomb.elim (fun was => gone (live.1 was)) live.2⟩
  · rintro (⟨d, tagged, live⟩ | ⟨d, gone, tagged, live⟩)
    · have untombed : ¬ F.tomb d ∧ ¬ later.tomb d := not_or.mp live
      have kept : ¬ F.collected d := fun gone => untombed.1 gone.2
      exact ⟨d, tagged.imp_left fun old => ⟨old, kept⟩,
        fun tomb => tomb.elim (fun was => untombed.1 was.1) untombed.2⟩
    · exact ⟨d, Or.inr tagged, fun tomb => tomb.elim (fun was => was.2 gone) live⟩

end Tags
end Lib
