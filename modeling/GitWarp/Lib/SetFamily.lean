import GitWarp.Lib.OrdMap

/-!
# Families of sets

A map from keys to sets, read as a relation between keys and members: a key that
is missing has no members.
-/
namespace Lib

variable {K A : Type} [DecidableEq K] [DecidableEq A]

namespace OrdMap

def members (m : OrdMap K (OrdSet A)) (k : K) : OrdSet A := (m.get k).getD .empty

def addAt (m : OrdMap K (OrdSet A)) (k : K) (a : A) : OrdMap K (OrdSet A) :=
  m.set k ((m.members k).add a)

def removeAt (m : OrdMap K (OrdSet A)) (k : K) (a : A) : OrdMap K (OrdSet A) :=
  m.set k ((m.members k).delete a)

omit [DecidableEq A] in
@[simp] theorem members_empty (k : K) :
    (empty : OrdMap K (OrdSet A)).members k = OrdSet.empty := rfl

section

variable (m : OrdMap K (OrdSet A)) (k k' : K)
include m k k'

omit [DecidableEq A] in
theorem members_set (s) : (m.set k s).members k' = if k = k' then s else m.members k' := by
  unfold members
  rw [get_set]
  split <;> rfl

@[simp] theorem mem_addAt (a b : A) :
    b ∈ (m.addAt k a).members k' ↔ b ∈ m.members k' ∨ k = k' ∧ b = a := by
  rw [addAt, members_set]
  split
  next same => simp [same]
  next other => simp [other]

@[simp] theorem mem_removeAt (a b : A) :
    b ∈ (m.removeAt k a).members k' ↔ b ∈ m.members k' ∧ ¬ (k = k' ∧ b = a) := by
  rw [removeAt, members_set]
  split
  next same => simp [same]
  next other => simp [other]

end

end OrdMap
end Lib
