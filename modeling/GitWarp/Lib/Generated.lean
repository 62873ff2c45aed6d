import Mathlib.Data.List.Basic

/-!
# Runs of generators

A generator yields its items one after another and may fail in the end. What it
has yielded before it fails has been yielded.
-/
namespace Lib

open List

structure Generated (E A : Type) where
  items : List A
  failure : Option E
  deriving DecidableEq

namespace Generated

variable {E A B : Type}

def ofList (items : List A) : Generated E A := ⟨items, none⟩

def fail (e : E) : Generated E A := ⟨[], some e⟩

/-- `yield* items`, and then the rest. -/
def yieldAll (items : List A) (rest : Generated E A) : Generated E A :=
  ⟨items ++ rest.items, rest.failure⟩

/-- `yield* first`, and then the second, which is not begun where the first fails. -/
def andThen (first second : Generated E A) : Generated E A :=
  match first.failure with
  | some _ => first
  | none => ⟨first.items ++ second.items, second.failure⟩

def concat : List (Generated E A) → Generated E A
  | [] => ofList []
  | first :: rest => first.andThen (concat rest)

/-- `[...generator]`: the items, or the failure. -/
def collect (g : Generated E A) : Except E (List A) := g.failure.elim (.ok g.items) .error

/-- It ends without a failure. -/
def Completes (g : Generated E A) : Prop := g.failure = none

theorem collect_eq_ok (g : Generated E A) (items) :
    g.collect = .ok items ↔ g.Completes ∧ items = g.items := by
  obtain ⟨yielded, failure⟩ := g
  cases failure with
  | none => simp [collect, Completes, eq_comm]
  | some e => simp [collect, Completes]

theorem andThen_completes (first second : Generated E A) :
    (first.andThen second).Completes ↔ first.Completes ∧ second.Completes := by
  obtain ⟨items, failure⟩ := first
  cases failure <;> simp [andThen, Completes]

theorem andThen_items (first second : Generated E A) (complete : first.Completes) :
    (first.andThen second).items = first.items ++ second.items := by
  obtain ⟨items, failure⟩ := first
  cases complete
  rfl

theorem mem_concat_items (gs : List (Generated E A)) (a : A) (mem : a ∈ (concat gs).items) :
    ∃ g ∈ gs, a ∈ g.items := by
  induction gs with
  | nil => cases mem
  | cons first rest ih =>
    rw [concat, andThen] at mem
    split at mem
    next => exact ⟨first, mem_cons_self, mem⟩
    next =>
      rcases mem_append.mp mem with here | later
      · exact ⟨first, mem_cons_self, here⟩
      · obtain ⟨g, listed, inside⟩ := ih later
        exact ⟨g, mem_cons_of_mem _ listed, inside⟩

end Generated
end Lib
