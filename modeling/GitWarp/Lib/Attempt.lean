import Mathlib.Data.List.Basic

/-!
# Steps that may throw

A step on an object either succeeds or throws. Either way it leaves an object
behind: what was done before the throw stays done. Steps are composed in order,
and an invariant that each of them keeps is kept by the whole.
-/
namespace Lib

/-- The outcome, and the object after the step in both cases. -/
def Attempt (E S : Type) : Type := S → Except E Unit × S

namespace Attempt

variable {E S A : Type}

def check (test : S → Except E Unit) : Attempt E S := fun s => (test s, s)

def fail (e : E) : Attempt E S := fun s => (.error e, s)

def andThen (first later : Attempt E S) : Attempt E S := fun s =>
  match first s with
  | (.ok (), next) => later next
  | (.error e, next) => (.error e, next)

/-- A step that reads the object it meets. -/
def choose (choice : S → Attempt E S) : Attempt E S := fun s => choice s s

/-- A loop that ends at the first throw. -/
def forEach (step : A → Attempt E S) : List A → Attempt E S
  | [] => fun s => (.ok (), s)
  | a :: rest => (step a).andThen (forEach step rest)

/-- `P` survives the step, whether it throws or not. -/
structure Keeps (P : S → Prop) (step : Attempt E S) : Prop where
  kept : ∀ s, P s → P (step s).2

variable {P : S → Prop}

theorem keeps_check {test : S → Except E Unit} : Keeps P (check test) := ⟨fun _ held => held⟩

theorem keeps_fail : Keeps P (fail e : Attempt E S) := ⟨fun _ held => held⟩

theorem Keeps.andThen {first later : Attempt E S} (left : Keeps P first) (right : Keeps P later) :
    Keeps P (first.andThen later) := by
  refine ⟨fun s held => ?_⟩
  have middle := left.kept s held
  unfold Attempt.andThen
  split
  next next_ ran =>
    rw [ran] at middle
    exact right.kept next_ middle
  next e next_ ran =>
    rw [ran] at middle
    exact middle

theorem Keeps.forEach {step : A → Attempt E S} (each : ∀ a, Keeps P (step a)) (items) :
    Keeps P (Attempt.forEach step items) := by
  induction items with
  | nil => exact ⟨fun _ held => held⟩
  | cons a rest ih => exact (each a).andThen ih

theorem Keeps.choose {choice : S → Attempt E S} (each : ∀ s, Keeps P (choice s)) :
    Keeps P (Attempt.choose choice) := ⟨fun s held => (each s).kept s held⟩

end Attempt
end Lib
