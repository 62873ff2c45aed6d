import Mathlib.Data.List.Basic

/-!
# Runs

A deterministic system takes its actions one after another. `Along P` says that
`P` holds at every action of a run, in the state the action meets; an invariant
that each such action keeps holds in every state the run passes through.
-/
namespace Lib

variable {S A : Type} (step : S → A → S)

def run (s : S) : List A → S
  | [] => s
  | action :: rest => run (step s action) rest

theorem run_append (s : S) (first later) :
    run step s (first ++ later) = run step (run step s first) later := by
  induction first generalizing s with
  | nil => rfl
  | cons action rest ih => exact ih (step s action)

/-- `P` holds of every action in the state that it is taken in. -/
def Along (P : S → A → Prop) (s : S) : List A → Prop
  | [] => True
  | action :: rest => P s action ∧ Along P (step s action) rest

instance decidableAlong (P : S → A → Prop) [∀ s action, Decidable (P s action)] (s : S) :
    (actions : List A) → Decidable (Along step P s actions)
  | [] => isTrue trivial
  | action :: rest =>
    have := decidableAlong P (step s action) rest
    inferInstanceAs (Decidable (P s action ∧ Along step P (step s action) rest))

variable {actions : List A} {P : S → A → Prop}

theorem Along.and (left : Along step P s actions) (right : Along step Q s actions) :
    Along step (fun s action => P s action ∧ Q s action) s actions := by
  induction actions generalizing s with
  | nil => trivial
  | cons action rest ih => exact ⟨⟨left.1, right.1⟩, ih left.2 right.2⟩

theorem Along.of_forall {Q : A → Prop} (s : S) (every : ∀ action ∈ actions, Q action) :
    Along step (fun _ action => Q action) s actions := by
  induction actions generalizing s with
  | nil => trivial
  | cons action rest ih =>
    exact ⟨every action List.mem_cons_self, ih (step s action) (List.forall_mem_cons.mp every).2⟩

theorem along_iff_forall_split :
    Along step P s actions ↔
      ∀ before action after, actions = before ++ action :: after → P (run step s before) action := by
  induction actions generalizing s with
  | nil =>
    refine ⟨fun _ before action after shape => ?_, fun _ => trivial⟩
    cases before <;> cases shape
  | cons first rest ih =>
    constructor
    · rintro ⟨here, later⟩ before action after shape
      cases before with
      | nil =>
        obtain ⟨rfl, -⟩ := List.cons.inj shape
        exact here
      | cons head before =>
        obtain ⟨rfl, tail⟩ := List.cons.inj shape
        exact ih.mp later before action after tail
    · intro cuts
      refine ⟨cuts [] first rest rfl, ih.mpr fun before action after shape => ?_⟩
      exact cuts (first :: before) action after (by rw [shape]; rfl)

theorem Along.take (along : Along step P s actions) (k) : Along step P s (actions.take k) := by
  induction actions generalizing s k with
  | nil => simpa using along
  | cons action rest ih =>
    cases k with
    | zero => trivial
    | succ k => exact ⟨along.1, ih along.2 k⟩

theorem Along.invariant {I : S → Prop} (keep : ∀ s action, I s → P s action → I (step s action))
    (init : I s) (along : Along step P s actions) (k) : I (run step s (actions.take k)) := by
  induction actions generalizing s k with
  | nil => simpa [run] using init
  | cons action rest ih =>
    cases k with
    | zero => exact init
    | succ k => exact ih (keep s action init along.1) along.2 k

end Lib
