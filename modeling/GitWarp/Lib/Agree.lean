import Mathlib.Logic.Basic

/-!
# Agreeing computations

Two fallible computations agree when both succeed with related values, or both
fail with related errors. Agreement composes along `bind` and along folds.
-/
namespace Lib

open List

variable {E A B C D X : Type}

def Agree (fail : E → E → Prop) (R : A → B → Prop) : Except E A → Except E B → Prop
  | .ok a, .ok b => R a b
  | .error e, .error e' => fail e e'
  | _, _ => False

@[simp] theorem ok_bind (a : A) (f : A → Except E B) : (Except.ok a >>= f) = f a := rfl

variable {fail : E → E → Prop}

variable {R : A → B → Prop} {x : Except E A} {y : Except E B} {f : A → X → Except E A}

theorem Agree.bind {f : A → Except E C} {h : B → Except E D} (both : Agree fail R x y)
    (next : ∀ a b, x = .ok a → y = .ok b → R a b → Agree fail Q (f a) (h b)) :
    Agree fail Q (x >>= f) (y >>= h) := by
  cases x with
  | error e =>
    cases y with
    | error e' => exact both
    | ok b => exact both.elim
  | ok a =>
    cases y with
    | error e' => exact both.elim
    | ok b => exact next a b rfl rfl both

theorem Agree.mono (both : Agree fail R x y)
    (implies : ∀ a b, x = .ok a → y = .ok b → R a b → Q a b) : Agree fail Q x y := by
  cases x with
  | error e =>
    cases y with
    | error e' => exact both
    | ok b => exact both.elim
  | ok a =>
    cases y with
    | error e' => exact both.elim
    | ok b => exact implies a b rfl rfl both

theorem Agree.weaken (both : Agree fail R x y) (implies : ∀ e e', fail e e' → fail' e e') :
    Agree fail' R x y := by
  cases x with
  | error e =>
    cases y with
    | error e' => exact implies e e' both
    | ok b => exact both.elim
  | ok a =>
    cases y with
    | error e' => exact both.elim
    | ok b => exact both

theorem Agree.trans_eq {y z} (first : Agree (fun _ _ => True) Eq x y)
    (second : Agree (fun _ _ => True) R y z) : Agree (fun _ _ => True) R x z := by
  cases x with
  | error e =>
    cases y with
    | error e' =>
      cases z with
      | error e'' => trivial
      | ok b => exact second.elim
    | ok a => exact first.elim
  | ok a =>
    cases y with
    | error e' => exact first.elim
    | ok a' =>
      cases (show a = a' from first)
      exact second

theorem Agree.fork {z : Except E C} (left : Agree (fun _ _ => True) R x y)
    (right : Agree (fun _ _ => True) Q x z) :
    Agree (fun _ _ => True) (fun b c => ∃ a, R a b ∧ Q a c) y z := by
  cases x with
  | error e =>
    cases y with
    | error e' =>
      cases z with
      | error e'' => trivial
      | ok c => exact right.elim
    | ok b => exact left.elim
  | ok a =>
    cases y with
    | error e' => exact left.elim
    | ok b =>
      cases z with
      | error e'' => exact right.elim
      | ok c => exact ⟨a, left, right⟩

theorem Agree.self : Agree Eq (fun a b => x = .ok a ∧ a = b) x x := by
  cases x with
  | error e => rfl
  | ok a => exact ⟨rfl, rfl⟩

theorem Agree.ok_right (both : Agree fail R x y) (left : x = .ok a) : ∃ b, y = .ok b ∧ R a b := by
  subst left
  cases y with
  | error e' => exact both.elim
  | ok b => exact ⟨b, rfl, both⟩

theorem Agree.ok_left (both : Agree fail R x y) (right : y = .ok b) : ∃ a, x = .ok a ∧ R a b := by
  subst right
  cases x with
  | error e => exact both.elim
  | ok a => exact ⟨a, rfl, both⟩

theorem Agree.foldlM {R : List X → A → B → Prop} (items)
    (step : ∀ done x rest a b, items = done ++ x :: rest → R done a b →
      Agree fail (R (done ++ [x])) (f a x) (h b x)) (init : R [] a b) :
    Agree fail (R items) (items.foldlM f a) (items.foldlM h b) := by
  suffices general : ∀ rest done a b, items = done ++ rest → R done a b →
      Agree fail (R items) (rest.foldlM f a) (rest.foldlM h b) from general items [] a b rfl init
  intro rest
  induction rest with
  | nil =>
    intro done a b whole held
    rw [append_nil] at whole
    exact whole ▸ held
  | cons x rest ih =>
    intro done a b whole held
    rw [foldlM_cons, foldlM_cons]
    refine (step done x rest a b whole held).bind fun a' b' _ _ held' => ?_
    exact ih (done ++ [x]) a' b' (by simp [whole]) held'

theorem foldlM_invariant {P : A → Prop} (items : List X)
    (step : ∀ a x a', x ∈ items → P a → f a x = .ok a' → P a') (init : P a)
    (ok : items.foldlM f a = .ok a') : P a' := by
  induction items generalizing a with
  | nil =>
    cases ok
    exact init
  | cons x rest ih =>
    rw [foldlM_cons] at ok
    cases made : f a x with
    | error e =>
      rw [made] at ok
      cases ok
    | ok b =>
      rw [made, ok_bind] at ok
      exact ih (fun a y a' mem => step a y a' (mem_cons_of_mem _ mem))
        (step a x b mem_cons_self init made) ok

theorem foldlM_ok {R : List X → A → Prop} (items)
    (step : ∀ done x rest a, items = done ++ x :: rest → R done a →
      ∃ a', f a x = .ok a' ∧ R (done ++ [x]) a') (init : R [] a) :
    ∃ a', items.foldlM f a = .ok a' ∧ R items a' := by
  suffices general : ∀ rest done a, items = done ++ rest → R done a →
      ∃ a', rest.foldlM f a = .ok a' ∧ R items a' from general items [] a rfl init
  intro rest
  induction rest with
  | nil =>
    intro done a whole held
    rw [append_nil] at whole
    exact ⟨a, rfl, whole ▸ held⟩
  | cons x rest ih =>
    intro done a whole held
    obtain ⟨a', ok, held'⟩ := step done x rest a whole held
    rw [foldlM_cons, ok, ok_bind]
    exact ih (done ++ [x]) a' (by simp [whole]) held'

end Lib
