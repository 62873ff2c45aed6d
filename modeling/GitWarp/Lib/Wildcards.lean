import Mathlib.Data.List.Basic
import Mathlib.Data.List.ReduceOption

/-!
# Patterns with wildcards

A pattern is a list of letters and wildcards. A text fills a pattern when it results from
putting some run of letters for each wildcard. Where some letters may not stand in a run, a
text that fills the pattern anyhow does so without them exactly when it has no more of them
than the pattern.
-/
namespace Lib

open List

variable {A : Type}

/-- The text results from the pattern by putting a run of allowed letters for each wildcard,
which is `none`. -/
inductive Fills (allowed : A → Prop) : List (Option A) → List A → Prop
  | done : Fills allowed [] []
  | letter {a : A} {pattern : List (Option A)} {text : List A} (rest : Fills allowed pattern text) :
      Fills allowed (some a :: pattern) (a :: text)
  | wildcard {pattern : List (Option A)} {text : List A} (run : List A)
      (fits : ∀ a ∈ run, allowed a) (rest : Fills allowed pattern text) :
      Fills allowed (none :: pattern) (run ++ text)

/-- Any run may stand for a wildcard. -/
def FillsFreely (pattern : List (Option A)) (text : List A) : Prop := Fills (fun _ => True) pattern text

namespace Fills

variable {allowed : A → Prop} {pattern : List (Option A)} {text : List A}

theorem freely (fills : Fills allowed pattern text) : FillsFreely pattern text := by
  induction fills with
  | done => exact .done
  | letter _ ih => exact .letter ih
  | wildcard run _ _ ih => exact .wildcard run (fun _ _ => trivial) ih

theorem nil_iff : Fills allowed [] text ↔ text = [] := by
  constructor
  · rintro ⟨⟩
    rfl
  · rintro rfl
    exact .done

theorem letter_iff (a : A) (text) :
    Fills allowed (some a :: pattern) text ↔ ∃ tail, text = a :: tail ∧ Fills allowed pattern tail := by
  constructor
  · rintro ⟨⟩
    exact ⟨_, rfl, ‹_›⟩
  · rintro ⟨tail, rfl, rest⟩
    exact .letter rest

theorem wildcard_iff (text) :
    Fills allowed (none :: pattern) text ↔
      ∃ run tail, text = run ++ tail ∧ (∀ a ∈ run, allowed a) ∧ Fills allowed pattern tail := by
  constructor
  · rintro ⟨⟩
    exact ⟨_, _, rfl, ‹_›, ‹_›⟩
  · rintro ⟨run, tail, rfl, fits, rest⟩
    exact .wildcard run fits rest

theorem letters_iff (letters text) : Fills allowed (letters.map some) text ↔ text = letters := by
  induction letters generalizing text with
  | nil => exact nil_iff
  | cons a letters ih =>
    rw [map_cons, letter_iff]
    constructor
    · rintro ⟨tail, rfl, rest⟩
      rw [(ih tail).mp rest]
    · rintro rfl
      exact ⟨letters, rfl, (ih letters).mpr rfl⟩

theorem append_iff (letters text) :
    Fills allowed (letters.map some ++ pattern) text ↔
      ∃ tail, text = letters ++ tail ∧ Fills allowed pattern tail := by
  induction letters generalizing text with
  | nil => simp
  | cons a letters ih =>
    rw [map_cons, cons_append, letter_iff]
    constructor
    · rintro ⟨tail, rfl, rest⟩
      obtain ⟨tail', same, inner⟩ := (ih tail).mp rest
      exact ⟨tail', congrArg (a :: ·) same, inner⟩
    · rintro ⟨tail, rfl, rest⟩
      exact ⟨letters ++ tail, rfl, (ih _).mpr ⟨tail, rfl, rest⟩⟩

/-! ### Letters that may not stand in a run -/

theorem count_le (special) (fills : FillsFreely pattern text) :
    pattern.reduceOption.countP special ≤ text.countP special := by
  induction fills with
  | done => exact Nat.le_refl _
  | letter _ ih =>
    simp only [reduceOption_cons_of_some, countP_cons]
    omega
  | wildcard run _ _ ih =>
    rw [reduceOption_cons_of_none, countP_append]
    omega

/-- Runs without special letters are exactly those of a text with no more of them than the
pattern. -/
theorem without_iff (fills : FillsFreely pattern text) :
    Fills (fun a => special a = false) pattern text ↔
      text.countP special ≤ pattern.reduceOption.countP special := by
  constructor
  · intro strict
    clear fills
    induction strict with
    | done => exact Nat.le_refl _
    | letter _ ih =>
      simp only [reduceOption_cons_of_some, countP_cons]
      omega
    | wildcard run fits _ ih =>
      have none_ : run.countP special = 0 := by
        rw [countP_eq_zero]
        intro a mem
        simp [fits a mem]
      rw [reduceOption_cons_of_none, countP_append]
      omega
  · intro few
    induction fills with
    | done => exact .done
    | letter _ ih =>
      simp only [reduceOption_cons_of_some, countP_cons] at few
      exact .letter (ih (by omega))
    | wildcard run _ rest ih =>
      -- the rest already has as many as its pattern, so none are left for the run
      have least := count_le special rest
      rw [reduceOption_cons_of_none, countP_append] at few
      have none_ : run.countP special = 0 := by omega
      rw [countP_eq_zero] at none_
      exact .wildcard run (fun a mem => by simpa using none_ a mem)
        (ih (by omega))

end Fills
end Lib
