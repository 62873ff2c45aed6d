import Mathlib.Data.List.TakeWhile
import GitWarp.Js.Text

/-!
# Reading decimal digits back

The digits that a number is written with give the number back when they are
parsed.
-/
namespace GitWarp

open Js List

theorem digitsValue_decimalText (n) : digitsValue (decimalText n) = n := by
  have back : ∀ (digits : List Char) (acc : Nat), (∀ c ∈ digits, c.toNat ≤ 57) →
      (digits.map digitUnit).foldl (fun acc u => 10 * acc + (u.val - 48)) acc =
        Nat.ofDigitChars 10 digits acc := by
    intro digits
    induction digits with
    | nil => exact fun acc _ => rfl
    | cons c rest ih =>
      intro acc small
      have here := small c mem_cons_self
      have value : (digitUnit c).val = c.toNat := by
        exact Nat.mod_eq_of_lt (by omega)
      rw [map_cons, foldl_cons, value, Nat.ofDigitChars_cons,
        ih _ fun c' mem => small c' (mem_cons_of_mem c mem)]
      rfl
  have small : ∀ c ∈ Nat.toDigits 10 n, c.toNat ≤ 57 := by
    intro c digit
    have isDigit := Nat.isDigit_of_mem_toDigits (by omega) (by omega) digit
    simp only [Char.isDigit, Bool.and_eq_true, decide_eq_true_eq] at isDigit
    exact isDigit.2
  rw [digitsValue, decimalText, back _ 0 small, Nat.ofDigitChars_ten_toDigits]

/-- No digit is skipped or taken for a sign. -/
theorem parseInt_decimalText (n) : parseInt (decimalText n) = some (n : Int) := by
  obtain ⟨u, rest, shape⟩ : ∃ u rest, decimalText n = u :: rest := by
    cases n with
    | zero => exact ⟨_, _, rfl⟩
    | succ m =>
      obtain ⟨u, rest, shape, -⟩ := head_decimalText_pos (Nat.succ_pos m)
      exact ⟨u, rest, shape⟩
  have digits : ∀ v ∈ u :: rest, 48 ≤ v.val ∧ v.val ≤ 57 := by
    intro v mem
    exact digit_of_mem_decimalText (shape ▸ mem)
  obtain ⟨low, high⟩ := digits u mem_cons_self
  have solid : isWhiteSpaceUnit u = false := by
    simp only [isWhiteSpaceUnit, decide_eq_false_iff_not]
    omega
  have whole : (u :: rest).takeWhile isDigitUnit = u :: rest := by
    apply takeWhile_eq_self_iff.mpr
    intro v mem
    simpa [isDigitUnit] using digits v mem
  have value := digitsValue_decimalText n
  rw [shape] at value ⊢
  rw [parseInt, dropWhile_cons_of_neg (by simp [solid])]
  dsimp only
  rw [if_neg (by omega), if_neg (by omega), parseDigits, whole]
  simp [value]

end GitWarp
