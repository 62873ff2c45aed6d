import GitWarp.Crdt.Dot
import GitWarp.Js.Digits
import Mathlib.Data.List.Induction

/-!
# Encoded dots

`parseInt` reads a counter from more texts than the ones that counters are written as.
-/
namespace GitWarp

open Js List

/-- A positive number in decimal digits, none of them in vain. -/
structure IsCounterText (text : JsString) : Prop where
  nonempty : text ≠ []
  solid : text.head? ≠ some 48
  digits : ∀ u ∈ text, isDigitUnit u = true

theorem isCounterText_decimalText (positive : 0 < n) : IsCounterText (decimalText n) := by
  obtain ⟨u, rest, shape, low, -⟩ := head_decimalText_pos positive
  refine ⟨by simp [shape], ?_, fun v mem => ?_⟩
  · rw [shape, head?_cons]
    rintro ⟨⟩
    exact absurd low (by decide)
  · simpa [isDigitUnit] using digit_of_mem_decimalText mem

theorem decimalText_digit : ∀ d < 10, decimalText d = [Fin.ofNat 65536 (48 + d)] := by decide

theorem IsCounterText.decimalText_value (written : IsCounterText text) :
    decimalText (digitsValue text) = text ∧ 0 < digitsValue text := by
  induction text using reverseRecOn with
  | nil => exact absurd rfl written.nonempty
  | append_singleton before u ih =>
    have digit := written.digits u mem_concat_self
    simp only [isDigitUnit, decide_eq_true_eq] at digit
    have last : Fin.ofNat 65536 (48 + (u.val - 48)) = u := by
      apply Fin.ext
      show (48 + (u.val - 48)) % 65536 = u.val
      omega
    have value : digitsValue (before ++ [u]) = 10 * digitsValue before + (u.val - 48) := by
      simp [digitsValue]
    rw [value]
    cases before with
    | nil =>
      have leading : u.val ≠ 48 := fun zero => written.solid (congrArg some (Fin.ext zero))
      rw [show digitsValue [] = 0 from rfl, Nat.mul_zero, Nat.zero_add,
        decimalText_digit _ (by omega), last]
      exact ⟨rfl, by omega⟩
    | cons v rest =>
      obtain ⟨text, positive⟩ := ih ⟨by simp, written.solid, fun w mem =>
        written.digits w (mem_append_left _ mem)⟩
      refine ⟨?_, by omega⟩
      have tens : (10 * digitsValue (v :: rest) + (u.val - 48)) / 10 = digitsValue (v :: rest) := by
        omega
      have ones : (10 * digitsValue (v :: rest) + (u.val - 48)) % 10 = u.val - 48 := by omega
      have single := decimalText_digit (u.val - 48) (by omega)
      rw [decimalText, Nat.toDigits_of_lt_base (by omega), map_singleton, last] at single
      rw [decimalText, Nat.toDigits_of_base_le (by omega) (by omega), map_append, ← decimalText,
        tens, ones, text, map_singleton, single]

namespace Dot

theorem lastIndexOf_spec {encoded i} (found : lastIndexOf u encoded = some i) :
    encoded = encoded.take i ++ u :: encoded.drop (i + 1) ∧ u ∉ encoded.drop (i + 1) := by
  induction encoded generalizing i with
  | nil => cases found
  | cons v rest ih =>
    cases later : lastIndexOf u rest with
    | some j =>
      simp only [lastIndexOf, later, Option.some.injEq] at found
      subst found
      obtain ⟨split, absent⟩ := ih later
      exact ⟨congrArg (v :: ·) split, absent⟩
    | none =>
      by_cases here : v = u
      · simp only [lastIndexOf, later, here, if_true, Option.some.injEq] at found
        subst found
        refine ⟨by simp [here], fun mem => ?_⟩
        obtain ⟨before, after, split, absent⟩ := eq_append_cons_of_mem (mem_reverse.mpr mem)
        have whole : rest = after.reverse ++ u :: before.reverse := by
          simpa using congrArg reverse split
        rw [whole, lastIndexOf_append_cons _ (by simpa using absent)] at later
        cases later
      · simp [lastIndexOf, later, here] at found

/-- A text is decoded where a writer's name, a colon and a text that starts with a positive
number follow each other. -/
theorem decode_ok_iff {dot} :
    decode encoded = .ok dot ↔ ∃ text, encoded = dot.writerId ++ colon :: text ∧
    colon ∉ text ∧ parseInt text = some (dot.counter : Int) := by
  constructor
  · intro decoded
    unfold decode at decoded
    split at decoded
    next => cases decoded
    next i found =>
      obtain ⟨whole, absent⟩ := lastIndexOf_spec found
      dsimp only at decoded
      split at decoded
      next => cases decoded
      next named =>
        split at decoded
        next => cases decoded
        next counter parsed =>
          split at decoded
          next => cases decoded
          next positive =>
            rw [create, dif_neg named, dif_neg positive] at decoded
            cases decoded
            refine ⟨_, whole, absent, ?_⟩
            rw [parsed, Int.toNat_of_nonneg (by omega)]
  · rintro ⟨text, rfl, absent, parsed⟩
    simp [decode, lastIndexOf_append_cons dot.writerId absent, dot.named, parsed, create,
      Nat.ne_of_gt dot.positive]

/-- What stands after the last colon. -/
def counterStr (encoded : JsString) : JsString := (encoded.reverse.takeWhile (· ≠ colon)).reverse

theorem counterStr_append (writerId) {text} (absent : colon ∉ text) :
    counterStr (writerId ++ colon :: text) = text := by
  have free : ∀ u ∈ text.reverse, decide (u ≠ colon) = true := by
    intro u mem
    rw [decide_eq_true_eq]
    rintro rfl
    exact absent (mem_reverse.mp mem)
  simp only [counterStr, reverse_append, reverse_cons, append_assoc, takeWhile_append_of_pos free]
  simp

theorem parseInt_exponentText (n) (positive : 0 < n) :
    ∃ d : Nat, d < 10 ∧ parseInt (exponentText n) = some (d : Int) := by
  obtain ⟨u, rest, shape, low, high⟩ := head_decimalText_pos positive
  obtain ⟨v, tail, text, mark⟩ :
      ∃ v tail, exponentText n = u :: v :: tail ∧ isDigitUnit v = false := by
    unfold exponentText
    simp only [shape, take_succ_cons, take_zero]
    split
    · exact ⟨_, _, rfl, by decide⟩
    · exact ⟨_, _, rfl, by decide⟩
  refine ⟨u.val - 48, by omega, ?_⟩
  rw [text, parseInt_of_head u low high, takeWhile_cons_of_neg (by simp [mark])]
  simp [digitsValue]

/-- A dot comes back from its encoding exactly below 10²¹, where numbers are written in
digits, and a decoded text is the encoding exactly where its counter is written as numbers
are. Numbers are exact up to the greatest safe integer. -/
theorem codec_exact (dot : Dot) :
    (decode dot.encode = .ok dot ↔ dot.counter < 10 ^ 21) ∧
      ∀ encoded, decode encoded = .ok dot → dot.counter ≤ maxSafeInteger →
        (dot.encode = encoded ↔ IsCounterText (counterStr encoded)) := by
  constructor
  · rw [decode_ok_iff]
    constructor
    · rintro ⟨text, same, -, parsed⟩
      have written : numberText dot.counter = text := (cons.inj (append_cancel_left same)).2
      by_contra large
      obtain ⟨d, small, read⟩ := parseInt_exponentText dot.counter dot.positive
      rw [← written, numberText, if_neg large, read] at parsed
      have := Int.ofNat.inj (Option.some.inj parsed)
      omega
    · intro small
      refine ⟨_, rfl, colon_not_mem_numberText _, ?_⟩
      rw [numberText, if_pos small, parseInt_decimalText]
  · intro encoded decoded safe
    obtain ⟨text, rfl, absent, parsed⟩ := decode_ok_iff.mp decoded
    have small : dot.counter < 10 ^ 21 := Nat.lt_of_le_of_lt safe (by decide)
    rw [counterStr_append _ absent, encode, numberText, if_pos small]
    constructor
    · intro same
      rw [← (cons.inj (append_cancel_left same)).2]
      exact isCounterText_decimalText dot.positive
    · intro written
      have read : parseInt text = some (digitsValue text : Int) := by
        rw [← written.decimalText_value.1, parseInt_decimalText, written.decimalText_value.1]
      rw [read] at parsed
      rw [← Int.ofNat.inj (Option.some.inj parsed), written.decimalText_value.1]

/-- Two texts that are told apart in a set of encoded dots and denote one dot. -/
theorem two_encodings : ∃ dot, decode (lit "w:1") = .ok dot ∧ decode (lit "w:01") = .ok dot ∧
    dot.encode ≠ lit "w:01" :=
  ⟨⟨lit "w", 1, w_named, Nat.one_pos⟩, rfl, rfl, by decide⟩

end Dot
end GitWarp
