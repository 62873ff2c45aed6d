import GitWarp.Js.Text

/-!
# Reading JSON texts back

The JSON text of a string tells the string: a reader takes the escapes apart again
and stops at the closing quote. So texts of lists of strings differ when the lists
do, whatever quotes, backslashes or lone surrogates the strings contain.
-/
namespace GitWarp

open List
namespace Js

/-! ### A reader of strings -/

def quoteUnit : CodeUnit := 0x22

def backslashUnit : CodeUnit := 0x5C

def hexDigitValue (u : CodeUnit) : Nat := if u.val ≤ 57 then u.val - 48 else u.val - 87

/-- The code unit of an escape of one letter. -/
def unescape (u : CodeUnit) : CodeUnit :=
  if u.val = 0x62 then 8
  else if u.val = 0x74 then 9
  else if u.val = 0x6E then 10
  else if u.val = 0x66 then 12
  else if u.val = 0x72 then 13
  else u

def hexUnit (digits : JsString) : CodeUnit :=
  Fin.ofNat 65536 (digits.foldl (fun n u => 16 * n + hexDigitValue u) 0)

/-- Reads the units of a string up to its closing quote. -/
def readUnits : JsString → Option (JsString × JsString)
  | [] => none
  | u :: rest =>
    if u = quoteUnit then some ([], rest)
    else if u = backslashUnit then
      match rest with
      | [] => none
      | v :: rest =>
        if v.val = 0x75 then (readUnits (rest.drop 4)).map fun read =>
          (hexUnit (rest.take 4) :: read.1, read.2)
        else (readUnits rest).map fun read => (unescape v :: read.1, read.2)
    else (readUnits rest).map fun read => (u :: read.1, read.2)
  termination_by text => text.length
  decreasing_by all_goals simp; try omega

theorem readUnits_quote {rest : JsString} : readUnits (quoteUnit :: rest) = some ([], rest) := by
  rw [readUnits.eq_def]
  exact if_pos rfl

/-! ### Escapes -/

theorem toDigits_sixteen (small : n < 65536) :
    List.replicate (4 - ((Nat.toDigits 16 n).map digitUnit).length) (digitUnit '0') ++
        (Nat.toDigits 16 n).map digitUnit =
      [digitUnit (n / 4096).digitChar, digitUnit (n / 256 % 16).digitChar,
        digitUnit (n / 16 % 16).digitChar, digitUnit (n % 16).digitChar] := by
  by_cases one : n < 16
  · have quotients : n / 4096 = 0 ∧ n / 256 = 0 ∧ n / 16 = 0 ∧ n % 16 = n := by omega
    rw [Nat.toDigits_of_lt_base one, quotients.1, quotients.2.1, quotients.2.2.1, quotients.2.2.2]
    rfl
  · rw [Nat.toDigits_of_base_le (by decide) (by omega)]
    by_cases two : n < 256
    · have quotients : n / 4096 = 0 ∧ n / 256 = 0 ∧ n / 16 % 16 = n / 16 := by omega
      rw [Nat.toDigits_of_lt_base (by omega), quotients.1, quotients.2.1, quotients.2.2]
      rfl
    · rw [Nat.toDigits_of_base_le (b := 16) (n := n / 16) (by decide) (by omega)]
      by_cases three : n < 4096
      · have quotients : n / 4096 = 0 ∧ n / 16 / 16 = n / 256 ∧ n / 256 % 16 = n / 256 := by omega
        rw [Nat.toDigits_of_lt_base (by omega), quotients.1, quotients.2.1, quotients.2.2]
        rfl
      · have quotients : n / 16 / 16 / 16 = n / 4096 ∧ n / 16 / 16 = n / 256 := by omega
        rw [Nat.toDigits_of_base_le (b := 16) (n := n / 16 / 16) (by decide) (by omega),
          Nat.toDigits_of_lt_base (by omega), quotients.1, quotients.2]
        rfl

theorem hexDigitValue_digitChar : ∀ d < 16, hexDigitValue (digitUnit d.digitChar) = d := by decide

theorem readUnits_unicodeEscape (u) :
    readUnits (unicodeEscape u ++ rest) =
      (readUnits rest).map fun read => (u :: read.1, read.2) := by
  -- a unicode escape is read back
  have shape : unicodeEscape u = backslashUnit :: Fin.ofNat 65536 0x75 ::
      [digitUnit (u.val / 4096).digitChar, digitUnit (u.val / 256 % 16).digitChar,
        digitUnit (u.val / 16 % 16).digitChar, digitUnit (u.val % 16).digitChar] := by
    rw [← toDigits_sixteen u.isLt]
    rfl
  have small : u.val / 4096 < 16 := by omega
  have value : hexUnit [digitUnit (u.val / 4096).digitChar,
      digitUnit (u.val / 256 % 16).digitChar, digitUnit (u.val / 16 % 16).digitChar,
      digitUnit (u.val % 16).digitChar] = u := by
    simp only [hexUnit, foldl_cons, foldl_nil, hexDigitValue_digitChar _ small,
      hexDigitValue_digitChar _ (Nat.mod_lt _ (by decide : 0 < 16))]
    have digits : 16 * (16 * (16 * (16 * 0 + u.val / 4096) + u.val / 256 % 16) +
        u.val / 16 % 16) + u.val % 16 = u.val := by omega
    rw [digits]
    exact Fin.ext (Nat.mod_eq_of_lt u.isLt)
  rw [shape]
  simp only [cons_append, nil_append]
  rw [readUnits, if_neg (by decide), if_pos rfl]
  simp only [take_succ_cons, take_zero, drop_succ_cons, drop_zero, value]
  rfl

theorem readUnits_escape {rest : JsString} (plain : v.val ≠ 0x75) :
    readUnits (backslashUnit :: v :: rest) =
      (readUnits rest).map fun read => (unescape v :: read.1, read.2) := by
  rw [readUnits, if_neg (by decide), if_pos rfl, if_neg plain]

theorem readUnits_plain {rest : JsString} (noQuote : u ≠ quoteUnit)
    (noBackslash : u ≠ backslashUnit) :
    readUnits (u :: rest) = (readUnits rest).map fun read => (u :: read.1, read.2) := by
  rw [readUnits.eq_def]
  simp only []
  rw [if_neg noQuote, if_neg noBackslash]

theorem readUnits_jsonUnit (rest) :
    readUnits (jsonUnit u ++ rest) = (readUnits rest).map fun read => (u :: read.1, read.2) := by
  have escape : ∀ (letter : CodeUnit) (value : Nat), u.val = value → letter.val ≠ 0x75 →
      unescape letter = Fin.ofNat 65536 value →
      readUnits (backslashUnit :: letter :: rest) =
        (readUnits rest).map fun read => (u :: read.1, read.2) := by
    intro letter value here plain back
    have same : unescape letter = u := by
      rw [back, ← here]
      exact Fin.ext (Nat.mod_eq_of_lt u.isLt)
    rw [readUnits_escape plain, same]
  unfold jsonUnit
  split
  next here => exact escape 0x22 0x22 here (by decide) (by decide)
  next noQuote =>
    split
    next here => exact escape 0x5C 0x5C here (by decide) (by decide)
    next noBackslash =>
      split
      next here => exact escape 0x62 8 here (by decide) (by decide)
      · split
        next here => exact escape 0x74 9 here (by decide) (by decide)
        · split
          next here => exact escape 0x6E 10 here (by decide) (by decide)
          · split
            next here => exact escape 0x66 12 here (by decide) (by decide)
            · split
              next here => exact escape 0x72 13 here (by decide) (by decide)
              · split
                · exact readUnits_unicodeEscape u
                · exact readUnits_plain (fun same => noQuote (congrArg Fin.val same))
                    (fun same => noBackslash (congrArg Fin.val same))

theorem readUnits_jsonUnits (text rest : JsString) :
    readUnits (jsonUnits text ++ quoteUnit :: rest) = some (text, rest) := by
  -- units up to the closing quote are read back, and reading stops there
  fun_induction jsonUnits text with
  | case1 => exact readUnits_quote
  | case2 u =>
    rw [readUnits_jsonUnit, readUnits_quote]
    rfl
  | case3 u v rest' pair ih =>
    -- both halves of a pair are above every unit that is escaped
    simp only [Bool.and_eq_true, isHighSurrogate, isLowSurrogate, decide_eq_true_eq] at pair
    have apart : ∀ w : CodeUnit, w.val ≤ 0x5C → u ≠ w ∧ v ≠ w := by
      intro w low
      constructor
      · rintro rfl
        omega
      · rintro rfl
        omega
    rw [cons_append, cons_append,
      readUnits_plain (apart quoteUnit (by decide)).1 (apart backslashUnit (by decide)).1,
      readUnits_plain (apart quoteUnit (by decide)).2 (apart backslashUnit (by decide)).2, ih]
    rfl
  | case4 u v rest' single ih =>
    rw [append_assoc, readUnits_jsonUnit, ih]
    rfl

theorem jsonString_append_inj (same : jsonString a ++ r = jsonString b ++ r') : a = b ∧ r = r' := by
  have shape : ∀ text rest : JsString, jsonString text ++ rest =
      quoteUnit :: (jsonUnits text ++ quoteUnit :: rest) := by
    intro text rest
    have quote : lit "\"" = [quoteUnit] := rfl
    simp [jsonString, quote]
  rw [shape, shape] at same
  have read := congrArg readUnits (List.cons.inj same).2
  rw [readUnits_jsonUnits, readUnits_jsonUnits] at read
  exact Prod.mk.inj (Option.some.inj read)

/-! ### Lists of strings -/

def commaUnit : CodeUnit := 0x2C

/-- The inside of the JSON array of some strings. -/
def jsonStrings (texts : List JsString) : JsString := join commaUnit (texts.map jsonString)

theorem jsonStrings_cons (a) (texts) (rest : JsString) :
    jsonStrings (a :: texts) ++ rest = jsonString a ++
      (if texts = [] then rest else commaUnit :: (jsonStrings texts ++ rest)) := by
  cases texts with
  | nil => rfl
  | cons b texts => simp [jsonStrings, join]

/-- The inside of an array up to a closing bracket tells the strings. -/
theorem jsonStrings_inj (texts texts') {rest : JsString} (noComma : close ≠ commaUnit)
    (noQuote : close ≠ quoteUnit)
    (same : jsonStrings texts ++ close :: rest = jsonStrings texts' ++ close :: rest) :
    texts = texts' := by
  have starts : ∀ a (tail : JsString), ∃ more, jsonString a ++ tail = quoteUnit :: more :=
    fun a tail => ⟨_, rfl⟩
  induction texts generalizing texts' with
  | nil =>
    cases texts' with
    | nil => rfl
    | cons b others =>
      rw [jsonStrings_cons] at same
      obtain ⟨more, quoted⟩ := starts b (if others = [] then close :: rest
        else commaUnit :: (jsonStrings others ++ close :: rest))
      exact absurd (List.cons.inj same).1 noQuote
  | cons a texts ih =>
    cases texts' with
    | nil =>
      rw [jsonStrings_cons] at same
      obtain ⟨more, quoted⟩ := starts a (if texts = [] then close :: rest
        else commaUnit :: (jsonStrings texts ++ close :: rest))
      exact absurd (List.cons.inj same).1.symm noQuote
    | cons b others =>
      rw [jsonStrings_cons, jsonStrings_cons] at same
      obtain ⟨rfl, tails⟩ := jsonString_append_inj same
      -- after the first string either both arrays end or both go on
      by_cases last : texts = [] <;> by_cases last' : others = []
      · rw [last, last']
      · rw [if_pos last, if_neg last'] at tails
        exact absurd (List.cons.inj tails).1 noComma
      · rw [if_neg last, if_pos last'] at tails
        exact absurd (List.cons.inj tails).1.symm noComma
      · rw [if_neg last, if_neg last'] at tails
        rw [ih others (List.cons.inj tails).2]

end Js
end GitWarp
