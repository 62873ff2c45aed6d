import Mathlib.Data.List.Lex
import Mathlib.Data.Fin.Basic
import Mathlib.Algebra.GroupWithZero.Nat
import GitWarp.Lib.FixedWidth

/-!
# Strings, numbers and errors of the host language

Strings are sequences of UTF-16 code units. Counters are natural numbers; their
text switches to exponent notation at `10 ^ 21`. An error keeps its class, its
message and its code.
-/
namespace GitWarp

open List

abbrev CodeUnit := Fin 65536

/-- A string of the program; its order is the lexicographic order of code units. -/
abbrev JsString := List CodeUnit

instance lawfulCodeUnit : LawfulBEq CodeUnit := inferInstance

instance lawfulJsString : LawfulBEq JsString := inferInstance

namespace Js

def charUnits (c : Char) : JsString :=
  if c.toNat < 65536 then [Fin.ofNat 65536 c.toNat]
  else
    [Fin.ofNat 65536 (0xD800 + (c.toNat - 65536) / 1024),
      Fin.ofNat 65536 (0xDC00 + (c.toNat - 65536) % 1024)]

/-- A string literal of the program text. -/
def lit (s : String) : JsString := s.toList.flatMap charUnits

/-! ### Numbers -/

theorem toNat_pos {n : Int} (above : ¬n ≤ 0) : 0 < n.toNat := by omega

def digitUnit (c : Char) : CodeUnit := Fin.ofNat 65536 c.toNat

def isDigitUnit (u : CodeUnit) : Bool := decide (48 ≤ u.val ∧ u.val ≤ 57)

def decimalText (n : Nat) : JsString := (Nat.toDigits 10 n).map digitUnit

/-- Decimal digits, then `e+` and the exponent, with the trailing zeros dropped. -/
def exponentText (n : Nat) : JsString :=
  let digits := decimalText n
  let mantissa := (digits.reverse.dropWhile (· = digitUnit '0')).reverse
  let fraction := mantissa.drop 1
  digits.take 1 ++ (if fraction = [] then [] else lit "." ++ fraction) ++ lit "e+" ++
    decimalText (digits.length - 1)

/-- `String(n)` for a non-negative integer. -/
def numberText (n : Nat) : JsString :=
  if n < 10 ^ 21 then decimalText n else exponentText n

def digitsValue (digits : JsString) : Nat := digits.foldl (fun acc u => 10 * acc + (u.val - 48)) 0

/-- The characters that `parseInt` skips at the start of its input. -/
def isWhiteSpaceUnit (u : CodeUnit) : Bool :=
  decide ((9 ≤ u.val ∧ u.val ≤ 13) ∨ u.val = 32 ∨ u.val = 0xA0 ∨ u.val = 0x1680 ∨
    (0x2000 ≤ u.val ∧ u.val ≤ 0x200A) ∨ u.val = 0x2028 ∨ u.val = 0x2029 ∨ u.val = 0x202F ∨
    u.val = 0x205F ∨ u.val = 0x3000 ∨ u.val = 0xFEFF)

/-- The longest run of leading digits, or `none` where there is no digit at all. -/
def parseDigits (text : JsString) : Option Nat :=
  match text.takeWhile isDigitUnit with
  | [] => none
  | digits => some (digitsValue digits)

/-- `parseInt(text, 10)`; `none` is `NaN`. -/
def parseInt (text : JsString) : Option Int :=
  match text.dropWhile isWhiteSpaceUnit with
  | [] => none
  | u :: rest =>
    if u.val = 45 then (parseDigits rest).map fun n => -(n : Int)
    else if u.val = 43 then (parseDigits rest).map fun n => (n : Int)
    else (parseDigits (u :: rest)).map fun n => (n : Int)

/-- `text.lastIndexOf(unit)`; `none` is `-1`. -/
def lastIndexOf (u : CodeUnit) : JsString → Option Nat
  | [] => none
  | head :: rest =>
    match lastIndexOf u rest with
    | some i => some (i + 1)
    | none => if head = u then some 0 else none

/-- `text.split(separator)` for a separator of one code unit. -/
def split (separator : CodeUnit) : JsString → List JsString
  | [] => [[]]
  | u :: rest =>
    match split separator rest with
    | [] => [[]]
    | part :: parts => if u = separator then [] :: part :: parts else (u :: part) :: parts

/-- `parts.join(separator)` for a separator of one code unit. -/
def join (separator : CodeUnit) : List JsString → JsString
  | [] => []
  | [part] => part
  | part :: next :: rest => part ++ separator :: join separator (next :: rest)

def includes (part : JsString) : JsString → Bool
  | [] => part.isEmpty
  | u :: rest => part.isPrefixOf (u :: rest) || includes part rest

/-! ### JSON -/

def isHighSurrogate (u : CodeUnit) : Bool := decide (0xD800 ≤ u.val ∧ u.val ≤ 0xDBFF)

def isLowSurrogate (u : CodeUnit) : Bool := decide (0xDC00 ≤ u.val ∧ u.val ≤ 0xDFFF)

/-- Four lowercase hexadecimal digits after a backslash and `u`. -/
def unicodeEscape (u : CodeUnit) : JsString :=
  let digits := (Nat.toDigits 16 u.val).map digitUnit
  lit "\\u" ++ List.replicate (4 - digits.length) (digitUnit '0') ++ digits

/-- The text of one code unit that is not half of a surrogate pair. -/
def jsonUnit (u : CodeUnit) : JsString :=
  if u.val = 0x22 then lit "\\\""
  else if u.val = 0x5C then lit "\\\\"
  else if u.val = 8 then lit "\\b"
  else if u.val = 9 then lit "\\t"
  else if u.val = 10 then lit "\\n"
  else if u.val = 12 then lit "\\f"
  else if u.val = 13 then lit "\\r"
  else if u.val < 0x20 || isHighSurrogate u || isLowSurrogate u then unicodeEscape u
  else [u]

def jsonUnits : JsString → JsString
  | [] => []
  | [u] => jsonUnit u
  | u :: v :: rest =>
    if isHighSurrogate u && isLowSurrogate v then u :: v :: jsonUnits rest
    else jsonUnit u ++ jsonUnits (v :: rest)

/-- `JSON.stringify` of a string. -/
def jsonString (text : JsString) : JsString := lit "\"" ++ jsonUnits text ++ lit "\""

/-! ### Lemmas -/

theorem digitUnit_digitChar_pos :
    ∀ d < 10, 0 < d → 48 < (digitUnit d.digitChar).val ∧ (digitUnit d.digitChar).val ≤ 57 := by
  decide

theorem head_decimalText_pos (positive : 0 < n) :
    ∃ u rest, decimalText n = u :: rest ∧ 48 < u.val ∧ u.val ≤ 57 := by
  induction n using Nat.strongRecOn with
  | ind n ih =>
    by_cases small : n < 10
    · refine ⟨digitUnit n.digitChar, [], ?_, ?_⟩
      · rw [decimalText, Nat.toDigits_of_lt_base small, map_cons, map_nil]
      · exact digitUnit_digitChar_pos n small positive
    · obtain ⟨u, rest, shape, bounds⟩ := ih (n / 10) (by omega) (by omega)
      refine ⟨u, rest ++ [digitUnit (n % 10).digitChar], ?_, bounds⟩
      rw [decimalText, Nat.toDigits_of_base_le (by omega) (by omega), map_append,
        ← decimalText, shape]
      rfl

theorem parseInt_of_head (u) {rest : JsString} (low : 48 < u.val) (high : u.val ≤ 57) :
    parseInt (u :: rest) =
      some (digitsValue (u :: rest.takeWhile isDigitUnit) : Int) := by
  have digit : isDigitUnit u = true := by simp [isDigitUnit]; omega
  have solid : isWhiteSpaceUnit u = false := by
    simp only [isWhiteSpaceUnit, decide_eq_false_iff_not]
    omega
  have unsigned : u.val ≠ 45 ∧ u.val ≠ 43 := by omega
  simp [parseInt, solid, unsigned, parseDigits, digit]

theorem digitsValue_pos (u) (rest : JsString) (low : 48 < u.val) : 0 < digitsValue (u :: rest) := by
  have grows : ∀ (digits : JsString) (acc : Nat), acc ≤
      digits.foldl (fun acc u => 10 * acc + (u.val - 48)) acc := by
    intro digits
    induction digits with
    | nil => exact fun acc => Nat.le_refl acc
    | cons v digits ih =>
      intro acc
      exact Nat.le_trans (by omega) (ih (10 * acc + (v.val - 48)))
  have bound := grows rest (10 * 0 + (u.val - 48))
  simp only [digitsValue, foldl_cons] at *
  omega

theorem parseInt_numberText_pos (positive : 0 < n) :
    ∃ m : Nat, 0 < m ∧ parseInt (numberText n) = some (m : Int) := by
  obtain ⟨u, rest, shape, low, high⟩ := head_decimalText_pos positive
  have starts : ∃ tail, numberText n = u :: tail := by
    unfold numberText
    split
    · exact ⟨rest, shape⟩
    · simp only [exponentText, shape, take_succ_cons, take_zero, append_assoc, cons_append]
      exact ⟨_, rfl⟩
  obtain ⟨tail, text⟩ := starts
  exact ⟨_, digitsValue_pos u _ low, by rw [text, parseInt_of_head u low high]⟩

theorem digit_of_mem_decimalText (mem : u ∈ decimalText n) : 48 ≤ u.val ∧ u.val ≤ 57 := by
  obtain ⟨c, digit, rfl⟩ := mem_map.mp mem
  have isDigit := Nat.isDigit_of_mem_toDigits (by omega) (by omega) digit
  simp only [Char.isDigit, Bool.and_eq_true, decide_eq_true_eq] at isDigit
  have low : 48 ≤ c.toNat := isDigit.1
  have high : c.toNat ≤ 57 := isDigit.2
  have small : c.toNat % 65536 = c.toNat := Nat.mod_eq_of_lt (by omega)
  simp only [digitUnit, Fin.ofNat, small]
  exact ⟨low, high⟩

theorem decimalText_injective : Function.Injective decimalText := by
  intro m n same
  -- the characters can be read off the code units
  have back : ∀ k, (decimalText k).map (fun u => Char.ofNat u.val) = Nat.toDigits 10 k := by
    intro k
    rw [decimalText, map_map]
    conv_rhs => rw [← map_id (Nat.toDigits 10 k)]
    apply map_congr_left
    intro c digit
    have isDigit := Nat.isDigit_of_mem_toDigits (by omega) (by omega) digit
    simp only [Char.isDigit, Bool.and_eq_true, decide_eq_true_eq] at isDigit
    have high : c.toNat ≤ 57 := isDigit.2
    have small : c.toNat % 65536 = c.toNat := Nat.mod_eq_of_lt (by omega)
    simp only [Function.comp_apply, digitUnit, Fin.ofNat, small, id_eq]
    exact Char.ofNat_toNat c
  have digits := back m
  rw [same, back n] at digits
  rw [← Nat.ofDigitChars_ten_toDigits (n := m), ← digits, Nat.ofDigitChars_ten_toDigits]

theorem split_of_not_mem (absent : separator ∉ text) : split separator text = [text] := by
  induction text with
  | nil => rfl
  | cons u rest ih =>
    simp only [mem_cons, not_or] at absent
    simp [split, ih absent.2, Ne.symm absent.1]

theorem split_ne_nil (separator text) : split separator text ≠ [] := by
  cases text with
  | nil => simp [split]
  | cons u rest =>
    simp only [split]
    split
    · simp
    · split <;> simp

theorem split_append (text after : JsString) :
    split separator (text ++ separator :: after) = split separator text ++ split separator after := by
  induction text with
  | nil =>
    obtain ⟨part, parts, shape⟩ := exists_cons_of_ne_nil (split_ne_nil separator after)
    simp [split, shape]
  | cons u rest ih =>
    obtain ⟨part, parts, shape⟩ := exists_cons_of_ne_nil (split_ne_nil separator rest)
    rw [cons_append, split, split, ih, shape]
    simp only [cons_append]
    split <;> rfl

theorem split_append_cons (after : JsString) (absent : separator ∉ text) :
    split separator (text ++ separator :: after) = text :: split separator after := by
  rw [split_append, split_of_not_mem absent]
  rfl

theorem split_join (some_ : parts ≠ []) (absent : ∀ part ∈ parts, separator ∉ part) :
    split separator (join separator parts) = parts := by
  fun_induction join separator parts with
  | case1 => exact absurd rfl some_
  | case2 part => exact split_of_not_mem (absent part mem_cons_self)
  | case3 part next rest ih =>
    rw [split_append_cons _ (absent part mem_cons_self),
      ih (cons_ne_nil _ _) (forall_mem_cons.mp absent).2]

end Js

/-- The key that an object literal never gets as a property by assignment. -/
def protoKey : JsString := Js.lit "__proto__"

/-- `Number.MAX_SAFE_INTEGER`. -/
def maxSafeInteger : Nat := 9007199254740991

/-! ### Errors -/

/-- The error classes that the modelled code throws. -/
inductive ErrorClass
  | crdtError | patchError | warpError | orSetElementStateError | routeKeyError | trieBranchError
  | trieCursorError | trieFlushError | trieGeometryError | trieLeafError | trieStoreError
  | stateSessionError | shadowTrieORSetError | writerError | queryError | persistenceError
  | syncError | schemaUnsupportedError | gitError | indexError | wormholeError | forkError
  | uriError | trustError | auditError | strandError | messageCodecError | traversalError
  | typeError | memoryBudgetError
  deriving DecidableEq, Repr

structure Failure where
  kind : ErrorClass
  code : JsString
  message : JsString
  deriving DecidableEq

theorem bind_eq_ok {E A B : Type} {x} {f : A → Except E B} {b} :
    x >>= f = .ok b ↔ ∃ a, x = .ok a ∧ f a = .ok b := by
  cases x with
  | error e | ok a => simp [bind, Except.bind]

theorem check_then_eq_ok {next : Unit → Except Failure B} :
    check >>= next = .ok b ↔ check = .ok () ∧ next () = .ok b := by
  cases check with
  | error e | ok a => simp [bind, Except.bind]

theorem throw_unless_eq_ok {E B : Type} (bad) [Decidable bad] (e : E) (rest : Except E B) (b : B) :
    (if bad then .error e else rest) = .ok b ↔ ¬ bad ∧ rest = .ok b := by
  split
  next holds => simp [holds]
  next fails => simp [fails]

theorem mem_of_mapM_ok {A B : Type} {f : A → Except Failure B} {items : List A} (results)
    (ok : items.mapM f = .ok results) : ∀ b ∈ results, ∃ a ∈ items, f a = .ok b := by
  induction items generalizing results with
  | nil =>
    cases ok
    simp
  | cons a rest ih =>
    rw [mapM_cons] at ok
    simp only [bind_eq_ok] at ok
    obtain ⟨first, found, later, traversed, whole⟩ := ok
    cases whole
    intro b mem
    rcases mem_cons.mp mem with rfl | inside
    · exact ⟨a, mem_cons_self, found⟩
    · obtain ⟨source, listed, same⟩ := ih later traversed b inside
      exact ⟨source, mem_cons_of_mem a listed, same⟩

theorem mapM_ok_of_forall {A B : Type} (f : A → Except Failure B) {items}
    (each : ∀ a ∈ items, ∃ b, f a = .ok b) :
    ∃ results, items.mapM f = .ok results ∧ List.Forall₂ (fun a b => f a = .ok b) items results := by
  induction items with
  | nil => exact ⟨[], rfl, List.Forall₂.nil⟩
  | cons a rest ih =>
    rw [forall_mem_cons] at each
    obtain ⟨b, found⟩ := each.1
    obtain ⟨others, traversed, pairs⟩ := ih each.2
    refine ⟨b :: others, ?_, List.Forall₂.cons found pairs⟩
    simp only [mapM_cons, found, traversed, bind, Except.bind, pure, Except.pure]

theorem each_of_mapM_ok {A B : Type} {f : A → Except Failure B} {items : List A} (results)
    (ok : items.mapM f = .ok results) : ∀ a ∈ items, ∃ b, f a = .ok b := by
  induction items generalizing results with
  | nil => simp
  | cons a rest ih =>
    rw [mapM_cons] at ok
    obtain ⟨first, found, ok⟩ := bind_eq_ok.mp ok
    obtain ⟨later, traversed, -⟩ := bind_eq_ok.mp ok
    rw [forall_mem_cons]
    exact ⟨⟨first, found⟩, ih later traversed⟩

theorem result_of_mapM_ok {A B : Type} {f : A → Except Failure B} {items : List A} (results)
    (ok : items.mapM f = .ok results) : ∀ a ∈ items, ∃ b ∈ results, f a = .ok b := by
  induction items generalizing results with
  | nil => simp
  | cons a rest ih =>
    rw [mapM_cons] at ok
    obtain ⟨first, found, ok⟩ := bind_eq_ok.mp ok
    obtain ⟨later, traversed, whole⟩ := bind_eq_ok.mp ok
    cases whole
    intro item mem
    rcases mem_cons.mp mem with rfl | inside
    · exact ⟨first, mem_cons_self, found⟩
    · obtain ⟨b, listed, same⟩ := ih later traversed item inside
      exact ⟨b, mem_cons_of_mem _ listed, same⟩

theorem mapM_eq_map {A B : Type} (f : A → Except Failure B) (g) (items : List A)
    (each : ∀ a ∈ items, f a = .ok (g a)) : items.mapM f = .ok (items.map g) := by
  induction items with
  | nil => rfl
  | cons a rest ih =>
    rw [forall_mem_cons] at each
    rw [mapM_cons, each.1, ih each.2]
    rfl

end GitWarp
