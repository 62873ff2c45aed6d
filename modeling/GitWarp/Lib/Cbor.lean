import Mathlib.Data.List.Basic
import GitWarp.Lib.FixedWidth

/-!
# Definite-length data items

The data items of the binary object representation and their encodings. An
argument may be written in more bytes than it needs, so an item has several
encodings; all of them nest to the same depth and hold the same number of items.
A map lists its keys and values in turn.
-/
namespace Lib.Cbor

open List

abbrev Byte := Fin 256

inductive Item
  | unsigned (n : Nat)
  | negative (n : Nat)
  | bytes (payload : List Byte)
  | text (payload : List Byte)
  | array (items : List Item)
  | map (keysAndValues : List Item)
  | tagged (tag : Nat) (content : Item)
  | simple (value : Nat)
  | float (payload : List Byte)

/-! ### Heads -/

/-- The `width` last bytes of a number, the most significant first. -/
def bigEndian : Nat → Nat → List Byte
  | 0, _ => []
  | width + 1, n => Fin.ofNat 256 (n / 256 ^ width) :: bigEndian width n

/-- The number that bytes spell, after what has been read before them. -/
def readBigEndian (value : Nat) : List Byte → Nat
  | [] => value
  | b :: rest => readBigEndian (256 * value + b.val) rest

/-- The additional information that announces an argument of so many bytes. -/
inductive Width : Nat → Nat → Prop
  | one : Width 24 1
  | two : Width 25 2
  | four : Width 26 4
  | eight : Width 27 8

/-- The first bytes of an item: its major type and an argument. -/
inductive Head (major n : Nat) : List Byte → Prop
  | direct (small : n < 24) : Head major n [Fin.ofNat 256 (32 * major + n)]
  | wide (additional width : Nat) (kind : Width additional width) (fits : n < 256 ^ width) :
      Head major n (Fin.ofNat 256 (32 * major + additional) :: bigEndian width n)

/-! ### Encodings -/

mutual

/-- A definite-length encoding of an item. -/
inductive Encoded : Item → List Byte → Prop
  | unsigned (n : Nat) (head : List Byte) (spelled : Head 0 n head) : Encoded (.unsigned n) head
  | negative (n : Nat) (head : List Byte) (spelled : Head 1 n head) : Encoded (.negative n) head
  | bytes (payload head : List Byte) (spelled : Head 2 payload.length head) :
      Encoded (.bytes payload) (head ++ payload)
  | text (payload head : List Byte) (spelled : Head 3 payload.length head) :
      Encoded (.text payload) (head ++ payload)
  | array (items : List Item) (head body : List Byte) (spelled : Head 4 items.length head)
      (listed : EncodedAll items body) : Encoded (.array items) (head ++ body)
  | map (keysAndValues : List Item) (pairs : Nat) (head body : List Byte)
      (paired : keysAndValues.length = 2 * pairs) (spelled : Head 5 pairs head)
      (listed : EncodedAll keysAndValues body) : Encoded (.map keysAndValues) (head ++ body)
  | tagged (tag : Nat) (content : Item) (head body : List Byte) (spelled : Head 6 tag head)
      (inside : Encoded content body) : Encoded (.tagged tag content) (head ++ body)
  | simple (value : Nat) (small : value < 24) :
      Encoded (.simple value) [Fin.ofNat 256 (32 * 7 + value)]
  | float (additional : Nat) (payload : List Byte) (kind : Width additional payload.length) :
      Encoded (.float payload) (Fin.ofNat 256 (32 * 7 + additional) :: payload)

/-- Encodings one after another. -/
inductive EncodedAll : List Item → List Byte → Prop
  | nil : EncodedAll [] []
  | cons (item : Item) (rest : List Item) (here later : List Byte) (first : Encoded item here)
      (others : EncodedAll rest later) : EncodedAll (item :: rest) (here ++ later)

end

/-! ### Measures -/

mutual

/-- How deep containers nest below the item. -/
def Item.height : Item → Nat
  | .array items => heights items
  | .map keysAndValues => heights keysAndValues
  | .tagged _ content => content.height + 1
  | _ => 0

/-- The least depth that holds all of the items inside one container. -/
def heights : List Item → Nat
  | [] => 0
  | item :: rest => max (item.height + 1) (heights rest)

end

mutual

/-- The item with all that it holds. -/
def Item.count : Item → Nat
  | .array items => counts items + 1
  | .map keysAndValues => counts keysAndValues + 1
  | .tagged _ content => content.count + 1
  | _ => 1

def counts : List Item → Nat
  | [] => 0
  | item :: rest => item.count + counts rest

end

mutual

/-- No container has more entries than the bound. -/
def Item.Bounded (bound : Nat) : Item → Prop
  | .array items => items.length ≤ bound ∧ AllBounded bound items
  | .map keysAndValues => keysAndValues.length ≤ 2 * bound ∧ AllBounded bound keysAndValues
  | .tagged _ content => content.Bounded bound
  | _ => True

def AllBounded (bound : Nat) : List Item → Prop
  | [] => True
  | item :: rest => item.Bounded bound ∧ AllBounded bound rest

end

/-- An item that holds no other. -/
def Item.IsScalar : Item → Prop
  | .array _ | .map _ | .tagged _ _ => False
  | _ => True

theorem Item.IsScalar.height_eq {item : Item} (scalar : item.IsScalar) : item.height = 0 := by
  cases item <;> first | rfl | exact scalar.elim

theorem Item.IsScalar.count_eq {item : Item} (scalar : item.IsScalar) : item.count = 1 := by
  cases item <;> first | rfl | exact scalar.elim

theorem Item.count_pos (item : Item) : 0 < item.count := by
  cases item <;> simp [Item.count]

theorem length_le_counts (items) : items.length ≤ counts items := by
  induction items with
  | nil => exact Nat.le_refl 0
  | cons item rest ih =>
    rw [length_cons, counts]
    have := item.count_pos
    omega

mutual

theorem Item.bounded_of_count (bound : Nat) :
    (item : Item) → item.count ≤ bound → item.Bounded bound
  | .array items, few => by
    rw [Item.count] at few
    have := length_le_counts items
    exact ⟨by omega, allBounded_of_counts bound items (by omega)⟩
  | .map keysAndValues, few => by
    rw [Item.count] at few
    have := length_le_counts keysAndValues
    exact ⟨by omega, allBounded_of_counts bound keysAndValues (by omega)⟩
  | .tagged _ content, few => by
    rw [Item.count] at few
    exact Item.bounded_of_count bound content (by omega)
  | .unsigned _, _ | .negative _, _ | .bytes _, _ | .text _, _ | .simple _, _ | .float _, _ =>
    trivial

theorem allBounded_of_counts (bound : Nat) :
    (items : List Item) → counts items ≤ bound → AllBounded bound items
  | [], _ => trivial
  | item :: rest, few => by
    rw [counts] at few
    exact ⟨Item.bounded_of_count bound item (by omega),
      allBounded_of_counts bound rest (by omega)⟩

end

/-! ### Reading heads back -/

theorem length_bigEndian : (bigEndian width n).length = width := by
  induction width with
  | zero => rfl
  | succ width ih => rw [bigEndian, length_cons, ih]

theorem bigEndian_mod (width n high) :
    bigEndian width (n + 256 ^ width * high) = bigEndian width n := by
  induction width generalizing high with
  | zero => rfl
  | succ width ih =>
    have digit : Fin.ofNat 256 ((n + 256 ^ (width + 1) * high) / 256 ^ width) =
        Fin.ofNat 256 (n / 256 ^ width) := by
      apply Fin.ext
      rw [Nat.pow_succ, Nat.mul_assoc, Nat.add_mul_div_left _ _ (Nat.pow_pos (by decide))]
      simp [Fin.ofNat]
    rw [bigEndian, bigEndian, digit, Nat.pow_succ, Nat.mul_assoc, ih]

theorem readBigEndian_bigEndian (width n value) (fits : n < 256 ^ width) :
    readBigEndian value (bigEndian width n) = 256 ^ width * value + n := by
  induction width generalizing n value with
  | zero =>
    have zero : n = 0 := by simpa using fits
    simp [bigEndian, readBigEndian, zero]
  | succ width ih =>
    have positive : 0 < 256 ^ width := Nat.pow_pos (by decide)
    have high : n / 256 ^ width < 256 := by
      rw [Nat.div_lt_iff_lt_mul positive, Nat.mul_comm]
      exact fits
    have low : bigEndian width n = bigEndian width (n % 256 ^ width) := by
      conv_lhs => rw [← Nat.mod_add_div n (256 ^ width)]
      exact bigEndian_mod width _ _
    have digit : (Fin.ofNat 256 (n / 256 ^ width)).val = n / 256 ^ width := Nat.mod_eq_of_lt high
    rw [bigEndian, readBigEndian, low, ih _ _ (Nat.mod_lt n positive), digit, Nat.pow_succ]
    have whole := Nat.mod_add_div n (256 ^ width)
    calc 256 ^ width * (256 * value + n / 256 ^ width) + n % 256 ^ width
        = 256 ^ width * 256 * value + (n % 256 ^ width + 256 ^ width * (n / 256 ^ width)) := by
          rw [Nat.mul_add, Nat.mul_assoc]
          omega
      _ = 256 ^ width * 256 * value + n := by rw [whole]

end Lib.Cbor
