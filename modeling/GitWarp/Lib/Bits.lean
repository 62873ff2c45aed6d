import Mathlib.Data.List.Lex
import Mathlib.Data.Nat.Bitwise

/-!
# Bit fields in byte arrays

Bits are numbered from the most significant bit of the first byte on. A field of
some width is a number whose bits lie next to each other. `IsBits` says that an
array is just long enough for a sequence of bits, holds it, and is zero after it;
such an array is determined by the sequence.
-/
namespace Lib

open List

abbrev Bytes := List (BitVec 8)

def readBitMsbFirst (bytes : Bytes) (bitOffset : Nat) : Bool :=
  (bytes.getD (bitOffset / 8) 0).getLsbD (7 - bitOffset % 8)

/-- A write past the end of the array changes nothing. -/
def writeBitMsbFirst (out : Bytes) (bitOffset : Nat) (bit : Bool) : Bytes :=
  let byte := out.getD (bitOffset / 8) 0
  let mask : BitVec 8 := 1#8 <<< (7 - bitOffset % 8)
  out.set (bitOffset / 8) (if bit then byte ||| mask else byte &&& ~~~mask)

def readBitsMsbFirst (bytes : Bytes) (bitOffset width : Nat) : Nat :=
  (List.range width).foldl (fun value i => 2 * value + (readBitMsbFirst bytes (bitOffset + i)).toNat) 0

def writeBitsMsbFirst (out : Bytes) (bitOffset width value : Nat) : Bytes :=
  (List.range width).foldl
    (fun out i => writeBitMsbFirst out (bitOffset + i) (value.testBit (width - i - 1))) out

/-- An array of zero bytes for a number of bits. -/
def zeroBytes (bits : Nat) : Bytes := List.replicate ((bits + 7) / 8) 0

/-! ### Single bits -/

@[simp] theorem length_writeBitMsbFirst (out k bit) :
    (writeBitMsbFirst out k bit).length = out.length := by
  simp [writeBitMsbFirst]

theorem getLsbD_one_shiftLeft (i j) (inside : i < 8) :
    ((1#8 <<< i).getLsbD j) = decide (i = j) := by
  by_cases same : i = j
  · subst same
    simp [inside]
  · have apart : ¬ (¬ j < i ∧ j - i = 0) := by omega
    by_cases below : j < i <;> simp_all

theorem readBit_writeBit (inside : k < 8 * out.length) :
    readBitMsbFirst (writeBitMsbFirst out k bit) j =
      if k = j then bit else readBitMsbFirst out j := by
  have byteInside : k / 8 < out.length := by omega
  simp only [readBitMsbFirst, writeBitMsbFirst, getD_eq_getElem?_getD]
  by_cases sameByte : k / 8 = j / 8
  · have shift : (7 - k % 8 = 7 - j % 8) ↔ k = j := by omega
    have mask := getLsbD_one_shiftLeft (7 - k % 8) (7 - j % 8) (by omega)
    have small : 7 - j % 8 < 8 := by omega
    rw [← sameByte, List.getElem?_set_self byteInside, Option.getD_some]
    cases bit with
    | true =>
      rw [if_pos rfl, BitVec.getLsbD_or, mask]
      by_cases same : k = j
      · simp [same]
      · rw [decide_eq_false (shift.not.mpr same), Bool.or_false, if_neg same]
    | false =>
      rw [if_neg (by decide), BitVec.getLsbD_and, BitVec.getLsbD_not, mask]
      by_cases same : k = j
      · simp [same]
      · simp only [shift, same, small, decide_true, decide_false, Bool.not_false, Bool.and_true,
          if_false]
  · rw [List.getElem?_set_ne sameByte]
    have apart : k ≠ j := by rintro rfl; exact sameByte rfl
    simp [apart]

theorem ext_of_bits (size : left.length = right.length)
    (bits : ∀ k < 8 * left.length, readBitMsbFirst left k = readBitMsbFirst right k) :
    left = right := by
  apply ext_getElem size
  intro i inside inside'
  apply BitVec.eq_of_getLsbD_eq
  intro j small
  have same := bits (8 * i + (7 - j)) (by omega)
  have byte : (8 * i + (7 - j)) / 8 = i := by omega
  have position : 7 - (8 * i + (7 - j)) % 8 = j := by omega
  simp only [readBitMsbFirst, byte, position, getD_eq_getElem?_getD] at same
  simpa [inside, inside'] using same

/-! ### Fields -/

theorem readBits_succ (bytes offset width) :
    readBitsMsbFirst bytes offset (width + 1) =
      2 * readBitsMsbFirst bytes offset width + (readBitMsbFirst bytes (offset + width)).toNat := by
  simp [readBitsMsbFirst, range_succ, foldl_append]

theorem testBit_readBits (bytes offset width i) :
    (readBitsMsbFirst bytes offset width).testBit i =
      (decide (i < width) && readBitMsbFirst bytes (offset + (width - 1 - i))) := by
  induction width generalizing i with
  | zero => simp [readBitsMsbFirst]
  | succ width ih =>
    rw [readBits_succ]
    cases i with
    | zero =>
      have last : width + 1 - 1 - 0 = width := by omega
      rw [Nat.testBit_zero, last]
      cases readBitMsbFirst bytes (offset + width) <;> simp
    | succ i =>
      have half : (2 * readBitsMsbFirst bytes offset width +
          (readBitMsbFirst bytes (offset + width)).toNat) / 2 =
          readBitsMsbFirst bytes offset width := by
        have bit : (readBitMsbFirst bytes (offset + width)).toNat ≤ 1 := Bool.toNat_le _
        omega
      rw [Nat.testBit_succ, half, ih]
      have place : width - 1 - i = width + 1 - 1 - (i + 1) := by omega
      simp [place]

theorem readBits_lt (bytes) : readBitsMsbFirst bytes offset width < 2 ^ width := by
  induction width with
  | zero => simp [readBitsMsbFirst]
  | succ width ih =>
    rw [readBits_succ, pow_succ]
    have bit : (readBitMsbFirst bytes (offset + width)).toNat ≤ 1 := Bool.toNat_le _
    omega

theorem readBits_congr
    (same : ∀ k < width, readBitMsbFirst left (i + k) = readBitMsbFirst right (j + k)) :
    readBitsMsbFirst left i width = readBitsMsbFirst right j width := by
  induction width with
  | zero => rfl
  | succ width ih =>
    rw [readBits_succ, readBits_succ, ih fun k small => same k (by omega), same width (by omega)]

@[simp] theorem length_writeBits (out offset width value) :
    (writeBitsMsbFirst out offset width value).length = out.length := by
  unfold writeBitsMsbFirst
  generalize List.range width = steps
  induction steps generalizing out with
  | nil => rfl
  | cons i rest ih => rw [foldl_cons, ih, length_writeBitMsbFirst]

theorem readBit_writeBitsLoop {offset width value count j : Nat} (counted : count ≤ width)
    (inside : offset + width ≤ 8 * out.length) :
    readBitMsbFirst ((List.range count).foldl
      (fun out i => writeBitMsbFirst out (offset + i) (value.testBit (width - i - 1))) out) j =
      if offset ≤ j ∧ j < offset + count then value.testBit (width - 1 - (j - offset))
      else readBitMsbFirst out j := by
  -- after the first `count` bits of a field have been written
  induction count with
  | zero => simp
  | succ count ih =>
    have size : ((List.range count).foldl (fun out i =>
        writeBitMsbFirst out (offset + i) (value.testBit (width - i - 1))) out).length =
        out.length := by
      clear ih
      induction count with
      | zero => rfl
      | succ count ih =>
        rw [range_succ, foldl_append, foldl_cons, foldl_nil, length_writeBitMsbFirst]
        exact ih (by omega)
    rw [range_succ, foldl_append, foldl_cons, foldl_nil,
      readBit_writeBit (by omega), ih (by omega)]
    by_cases last : offset + count = j
    · have hit : offset ≤ j ∧ j < offset + (count + 1) := by omega
      have place : width - count - 1 = width - 1 - (j - offset) := by omega
      simp [last, hit, place]
    · by_cases before : offset ≤ j ∧ j < offset + count
      · have hit : offset ≤ j ∧ j < offset + (count + 1) := by omega
        simp [last, before, hit]
      · have miss : ¬ (offset ≤ j ∧ j < offset + (count + 1)) := by omega
        simp [last, before, miss]

theorem readBit_writeBits (out) (inside : offset + width ≤ 8 * out.length) :
    readBitMsbFirst (writeBitsMsbFirst out offset width value) j =
      if offset ≤ j ∧ j < offset + width then value.testBit (width - 1 - (j - offset))
      else readBitMsbFirst out j :=
  readBit_writeBitsLoop (le_refl _) inside

/-! ### Arrays that hold a sequence of bits -/

/-- The array has room for `count` bits and no more bytes, holds `bit` there and
zeros after it. -/
structure IsBits (out : Bytes) (count : Nat) (bit : Nat → Bool) : Prop where
  size : out.length = (count + 7) / 8
  holds : ∀ k < count, readBitMsbFirst out k = bit k
  padding : ∀ k, count ≤ k → readBitMsbFirst out k = false

theorem IsBits.unique {count} (isLeft : IsBits left count bit) (isRight : IsBits right count bit')
    (same : ∀ k < count, bit k = bit' k) : left = right := by
  refine ext_of_bits (isLeft.size.trans isRight.size.symm) fun k _ => ?_
  by_cases inside : k < count
  · rw [isLeft.holds k inside, isRight.holds k inside, same k inside]
  · rw [isLeft.padding k (by omega), isRight.padding k (by omega)]

theorem readBit_zeroBytes (count k) : readBitMsbFirst (zeroBytes count) k = false := by
  simp only [readBitMsbFirst, zeroBytes, getD_eq_getElem?_getD, List.getElem?_replicate]
  split <;> simp

/-- Writing the first `slots` fields of a width into a zeroed array, one after another. -/
theorem isBits_writeSlots {value : Nat → Nat}
    (room : slots ≤ total) :
    let out := (List.range slots).foldl
      (fun out i => writeBitsMsbFirst out (i * width) width (value i)) (zeroBytes (total * width))
    out.length = (total * width + 7) / 8 ∧ ∀ k, readBitMsbFirst out k =
        (decide (k < slots * width) && (value (k / width)).testBit (width - 1 - k % width)) := by
  induction slots with
  | zero =>
    refine ⟨by simp [zeroBytes], fun k => ?_⟩
    simp [readBit_zeroBytes]
  | succ slots ih =>
    obtain ⟨size, bits⟩ := ih (by omega)
    have fits : (slots + 1) * width ≤ total * width := Nat.mul_le_mul_right width room
    have next : (slots + 1) * width = slots * width + width := Nat.succ_mul slots width
    simp only [range_succ, foldl_append, foldl_cons, foldl_nil]
    refine ⟨by rw [length_writeBits]; exact size, fun k => ?_⟩
    rw [readBit_writeBits _ (by rw [size]; omega), bits]
    by_cases inField : slots * width ≤ k ∧ k < slots * width + width
    · have positive : 0 < width := by omega
      have slot : k / width = slots := by
        rw [Nat.div_eq_iff positive]
        omega
      have place : k % width = k - slots * width := by
        have := Nat.div_add_mod k width
        rw [slot, Nat.mul_comm] at this
        omega
      have before : k < (slots + 1) * width := by omega
      simp [inField, before, slot, place]
    · have same : (k < slots * width) ↔ (k < (slots + 1) * width) := by omega
      simp [inField, same]

/-! ### Comparison -/

/-- The sign of the first difference; a proper beginning comes first. -/
def compareBytes : Bytes → Bytes → Int
  | [], [] => 0
  | [], right => -right.length
  | left, [] => left.length
  | a :: left, b :: right =>
    if a ≠ b then (a.toNat : Int) - b.toNat else compareBytes left right

/-- The bytes as numbers, whose lexicographic order is the order of `compareBytes`. -/
def bytesKey (bytes : Bytes) : List Nat := bytes.map BitVec.toNat

theorem bytesKey_injective : Function.Injective bytesKey :=
  map_injective_iff.mpr fun _ _ => BitVec.eq_of_toNat_eq

theorem compareBytes_neg_iff (left right) :
    compareBytes left right < 0 ↔ bytesKey left < bytesKey right := by
  induction left generalizing right with
  | nil =>
    cases right with
    | nil => simp [compareBytes, bytesKey]
    | cons b right => simp [compareBytes, bytesKey]; omega
  | cons a left ih =>
    cases right with
    | nil => simp [compareBytes, bytesKey]; omega
    | cons b right =>
      have key := ih right
      simp only [bytesKey] at key
      simp only [compareBytes, bytesKey, map_cons, cons_lt_cons_iff]
      by_cases same : a = b
      · simp [same, key]
      · have apart : a.toNat ≠ b.toNat := fun equal => same (BitVec.eq_of_toNat_eq equal)
        simp only [ne_eq, same, not_false_eq_true, if_true, apart, false_and, or_false]
        omega

theorem compareBytes_eq_zero_iff (left right) : compareBytes left right = 0 ↔ left = right := by
  induction left generalizing right with
  | nil =>
    cases right with
    | nil => simp [compareBytes]
    | cons b right => simp [compareBytes]; omega
  | cons a left ih =>
    cases right with
    | nil => simp [compareBytes]; omega
    | cons b right =>
      by_cases same : a = b
      · simp [compareBytes, same, ih]
      · have apart : a.toNat ≠ b.toNat := fun equal => same (BitVec.eq_of_toNat_eq equal)
        simp [compareBytes, same]
        omega

end Lib
