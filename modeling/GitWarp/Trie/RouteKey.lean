import GitWarp.Js.Text
import GitWarp.Lib.Bits

/-!
# Geometry and route keys

The route key of an element is a 256-bit hash, read as a sequence of nibbles. A leaf at
some depth stores the nibbles below that depth, packed from the most significant bit on.
-/
namespace GitWarp

open Js Lib List

/-! ### Text encoding -/

def byteOf (n : Nat) : BitVec 8 := BitVec.ofNat 8 n

def utf8CodePoint (n : Nat) : Bytes :=
  if n < 0x80 then [byteOf n]
  else if n < 0x800 then [byteOf (0xC0 + n / 64), byteOf (0x80 + n % 64)]
  else if n < 0x10000 then
    [byteOf (0xE0 + n / 4096), byteOf (0x80 + n / 64 % 64), byteOf (0x80 + n % 64)]
  else
    [byteOf (0xF0 + n / 262144), byteOf (0x80 + n / 4096 % 64), byteOf (0x80 + n / 64 % 64),
      byteOf (0x80 + n % 64)]

/-- A code unit outside a pair; a lone surrogate becomes the replacement character. -/
def utf8Unit (u : CodeUnit) : Bytes :=
  if isHighSurrogate u || isLowSurrogate u then utf8CodePoint 0xFFFD else utf8CodePoint u.val

/-- `TextEncoder.encode`. -/
def textEncode : JsString → Bytes
  | [] => []
  | [u] => utf8Unit u
  | u :: v :: rest =>
    if isHighSurrogate u && isLowSurrogate v then
      utf8CodePoint (0x10000 + (u.val - 0xD800) * 1024 + (v.val - 0xDC00)) ++ textEncode rest
    else utf8Unit u ++ textEncode (v :: rest)

/-! ### Geometry -/

structure TrieGeometry where
  fanout : Nat
  nibbleBits : Nat
  leafCapacity : Nat
  leafFloor : Nat
  supported : fanout = 16 ∨ fanout = 64 ∨ fanout = 256
  width : fanout = 2 ^ nibbleBits
  room : 0 < leafCapacity
  below : leafFloor < leafCapacity

variable (g : TrieGeometry)

namespace TrieGeometry

def splitRequired (g : TrieGeometry) (entryCount : Nat) : Bool := decide (g.leafCapacity < entryCount)

def mergeRequired (g : TrieGeometry) (entryCount : Nat) : Bool := decide (entryCount < g.leafFloor)

def default16way : TrieGeometry where
  fanout := 16
  nibbleBits := 4
  leafCapacity := 64
  leafFloor := 16
  supported := by decide
  width := by decide
  room := by decide
  below := by decide

/-- The number of whole nibbles in a route key. -/
def maxDepth (g : TrieGeometry) : Nat := 256 / g.nibbleBits

theorem nibbleBits_cases : g.nibbleBits = 4 ∨ g.nibbleBits = 6 ∨ g.nibbleBits = 8 := by
  have power := g.width
  rcases g.supported with size | size | size <;> rw [size] at power
  · exact Or.inl (Nat.pow_right_injective (le_refl 2) (power.symm.trans (by decide : 16 = 2 ^ 4)))
  · exact Or.inr (Or.inl
      (Nat.pow_right_injective (le_refl 2) (power.symm.trans (by decide : 64 = 2 ^ 6))))
  · exact Or.inr (Or.inr
      (Nat.pow_right_injective (le_refl 2) (power.symm.trans (by decide : 256 = 2 ^ 8))))

theorem nibbleBits_pos : 0 < g.nibbleBits := by
  rcases g.nibbleBits_cases with bits | bits | bits <;> omega

theorem nibbleBits_le : g.nibbleBits ≤ 8 := by
  rcases g.nibbleBits_cases with bits | bits | bits <;> omega

theorem maxDepth_pos : 0 < g.maxDepth := by
  rcases g.nibbleBits_cases with bits | bits | bits <;> simp [maxDepth, bits]

end TrieGeometry

/-! ### Route keys -/

def routeKeyError (code : String) (message : JsString) : Failure := ⟨.routeKeyError, lit code, message⟩

structure RouteKey where
  bytes : Bytes
  size : bytes.length = 32

/-- The hash that route keys are taken with. It comes from a library. -/
abbrev Blake3 := Bytes → RouteKey

namespace RouteKey

def fromElement (blake3 : Blake3) (element : JsString) : Except Failure RouteKey :=
  if element = [] then
    .error (routeKeyError "E_ROUTE_KEY_EMPTY_ELEMENT"
      (lit "RouteKey.fromElement requires a non-empty element ID"))
  else .ok (blake3 (textEncode element))

def nibble (g : TrieGeometry) (route : RouteKey) (depth : Nat) : Nat :=
  readBitsMsbFirst route.bytes (depth * g.nibbleBits) g.nibbleBits

def nibbleAt (g : TrieGeometry) (route : RouteKey) (depth : Nat) : Except Failure Nat :=
  if g.maxDepth ≤ depth then
    .error (routeKeyError "E_ROUTE_KEY_DEPTH"
      (lit "RouteKey.nibbleAt depth " ++ numberText depth ++ lit " exceeds maximum " ++
        numberText (g.maxDepth - 1) ++ lit " for nibbleBits=" ++ numberText g.nibbleBits))
  else .ok (route.nibble g depth)

end RouteKey

open RouteKey

/-! ### Suffixes -/

/-- `packSuffixMsbFirst`: the nibbles from a depth on. -/
def suffixOfRouteKey (g : TrieGeometry) (route : RouteKey) (depth : Nat) : Bytes :=
  let nibblesLeft := g.maxDepth - depth
  (List.range nibblesLeft).foldl
    (fun out i => writeBitsMsbFirst out (i * g.nibbleBits) g.nibbleBits (route.nibble g (depth + i)))
    (zeroBytes (nibblesLeft * g.nibbleBits))

def firstNibbleOfSuffix (g : TrieGeometry) (suffix : Bytes) : Nat :=
  (suffix.getD 0 0).toNat >>> (8 - g.nibbleBits) &&& (1 <<< g.nibbleBits) - 1

/-- The suffix of the next depth, from a suffix of `suffixNibbles` nibbles. -/
def shiftSuffixLeftByOneNibble (g : TrieGeometry) (suffix : Bytes) (suffixNibbles : Nat) : Bytes :=
  let totalBits := (suffixNibbles - 1) * g.nibbleBits
  (List.range totalBits).foldl
    (fun out i => writeBitMsbFirst out i (readBitMsbFirst suffix (g.nibbleBits + i)))
    (zeroBytes totalBits)

/-- The suffix of the depth above, from the suffix below `depth` and the nibble between. -/
def prependNibbleToSuffix (g : TrieGeometry) (suffix : Bytes) (nibble depth : Nat) : Bytes :=
  let oldSlots := (256 - depth * g.nibbleBits) / g.nibbleBits
  (List.range oldSlots).foldl
    (fun out i => writeBitsMsbFirst out ((i + 1) * g.nibbleBits) g.nibbleBits
      (readBitsMsbFirst suffix (i * g.nibbleBits) g.nibbleBits))
    (writeBitsMsbFirst (zeroBytes ((oldSlots + 1) * g.nibbleBits)) 0 g.nibbleBits nibble)

variable (route : RouteKey) (depth : Nat)

theorem nibble_lt : route.nibble g depth < g.fanout := by
  rw [g.width]
  exact readBits_lt _

theorem nibbleAt_ok (inside : depth < g.maxDepth) :
    route.nibbleAt g depth = .ok (route.nibble g depth) := by
  simp [nibbleAt, not_le.mpr inside]

theorem isBits_suffixOfRouteKey :
    IsBits (suffixOfRouteKey g route depth) ((g.maxDepth - depth) * g.nibbleBits)
      fun k => readBitMsbFirst route.bytes (depth * g.nibbleBits + k) := by
  obtain ⟨size, bits⟩ := isBits_writeSlots (le_refl _)
  refine ⟨size, fun k inside => ?_, fun k outside => ?_⟩
  · have positive := g.nibbleBits_pos
    have small := Nat.mod_lt k positive
    have place : g.nibbleBits - 1 - (g.nibbleBits - 1 - k % g.nibbleBits) = k % g.nibbleBits := by
      omega
    have field : g.nibbleBits - 1 - k % g.nibbleBits < g.nibbleBits := by omega
    have position : (depth + k / g.nibbleBits) * g.nibbleBits + k % g.nibbleBits =
        depth * g.nibbleBits + k := by
      have := Nat.div_add_mod k g.nibbleBits
      rw [Nat.add_mul, Nat.mul_comm (k / g.nibbleBits)]
      omega
    refine (bits k).trans ?_
    simp [inside, nibble, testBit_readBits, field, place, position]
  · refine (bits k).trans ?_
    simp [Nat.not_lt.mpr outside]

theorem testBit_firstNibble (suffix i) :
    (firstNibbleOfSuffix g suffix).testBit i =
      (readBitsMsbFirst suffix 0 g.nibbleBits).testBit i := by
  have narrow := g.nibbleBits_le
  have mask : (1 <<< g.nibbleBits) - 1 = 2 ^ g.nibbleBits - 1 := by simp [Nat.shiftLeft_eq]
  rw [firstNibbleOfSuffix, mask, Nat.testBit_and, Nat.testBit_shiftRight,
    Nat.testBit_two_pow_sub_one, testBit_readBits]
  by_cases inside : i < g.nibbleBits
  · have byte : (0 + (g.nibbleBits - 1 - i)) / 8 = 0 := by omega
    have position : 7 - (0 + (g.nibbleBits - 1 - i)) % 8 = 8 - g.nibbleBits + i := by omega
    simp only [inside, decide_true, Bool.and_true, Bool.true_and, readBitMsbFirst, byte, position]
    rfl
  · simp [inside]

theorem readSlot_suffix (i) (inside : i < g.maxDepth - depth) :
    readBitsMsbFirst (suffixOfRouteKey g route depth) (i * g.nibbleBits) g.nibbleBits =
      route.nibble g (depth + i) := by
  refine readBits_congr fun k small => ?_
  have fits : (i + 1) * g.nibbleBits ≤ (g.maxDepth - depth) * g.nibbleBits :=
    Nat.mul_le_mul_right _ (by omega)
  rw [Nat.succ_mul] at fits
  rw [(isBits_suffixOfRouteKey g route depth).holds _ (by omega), Nat.add_mul]
  congr 1
  omega

theorem firstNibble_suffix (inside : depth < g.maxDepth) :
    firstNibbleOfSuffix g (suffixOfRouteKey g route depth) = route.nibble g depth := by
  have read : firstNibbleOfSuffix g (suffixOfRouteKey g route depth) =
      readBitsMsbFirst (suffixOfRouteKey g route depth) 0 g.nibbleBits :=
    Nat.eq_of_testBit_eq fun i => testBit_firstNibble g _ i
  rw [read]
  simpa using readSlot_suffix g route depth 0 (by omega)

theorem isBits_copy (count) (bit) :
    IsBits ((List.range count).foldl (fun out i => writeBitMsbFirst out i (bit i)) (zeroBytes count))
      count bit := by
  -- copying bits one after another into a zeroed array
  have loop : ∀ done ≤ count,
      let out := (List.range done).foldl (fun out i => writeBitMsbFirst out i (bit i))
        (zeroBytes count)
      out.length = (count + 7) / 8 ∧
        ∀ k, readBitMsbFirst out k = (decide (k < done) && bit k) := by
    intro done
    induction done with
    | zero =>
      intro _
      exact ⟨by simp [zeroBytes], fun k => by simp [readBit_zeroBytes]⟩
    | succ done ih =>
      intro inside
      obtain ⟨size, bits⟩ := ih (by omega)
      simp only [range_succ, foldl_append, foldl_cons, foldl_nil]
      refine ⟨by rw [length_writeBitMsbFirst]; exact size, fun k => ?_⟩
      rw [readBit_writeBit (by omega), bits]
      by_cases same : done = k
      · simp [same]
      · have order : k < done + 1 ↔ k < done := by omega
        simp [same, order]
  obtain ⟨size, bits⟩ := loop count (le_refl _)
  exact ⟨size, fun k inside => by simp [bits, inside], fun k outside => by
    simp [bits, Nat.not_lt.mpr outside]⟩

theorem shiftSuffix_suffix (inside : depth < g.maxDepth) :
    shiftSuffixLeftByOneNibble g (suffixOfRouteKey g route depth) (g.maxDepth - depth) =
      suffixOfRouteKey g route (depth + 1) := by
  have nibbles : g.maxDepth - depth - 1 = g.maxDepth - (depth + 1) := by omega
  have longer : (g.maxDepth - depth) * g.nibbleBits =
      (g.maxDepth - (depth + 1)) * g.nibbleBits + g.nibbleBits := by
    rw [← Nat.succ_mul, ← nibbles]
    congr 1
    omega
  have next : (depth + 1) * g.nibbleBits = depth * g.nibbleBits + g.nibbleBits :=
    Nat.succ_mul depth g.nibbleBits
  unfold shiftSuffixLeftByOneNibble
  rw [nibbles]
  refine (isBits_copy _ _).unique (isBits_suffixOfRouteKey g route (depth + 1)) fun k small => ?_
  rw [(isBits_suffixOfRouteKey g route depth).holds _ (by omega)]
  congr 1
  omega

theorem nibble_eq_of_suffix_eq {other depth i}
    (same : suffixOfRouteKey g route depth = suffixOfRouteKey g other depth) (from_ : depth ≤ i)
    (inside : i < g.maxDepth) : route.nibble g i = other.nibble g i := by
  have place : depth + (i - depth) = i := by omega
  rw [← place, ← readSlot_suffix g route depth (i - depth) (by omega), same,
    readSlot_suffix g other depth (i - depth) (by omega)]

theorem prependNibble_suffix (inside : depth < g.maxDepth) :
    prependNibbleToSuffix g (suffixOfRouteKey g route (depth + 1)) (route.nibble g depth)
      (depth + 1) = suffixOfRouteKey g route depth := by
  have slots : (256 - (depth + 1) * g.nibbleBits) / g.nibbleBits = g.maxDepth - (depth + 1) := by
    rw [Nat.mul_comm, Nat.sub_mul_div]
    rfl
  have one : g.maxDepth - depth = g.maxDepth - (depth + 1) + 1 := by omega
  conv_rhs => rw [suffixOfRouteKey, one, range_succ_eq_map, foldl_cons, foldl_map, Nat.zero_mul]
  rw [prependNibbleToSuffix, slots]
  -- the two loops write the same nibble into every slot
  apply foldl_ext
  intro out i listed
  rw [readSlot_suffix g route (depth + 1) i (mem_range.mp listed)]
  congr 2
  omega

/-- At every depth that has a nibble, the first nibble of the suffix is the one of the route
key, and taking it off and putting it back are inverse. -/
theorem suffix_arithmetic (inside : depth < g.maxDepth) :
    let suffix := suffixOfRouteKey g route depth
    let shifted := shiftSuffixLeftByOneNibble g suffix (g.maxDepth - depth)
    route.nibbleAt g depth = .ok (firstNibbleOfSuffix g suffix) ∧
      shifted = suffixOfRouteKey g route (depth + 1) ∧
      prependNibbleToSuffix g shifted (firstNibbleOfSuffix g suffix) (depth + 1) = suffix := by
  intro suffix shifted
  have first := firstNibble_suffix g route depth inside
  have next := shiftSuffix_suffix g route depth inside
  refine ⟨?_, next, ?_⟩
  · rw [first]
    exact nibbleAt_ok g route depth inside
  · rw [first, show shifted = _ from next]
    exact prependNibble_suffix g route depth inside

def zeroRoute : RouteKey := ⟨replicate 32 0, rfl⟩

theorem suffix_arithmetic_zero :
    zeroRoute.nibbleAt .default16way 63 = .ok (firstNibbleOfSuffix .default16way
      (suffixOfRouteKey .default16way zeroRoute 63)) :=
  (suffix_arithmetic .default16way zeroRoute 63 (by decide)).1

end GitWarp
