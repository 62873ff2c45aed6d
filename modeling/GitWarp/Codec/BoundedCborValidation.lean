import GitWarp.Js.Text
import GitWarp.Lib.Cbor

/-!
# Bounded validation of encoded data

Before bytes are decoded, a reader walks their structure and refuses what nests
too deep, holds too many items or declares too long a container. On the encoding
of an item its answer depends on three measures of the item alone.
-/
namespace GitWarp

open Js Lib.Cbor List

structure CborStructureLimits where
  maxContainerEntries : Nat
  maxDepth : Nat
  maxItems : Nat

/-- The bytes from the reader's offset on, and the items counted so far. -/
structure CborStructureReader where
  rest : List Byte
  items : Nat

/-- `ARGUMENT_WIDTHS`. -/
def argumentWidth : Nat → Option Nat
  | 24 => some 1
  | 25 => some 2
  | 26 => some 4
  | 27 => some 8
  | _ => none

namespace CborStructureReader

variable (malformed : JsString → Failure) (limits : CborStructureLimits)

def readByte (reader : CborStructureReader) : Except Failure (Nat × CborStructureReader) :=
  match reader.rest with
  | [] => .error (malformed (lit "value is truncated"))
  | value :: rest => .ok (value.val, { reader with rest := rest })

def skip (length : Nat) (reader : CborStructureReader) : Except Failure CborStructureReader :=
  if length > reader.rest.length then .error (malformed (lit "value is truncated"))
  else .ok { reader with rest := reader.rest.drop length }

def readUnsigned : Nat → Nat → CborStructureReader → Except Failure (Nat × CborStructureReader)
  | 0, value, reader => .ok (value, reader)
  | width + 1, value, reader => do
    let (byte, reader) ← readByte malformed reader
    readUnsigned width (256 * value + byte) reader

def readArgument (additional : Nat) (reader : CborStructureReader) :
    Except Failure (Nat × CborStructureReader) :=
  if additional = 31 then .error (malformed (lit "indefinite-length values are not supported"))
  else if additional < 24 then .ok (additional, reader)
  else
    match argumentWidth additional with
    | none => .error (malformed (lit "reserved additional information"))
    | some width => readUnsigned malformed width 0 reader

def readSimple (additional : Nat) (reader : CborStructureReader) :
    Except Failure CborStructureReader :=
  if additional < 24 then .ok reader
  else
    match argumentWidth additional with
    | none => .error (malformed (lit "reserved or break simple value is not supported"))
    | some width => skip malformed width reader

def toLength (value : Nat) : Except Failure Nat :=
  if value > maxSafeInteger then
    .error (malformed (lit "declared length exceeds the safe integer range"))
  else .ok value

def requireItemBudget (reader : CborStructureReader) : Except Failure CborStructureReader :=
  if reader.items + 1 > limits.maxItems then
    .error (malformed (lit "decoded item count exceeds the configured maximum"))
  else .ok { reader with items := reader.items + 1 }

/-- `count` items, one after another. -/
def readItems (readItem : CborStructureReader → Except Failure CborStructureReader) :
    Nat → CborStructureReader → Except Failure CborStructureReader
  | 0, reader => .ok reader
  | count + 1, reader => do
    let reader ← readItem reader
    readItems readItem count reader

/-- A key and a value for each entry of a map, whatever its keys are. -/
def readContainer (readItem : CborStructureReader → Except Failure CborStructureReader)
    (major length : Nat) (reader : CborStructureReader) : Except Failure CborStructureReader :=
  if length > limits.maxContainerEntries then
    .error (malformed (lit "container entry count exceeds the configured maximum"))
  else if major = 4 then readItems readItem length reader
  else readItems readItem (2 * length) reader

def readMajorValue (readItem : CborStructureReader → Except Failure CborStructureReader)
    (major argument : Nat) (reader : CborStructureReader) : Except Failure CborStructureReader :=
  if major ≤ 1 then .ok reader
  else if major ≤ 3 then do
    let length ← toLength malformed argument
    skip malformed length reader
  else if major ≤ 5 then do
    let length ← toLength malformed argument
    readContainer malformed limits readItem major length reader
  else readItem reader

/-- An item, with the number of levels that are left: none at a depth above the maximum. -/
def readItem : Nat → CborStructureReader → Except Failure CborStructureReader
  | 0, _ => .error (malformed (lit "nesting depth exceeds the configured maximum"))
  | levels + 1, reader => do
    let reader ← requireItemBudget malformed limits reader
    let (initial, reader) ← readByte malformed reader
    let major := initial / 32
    let additional := initial % 32
    if major = 7 then readSimple malformed additional reader
    else
      let (argument, reader) ← readArgument malformed additional reader
      readMajorValue malformed limits (readItem levels) major argument reader

def readDocument (bytes : List Byte) : Except Failure Unit := do
  let reader ← readItem malformed limits (limits.maxDepth + 1) ⟨bytes, 0⟩
  if reader.rest = [] then pure ()
  else throw (malformed (lit "trailing bytes after the top-level value"))

/-! ### Reading one item -/

variable {malformed : JsString → Failure} {limits : CborStructureLimits}

theorem readUnsigned_payload (width value) {rest items} (payload) (length : payload.length = width) :
    readUnsigned malformed width value ⟨payload ++ rest, items⟩ =
      .ok (readBigEndian value payload, ⟨rest, items⟩) := by
  induction width generalizing value payload with
  | zero =>
    rw [eq_nil_of_length_eq_zero length]
    rfl
  | succ width ih =>
    cases payload with
    | nil => cases length
    | cons b payload =>
      exact ih (256 * value + b.val) payload (Nat.succ.inj length)

theorem argumentWidth_of_width (kind : Width additional width) :
    argumentWidth additional = some width ∧ 24 ≤ additional ∧ additional < 28 := by
  cases kind <;> exact ⟨rfl, by decide, by decide⟩

theorem initial_byte (major additional) (small : major < 8) (low : additional < 32) :
    (Fin.ofNat 256 (32 * major + additional)).val / 32 = major ∧
      (Fin.ofNat 256 (32 * major + additional)).val % 32 = additional := by
  have value : (Fin.ofNat 256 (32 * major + additional)).val = 32 * major + additional :=
    Nat.mod_eq_of_lt (by omega)
  omega

theorem readArgument_wide (kind : Width additional width) (fits : n < 256 ^ width) (rest) (items) :
    readArgument malformed additional ⟨bigEndian width n ++ rest, items⟩ =
      .ok (n, ⟨rest, items⟩) := by
  obtain ⟨found, least, most⟩ := argumentWidth_of_width kind
  rw [readArgument, if_neg (by omega), if_neg (by omega), found]
  simp only
  rw [readUnsigned_payload width 0 _ length_bigEndian,
    readBigEndian_bigEndian width n 0 fits, Nat.mul_zero, Nat.zero_add]

theorem readItem_head {major n head rest levels items} (spelled : Head major n head)
    (small : major < 7) (room : items + 1 ≤ limits.maxItems) :
    readItem malformed limits (levels + 1) ⟨head ++ rest, items⟩ =
      readMajorValue malformed limits (readItem malformed limits levels) major n
        ⟨rest, items + 1⟩ := by
  cases spelled with
  | direct low =>
    obtain ⟨type, info⟩ := initial_byte major n (by omega) (by omega)
    simp only [readItem, requireItemBudget, if_neg (Nat.not_lt.mpr room), singleton_append,
      readByte, bind, Except.bind]
    rw [type, info, if_neg (by omega), readArgument, if_neg (by omega), if_pos low]
  | wide additional width kind fits =>
    obtain ⟨-, least, most⟩ := argumentWidth_of_width kind
    obtain ⟨type, info⟩ := initial_byte major additional (by omega) (by omega)
    simp only [readItem, requireItemBudget, if_neg (Nat.not_lt.mpr room), cons_append,
      readByte, bind, Except.bind]
    rw [type, info, if_neg (by omega), readArgument_wide kind fits]

theorem readItem_full (levels) (reader) (full : limits.maxItems < reader.items + 1) :
    ∃ e, readItem malformed limits levels reader = .error e := by
  cases levels with
  | zero => exact ⟨_, rfl⟩
  | succ levels =>
    refine ⟨malformed (lit "decoded item count exceeds the configured maximum"), ?_⟩
    rw [readItem, requireItemBudget, if_pos full]
    rfl

/-- Reading ends at the given reader where the condition holds, and fails where it does not. -/
def Outcome (fits : Prop) (answer : Except Failure CborStructureReader)
    (next : CborStructureReader) : Prop :=
  (fits → answer = .ok next) ∧ (¬ fits → ∃ e, answer = .error e)

theorem Outcome.congr {next} {answer} (same : fits ↔ fits') (outcome : Outcome fits answer next) :
    Outcome fits' answer next :=
  ⟨fun held => outcome.1 (same.mpr held), fun failed => outcome.2 fun held => failed (same.mp held)⟩

/-- What the limits ask of an item that is read with some levels left. -/
def Fits (limits : CborStructureLimits) (levels items : Nat) (item : Item) : Prop :=
  item.height < levels ∧ items + item.count ≤ limits.maxItems ∧
    item.Bounded limits.maxContainerEntries

theorem outcome_of_leaf (item) {levels items bytes rest} (flat : item.height = 0)
    (single : item.count = 1) (bounded : item.Bounded limits.maxContainerEntries)
    (read : ∀ less, items + 1 ≤ limits.maxItems →
      readItem malformed limits (less + 1) ⟨bytes ++ rest, items⟩ = .ok ⟨rest, items + 1⟩) :
    Outcome (Fits limits levels items item)
      (readItem malformed limits levels ⟨bytes ++ rest, items⟩) ⟨rest, items + item.count⟩ := by
  rw [single]
  constructor
  · rintro ⟨level, room, -⟩
    cases levels with
    | zero => omega
    | succ less => exact read less (by omega)
  · intro failed
    cases levels with
    | zero => exact ⟨_, rfl⟩
    | succ less =>
      apply readItem_full
      apply Nat.lt_of_not_le
      intro (room : items + 1 ≤ limits.maxItems)
      exact failed ⟨by omega, by omega, bounded⟩

theorem skip_append {payload rest items} :
    skip malformed payload.length ⟨payload ++ rest, items⟩ = .ok ⟨rest, items⟩ := by
  rw [skip, if_neg (by simp)]
  simp

theorem encoded_ne_nil (encoded : Encoded item bytes) : 0 < bytes.length := by
  have nonempty : ∀ major n head, Head major n head → 0 < head.length := by
    intro major n head spelled
    cases spelled <;> simp
  cases encoded with
  | unsigned n head spelled | negative n head spelled => exact nonempty _ _ _ spelled
  | bytes payload head spelled | text payload head spelled | array items head body spelled listed
  | map items pairs head body paired spelled listed | tagged tag content head body spelled inside =>
    have := nonempty _ _ _ spelled
    simp only [length_append]
    omega
  | simple value small | float additional payload kind => simp

theorem length_le_of_encodedAll {items} (body) (listed : EncodedAll items body) :
    items.length ≤ body.length := by
  induction items generalizing body with
  | nil => exact Nat.zero_le _
  | cons item rest ih =>
    cases listed with
    | cons _ _ here later first others =>
      have := encoded_ne_nil first
      have := ih later others
      simp only [length_cons, length_append]
      omega

/-! ### Reading encodings -/

/-- What the limits ask of items that are read one after another. -/
def AllFit (limits : CborStructureLimits) (levels items : Nat) (list : List Item) : Prop :=
  heights list ≤ levels ∧ items + counts list ≤ limits.maxItems ∧
    AllBounded limits.maxContainerEntries list

theorem outcome_of_container {item inside major n count head body rest} {levels items}
    (spelled : Head major n head) (kind : major = 4 ∧ count = n ∨ major = 5 ∧ count = 2 * n)
    (length : inside.length = count) (high : item.height = heights inside)
    (many : item.count = counts inside + 1) (bounded : item.Bounded limits.maxContainerEntries ↔
      n ≤ limits.maxContainerEntries ∧ AllBounded limits.maxContainerEntries inside)
    (safe : n ≤ maxSafeInteger) (read : ∀ less, items + 1 ≤ limits.maxItems →
      Outcome (AllFit limits less (items + 1) inside)
        (readItems (readItem malformed limits less) inside.length ⟨body ++ rest, items + 1⟩)
        ⟨rest, items + 1 + counts inside⟩) :
    Outcome (Fits limits levels items item)
      (readItem malformed limits levels ⟨head ++ body ++ rest, items⟩)
      ⟨rest, items + item.count⟩ := by
  -- a container fits where its entries do, one level further down
  have small : major < 7 := by omega
  rw [many]
  cases levels with
  | zero => exact ⟨fun fits => absurd fits.1 (Nat.not_lt_zero _), fun _ => ⟨_, rfl⟩⟩
  | succ less =>
    by_cases room : items + 1 ≤ limits.maxItems
    · -- past the head, only the declared length and the entries are left to judge
      have entries : readItem malformed limits (less + 1) ⟨head ++ body ++ rest, items⟩ =
          if n > limits.maxContainerEntries then
            .error (malformed (lit "container entry count exceeds the configured maximum"))
          else readItems (readItem malformed limits less) inside.length
            ⟨body ++ rest, items + 1⟩ := by
        rw [append_assoc, readItem_head spelled small room, length]
        rcases kind with ⟨rfl, rfl⟩ | ⟨rfl, rfl⟩
        · simp [readMajorValue, toLength, readContainer, Nat.not_lt.mpr safe, bind, Except.bind]
        · simp [readMajorValue, toLength, readContainer, Nat.not_lt.mpr safe, bind, Except.bind]
      rw [entries]
      by_cases long : n > limits.maxContainerEntries
      · rw [if_pos long]
        exact ⟨fun fits => absurd (bounded.mp fits.2.2).1 (by omega), fun _ => ⟨_, rfl⟩⟩
      · rw [if_neg long]
        have next : items + (counts inside + 1) = items + 1 + counts inside := by omega
        rw [next]
        apply (read less room).congr
        rw [AllFit, Fits, high, many, bounded]
        constructor
        · rintro ⟨deep, few, each⟩
          exact ⟨by omega, by omega, by omega, each⟩
        · rintro ⟨deep, few, -, each⟩
          exact ⟨by omega, by omega, each⟩
    · constructor
      · rintro ⟨-, few, -⟩
        omega
      · exact fun _ => readItem_full _ _ (Nat.lt_of_not_le room)

mutual

theorem readItem_encoded {item : Item} {bytes : List Byte} (encoded : Encoded item bytes)
    (levels items : Nat) (rest : List Byte) (safe : bytes.length ≤ maxSafeInteger) :
    Outcome (Fits limits levels items item)
      (readItem malformed limits levels ⟨bytes ++ rest, items⟩) ⟨rest, items + item.count⟩ :=
  match encoded with
  | .unsigned n head spelled => by
    apply outcome_of_leaf (.unsigned n) rfl rfl trivial
    intro less room
    rw [readItem_head spelled (by decide) room]
    rfl
  | .negative n head spelled => by
    apply outcome_of_leaf (.negative n) rfl rfl trivial
    intro less room
    rw [readItem_head spelled (by decide) room]
    rfl
  | .bytes payload head spelled => by
    apply outcome_of_leaf (.bytes payload) rfl rfl trivial
    intro less room
    rw [length_append] at safe
    rw [append_assoc, readItem_head spelled (by decide) room]
    simp only [readMajorValue, toLength, if_neg (show ¬ payload.length > maxSafeInteger by omega),
      show ¬ (2 : Nat) ≤ 1 by decide, show (2 : Nat) ≤ 3 by decide, if_true, if_false, bind,
      Except.bind]
    exact skip_append
  | .text payload head spelled => by
    apply outcome_of_leaf (.text payload) rfl rfl trivial
    intro less room
    rw [length_append] at safe
    rw [append_assoc, readItem_head spelled (by decide) room]
    simp only [readMajorValue, toLength, if_neg (show ¬ payload.length > maxSafeInteger by omega),
      show ¬ (3 : Nat) ≤ 1 by decide, show (3 : Nat) ≤ 3 by decide, if_true, if_false, bind,
      Except.bind]
    exact skip_append
  | .array list head body spelled listed => by
    have short := length_le_of_encodedAll body listed
    rw [length_append] at safe
    exact outcome_of_container spelled (Or.inl ⟨rfl, rfl⟩) rfl rfl rfl Iff.rfl (by omega)
      fun less room => readItems_encoded listed less (items + 1) rest (by omega) room
  | .map list pairs head body paired spelled listed => by
    -- the answer is decided by the measures of the item
    have short := length_le_of_encodedAll body listed
    rw [length_append] at safe
    have bounded : (Item.map list).Bounded limits.maxContainerEntries ↔
        pairs ≤ limits.maxContainerEntries ∧ AllBounded limits.maxContainerEntries list := by
      rw [Item.Bounded, paired]
      exact and_congr_left fun _ => by omega
    exact outcome_of_container spelled (Or.inr ⟨rfl, rfl⟩) paired rfl rfl bounded (by omega)
      fun less room => readItems_encoded listed less (items + 1) rest (by omega) room
  | .tagged tag content head body spelled inside => by
    rw [length_append] at safe
    cases levels with
    | zero => exact ⟨fun fits => absurd fits.1 (Nat.not_lt_zero _), fun _ => ⟨_, rfl⟩⟩
    | succ less =>
      by_cases room : items + 1 ≤ limits.maxItems
      · have read := readItem_encoded inside less (items + 1) rest (by omega)
        rw [append_assoc, readItem_head spelled (by decide) room]
        have next : items + (Item.tagged tag content).count = items + 1 + content.count := by
          rw [Item.count]
          omega
        rw [next]
        apply read.congr
        rw [Fits, Fits, next, Item.height, Item.Bounded]
        exact and_congr_left fun _ => by omega
      · constructor
        · rintro ⟨-, few, -⟩
          have := (Item.tagged tag content).count_pos
          omega
        · exact fun _ => readItem_full _ _ (Nat.lt_of_not_le room)
  | .simple value low => by
    apply outcome_of_leaf (.simple value) rfl rfl trivial
    intro less room
    obtain ⟨type, info⟩ := initial_byte 7 value (by decide) (by omega)
    simp only [readItem, requireItemBudget, if_neg (Nat.not_lt.mpr room), singleton_append,
      readByte, bind, Except.bind]
    rw [type, info, if_pos rfl, readSimple, if_pos low]
  | .float additional payload kind => by
    apply outcome_of_leaf (.float payload) rfl rfl trivial
    intro less room
    obtain ⟨found, least, most⟩ := argumentWidth_of_width kind
    obtain ⟨type, info⟩ := initial_byte 7 additional (by decide) (by omega)
    simp only [readItem, requireItemBudget, if_neg (Nat.not_lt.mpr room), cons_append,
      readByte, bind, Except.bind]
    rw [type, info, if_pos rfl, readSimple, if_neg (by omega), found]
    exact skip_append

theorem readItems_encoded {list : List Item} {bytes : List Byte} (listed : EncodedAll list bytes)
    (levels items : Nat) (rest : List Byte) (safe : bytes.length ≤ maxSafeInteger)
    (room : items ≤ limits.maxItems) :
    Outcome (AllFit limits levels items list)
      (readItems (readItem malformed limits levels) list.length ⟨bytes ++ rest, items⟩)
      ⟨rest, items + counts list⟩ :=
  match listed with
  | .nil => ⟨fun _ => rfl, fun failed => absurd ⟨Nat.zero_le _, room, trivial⟩ failed⟩
  | .cons item others here later first following => by
    -- one after another, where the items so far were not too many
    rw [length_append] at safe
    have head := readItem_encoded first levels items (later ++ rest) (by omega)
    rw [length_cons, readItems, append_assoc]
    by_cases fits : Fits limits levels items item
    · rw [head.1 fits]
      have tail := readItems_encoded following levels (items + item.count) rest (by omega) fits.2.1
      have next : items + counts (item :: others) = items + item.count + counts others := by
        rw [counts]
        omega
      rw [next]
      apply tail.congr
      obtain ⟨deep, few, bounded⟩ := fits
      rw [AllFit, AllFit, next, heights, AllBounded]
      constructor
      · rintro ⟨deeper, fewer, each⟩
        exact ⟨by omega, fewer, bounded, each⟩
      · rintro ⟨deeper, fewer, -, each⟩
        exact ⟨by omega, fewer, each⟩
    · -- what the first item is too much for, all of them are
      constructor
      · rintro ⟨deeper, fewer, bounded, -⟩
        rw [heights] at deeper
        rw [counts] at fewer
        exact absurd ⟨by omega, by omega, bounded⟩ fits
      · intro _
        obtain ⟨e, refused⟩ := head.2 fits
        exact ⟨e, by rw [refused]; rfl⟩

end

/-- A document is the encoding of one item, accepted exactly when the item fits the limits. -/
theorem readDocument_encoded (item) (encoded : Encoded item bytes)
    (safe : bytes.length ≤ maxSafeInteger) :
    readDocument malformed limits bytes = .ok () ↔
      item.height ≤ limits.maxDepth ∧ item.count ≤ limits.maxItems ∧
        item.Bounded limits.maxContainerEntries := by
  have read : Outcome (Fits limits (limits.maxDepth + 1) 0 item)
      (readItem malformed limits (limits.maxDepth + 1) ⟨bytes ++ [], 0⟩) ⟨[], 0 + item.count⟩ :=
    readItem_encoded encoded (limits.maxDepth + 1) 0 [] safe
  rw [append_nil, Nat.zero_add] at read
  have same : Fits limits (limits.maxDepth + 1) 0 item ↔ item.height ≤ limits.maxDepth ∧
      item.count ≤ limits.maxItems ∧ item.Bounded limits.maxContainerEntries := by
    rw [Fits, Nat.zero_add, Nat.lt_succ_iff]
  rw [← same, readDocument]
  constructor
  · intro accepted
    apply Classical.byContradiction
    intro failed
    obtain ⟨e, refused⟩ := read.2 failed
    rw [refused] at accepted
    cases accepted
  · intro fits
    rw [read.1 fits]
    rfl

end CborStructureReader

/-- `validateGenericBoundedCbor`: any keys are allowed in a map. -/
def validateGenericBoundedCbor (bytes : List Byte) (limits : CborStructureLimits)
    (malformed : JsString → Failure) : Except Failure Unit :=
  CborStructureReader.readDocument malformed limits bytes

end GitWarp
