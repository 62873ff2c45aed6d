import GitWarp.Crdt.VersionVector
import GitWarp.Lib.Cbor
import GitWarp.Lib.SortBy

/-!
# Plain data and property values

Plain data is what the codec is given: scalars, byte arrays, arrays and objects.
Some of it may be the value of a property. Sorting the keys before encoding
changes neither how deep data nests nor how much of it there is.
-/
namespace GitWarp

open Js Lib List

inductive JsData
  | null
  | undefined
  | boolean (value : Bool)
  | number (value : JsNumber)
  | string (text : JsString)
  | bytes (payload : List Cbor.Byte)
  | array (items : List JsData)
  | object (entries : List (JsString × JsData))

/-! ### Property values -/

/-- `FORBIDDEN_PROPERTY_VALUE_KEYS`. -/
def forbiddenPropertyValueKeys : List JsString :=
  [protoKey, lit "constructor", lit "prototype"]

mutual

/-- The check on plain data; functions, instances of classes and the like never pass. -/
def isPropValue : JsData → Bool
  | .undefined => false
  | .array items => arePropValues items
  | .object entries => propValueObjectEntriesAreValid entries
  | _ => true

def arePropValues : List JsData → Bool
  | [] => true
  | item :: rest => isPropValue item && arePropValues rest

def propValueObjectEntriesAreValid : List (JsString × JsData) → Bool
  | [] => true
  | (key, entry) :: rest =>
    !forbiddenPropertyValueKeys.contains key && isPropValue entry &&
      propValueObjectEntriesAreValid rest

end

/-- A value that a property register can hold. -/
abbrev PropValue := {data : JsData // isPropValue data = true}

/-! ### Objects -/

/-- The number that a key spells as an array index; such keys are enumerated first. -/
def arrayIndex (key : JsString) : Option Nat :=
  match parseInt key with
  | some (.ofNat n) => if numberText n = key ∧ n < 4294967295 then some n else none
  | _ => none

/-- The order in which the own keys of an object are enumerated. -/
def enumerationOrder {A : Type} (entries : List (JsString × A)) : List (JsString × A) :=
  sortBy (fun entry => (arrayIndex entry.1).getD 0)
      (entries.filter fun entry => (arrayIndex entry.1).isSome) ++
    entries.filter fun entry => !(arrayIndex entry.1).isSome

/-- Assignment by key to an empty object; it gives no own property for `__proto__`. -/
def assignAll {A : Type} (entries : List (JsString × A)) : List (JsString × A) :=
  enumerationOrder (entries.filter fun entry => entry.1 ≠ protoKey)

mutual

/-- `sortKeys`; byte arrays have an encoding of their own and stay as they are. -/
def sortKeys : JsData → JsData
  | .array items => .array (sortArrayItems items)
  | .object entries => .object (assignAll (sortBy Prod.fst (sortObjectEntries entries)))
  | data => data

def sortArrayItems : List JsData → List JsData
  | [] => []
  | item :: rest => sortKeys item :: sortArrayItems rest

def sortObjectEntries : List (JsString × JsData) → List (JsString × JsData)
  | [] => []
  | (key, value) :: rest => (key, sortKeys value) :: sortObjectEntries rest

end

/-! ### Measures -/

mutual

/-- How deep arrays and objects nest below the data. -/
def JsData.depth : JsData → Nat
  | .array items => depths items
  | .object entries => entryDepths entries
  | _ => 0

def depths : List JsData → Nat
  | [] => 0
  | item :: rest => max (item.depth + 1) (depths rest)

def entryDepths : List (JsString × JsData) → Nat
  | [] => 0
  | (_, value) :: rest => max (value.depth + 1) (entryDepths rest)

end

mutual

/-- The data with all that it holds, the keys of objects included. -/
def JsData.size : JsData → Nat
  | .array items => sizes items + 1
  | .object entries => entrySizes entries + 1
  | _ => 1

def sizes : List JsData → Nat
  | [] => 0
  | item :: rest => item.size + sizes rest

def entrySizes : List (JsString × JsData) → Nat
  | [] => 0
  | (_, value) :: rest => 1 + value.size + entrySizes rest

end

mutual

/-- No object has an own property under `__proto__`. -/
def hasOwnKeys : JsData → Bool
  | .array items => haveOwnKeys items
  | .object entries => entriesHaveOwnKeys entries
  | _ => true

def haveOwnKeys : List JsData → Bool
  | [] => true
  | item :: rest => hasOwnKeys item && haveOwnKeys rest

def entriesHaveOwnKeys : List (JsString × JsData) → Bool
  | [] => true
  | (key, value) :: rest => decide (key ≠ protoKey) && hasOwnKeys value && entriesHaveOwnKeys rest

end

mutual

theorem hasOwnKeys_of_isPropValue : (data : JsData) → isPropValue data = true →
    hasOwnKeys data = true
  | .array items, valid => haveOwnKeys_of_arePropValues items valid
  | .object entries, valid => entriesHaveOwnKeys_of_valid entries valid
  | .undefined, _ | .null, _ | .boolean _, _ | .number _, _ | .string _, _ | .bytes _, _ => rfl

theorem haveOwnKeys_of_arePropValues : (items : List JsData) → arePropValues items = true →
    haveOwnKeys items = true
  | [], _ => rfl
  | item :: rest, valid => by
    rw [arePropValues, Bool.and_eq_true] at valid
    rw [haveOwnKeys, hasOwnKeys_of_isPropValue item valid.1,
      haveOwnKeys_of_arePropValues rest valid.2]
    rfl

theorem entriesHaveOwnKeys_of_valid : (entries : List (JsString × JsData)) →
    propValueObjectEntriesAreValid entries = true → entriesHaveOwnKeys entries = true
  | [], _ => rfl
  | (key, value) :: rest, valid => by
    rw [propValueObjectEntriesAreValid, Bool.and_eq_true, Bool.and_eq_true] at valid
    obtain ⟨⟨allowed, here⟩, later⟩ := valid
    have own : key ≠ protoKey := by
      intro same
      simp [same, forbiddenPropertyValueKeys] at allowed
    rw [entriesHaveOwnKeys, hasOwnKeys_of_isPropValue value here,
      entriesHaveOwnKeys_of_valid rest later]
    simpa using own

end

/-! ### Sorting keeps the measures -/

variable (entries : List (JsString × JsData))

theorem entryDepths_le_iff :
    entryDepths entries ≤ bound ↔ ∀ entry ∈ entries, entry.2.depth + 1 ≤ bound := by
  induction entries with
  | nil => simp [entryDepths]
  | cons entry rest ih => rw [entryDepths, Nat.max_le, ih, forall_mem_cons]

theorem entrySizes_eq : entrySizes entries = (entries.map fun entry => 1 + entry.2.size).sum := by
  induction entries with
  | nil => rfl
  | cons entry rest ih => rw [entrySizes, ih, map_cons, sum_cons]

theorem entryDepths_perm {entries entries'} (same : entries.Perm entries') :
    entryDepths entries = entryDepths entries' := by
  apply Nat.le_antisymm
  · rw [entryDepths_le_iff]
    intro entry mem
    exact (entryDepths_le_iff entries').mp (Nat.le_refl _) entry (same.mem_iff.mp mem)
  · rw [entryDepths_le_iff]
    intro entry mem
    exact (entryDepths_le_iff entries).mp (Nat.le_refl _) entry (same.mem_iff.mpr mem)

theorem entrySizes_perm {entries entries'} (same : entries.Perm entries') :
    entrySizes entries = entrySizes entries' := by
  rw [entrySizes_eq, entrySizes_eq]
  exact (same.map _).sum_nat

theorem perm_enumerationOrder (entries : List (JsString × A)) :
    (enumerationOrder entries).Perm entries :=
  ((perm_sortBy _ _).append_right _).trans (filter_append_perm _ entries)

theorem perm_assignAll (entries : List (JsString × A)) (own : ∀ entry ∈ entries, entry.1 ≠ protoKey) :
    (assignAll entries).Perm entries := by
  have whole : (entries.filter fun entry => entry.1 ≠ protoKey) = entries := by
    rw [filter_eq_self]
    intro entry mem
    simpa using own entry mem
  rw [assignAll, whole]
  exact perm_enumerationOrder entries

theorem mem_sortObjectEntries (mem : entry ∈ sortObjectEntries entries) :
    ∃ original ∈ entries, original.1 = entry.1 := by
  induction entries with
  | nil => cases mem
  | cons first rest ih =>
    rcases mem_cons.mp mem with rfl | later
    · exact ⟨first, mem_cons_self, rfl⟩
    · obtain ⟨original, listed, same⟩ := ih later
      exact ⟨original, mem_cons_of_mem first listed, same⟩

theorem ownKeys_of_entries (own : entriesHaveOwnKeys entries = true) :
    ∀ entry ∈ entries, entry.1 ≠ protoKey := by
  induction entries with
  | nil => exact fun _ mem => absurd mem not_mem_nil
  | cons first rest ih =>
    rw [entriesHaveOwnKeys, Bool.and_eq_true, Bool.and_eq_true] at own
    rw [forall_mem_cons]
    exact ⟨of_decide_eq_true own.1.1, ih own.2⟩

theorem perm_sortedEntries (own : entriesHaveOwnKeys entries = true) :
    (assignAll (sortBy Prod.fst (sortObjectEntries entries))).Perm (sortObjectEntries entries) := by
  apply (perm_assignAll _ ?_).trans (perm_sortBy _ _)
  intro entry mem
  obtain ⟨original, listed, same⟩ := mem_sortObjectEntries entries ((mem_sortBy _ _ _).mp mem)
  rw [← same]
  exact ownKeys_of_entries entries own original listed

mutual

theorem measures_sortKeys : (data : JsData) → hasOwnKeys data = true →
    (sortKeys data).depth = data.depth ∧ (sortKeys data).size = data.size
  | .array items, own => by
    obtain ⟨deep, many⟩ := measures_sortArrayItems items own
    rw [sortKeys, JsData.depth, JsData.size, deep, many]
    exact ⟨rfl, rfl⟩
  | .object entries, own => by
    obtain ⟨deep, many⟩ := measures_sortObjectEntries entries own
    have perm := perm_sortedEntries entries own
    rw [sortKeys, JsData.depth, JsData.size, entryDepths_perm perm, entrySizes_perm perm, deep,
      many]
    exact ⟨rfl, rfl⟩
  | .undefined, _ | .null, _ | .boolean _, _ | .number _, _ | .string _, _ | .bytes _, _ =>
    ⟨rfl, rfl⟩

theorem measures_sortArrayItems : (items : List JsData) → haveOwnKeys items = true →
    depths (sortArrayItems items) = depths items ∧ sizes (sortArrayItems items) = sizes items
  | [], _ => ⟨rfl, rfl⟩
  | item :: rest, own => by
    rw [haveOwnKeys, Bool.and_eq_true] at own
    obtain ⟨deep, many⟩ := measures_sortKeys item own.1
    obtain ⟨deeper, more⟩ := measures_sortArrayItems rest own.2
    rw [sortArrayItems, depths, depths, sizes, sizes, deep, many, deeper, more]
    exact ⟨rfl, rfl⟩

theorem measures_sortObjectEntries : (entries : List (JsString × JsData)) →
    entriesHaveOwnKeys entries = true →
      entryDepths (sortObjectEntries entries) = entryDepths entries ∧
        entrySizes (sortObjectEntries entries) = entrySizes entries
  | [], _ => ⟨rfl, rfl⟩
  | (key, value) :: rest, own => by
    rw [entriesHaveOwnKeys, Bool.and_eq_true, Bool.and_eq_true] at own
    obtain ⟨deep, many⟩ := measures_sortKeys value own.1.2
    obtain ⟨deeper, more⟩ := measures_sortObjectEntries rest own.2
    rw [sortObjectEntries, entryDepths, entryDepths, entrySizes, entrySizes, deep, many, deeper, more]
    exact ⟨rfl, rfl⟩

end

/-! ### Data items -/

section Items

variable (number : JsNumber → Cbor.Item) (utf8 : JsString → List Cbor.Byte)

mutual

/-- The data item of plain data, given how numbers and strings are written. -/
def JsData.item : JsData → Cbor.Item
  | .null => .simple 22
  | .undefined => .simple 23
  | .boolean value => .simple (if value then 21 else 20)
  | .number value => number value
  | .string text => .text (utf8 text)
  | .bytes payload => .bytes payload
  | .array items => .array (itemsOf items)
  | .object entries => .map (entryItems entries)

def itemsOf : List JsData → List Cbor.Item
  | [] => []
  | item :: rest => item.item :: itemsOf rest

def entryItems : List (JsString × JsData) → List Cbor.Item
  | [] => []
  | (key, value) :: rest => .text (utf8 key) :: value.item :: entryItems rest

end

mutual

theorem measures_item (scalar : ∀ value, (number value).IsScalar) : (data : JsData) →
    (data.item number utf8).height = data.depth ∧ (data.item number utf8).count = data.size
  | .number value => ⟨(scalar value).height_eq, (scalar value).count_eq⟩
  | .array items => by
    obtain ⟨deep, many⟩ := measures_itemsOf scalar items
    rw [JsData.item, Cbor.Item.height, Cbor.Item.count, deep, many]
    exact ⟨rfl, rfl⟩
  | .object entries => by
    obtain ⟨deep, many⟩ := measures_entryItems scalar entries
    rw [JsData.item, Cbor.Item.height, Cbor.Item.count, deep, many]
    exact ⟨rfl, rfl⟩
  | .undefined | .null | .boolean _ | .string _ | .bytes _ => ⟨rfl, rfl⟩

theorem measures_itemsOf (scalar : ∀ value, (number value).IsScalar) : (items : List JsData) →
    Cbor.heights (itemsOf number utf8 items) = depths items ∧
      Cbor.counts (itemsOf number utf8 items) = sizes items
  | [] => ⟨rfl, rfl⟩
  | item :: rest => by
    obtain ⟨deep, many⟩ := measures_item scalar item
    obtain ⟨deeper, more⟩ := measures_itemsOf scalar rest
    rw [itemsOf, Cbor.heights, Cbor.counts, deep, many, deeper, more]
    exact ⟨rfl, rfl⟩

theorem measures_entryItems (scalar : ∀ value, (number value).IsScalar) :
    (entries : List (JsString × JsData)) →
    Cbor.heights (entryItems number utf8 entries) = entryDepths entries ∧
      Cbor.counts (entryItems number utf8 entries) = entrySizes entries
  | [] => ⟨rfl, rfl⟩
  | (key, value) :: rest => by
    obtain ⟨deep, many⟩ := measures_item scalar value
    obtain ⟨deeper, more⟩ := measures_entryItems scalar rest
    have flat : (Cbor.Item.text (utf8 key)).height = 0 := rfl
    have single : (Cbor.Item.text (utf8 key)).count = 1 := rfl
    rw [entryItems, Cbor.heights, Cbor.heights, Cbor.counts, Cbor.counts, deep, many, deeper,
      more, entryDepths, entrySizes, flat, single]
    constructor
    · omega
    · omega

end

end Items

end GitWarp
