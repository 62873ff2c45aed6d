import GitWarp.Codec.PropValue

/-!
# Equality of property values

The comparison goes through arrays by position and through objects by key. It finds two
values equal exactly when they are the same data up to the order of keys and no `NaN` is
inside, which `===` finds different from itself.
-/
namespace GitWarp

open Js Lib List

/-! ### The comparison -/

def JsNumber.isNaN (n : JsNumber) : Bool := decide (n = .other (lit "NaN"))

/-- `===` of two numbers. -/
def JsNumber.strictEquals (left right : JsNumber) : Bool := decide (left = right) && !left.isNaN

mutual

def stateDiffValuesEqual : JsData → JsData → Bool
  | .null, .null => true
  | .undefined, .undefined => true
  | .boolean left, .boolean right => decide (left = right)
  | .number left, .number right => left.strictEquals right
  | .string left, .string right => decide (left = right)
  | .bytes left, .bytes right => decide (left = right)
  | .array left, .array right => stateDiffArraysEqual left right
  | .object left, .object right =>
    decide (left.length = right.length) && stateDiffRecordsEqual left right
  | _, _ => false

def stateDiffArraysEqual : List JsData → List JsData → Bool
  | [], [] => true
  | left :: lefts, right :: rights =>
    stateDiffValuesEqual left right && stateDiffArraysEqual lefts rights
  | _, _ => false

/-- The loop over the keys of the left record. -/
def stateDiffRecordsEqual : List (JsString × JsData) → List (JsString × JsData) → Bool
  | [], _ => true
  | (key, left) :: rest, rights =>
    (match assocGet rights key with
      | none => false
      | some right => stateDiffValuesEqual left right) && stateDiffRecordsEqual rest rights

end

/-! ### Data up to the order of keys -/

mutual

/-- The data with the keys of every object in order. -/
def JsData.ordered : JsData → JsData
  | .array items => .array (orderedItems items)
  | .object entries => .object (sortBy Prod.fst (orderedEntries entries))
  | data => data

def orderedItems : List JsData → List JsData
  | [] => []
  | item :: rest => item.ordered :: orderedItems rest

def orderedEntries : List (JsString × JsData) → List (JsString × JsData)
  | [] => []
  | (key, value) :: rest => (key, value.ordered) :: orderedEntries rest

end

mutual

/-- No `NaN` is inside. -/
def JsData.comparable : JsData → Bool
  | .number n => !n.isNaN
  | .array items => comparableItems items
  | .object entries => comparableEntries entries
  | _ => true

def comparableItems : List JsData → Bool
  | [] => true
  | item :: rest => item.comparable && comparableItems rest

def comparableEntries : List (JsString × JsData) → Bool
  | [] => true
  | (_, value) :: rest => value.comparable && comparableEntries rest

end

mutual

/-- No object lists a key twice, as no object of the language does. -/
def JsData.distinctKeys : JsData → Bool
  | .array items => distinctItems items
  | .object entries => decide ((entries.map Prod.fst).Nodup) && distinctEntries entries
  | _ => true

def distinctItems : List JsData → Bool
  | [] => true
  | item :: rest => item.distinctKeys && distinctItems rest

def distinctEntries : List (JsString × JsData) → Bool
  | [] => true
  | (_, value) :: rest => value.distinctKeys && distinctEntries rest

end

/-- Data whose objects have distinct keys. -/
abbrev PlainData := {data : JsData // data.distinctKeys = true}

variable (entries : List (JsString × JsData))

theorem orderedEntries_eq :
    orderedEntries entries = entries.map fun entry => (entry.1, entry.2.ordered) := by
  induction entries with
  | nil => rfl
  | cons entry rest ih => rw [orderedEntries, ih, map_cons]

theorem comparableEntries_iff :
    comparableEntries entries = true ↔ ∀ entry ∈ entries, entry.2.comparable = true := by
  induction entries with
  | nil => simp [comparableEntries]
  | cons entry rest ih => rw [comparableEntries, Bool.and_eq_true, ih, forall_mem_cons]

theorem distinctEntries_iff :
    distinctEntries entries = true ↔ ∀ entry ∈ entries, entry.2.distinctKeys = true := by
  induction entries with
  | nil => simp [distinctEntries]
  | cons entry rest ih => rw [distinctEntries, Bool.and_eq_true, ih, forall_mem_cons]

/-! ### What the comparison decides -/

theorem sortBy_orderedEntries_iff (leftKeys : (left.map Prod.fst).Nodup)
    (rightKeys : (right.map Prod.fst).Nodup) :
    sortBy Prod.fst (orderedEntries left) = sortBy Prod.fst (orderedEntries right) ↔
      left.length = right.length ∧ ∀ entry ∈ left, ∃ value,
        assocGet right entry.1 = some value ∧ entry.2.ordered = value.ordered := by
  -- two records with distinct keys and equally many of them are the same up to order when the
  -- entries of one are found in the other
  have keys : ∀ entries : List (JsString × JsData),
      (orderedEntries entries).map Prod.fst = entries.map Prod.fst := by
    intro entries
    rw [orderedEntries_eq, map_map]
    rfl
  have leftNodup : (orderedEntries left).Nodup := .of_map Prod.fst ((keys left).symm ▸ leftKeys)
  have rightNodup : (orderedEntries right).Nodup := .of_map Prod.fst ((keys right).symm ▸ rightKeys)
  have found : ∀ key data, (key, data) ∈ orderedEntries right ↔
      ∃ value, assocGet right key = some value ∧ data = value.ordered := by
    intro key data
    simp only [orderedEntries_eq, mem_map, Prod.mk.injEq, Prod.exists,
      assocGet_eq_some_iff right rightKeys]
    constructor
    · rintro ⟨k, value, member, rfl, rfl⟩
      exact ⟨value, member, rfl⟩
    · rintro ⟨value, member, rfl⟩
      exact ⟨key, value, member, rfl, rfl⟩
  rw [sortBy_eq_iff Prod.fst ((keys left).symm ▸ leftKeys) ((keys right).symm ▸ rightKeys)]
  constructor
  · intro same
    have perm := (perm_ext_iff_of_nodup leftNodup rightNodup).mpr same
    refine ⟨?_, ?_⟩
    · -- the same members without repetition: equally many
      have lengths := perm.length_eq
      rwa [orderedEntries_eq, orderedEntries_eq, length_map, length_map] at lengths
    · intro entry member
      apply (found entry.1 entry.2.ordered).mp
      rw [← same, orderedEntries_eq]
      exact mem_map_of_mem member
  · rintro ⟨lengths, held⟩
    have below : orderedEntries left ⊆ orderedEntries right := by
      rintro ⟨key, data⟩ member
      rw [orderedEntries_eq] at member
      obtain ⟨entry, listed, same⟩ := mem_map.mp member
      cases same
      exact (found _ _).mpr (held entry listed)
    have enough : (orderedEntries right).length ≤ (orderedEntries left).length := by
      rw [orderedEntries_eq, orderedEntries_eq, length_map, length_map, lengths]
    have perm := (leftNodup.subperm below).perm_of_length_le enough
    exact fun entry => perm.mem_iff

mutual

/-- Values are found equal exactly when they are the same data up to the order of keys, without
`NaN` inside. -/
theorem stateDiffValuesEqual_iff : (left right : JsData) → left.distinctKeys = true →
    right.distinctKeys = true → (stateDiffValuesEqual left right = true ↔
      left.ordered = right.ordered ∧ left.comparable = true)
  | .array left, right, leftDistinct, rightDistinct => by
    cases right with
    | array right =>
      simp only [stateDiffValuesEqual, JsData.ordered, JsData.comparable, JsData.array.injEq]
      exact stateDiffArraysEqual_iff left right leftDistinct rightDistinct
    | _ => simp [stateDiffValuesEqual, JsData.ordered]
  | .object left, right, leftDistinct, rightDistinct => by
    cases right with
    | object right =>
      rw [JsData.distinctKeys, Bool.and_eq_true, decide_eq_true_eq] at leftDistinct rightDistinct
      simp only [stateDiffValuesEqual, JsData.ordered, JsData.comparable, JsData.object.injEq,
        Bool.and_eq_true, decide_eq_true_eq, comparableEntries_iff,
        sortBy_orderedEntries_iff leftDistinct.1 rightDistinct.1, and_assoc]
      apply and_congr_right
      intro lengths
      exact stateDiffEntriesEqual_iff left right leftDistinct.2 rightDistinct.1 rightDistinct.2
    | _ => simp [stateDiffValuesEqual, JsData.ordered]
  | .number left, right, _, _ => by
    cases right with
    | number right =>
      simp [stateDiffValuesEqual, JsData.ordered, JsData.comparable, JsNumber.strictEquals]
    | _ => simp [stateDiffValuesEqual, JsData.ordered]
  | .undefined, right, _, _ | .null, right, _, _ | .boolean left, right, _, _
  | .string left, right, _, _ | .bytes left, right, _, _ => by
    cases right <;> simp [stateDiffValuesEqual, JsData.ordered, JsData.comparable]

theorem stateDiffArraysEqual_iff : (left right : List JsData) → distinctItems left = true →
    distinctItems right = true → (stateDiffArraysEqual left right = true ↔
      orderedItems left = orderedItems right ∧ comparableItems left = true)
  | [], right, _, _ => by
    cases right <;> simp [stateDiffArraysEqual, orderedItems, comparableItems]
  | item :: rest, right, leftDistinct, rightDistinct => by
    cases right with
    | nil => simp [stateDiffArraysEqual, orderedItems]
    | cons other others =>
      rw [distinctItems, Bool.and_eq_true] at leftDistinct rightDistinct
      simp only [stateDiffArraysEqual, orderedItems, comparableItems, Bool.and_eq_true,
        List.cons.injEq, stateDiffValuesEqual_iff item other leftDistinct.1 rightDistinct.1,
        stateDiffArraysEqual_iff rest others leftDistinct.2 rightDistinct.2]
      exact and_and_and_comm

theorem stateDiffEntriesEqual_iff : (left right : List (JsString × JsData)) →
    distinctEntries left = true → (right.map Prod.fst).Nodup → distinctEntries right = true →
    (stateDiffRecordsEqual left right = true ↔
      (∀ entry ∈ left, ∃ value, assocGet right entry.1 = some value ∧
        entry.2.ordered = value.ordered) ∧ ∀ entry ∈ left, entry.2.comparable = true)
  | [], right, _, _, _ => by simp [stateDiffRecordsEqual]
  | (key, data) :: rest, right, leftDistinct, keys, rightDistinct => by
    rw [distinctEntries, Bool.and_eq_true] at leftDistinct
    simp only [stateDiffRecordsEqual, Bool.and_eq_true, forall_mem_cons,
      stateDiffEntriesEqual_iff rest right leftDistinct.2 keys rightDistinct]
    cases held : assocGet right key with
    | none => simp
    | some value =>
      have mem := (assocGet_eq_some_iff right keys key value).mp held
      have distinct := (distinctEntries_iff right).mp rightDistinct _ mem
      simp only [stateDiffValuesEqual_iff data value leftDistinct.1 distinct, Option.some.injEq,
        exists_eq_left']
      exact and_and_and_comm

end

/-- The same data up to the order of keys. -/
def SameData (left right : PlainData) : Prop := left.val.ordered = right.val.ordered

theorem SameData.symm (same : SameData left right) : SameData right left := Eq.symm same

theorem stateDiffValuesEqual_of_comparable (comparable : left.val.comparable = true) :
    stateDiffValuesEqual left.val right.val = true ↔ SameData left right := by
  rw [stateDiffValuesEqual_iff left.val right.val left.property right.property]
  exact and_iff_left comparable

end GitWarp
