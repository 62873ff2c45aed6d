import GitWarp.Lib.OrdMap
import GitWarp.Crdt.Dot

/-!
# Version vectors

A version vector maps each writer to the greatest counter seen from it. Zero
counters are not stored, so two vectors have the same entries exactly when they
give the same counter to every writer.
-/
namespace GitWarp

open Js Lib

/-- A number of the language: an integer, or the text of any other number. -/
inductive JsNumber
  | int (value : Int)
  | other (text : JsString)
  deriving DecidableEq

def intText : Int → JsString
  | .ofNat n => numberText n
  | .negSucc n => lit "-" ++ numberText (n + 1)

def JsNumber.text : JsNumber → JsString
  | .int value => intText value
  | .other text => text

structure VersionVector where
  entries : OrdMap JsString Nat
  valid : ∀ writerId counter, entries.get writerId = some counter → writerId ≠ [] ∧ 0 < counter

namespace VersionVector

def empty : VersionVector := ⟨.empty, by simp⟩

def get (vv : VersionVector) (writerId : JsString) : Option Nat := vv.entries.get writerId

/-- `vv.get(writerId) ?? 0`. -/
def counter (vv : VersionVector) (writerId : JsString) : Nat := (vv.get writerId).getD 0

/-- `_validateEntry`. -/
def validateEntry (writerId : JsString) (counter : JsNumber) : Except Failure Nat :=
  if writerId = [] then
    .error ⟨.crdtError, lit "E_CRDT_INVALID_WRITER_ID", lit "Invalid writerId: " ++ writerId⟩
  else
    let invalid : Failure := ⟨.crdtError, lit "E_CRDT_INVALID_COUNTER",
      lit "Invalid counter for writerId \"" ++ writerId ++ lit "\": " ++ counter.text⟩
    match counter with
    | .int value => if 0 ≤ value then .ok value.toNat else .error invalid
    | .other _ => .error invalid

/-- Stores a counter; a zero counter is not stored. -/
def put (vv : VersionVector) (writerId : JsString) (named : writerId ≠ []) (counter : Nat) :
    VersionVector :=
  if zero : counter = 0 then ⟨vv.entries.delete writerId, by
    intro w c found
    rw [OrdMap.get_delete] at found
    split at found
    · exact absurd found (by simp)
    · exact vv.valid w c found⟩
  else ⟨vv.entries.set writerId counter, by
    intro w c found
    rw [OrdMap.get_set] at found
    split at found
    next same =>
      cases found
      exact ⟨same ▸ named, Nat.pos_of_ne_zero zero⟩
    · exact vv.valid w c found⟩

/-- `set`; an unnamed writer is rejected. -/
def set (vv : VersionVector) (writerId : JsString) (counter : Nat) :
    Except Failure VersionVector :=
  if named : writerId = [] then
    .error ⟨.crdtError, lit "E_CRDT_INVALID_WRITER_ID", lit "Invalid writerId: " ++ writerId⟩
  else .ok (vv.put writerId named counter)

/-- The loop shared by `_fromMap` and `_fromPlainObject`. -/
def fromEntriesLoop (vv : VersionVector) :
    List (JsString × JsNumber) → Except Failure VersionVector
  | [] => .ok vv
  | (writerId, counter) :: rest => do
    let value ← validateEntry writerId counter
    if value = 0 then vv.fromEntriesLoop rest
    else (← vv.set writerId value).fromEntriesLoop rest

/-- `from` of a map or a plain record, entry by entry. -/
def fromEntries (source : List (JsString × JsNumber)) : Except Failure VersionVector :=
  empty.fromEntriesLoop source

/-- Merging one entry keeps the greater counter. -/
def mergeEntry (vv : VersionVector) (writerId : JsString) (named : writerId ≠ []) (counter : Nat) :
    VersionVector :=
  vv.put writerId named (max (vv.counter writerId) counter)

/-- The merge loop over the other vector's entries. -/
def mergeLoop (vv : VersionVector) :
    (others : List (JsString × Nat)) → (∀ entry ∈ others, entry.1 ≠ []) → VersionVector
  | [], _ => vv
  | (writerId, counter) :: rest, named =>
    (vv.mergeEntry writerId (named _ List.mem_cons_self) counter).mergeLoop rest
      (List.forall_mem_cons.mp named).2

theorem named_of_mem (vv : VersionVector) (entry) (mem : entry ∈ vv.entries.entries) :
    entry.1 ≠ [] :=
  (vv.valid entry.1 entry.2 ((vv.entries.mem_entries_iff _).mp mem)).1

def merge (vv other : VersionVector) : VersionVector :=
  vv.mergeLoop other.entries.entries other.named_of_mem

/-- `increment`: the next dot of a writer, recorded in the vector. -/
def increment (vv : VersionVector) (writerId : JsString) :
    Except Failure (Dot × VersionVector) :=
  if named : writerId = [] then
    .error (crdtError "E_CRDT_INVALID_WRITER_ID" "writerId must be a non-empty string")
  else .ok (⟨writerId, vv.counter writerId + 1, named, Nat.succ_pos _⟩,
    vv.put writerId named (vv.counter writerId + 1))

def contains (vv : VersionVector) (dot : Dot) : Bool := dot.counter ≤ vv.counter dot.writerId

/-- Equal entries, whatever the order. -/
def Equiv (vv other : VersionVector) : Prop := vv.entries.Equiv other.entries

/-! ### Counters -/

theorem equiv_iff_counter (vv other : VersionVector) :
    vv.Equiv other ↔ ∀ w, vv.counter w = other.counter w := by
  constructor
  · intro same w
    simp only [counter, get, same w]
  · intro same w
    have agree := same w
    simp only [counter, get] at agree
    cases left : vv.entries.get w with
    | none =>
      cases right : other.entries.get w with
      | none => rfl
      | some c =>
        have positive := (other.valid w c right).2
        simp [left, right] at agree
        omega
    | some c =>
      have positive := (vv.valid w c left).2
      cases right : other.entries.get w with
      | none =>
        simp [left, right] at agree
        omega
      | some c' => simpa [left, right] using agree

@[simp] theorem counter_empty (w) : empty.counter w = 0 := rfl

@[simp] theorem counter_put (vv : VersionVector) (w w' : JsString) (named c) :
    (vv.put w named c).counter w' = if w = w' then c else vv.counter w' := by
  unfold put counter get
  split <;> by_cases same : w = w' <;> simp_all

@[simp] theorem counter_mergeEntry (vv : VersionVector) (w w' : JsString) (named c) :
    (vv.mergeEntry w named c).counter w' =
      if w = w' then max (vv.counter w') c else vv.counter w' := by
  unfold mergeEntry
  rw [counter_put]
  split
  next same => rw [same]
  · rfl

theorem counter_mergeLoop (named : ∀ entry ∈ others, entry.1 ≠ [])
    (nodup : (others.map Prod.fst).Nodup) (vv : VersionVector) (w) :
    (vv.mergeLoop others named).counter w =
      max (vv.counter w) ((assocGet others w).getD 0) := by
  induction others generalizing vv with
  | nil => simp [mergeLoop, assocGet]
  | cons entry rest ih =>
    obtain ⟨key, c⟩ := entry
    simp only [List.map_cons, List.nodup_cons] at nodup
    rw [mergeLoop, ih _ nodup.2, counter_mergeEntry]
    by_cases same : key = w
    · subst same
      have absent : assocGet rest key = none := (assocGet_eq_none_iff rest key).mpr nodup.1
      simp [assocGet, absent]
    · simp [assocGet, same]

@[simp] theorem counter_merge (vv other : VersionVector) (w) :
    (vv.merge other).counter w = max (vv.counter w) (other.counter w) :=
  counter_mergeLoop other.named_of_mem other.entries.nodup vv w

end VersionVector
end GitWarp
