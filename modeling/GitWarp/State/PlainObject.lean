import GitWarp.Codec.PropValue

/-!
# Objects filled key by key

Readers collect properties in an object literal by assigning one key after
another. An object is what property reads find in it: its own properties and its
prototype. Assigning to `__proto__` runs the inherited setter, so it changes the
prototype and adds no property.
-/
namespace GitWarp

open Js Lib List

/-- The prototype of an object: the one of object literals, none, or a value. -/
inductive Prototype
  | standard
  | absent
  | value (data : JsData)

/-- Only an object without a prototype inherits no setter for `__proto__`. -/
def Prototype.hasSetter : Prototype → Bool
  | .absent => false
  | _ => true

/-- The setter takes an object or null and ignores every other value. -/
def Prototype.replacedBy (proto : Prototype) : JsData → Prototype
  | .null => .absent
  | .bytes payload => .value (.bytes payload)
  | .array items => .value (.array items)
  | .object entries => .value (.object entries)
  | _ => proto

structure PlainObject where
  own : JsString → Option JsData
  proto : Prototype

variable (entries : List (JsString × JsData)) (object : PlainObject)

namespace PlainObject

/-- The literal `{}`. -/
def empty : PlainObject := ⟨fun _ => none, .standard⟩

/-- `object[key] = value`. -/
def assign (object : PlainObject) (key : JsString) (value : JsData) : PlainObject :=
  if key = protoKey ∧ object.proto.hasSetter = true then
    { object with proto := object.proto.replacedBy value }
  else
    { object with own := fun k => if key = k then some value else object.own k }

def assignEach (object : PlainObject) (entries : List (JsString × JsData)) : PlainObject :=
  entries.foldl (fun filled entry => filled.assign entry.1 entry.2) object

/-- An object literal after the assignments. -/
def fill (entries : List (JsString × JsData)) : PlainObject := empty.assignEach entries

/-! ### What an object holds -/

theorem assign_of_ne (plain : key ≠ protoKey) :
    object.assign key value =
      { object with own := fun k => if key = k then some value else object.own k } := by
  rw [assign, if_neg (by simp [plain])]

theorem assign_comm (k k' v v') (differ : k ≠ k') :
    (object.assign k v).assign k' v' = (object.assign k' v').assign k v := by
  -- at most one of the two keys runs the setter
  by_cases first : k = protoKey
  · have second : k' ≠ protoKey := fun same => differ (first.trans same.symm)
    rw [assign_of_ne object second, assign_of_ne _ second]
    simp only [assign]
    split
    · rfl
    · simp only [mk.injEq, and_true]
      funext key
      by_cases left : k = key <;> by_cases right : k' = key <;> simp_all
  · rw [assign_of_ne object first, assign_of_ne _ first]
    simp only [assign]
    split
    · rfl
    · simp only [mk.injEq, and_true]
      funext key
      by_cases left : k = key <;> by_cases right : k' = key <;> simp_all

theorem fill_perm (entries') (same : entries.Perm entries') (nodup : (entries.map Prod.fst).Nodup) :
    fill entries = fill entries' := by
  apply same.foldl_eq'
  intro a memberA b memberB object
  by_cases equal : a = b
  · rw [equal]
  · apply assign_comm
    exact fun key => equal (inj_on_of_nodup_map nodup memberA memberB key)

theorem own_assignEach_iff (nodup : (entries.map Prod.fst).Nodup) (k) (plain : k ≠ protoKey) (v) :
    (object.assignEach entries).own k = some v ↔
      (k, v) ∈ entries ∨ k ∉ entries.map Prod.fst ∧ object.own k = some v := by
  -- a key other than `__proto__` holds the value that was assigned to it
  induction entries generalizing object with
  | nil => simp [assignEach]
  | cons entry rest ih =>
    obtain ⟨key, value⟩ := entry
    rw [map_cons, nodup_cons] at nodup
    have step := ih (object.assign key value) nodup.2
    simp only [assignEach, foldl_cons] at step ⊢
    rw [step]
    by_cases here : key = k
    · subst here
      have unlisted : (key, v) ∉ rest := fun member =>
        nodup.1 (mem_map.mpr ⟨(key, v), member, rfl⟩)
      rw [assign_of_ne object plain]
      simp [nodup.1, unlisted, eq_comm]
    · have kept : (object.assign key value).own k = object.own k := by
        rw [assign]
        split
        · rfl
        · simp [here]
      simp [kept, Ne.symm here]

theorem own_fill_iff (nodup : (entries.map Prod.fst).Nodup) (k) (plain : k ≠ protoKey) (v) :
    (fill entries).own k = some v ↔ (k, v) ∈ entries := by
  rw [fill, own_assignEach_iff entries empty nodup k plain v]
  simp [empty]

end PlainObject

end GitWarp
