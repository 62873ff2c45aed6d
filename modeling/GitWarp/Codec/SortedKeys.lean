import GitWarp.Codec.PropValue
import Mathlib.Data.List.Forall2

/-!
# Sorting keys

What the codec is given, Maps included, and what comes of it when the keys are sorted.
-/
namespace GitWarp

open Js Lib List

/-- Arrays, and objects and Maps with text keys, over values that are encoded as they are. -/
inductive Nested (S : Type)
  | scalar (value : S)
  | array (items : List (Nested S))
  | record (isMap : Bool) (entries : List (JsString × Nested S))

namespace Nested

variable {S : Type}

/-- `sortKeys`; an object and a Map both become an object. -/
def sortKeys : Nested S → Nested S
  | .scalar value => .scalar value
  | .array items => .array (items.map sortKeys)
  | .record _ entries =>
    .record false (assignAll (sortBy Prod.fst (entries.map fun entry => (entry.1, sortKeys entry.2))))
decreasing_by
  · have := sizeOf_lt_of_mem ‹_›
    decreasing_tactic
  · next entry mem =>
    have := sizeOf_lt_of_mem mem
    cases entry
    simp at *
    omega

/-- The keys of every object and Map, however deep, have the property. -/
inductive AllKeys (P : List JsString → Prop) : Nested S → Prop
  | scalar (value) : AllKeys P (.scalar value)
  | array {items} : (∀ item ∈ items, AllKeys P item) → AllKeys P (.array items)
  | record {isMap entries} : P (entries.map Prod.fst) → (∀ entry ∈ entries, AllKeys P entry.2) →
      AllKeys P (.record isMap entries)

mutual

/-- Equal up to the order of keys, and up to Map or object. -/
inductive SameData : Nested S → Nested S → Prop
  | scalar (value) : SameData (.scalar value) (.scalar value)
  | array {items others} : Forall₂ SameData items others → SameData (.array items) (.array others)
  | record {isMap isMap' entries others} (aligned) : others.Perm aligned →
      Forall₂ SameEntry entries aligned → SameData (.record isMap entries) (.record isMap' others)

inductive SameEntry : JsString × Nested S → JsString × Nested S → Prop
  | under (key) {value other} : SameData value other → SameEntry (key, value) (key, other)

end

variable {v w : Nested S}

theorem map_eq_of_forall₂ {A B C : Type} {R : A → B → Prop} {f : A → C} {g : B → C} {as bs}
    (related : Forall₂ R as bs) (same : ∀ a ∈ as, ∀ b, R a b → f a = g b) :
    as.map f = bs.map g := by
  induction related with
  | nil => rfl
  | cons first _ ih =>
    rw [map_cons, map_cons, same _ mem_cons_self _ first,
      ih fun a mem => same a (mem_cons_of_mem _ mem)]

theorem exists_of_forall₂ {A B : Type} {R : A → B → Prop} {as bs} (related : Forall₂ R as bs) :
    ∀ a ∈ as, ∃ b ∈ bs, R a b := by
  induction related with
  | nil => simp
  | cons first _ ih =>
    rw [forall_mem_cons]
    refine ⟨⟨_, mem_cons_self, first⟩, fun a mem => ?_⟩
    obtain ⟨b, listed, holds⟩ := ih a mem
    exact ⟨b, mem_cons_of_mem _ listed, holds⟩

/-- Of data that is the same, sorting makes one value, the order of keys included. -/
theorem SameData.sortKeys_eq (distinct : v.AllKeys Nodup) (same : SameData v w) :
    v.sortKeys = w.sortKeys := by
  induction distinct generalizing w with
  | scalar value =>
    cases same
    rfl
  | array _ ih =>
    cases same with
    | array related =>
      rw [sortKeys, sortKeys, map_eq_of_forall₂ related fun item mem other => ih item mem]
  | record keys _ ih =>
    cases same with
    | record aligned perm related =>
      let sorted := fun entry : JsString × Nested S => (entry.1, entry.2.sortKeys)
      have values := map_eq_of_forall₂ (f := sorted) (g := sorted) related fun entry mem other here => by
        cases here with
        | under key inside => exact congrArg (key, ·) (ih _ mem inside)
      have distinct : ((aligned.map sorted).map Prod.fst).Nodup := by
        rw [← values, map_map]
        exact keys
      rw [sortKeys, sortKeys]
      change Nested.record false (assignAll (sortBy Prod.fst (map sorted _))) = _
      rw [values, sortBy_eq_of_perm Prod.fst distinct (perm.map sorted).symm]

theorem mem_assignAll {entries : List (JsString × A)} :
    entry ∈ assignAll entries ↔ entry ∈ entries ∧ entry.1 ≠ protoKey := by
  rw [assignAll, (perm_enumerationOrder _).mem_iff, mem_filter, decide_eq_true_eq]

/-- No sorted data has a key `__proto__`. -/
theorem sortKeys_own (distinct : v.AllKeys Nodup) : v.sortKeys.AllKeys (protoKey ∉ ·) := by
  induction distinct with
  | scalar value =>
    rw [sortKeys]
    exact .scalar value
  | array _ ih =>
    rw [sortKeys]
    refine .array fun item mem => ?_
    obtain ⟨original, listed, rfl⟩ := mem_map.mp mem
    exact ih original listed
  | record _ _ ih =>
    rw [sortKeys]
    refine .record (fun mem => ?_) fun entry mem => ?_
    · obtain ⟨entry, listed, same⟩ := mem_map.mp mem
      exact (mem_assignAll.mp listed).2 same
    · obtain ⟨original, listed, rfl⟩ := mem_map.mp ((mem_sortBy _ _ _).mp (mem_assignAll.mp mem).1)
      exact ih original listed

theorem SameData.own (own : w.AllKeys (protoKey ∉ ·)) (same : SameData v w) :
    v.AllKeys (protoKey ∉ ·) := by
  induction own generalizing v with
  | scalar value =>
    cases same
    exact .scalar value
  | array _ ih =>
    cases same with
    | array related =>
      refine .array fun item mem => ?_
      obtain ⟨other, listed, inside⟩ := exists_of_forall₂ related item mem
      exact ih other listed inside
  | record keys _ ih =>
    cases same with
    | record aligned perm related =>
      have partner : ∀ entry ∈ _, ∃ other, other ∈ _ ∧ SameEntry entry other := fun entry mem => by
        obtain ⟨other, listed, inside⟩ := exists_of_forall₂ related entry mem
        exact ⟨other, perm.mem_iff.mpr listed, inside⟩
      refine .record (fun mem => ?_) fun entry mem => ?_
      · obtain ⟨entry, listed, same⟩ := mem_map.mp mem
        obtain ⟨other, there, ⟨key, -⟩⟩ := partner entry listed
        exact keys (mem_map.mpr ⟨_, there, same⟩)
      · obtain ⟨other, there, ⟨key, inside⟩⟩ := partner entry mem
        exact ih _ there inside

theorem sameData_sortKeys (own : v.AllKeys (protoKey ∉ ·)) : SameData v v.sortKeys := by
  induction own with
  | scalar value =>
    rw [sortKeys]
    exact .scalar value
  | array _ ih =>
    rw [sortKeys]
    exact .array (forall₂_map_right_iff.mpr (forall₂_same.mpr ih))
  | record keys _ ih =>
    rw [sortKeys]
    refine .record _ ((perm_assignAll _ fun entry mem same => ?_).trans (perm_sortBy _ _))
      (forall₂_map_right_iff.mpr (forall₂_same.mpr fun entry mem => .under entry.1 (ih entry mem)))
    obtain ⟨original, listed, rfl⟩ := mem_map.mp ((mem_sortBy _ _ _).mp mem)
    exact keys (mem_map.mpr ⟨original, listed, same⟩)

def encode {B : Type} (encoder : Nested S → B) (data : Nested S) : B := encoder data.sortKeys

/-- Sorting keeps all keys and values exactly where no object or Map has a key `__proto__`.
Data that is the same always gets the same order of keys, and so the same bytes. -/
theorem sortKeys_exact {B : Type} (encoder : Nested S → B)
    (data : {data : Nested S // data.AllKeys Nodup}) :
    (SameData data.val data.val.sortKeys ↔ data.val.AllKeys (protoKey ∉ ·)) ∧
      ∀ other, SameData data.val other → data.val.sortKeys = other.sortKeys ∧
        encode encoder data.val = encode encoder other := by
  refine ⟨⟨fun same => same.own (sortKeys_own data.property), sameData_sortKeys⟩, fun other same => ?_⟩
  have sorted := same.sortKeys_eq data.property
  exact ⟨sorted, congrArg encoder sorted⟩

/-- A Map with the key `__proto__` loses it. -/
theorem proto_lost : ¬ SameData (.record true [(protoKey, .scalar 1)])
    (Nested.record true [(protoKey, .scalar 1)]).sortKeys := by
  intro same
  cases same.own (sortKeys_own (.record (by decide) (by simp [AllKeys.scalar]))) with
  | record keys _ => exact keys mem_cons_self

end Nested
end GitWarp
