import Mathlib.Data.List.Induction
import Mathlib.Data.List.Nodup
import Mathlib.Data.List.Perm.Subperm

/-!
# Insertion-ordered maps and sets

A map remembers the order in which its keys were first set; a set does the same for
its members. Two maps are compared by their lookups (`OrdMap.Equiv`), two sets by
their members (`OrdSet.Equiv`).
-/
namespace Lib

open List

variable {K V W : Type} [DecidableEq K]

/-! ### Association lists -/

def assocGet : List (K × V) → K → Option V
  | [], _ => none
  | (key, value) :: rest, k => if key = k then some value else assocGet rest k

def assocSet : List (K × V) → K → V → List (K × V)
  | [], k, v => [(k, v)]
  | (key, value) :: rest, k, v =>
    if key = k then (k, v) :: rest else (key, value) :: assocSet rest k v

variable (entries : List (K × V))

theorem assocGet_eq_none_iff (k : K) : assocGet entries k = none ↔ k ∉ entries.map Prod.fst := by
  induction entries with
  | nil => simp [assocGet]
  | cons entry rest ih =>
    by_cases same : entry.1 = k
    · simp [assocGet, same]
    · simp [assocGet, same, ih, Ne.symm same]

theorem assocGet_set (v : V) :
    assocGet (assocSet entries k v) k' = if k = k' then some v else assocGet entries k' := by
  induction entries with
  | nil => simp [assocSet, assocGet]
  | cons entry rest ih =>
    by_cases same : entry.1 = k
    · by_cases target : k = k' <;> simp [assocSet, assocGet, same, target]
    · by_cases target : k = k'
      · subst target
        simp [assocSet, assocGet, same, ih]
      · simp [assocSet, assocGet, same, ih, target]

theorem assocSet_of_get (k : K) (v : V) (held : assocGet entries k = some v) :
    assocSet entries k v = entries := by
  induction entries with
  | nil => simp [assocGet] at held
  | cons entry rest ih =>
    by_cases same : entry.1 = k
    · simp only [assocGet, same, ite_true, Option.some.injEq] at held
      simp [assocSet, ← same, ← held]
    · simp only [assocGet, same, ite_false] at held
      simp [assocSet, same, ih held]

theorem assocSet_of_absent (k : K) (v : V) (absent : assocGet entries k = none) :
    assocSet entries k v = entries ++ [(k, v)] := by
  induction entries with
  | nil => rfl
  | cons entry rest ih =>
    by_cases same : entry.1 = k
    · simp [assocGet, same] at absent
    · simp only [assocGet, same, ite_false] at absent
      simp [assocSet, same, ih absent]

theorem keys_assocSet (k : K) (v : V) :
    (assocSet entries k v).map Prod.fst =
      if k ∈ entries.map Prod.fst then entries.map Prod.fst else entries.map Prod.fst ++ [k] := by
  induction entries with
  | nil => simp [assocSet]
  | cons entry rest ih =>
    by_cases same : entry.1 = k
    · simp [assocSet, same]
    · simp only [assocSet, same, ite_false, map_cons, ih, mem_cons, Ne.symm same, false_or]
      split <;> simp

theorem assocGet_eq_some_iff (nodup : (entries.map Prod.fst).Nodup) (k : K) (v : V) :
    assocGet entries k = some v ↔ (k, v) ∈ entries := by
  induction entries with
  | nil => simp [assocGet]
  | cons entry rest ih =>
    obtain ⟨key, value⟩ := entry
    simp only [map_cons, nodup_cons] at nodup
    by_cases same : key = k
    · subst same
      have fresh : (key, v) ∉ rest := fun mem => nodup.1 (mem_map_of_mem mem)
      simp [assocGet, fresh, eq_comm]
    · simp [assocGet, same, ih nodup.2, Ne.symm same]

theorem assocGet_of_perm (nodup : (entries.map Prod.fst).Nodup) (perm : entries'.Perm entries)
    (k : K) : assocGet entries' k = assocGet entries k := by
  have nodup' : (entries'.map Prod.fst).Nodup := (perm.map Prod.fst).nodup_iff.mpr nodup
  apply Option.ext
  intro v
  rw [assocGet_eq_some_iff entries nodup, assocGet_eq_some_iff entries' nodup']
  exact perm.mem_iff

theorem assocGet_filter_ne :
    assocGet (entries.filter fun entry => entry.1 ≠ k) k' =
      if k = k' then none else assocGet entries k' := by
  induction entries with
  | nil => simp [assocGet]
  | cons entry rest ih =>
    by_cases dropped : entry.1 = k
    · rw [filter_cons_of_neg (by simpa using dropped), ih]
      by_cases target : k = k'
      · simp [target]
      · have other : entry.1 ≠ k' := dropped ▸ target
        simp [assocGet, target, other]
    · rw [filter_cons_of_pos (by simpa using dropped)]
      by_cases target : k = k'
      · subst target
        simpa [assocGet, dropped] using ih
      · simp only [assocGet, ih, target, ite_false]

/-! ### Maps -/

/-- An insertion-ordered map. -/
structure OrdMap (K V : Type) where
  entries : List (K × V)
  nodup : (entries.map Prod.fst).Nodup
  deriving DecidableEq

variable (m : OrdMap K V) (k : K) (pairs : List (K × V))

namespace OrdMap

def empty : OrdMap K V := ⟨[], List.nodup_nil⟩

def keys (m : OrdMap K V) : List K := m.entries.map Prod.fst

def values (m : OrdMap K V) : List V := m.entries.map Prod.snd

def size (m : OrdMap K V) : Nat := m.entries.length

def get (m : OrdMap K V) (k : K) : Option V := assocGet m.entries k

def has (m : OrdMap K V) (k : K) : Bool := (m.get k).isSome

/-- Replacing keeps the key's position; a new key goes last. -/
def set (m : OrdMap K V) (k : K) (v : V) : OrdMap K V where
  entries := assocSet m.entries k v
  nodup := by
    rw [keys_assocSet]
    split
    · exact m.nodup
    next fresh => exact List.nodup_append.mpr ⟨m.nodup, List.nodup_singleton k, by
        rintro a present b only rfl
        rw [List.mem_singleton] at only
        exact fresh (only ▸ present)⟩

def delete (m : OrdMap K V) (k : K) : OrdMap K V where
  entries := m.entries.filter fun entry => entry.1 ≠ k
  nodup := m.nodup.sublist (List.filter_sublist.map Prod.fst)

def ofList (entries : List (K × V)) : OrdMap K V :=
  entries.foldl (fun m entry => m.set entry.1 entry.2) empty

def mapValues (f : V → W) (m : OrdMap K V) : OrdMap K W where
  entries := m.entries.map fun entry => (entry.1, f entry.2)
  nodup := by simpa [Function.comp_def] using m.nodup

/-- The entries whose keys are kept. -/
def filterKeys (keep : K → Bool) (m : OrdMap K V) : OrdMap K V where
  entries := m.entries.filter fun entry => keep entry.1
  nodup := m.nodup.sublist (List.filter_sublist.map _)

/-- Agreement of every lookup. -/
def Equiv (m m' : OrdMap K V) : Prop := ∀ k, m.get k = m'.get k

@[simp] theorem get_empty : (empty : OrdMap K V).get k = none := rfl

@[simp] theorem get_set : (m.set k v).get k' = if k = k' then some v else m.get k' :=
  assocGet_set m.entries v

@[simp] theorem get_delete (k' : K) : (m.delete k).get k' = if k = k' then none else m.get k' :=
  assocGet_filter_ne m.entries

/-- What holds of the entries of a map and of a new one. -/
theorem forall_set {P : K → V → Prop} {m : OrdMap K V} {k} (here : P k v)
    (old : ∀ k v, m.get k = some v → P k v) : ∀ k' w, (m.set k v).get k' = some w → P k' w := by
  intro k' w held
  rw [get_set] at held
  split at held
  next same => exact same ▸ Option.some.inj held ▸ here
  · exact old k' w held

theorem forall_delete {P : K → V → Prop} {m : OrdMap K V} {k}
    (old : ∀ k v, m.get k = some v → P k v) : ∀ k' w, (m.delete k).get k' = some w → P k' w := by
  intro k' w held
  rw [get_delete] at held
  split at held
  · cases held
  · exact old k' w held

theorem mem_entries_iff : (k, v) ∈ m.entries ↔ m.get k = some v :=
  (assocGet_eq_some_iff m.entries m.nodup k v).symm

theorem has_eq_true_iff : m.has k = true ↔ ∃ v, m.get k = some v := by
  rw [has, Option.isSome_iff_exists]

theorem has_eq_false_iff : m.has k = false ↔ m.get k = none := by
  rw [has, Option.isSome_eq_false_iff, Option.isNone_iff_eq_none]

theorem mem_keys_iff : k ∈ m.keys ↔ (m.get k).isSome = true := by
  have absent := assocGet_eq_none_iff m.entries k
  rw [← not_iff_not, Bool.not_eq_true, Option.isSome_eq_false_iff, Option.isNone_iff_eq_none]
  exact absent.symm

theorem exists_get_of_mem_keys (mem : k ∈ m.keys) : ∃ v, m.get k = some v :=
  Option.isSome_iff_exists.mp ((m.mem_keys_iff k).mp mem)

theorem size_set_of_absent (absent : m.get k = none) : (m.set k v).size = m.size + 1 := by
  have fresh : k ∉ m.entries.map Prod.fst := (assocGet_eq_none_iff m.entries k).mp absent
  have keys := congrArg List.length (keys_assocSet m.entries k v)
  simpa [fresh, size, set] using keys

theorem get_of_size_eq {members : List K} (inside : ∀ k v, m.get k = some v → k ∈ members)
    (full : m.size = members.length) {k} (mem : k ∈ members) : ∃ v, m.get k = some v := by
  have subset : m.keys ⊆ members := by
    intro k present
    obtain ⟨v, found⟩ := m.exists_get_of_mem_keys k present
    exact inside k v found
  have perm : m.keys.Perm members :=
    (m.nodup.subperm subset).perm_of_length_le (by simp [← full, size])
  exact m.exists_get_of_mem_keys k (perm.mem_iff.mpr mem)

theorem get_ofList (k : K) :
    (ofList pairs).get k = ((pairs.filter fun pair => pair.1 = k).getLast?).map Prod.snd := by
  induction pairs using List.reverseRecOn with
  | nil => rfl
  | append_singleton rest pair ih =>
    have step : ofList (rest ++ [pair]) = (ofList rest).set pair.1 pair.2 := by
      simp [ofList, foldl_append]
    rw [step, get_set, filter_append]
    by_cases same : pair.1 = k
    · simp [same]
    · simp [same, ih]

theorem get_ofList_const {A : Type} (f) (v : V) (items : List A) (k : K) :
    (ofList (items.map fun a => (f a, v))).get k = if k ∈ items.map f then some v else none := by
  induction items using List.reverseRecOn with
  | nil => rfl
  | append_singleton rest a ih =>
    have step : ofList ((rest ++ [a]).map fun a => (f a, v)) =
        (ofList (rest.map fun a => (f a, v))).set (f a) v := by
      simp [ofList, foldl_append]
    rw [step, get_set, ih]
    by_cases same : f a = k
    · simp [same]
    · simp [same, Ne.symm same]

theorem mem_of_mem_entries_ofList (mem : entry ∈ (ofList pairs).entries) : entry ∈ pairs := by
  obtain ⟨k, v⟩ := entry
  have found := ((ofList pairs).mem_entries_iff k).mp mem
  rw [get_ofList, Option.map_eq_some_iff] at found
  obtain ⟨pair, last, rfl⟩ := found
  have listed := List.mem_filter.mp (mem_of_getLast? last)
  simp only [decide_eq_true_eq] at listed
  exact listed.2 ▸ listed.1

theorem filter_values {key : V → K} (own : ∀ entry ∈ m.entries, key entry.2 = entry.1) (k : K) :
    (m.values.filter fun v => key v = k) = (m.get k).toList := by
  obtain ⟨entries, nodup⟩ := m
  simp only [values, get] at *
  induction entries with
  | nil => rfl
  | cons entry rest ih =>
    simp only [map_cons, nodup_cons] at nodup
    have here := own entry mem_cons_self
    have tail := ih nodup.2 (forall_mem_cons.mp own).2
    rw [map_cons, filter_cons, here, tail, assocGet]
    by_cases same : entry.1 = k
    · have absent : assocGet rest k = none := (assocGet_eq_none_iff rest k).mpr (same ▸ nodup.1)
      simp [same, absent]
    · simp [same]

@[simp] theorem get_filterKeys (keep) (m : OrdMap K V) (k : K) :
    (m.filterKeys keep).get k = if keep k = true then m.get k else none := by
  apply Option.ext
  intro v
  rw [← mem_entries_iff, filterKeys, List.mem_filter, mem_entries_iff]
  by_cases kept : keep k = true
  · simp [kept]
  · simp [kept]

omit [DecidableEq K] in
@[ext] theorem ext_entries {m m' : OrdMap K V} (same : m.entries = m'.entries) : m = m' := by
  cases m; cases m'; simp_all

theorem set_of_get (held : m.get k = some v) : m.set k v = m :=
  ext_entries (assocSet_of_get m.entries k v held)

theorem entries_foldl_set (f) {items : List W} (m : OrdMap K V)
    (nodup : (items.map fun item => (f item).1).Nodup)
    (fresh : ∀ item ∈ items, m.get (f item).1 = none) :
    (items.foldl (fun m item => m.set (f item).1 (f item).2) m).entries =
      m.entries ++ items.map f := by
  induction items generalizing m with
  | nil => simp
  | cons item rest ih =>
    rw [map_cons, nodup_cons] at nodup
    rw [foldl_cons, ih (m.set (f item).1 (f item).2) nodup.2 ?_]
    · have absent : assocGet m.entries (f item).1 = none := fresh item mem_cons_self
      simp [set, assocSet_of_absent m.entries _ _ absent]
    · intro later mem
      have apart : (f item).1 ≠ (f later).1 := fun same =>
        nodup.1 (same ▸ mem_map_of_mem mem)
      rw [get_set, if_neg apart]
      exact fresh later (mem_cons_of_mem _ mem)

theorem get_ofList_of_nodup (nodup : (pairs.map Prod.fst).Nodup) (k : K) (v : V) :
    (ofList pairs).get k = some v ↔ (k, v) ∈ pairs := by
  have listed : (ofList pairs).entries = pairs := by
    have set_all := entries_foldl_set (fun pair : K × V => pair) empty nodup
      (fun _ _ => rfl)
    simpa [ofList, empty] using set_all
  rw [← mem_entries_iff, listed]

namespace Equiv

theorem refl : m.Equiv m := fun _ => rfl

end Equiv
end OrdMap

/-! ### Sets -/

/-- An insertion-ordered set. -/
structure OrdSet (K : Type) where
  toList : List K
  nodup : toList.Nodup
  deriving DecidableEq

variable (s : OrdSet K) (x : K)

namespace OrdSet

def empty : OrdSet K := ⟨[], List.nodup_nil⟩

instance : Membership K (OrdSet K) := ⟨fun s x => x ∈ s.toList⟩

instance (x : K) (s : OrdSet K) : Decidable (x ∈ s) := inferInstanceAs (Decidable (x ∈ s.toList))

def has (s : OrdSet K) (x : K) : Bool := decide (x ∈ s)

def size (s : OrdSet K) : Nat := s.toList.length

def add (s : OrdSet K) (x : K) : OrdSet K :=
  if fresh : x ∈ s.toList then s
  else ⟨s.toList ++ [x], List.nodup_append.mpr ⟨s.nodup, List.nodup_singleton x, by
    rintro a present b only rfl
    rw [List.mem_singleton] at only
    exact fresh (only ▸ present)⟩⟩

def delete (s : OrdSet K) (x : K) : OrdSet K :=
  ⟨s.toList.filter fun y => y ≠ x, s.nodup.filter _⟩

def filter (keep : K → Bool) (s : OrdSet K) : OrdSet K :=
  ⟨s.toList.filter keep, s.nodup.filter _⟩

/-- Adds every listed member, in order. -/
def addAll (s : OrdSet K) (xs : List K) : OrdSet K := xs.foldl add s

def ofList (xs : List K) : OrdSet K := empty.addAll xs

omit [DecidableEq K] in
@[ext] theorem ext_toList {s s' : OrdSet K} (same : s.toList = s'.toList) : s = s' := by
  cases s; cases s'; simp_all

/-- Agreement of membership. -/
def Equiv (s s' : OrdSet K) : Prop := ∀ x, x ∈ s ↔ x ∈ s'

omit [DecidableEq K] in
@[simp] theorem mem_toList : x ∈ s.toList ↔ x ∈ s := Iff.rfl

omit [DecidableEq K] in
@[simp] theorem not_mem_empty : x ∉ (empty : OrdSet K) := not_mem_nil

@[simp] theorem has_iff : s.has x = true ↔ x ∈ s := by simp [has]

@[simp] theorem has_eq_false_iff : s.has x = false ↔ x ∉ s := by simp [has]

@[simp] theorem mem_add : y ∈ s.add x ↔ y ∈ s ∨ y = x := by
  unfold add
  split
  next present =>
    constructor
    · exact Or.inl
    · rintro (old | rfl)
      · exact old
      · exact present
  · change y ∈ s.toList ++ [x] ↔ _
    simp

@[simp] theorem mem_delete (y : K) : y ∈ s.delete x ↔ y ∈ s ∧ y ≠ x := by
  change y ∈ s.toList.filter _ ↔ _
  simp

omit [DecidableEq K] in
@[simp] theorem mem_filter (keep) (y : K) : y ∈ s.filter keep ↔ y ∈ s ∧ keep y = true := by
  change y ∈ s.toList.filter _ ↔ _
  simp

@[simp] theorem mem_addAll : y ∈ s.addAll xs ↔ y ∈ s ∨ y ∈ xs := by
  induction xs generalizing s with
  | nil => simp [addAll]
  | cons x rest ih =>
    change y ∈ (s.add x).addAll rest ↔ _
    rw [ih, mem_add, mem_cons, or_assoc]

@[simp] theorem mem_ofList {y : K} : y ∈ ofList xs ↔ y ∈ xs := by
  simp [ofList]

theorem ofList_toList : ofList s.toList = s := by
  have grows : ∀ (done todo : List K) (hd : done.Nodup), (done ++ todo).Nodup →
      ((⟨done, hd⟩ : OrdSet K).addAll todo).toList = done ++ todo := by
    intro done todo
    induction todo generalizing done with
    | nil => intro hd _; simp [addAll]
    | cons x rest ih =>
      intro hd whole
      have fresh : x ∉ done := fun old =>
        (nodup_append.mp whole).2.2 x old x mem_cons_self rfl
      have moved : (done ++ [x] ++ rest).Nodup := by simpa using whole
      have step : (⟨done, hd⟩ : OrdSet K).add x = ⟨done ++ [x], moved.of_append_left⟩ := by
        simp [add, fresh]
      change (((⟨done, hd⟩ : OrdSet K).add x).addAll rest).toList = _
      rw [step, ih (done ++ [x]) _ moved]
      simp
  exact ext_toList (grows [] s.toList nodup_nil (by simpa using s.nodup))

omit [DecidableEq K] in
theorem size_eq_zero_iff : s.size = 0 ↔ ∀ x, x ∉ s := by
  obtain ⟨members, nodup⟩ := s
  change members.length = 0 ↔ ∀ x, x ∉ members
  rw [length_eq_zero_iff, eq_nil_iff_forall_not_mem]

theorem toList_add (fresh : x ∉ s) : (s.add x).toList = s.toList ++ [x] := by
  have absent : x ∉ s.toList := fresh
  unfold add
  rw [dif_neg absent]

theorem size_add (fresh : x ∉ s) : (s.add x).size = s.size + 1 := by
  unfold size
  rw [toList_add s x fresh, length_append]
  rfl

end OrdSet
end Lib
