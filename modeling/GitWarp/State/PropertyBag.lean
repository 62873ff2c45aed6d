import GitWarp.State.ImmutableSnapshot

/-!
# Property bags

A reader groups registers into object literals, one bag for an element, by
assignment under the property key. Assigning under `__proto__` runs the inherited
setter instead. The values are frozen, so where one has become the prototype of a
bag, the properties it lends cannot be assigned over.
-/
namespace GitWarp

open Js Lib List

inductive BagPrototype
  | standard
  | absent
  | value (data : SnapshotPropValue)

namespace BagPrototype

/-- Only an object without a prototype inherits no setter for `__proto__`. -/
def hasSetter : BagPrototype → Bool
  | .absent => false
  | _ => true

/-- The setter takes an object or null and ignores every other value. -/
def replacedBy (proto : BagPrototype) : SnapshotPropValue → BagPrototype
  | .null => .absent
  | .immutableBytes payload => .value (.immutableBytes payload)
  | .array items => .value (.array items)
  | .object entries => .value (.object entries)
  | _ => proto

/-- The inherited properties that refuse an assignment: those of frozen data, and the length
of frozen bytes, which has no setter. -/
def isReadOnly (proto : BagPrototype) (key : JsString) : Bool :=
  match proto with
  | .value (.object entries) => entries.any fun entry => decide (entry.1 = key)
  | .value (.array items) =>
    decide (key = lit "length") || (List.range items.length).any fun i => decide (numberText i = key)
  | .value (.immutableBytes _) => decide (key = lit "length")
  | _ => false

end BagPrototype

structure PropertyBag where
  own : OrdMap JsString SnapshotPropValue
  proto : BagPrototype

/-- The engine's error; its text is not one of the program. -/
def readOnlyProperty : Failure := ⟨.typeError, [], []⟩

namespace PropertyBag

/-- The literal `{}`. -/
def empty : PropertyBag := ⟨.empty, .standard⟩

/-- `bag[key] = value`. -/
def assign (bag : PropertyBag) (key : JsString) (value : SnapshotPropValue) :
    Except Failure PropertyBag :=
  if bag.own.has key then .ok { bag with own := bag.own.set key value }
  else if key = protoKey ∧ bag.proto.hasSetter = true then
    .ok { bag with proto := bag.proto.replacedBy value }
  else if bag.proto.isReadOnly key then .error readOnlyProperty
  else .ok { bag with own := bag.own.set key value }

def assignEach (bag : PropertyBag) : List (JsString × SnapshotPropValue) →
    Except Failure PropertyBag
  | [] => .ok bag
  | (key, value) :: rest => do
    let next ← bag.assign key value
    next.assignEach rest

/-- `cloneBag`. -/
def clone (bag : PropertyBag) : Except Failure PropertyBag :=
  empty.assignEach (enumerationOrder bag.own.entries)

end PropertyBag

section Populate

variable {R : Type} (owner key : R → JsString) (value : R → JsData)

/-- The loop over the records of properties, with the bags of the elements that are shown. -/
def populateVisibleProps (propsById : OrdMap JsString PropertyBag) :
    List R → Except Failure (OrdMap JsString PropertyBag)
  | [] => .ok propsById
  | record :: rest =>
    match propsById.get (owner record) with
    | none => populateVisibleProps propsById rest
    | some props => do
      let filled ← props.assign (key record) (createSnapshotPropValue (value record))
      populateVisibleProps (propsById.set (owner record) filled) rest

end Populate

/-! ### Bags without `__proto__` -/

namespace PropertyBag

theorem assign_of_standard (bag : PropertyBag) (standard : bag.proto = .standard)
    (plain : key ≠ protoKey) (value) :
    bag.assign key value = .ok ⟨bag.own.set key value, .standard⟩ := by
  obtain ⟨own, proto⟩ := bag
  cases standard
  simp [assign, plain, BagPrototype.isReadOnly]

theorem assignEach_of_standard (entries) (bag : PropertyBag) (standard : bag.proto = .standard)
    (plain : ∀ entry ∈ entries, entry.1 ≠ protoKey) :
    bag.assignEach entries =
      .ok ⟨entries.foldl (fun own entry => own.set entry.1 entry.2) bag.own, .standard⟩ := by
  induction entries generalizing bag with
  | nil =>
    obtain ⟨own, proto⟩ := bag
    cases standard
    rfl
  | cons entry rest ih =>
    rw [forall_mem_cons] at plain
    rw [assignEach, assign_of_standard bag standard plain.1]
    exact ih _ rfl plain.2

theorem clone_of_plain (bag : PropertyBag) (plain : bag.own.get protoKey = none) :
    ∃ copy, bag.clone = .ok copy ∧ ∀ key, copy.own.get key = bag.own.get key := by
  have perm := perm_enumerationOrder bag.own.entries
  have keys : ∀ entry ∈ enumerationOrder bag.own.entries, entry.1 ≠ protoKey := by
    rintro ⟨key, value⟩ mem rfl
    have found := (bag.own.mem_entries_iff _).mp (perm.mem_iff.mp mem)
    rw [plain] at found
    cases found
  refine ⟨_, assignEach_of_standard _ empty rfl keys, ?_⟩
  intro key
  apply Option.ext
  intro value
  have nodup : ((enumerationOrder bag.own.entries).map Prod.fst).Nodup :=
    (perm.map Prod.fst).nodup_iff.mpr bag.own.nodup
  have listed := OrdMap.get_ofList_of_nodup _ nodup key value
  rw [perm.mem_iff, OrdMap.mem_entries_iff] at listed
  exact listed

/-! ### Bags and `__proto__` -/

theorem own_proto_assignEach {after} (entries) (bag : PropertyBag)
    (nodup : (entries.map Prod.fst).Nodup) (absent : bag.own.get protoKey = none)
    (setter : bag.proto.hasSetter = true ∨ protoKey ∉ entries.map Prod.fst)
    (filled : bag.assignEach entries = .ok after) : after.own.get protoKey = none := by
  -- while the setter is inherited, or the key is not assigned, no property `__proto__` appears
  induction entries generalizing bag with
  | nil =>
    cases filled
    exact absent
  | cons entry rest ih =>
    obtain ⟨key, value⟩ := entry
    rw [map_cons, nodup_cons] at nodup
    rw [assignEach, bind_eq_ok] at filled
    obtain ⟨next, assigned, filled⟩ := filled
    by_cases here : key = protoKey
    · -- the setter runs, and the key does not come again
      subst here
      have runs : bag.proto.hasSetter = true := by
        rcases setter with held | unlisted
        · exact held
        · exact absurd mem_cons_self unlisted
      have unset : bag.own.has protoKey = false := (OrdMap.has_eq_false_iff _ _).mpr absent
      simp only [assign, unset, Bool.false_eq_true, if_false, runs, and_self, if_true,
        Except.ok.injEq] at assigned
      subst assigned
      exact ih ⟨bag.own, bag.proto.replacedBy value⟩ nodup.2 absent (Or.inr nodup.1) filled
    · -- the prototype stays, and the new property has another key
      have kept : next.own = bag.own.set key value ∧ next.proto = bag.proto := by
        simp only [assign, here, false_and, if_false] at assigned
        split at assigned
        · cases assigned
          exact ⟨rfl, rfl⟩
        · split at assigned
          · cases assigned
          · cases assigned
            exact ⟨rfl, rfl⟩
      apply ih next nodup.2 ?_ ?_ filled
      · rw [kept.1, OrdMap.get_set, if_neg here]
        exact absent
      · rw [kept.2]
        rcases setter with held | unlisted
        · exact Or.inl held
        · exact Or.inr fun mem => unlisted (mem_cons_of_mem _ mem)

theorem own_proto_clone (bag copy : PropertyBag) (cloned : bag.clone = .ok copy) :
    copy.own.get protoKey = none := by
  have perm := perm_enumerationOrder bag.own.entries
  apply own_proto_assignEach _ empty ((perm.map Prod.fst).nodup_iff.mpr bag.own.nodup) rfl
    (Or.inl rfl) cloned

end PropertyBag

/-! ### Populated bags -/

section Populate

variable {R : Type} (owner key : R → JsString) (value : R → JsData)

/-- The bag of an element gets the values of its records, and keeps its other properties. -/
theorem populateVisibleProps_of_plain
    (distinct : (records.map fun record => (owner record, key record)).Nodup)
    (plain : ∀ record ∈ records, key record ≠ protoKey) (propsById)
    (standard : ∀ id bag, propsById.get id = some bag → bag.proto = .standard) :
    ∃ filled, populateVisibleProps owner key value propsById records = .ok filled ∧
      ∀ id, (propsById.get id = none → filled.get id = none) ∧
        ∀ bag, propsById.get id = some bag → ∃ after, filled.get id = some after ∧
          ∀ k v, after.own.get k = some v ↔
            (∃ record ∈ records, owner record = id ∧ key record = k ∧
              createSnapshotPropValue (value record) = v) ∨
            (∀ record ∈ records, (owner record, key record) ≠ (id, k)) ∧
              bag.own.get k = some v := by
  induction records generalizing propsById with
  | nil =>
    refine ⟨propsById, rfl, fun id => ⟨fun absent => absent, ?_⟩⟩
    intro bag held
    exact ⟨bag, held, by simp⟩
  | cons record rest ih =>
    rw [map_cons, nodup_cons] at distinct
    rw [forall_mem_cons] at plain
    -- the key of the first record is not assigned again in the same bag
    have once : ∀ later ∈ rest, (owner later, key later) ≠ (owner record, key record) := by
      intro later member same
      exact distinct.1 (same ▸ mem_map_of_mem member)
    rw [populateVisibleProps]
    cases held : propsById.get (owner record) with
    | none =>
      obtain ⟨filled, populated, bags⟩ := ih distinct.2 plain.2 propsById standard
      refine ⟨filled, populated, fun id => ⟨(bags id).1, ?_⟩⟩
      intro bag found
      obtain ⟨after, here, holds⟩ := (bags id).2 bag found
      have other : owner record ≠ id := by
        rintro rfl
        rw [held] at found
        cases found
      refine ⟨after, here, ?_⟩
      intro k v
      rw [holds k v]
      simp [other]
    | some props =>
      obtain ⟨filled, populated, bags⟩ := ih distinct.2 plain.2
        (propsById.set (owner record)
          ⟨props.own.set (key record) (createSnapshotPropValue (value record)), .standard⟩)
        (OrdMap.forall_set rfl standard)
      refine ⟨filled, ?_, fun id => ⟨?_, ?_⟩⟩
      · simp only [PropertyBag.assign_of_standard props (standard _ props held)
          plain.1 (createSnapshotPropValue (value record)), bind, Except.bind, populated]
      · intro absent
        apply (bags id).1
        have other : owner record ≠ id := by
          rintro rfl
          rw [held] at absent
          cases absent
        rw [OrdMap.get_set, if_neg other, absent]
      · intro bag found
        by_cases mine : owner record = id
        · subst mine
          rw [held, Option.some.injEq] at found
          subst found
          obtain ⟨after, here, holds⟩ := (bags (owner record)).2 _ (by
            rw [OrdMap.get_set, if_pos rfl])
          refine ⟨after, here, ?_⟩
          intro k v
          rw [holds k v, OrdMap.get_set]
          by_cases same : key record = k
          · subst same
            have unlisted : ¬ ∃ later ∈ rest, owner later = owner record ∧
                key later = key record ∧ createSnapshotPropValue (value later) = v := by
              rintro ⟨later, member, own, named, -⟩
              exact once later member (by rw [own, named])
            simp only [unlisted, false_or, if_true, Option.some.injEq, exists_mem_cons_iff,
              true_and, or_false, forall_mem_cons, ne_eq, not_true, false_and]
            exact ⟨fun shown => shown.2, fun shown => ⟨once, shown⟩⟩
          · simp [same]
        · obtain ⟨after, here, holds⟩ := (bags id).2 bag (by
            rw [OrdMap.get_set, if_neg mine, found])
          refine ⟨after, here, ?_⟩
          intro k v
          rw [holds k v]
          simp [mine]

end Populate

end GitWarp
