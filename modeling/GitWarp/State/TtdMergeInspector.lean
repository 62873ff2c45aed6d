import GitWarp.Audit.AuditMessageCodec
import GitWarp.Lib.SortBy
import Mathlib.Data.List.Dedup

/-!
# Three-way merges of records

A record is copied by assignment and read through its prototype, so what a key names
that every object inherits is taken for a value.
-/
namespace GitWarp

open Js Lib List

/-- What a lookup finds: a text of the record, or what every object inherits under the key. -/
inductive FieldValue
  | text (value : JsString)
  | inherited (key : JsString)
  deriving DecidableEq

structure TtdMergeObstructionWitness where
  fieldKey : JsString
  precursorValue : Option FieldValue
  leftValue : Option FieldValue
  rightValue : Option FieldValue

structure ObjectMergeComputation where
  leftChangedKeys : List JsString
  rightChangedKeys : List JsString
  overlapKeys : List JsString
  obstructions : List TtdMergeObstructionWitness
  candidate : Option (OrdMap JsString FieldValue)

namespace TtdMerge

def isNonEmptyText (text : JsString) : Bool := !text.all isWhiteSpaceUnit

def isOptionalText : Option FieldValue → Bool
  | none => true
  | some (.text value) => isNonEmptyText value
  | some (.inherited _) => false

/-- `copyStringRecord`; assigning a text to `__proto__` does nothing. -/
def copy (fields : OrdMap JsString JsString) : OrdMap JsString JsString := fields.delete protoKey

def requireStringRecord (fields : OrdMap JsString JsString) : Option (OrdMap JsString JsString) :=
  if fields.has [] then none else some (copy fields)

def freezeSortedTexts (values : List JsString) : Option (List JsString) :=
  if values.all isNonEmptyText then some (sortBy id values.dedup) else none

def valueAt (fields : OrdMap JsString JsString) (key : JsString) : Option FieldValue :=
  match fields.get key with
  | some value => some (.text value)
  | none => if key ∈ inheritedKeys then some (.inherited key) else none

def changedKeys (precursor branch : OrdMap JsString JsString) : Option (List JsString) :=
  (freezeSortedTexts (precursor.keys ++ branch.keys)).map
    (filter fun key => valueAt precursor key ≠ valueAt branch key)

def overlap (leftKeys rightKeys : List JsString) : Option (List JsString) :=
  freezeSortedTexts (leftKeys.filter (· ∈ rightKeys))

def buildObstructions (precursor left right : OrdMap JsString JsString)
    (overlapKeys : List JsString) : Option (List TtdMergeObstructionWitness) :=
  let witnesses := (overlapKeys.filter fun key => valueAt left key ≠ valueAt right key).map fun key =>
    ⟨key, valueAt precursor key, valueAt left key, valueAt right key⟩
  if witnesses.all fun w => isNonEmptyText w.fieldKey && isOptionalText w.precursorValue &&
      isOptionalText w.leftValue && isOptionalText w.rightValue then some witnesses else none

def applyChanges (branch : OrdMap JsString JsString) (keys : List JsString)
    (candidate : OrdMap JsString FieldValue) : OrdMap JsString FieldValue :=
  keys.foldl (fun candidate key =>
    match valueAt branch key with
    | none => candidate.delete key
    | some value => candidate.set key value) candidate

def buildObjectMergeComputation (precursor left right : OrdMap JsString JsString) :
    Option ObjectMergeComputation := do
  let precursor ← requireStringRecord precursor
  let left ← requireStringRecord left
  let right ← requireStringRecord right
  let leftChangedKeys ← changedKeys precursor left
  let rightChangedKeys ← changedKeys precursor right
  let overlapKeys ← overlap leftChangedKeys rightChangedKeys
  let obstructions ← buildObstructions precursor left right overlapKeys
  pure
    { leftChangedKeys, rightChangedKeys, overlapKeys, obstructions
      candidate := if obstructions.length > 0 then none
        else some (applyChanges right rightChangedKeys (applyChanges left leftChangedKeys
          (precursor.mapValues .text))) }

/-! ### What a merge should be -/

variable (p l r : OrdMap JsString JsString)

/-- Both sides changed the key, to different outcomes. -/
def Conflict (key : JsString) : Prop :=
  l.get key ≠ p.get key ∧ r.get key ≠ p.get key ∧ l.get key ≠ r.get key

/-- The precursor with the changes of both sides. -/
def merged (key : JsString) : Option JsString :=
  if l.get key = p.get key then r.get key else l.get key

def mirror (w : TtdMergeObstructionWitness) : TtdMergeObstructionWitness :=
  { w with leftValue := w.rightValue, rightValue := w.leftValue }

structure Exact (c : ObjectMergeComputation) : Prop where
  left : ∀ key, key ∈ c.leftChangedKeys ↔ l.get key ≠ p.get key
  right : ∀ key, key ∈ c.rightChangedKeys ↔ r.get key ≠ p.get key
  joins : c.candidate.isSome = true ↔ ∀ key, ¬ Conflict p l r key
  obstructed : ∀ key, key ∈ c.obstructions.map (·.fieldKey) ↔ Conflict p l r key
  applied : ∀ candidate ∈ c.candidate, ∀ key, candidate.get key = (merged p l r key).map .text
  mirrored : ∃ c', buildObjectMergeComputation p r l = some c' ∧
    c'.obstructions = c.obstructions.map mirror ∧
    ∀ candidate ∈ c.candidate, ∃ candidate' ∈ c'.candidate, candidate.Equiv candidate'

/-- No side changes `__proto__`, and where the sides join, it is not there and no key is
removed that every object inherits. -/
def Regular : Prop :=
  l.get protoKey = p.get protoKey ∧ r.get protoKey = p.get protoKey ∧
    ((∃ key, Conflict p l r key) ∨ p.get protoKey = none ∧
      ∀ key ∈ inheritedKeys, p.get key ≠ none → l.get key ≠ none ∧ r.get key ≠ none)

/-! ### The pieces -/

variable {p l r}

theorem valueAt_eq_iff (key) : valueAt p key = valueAt l key ↔ p.get key = l.get key := by
  unfold valueAt
  cases p.get key <;> cases l.get key <;> simp

theorem get_copy (key) : (copy p).get key = if protoKey = key then none else p.get key :=
  p.get_delete protoKey key

theorem mem_changedKeys {keys} (changed : changedKeys (copy p) (copy l) = some keys) (key) :
    key ∈ keys ↔ protoKey ≠ key ∧ l.get key ≠ p.get key := by
  unfold changedKeys freezeSortedTexts at changed
  split at changed
  next =>
    cases changed
    simp only [mem_filter, mem_sortBy, mem_dedup, mem_append, OrdMap.mem_keys_iff, ne_eq,
      valueAt_eq_iff, decide_eq_true_eq, get_copy, eq_comm (a := l.get key)]
    by_cases proto : protoKey = key
    · simp [proto]
    · cases here : p.get key <;> cases there : l.get key <;> simp [proto]
  next => cases changed

theorem get_applyChanges (keys) (candidate) (key : JsString) :
    (applyChanges l keys candidate).get key = if key ∈ keys then valueAt l key else candidate.get key := by
  induction keys generalizing candidate with
  | nil => rfl
  | cons first rest ih =>
    have here : (applyChanges l [first] candidate).get key =
        if first = key then valueAt l key else candidate.get key := by
      unfold applyChanges
      simp only [foldl_cons, foldl_nil]
      by_cases same : first = key
      · subst same
        cases valueAt l first <;> simp
      · cases valueAt l first <;> simp [same]
    refine (ih (applyChanges l [first] candidate)).trans ?_
    rw [here]
    by_cases later : key ∈ rest
    · simp [later]
    · simp [later, eq_comm (a := key)]

theorem get_mapText (key) : (p.mapValues FieldValue.text).get key = (p.get key).map .text := by
  have mapped : ∀ entries : List (JsString × JsString),
      assocGet (entries.map fun entry => (entry.1, FieldValue.text entry.2)) key =
        (assocGet entries key).map .text := by
    intro entries
    induction entries with
    | nil => rfl
    | cons entry rest ih => by_cases same : entry.1 = key <;> simp [assocGet, same, ih]
  exact mapped p.entries

theorem overlap_comm {left right keys : List JsString} (done : overlap left right = some keys) :
    overlap right left = some keys ∧ ∀ key, key ∈ keys ↔ key ∈ left ∧ key ∈ right := by
  unfold overlap freezeSortedTexts at done ⊢
  split at done
  next texts =>
    cases done
    rw [if_pos (by simp_all only [all_eq_true, mem_filter, decide_eq_true_eq, and_imp, implies_true])]
    refine ⟨congrArg some (sortBy_eq_of_perm id ?_ ?_), fun key => by simp⟩
    · rw [map_id]
      exact nodup_dedup _
    · rw [perm_ext_iff_of_nodup (nodup_dedup _) (nodup_dedup _)]
      simp [and_comm]
  next => cases done

theorem buildObstructions_spec {p l r keys witnesses}
    (built : buildObstructions p l r keys = some witnesses) :
    (∀ key, key ∈ witnesses.map (·.fieldKey) ↔ key ∈ keys ∧ l.get key ≠ r.get key) ∧
      buildObstructions p r l keys = some (witnesses.map mirror) := by
  unfold buildObstructions at built ⊢
  dsimp only at built ⊢
  split at built
  next valid =>
    cases built
    refine ⟨fun key => by simp [valueAt_eq_iff], ?_⟩
    have swapped : (keys.filter fun key => valueAt r key ≠ valueAt l key) =
        keys.filter fun key => valueAt l key ≠ valueAt r key :=
      filter_congr fun key _ => by simp only [ne_comm]
    rw [swapped, if_pos, map_map]
    · rfl
    · simp only [all_map, all_eq_true, Function.comp_apply, Bool.and_eq_true] at valid ⊢
      exact fun key mem => ⟨⟨(valid key mem).1.1, (valid key mem).2⟩, (valid key mem).1.2⟩
  next => cases built

theorem build_iff {c} : buildObjectMergeComputation p l r = some c ↔
    (p.has [] = false ∧ l.has [] = false ∧ r.has [] = false) ∧
      changedKeys (copy p) (copy l) = some c.leftChangedKeys ∧
      changedKeys (copy p) (copy r) = some c.rightChangedKeys ∧
      overlap c.leftChangedKeys c.rightChangedKeys = some c.overlapKeys ∧
      buildObstructions (copy p) (copy l) (copy r) c.overlapKeys = some c.obstructions ∧
      c.candidate = if c.obstructions.length > 0 then none
        else some (applyChanges (copy r) c.rightChangedKeys
          (applyChanges (copy l) c.leftChangedKeys ((copy p).mapValues .text))) := by
  have taken : ∀ fields next, requireStringRecord fields = some next ↔
      fields.has [] = false ∧ copy fields = next := by
    intro fields next
    unfold requireStringRecord
    cases fields.has [] <;> simp
  obtain ⟨leftKeys, rightKeys, keys, witnesses, candidate⟩ := c
  simp only [buildObjectMergeComputation, bind, Option.bind_eq_some_iff, taken, pure,
    Option.some.injEq, ObjectMergeComputation.mk.injEq]
  constructor
  · rintro ⟨_, ⟨p', rfl⟩, _, ⟨l', rfl⟩, _, ⟨r', rfl⟩, _, left, _, right, _, both, _, witnessed, rfl, rfl,
      rfl, rfl, joined⟩
    exact ⟨⟨p', l', r'⟩, left, right, both, witnessed, joined.symm⟩
  · rintro ⟨⟨p', l', r'⟩, left, right, both, witnessed, joined⟩
    exact ⟨_, ⟨p', rfl⟩, _, ⟨l', rfl⟩, _, ⟨r', rfl⟩, _, left, _, right, _, both, _, witnessed, rfl, rfl,
      rfl, rfl, joined.symm⟩

/-- What the inspector computes, but for `__proto__` and what lookups inherit. -/
theorem build_spec {c} (built : buildObjectMergeComputation p l r = some c) :
    (∀ key, key ∈ c.leftChangedKeys ↔ protoKey ≠ key ∧ l.get key ≠ p.get key) ∧
    (∀ key, key ∈ c.rightChangedKeys ↔ protoKey ≠ key ∧ r.get key ≠ p.get key) ∧
    (∀ key, key ∈ c.obstructions.map (·.fieldKey) ↔ protoKey ≠ key ∧ Conflict p l r key) ∧
    (c.candidate.isSome = true ↔ ∀ key, protoKey ≠ key → ¬ Conflict p l r key) ∧
    ∀ candidate ∈ c.candidate, ∀ key, candidate.get key = if protoKey = key then none
      else if r.get key ≠ p.get key then valueAt (copy r) key
      else if l.get key ≠ p.get key then valueAt (copy l) key else (p.get key).map .text := by
  obtain ⟨-, left, right, both, witnessed, joined⟩ := build_iff.mp built
  have inLeft := mem_changedKeys left
  have inRight := mem_changedKeys right
  have clash : ∀ key, key ∈ c.obstructions.map (·.fieldKey) ↔ protoKey ≠ key ∧ Conflict p l r key := by
    intro key
    rw [(buildObstructions_spec witnessed).1, (overlap_comm both).2, inLeft, inRight, Conflict]
    by_cases proto : protoKey = key <;> simp [proto, get_copy, and_assoc]
  refine ⟨inLeft, inRight, clash, ?_, fun candidate mem key => ?_⟩
  · simp only [← not_and, ← clash, ← eq_nil_iff_forall_not_mem, map_eq_nil_iff, joined]
    cases c.obstructions <;> simp
  · rw [joined] at mem
    split at mem
    next => cases mem
    next =>
      cases mem
      simp only [get_applyChanges, inLeft, inRight, get_mapText, get_copy]
      by_cases proto : protoKey = key <;> simp [proto]

/-- Where the sides do not conflict, the candidate has the merged value but for a key that was
removed and is found in the prototype instead. -/
theorem value_iff {key} (calm : ¬ Conflict p l r key) (apart : protoKey ≠ key) :
    (if r.get key ≠ p.get key then valueAt (copy r) key
      else if l.get key ≠ p.get key then valueAt (copy l) key else (p.get key).map .text) =
        (merged p l r key).map .text ↔
      (key ∈ inheritedKeys → p.get key ≠ none → l.get key ≠ none ∧ r.get key ≠ none) := by
  unfold Conflict at calm
  simp only [valueAt, get_copy, apart, if_false, merged]
  generalize p.get key = before, l.get key = left, r.get key = right at *
  by_cases inherits : key ∈ inheritedKeys <;> cases before <;> cases left <;> cases right <;>
    simp_all
  all_goals split_ifs <;> simp_all

/-- The inspector is exact on the records that it accepts where these are regular, and only there. -/
theorem merge_exact_iff {c} (built : buildObjectMergeComputation p l r = some c) :
    Exact p l r c ↔ Regular p l r := by
  obtain ⟨inLeft, inRight, clash, joins, looked⟩ := build_spec built
  constructor
  · intro exact
    have left : l.get protoKey = p.get protoKey := by simpa [inLeft] using exact.left protoKey
    have right : r.get protoKey = p.get protoKey := by simpa [inRight] using exact.right protoKey
    refine ⟨left, right, or_iff_not_imp_left.mpr fun calm => ?_⟩
    rw [not_exists] at calm
    obtain ⟨candidate, joined⟩ := Option.isSome_iff_exists.mp (exact.joins.mpr calm)
    have applied := exact.applied candidate joined
    simp only [looked candidate joined] at applied
    have proto : p.get protoKey = none := by
      simpa [merged, left, right] using (applied protoKey).symm
    refine ⟨proto, fun key inherits there => ?_⟩
    have apart : protoKey ≠ key := fun same => there (same ▸ proto)
    have here := applied key
    rw [if_neg apart] at here
    exact (value_iff (calm key) apart).mp here inherits there
  · rintro ⟨left, right, regular⟩
    have all : (∀ key, protoKey ≠ key → ¬ Conflict p l r key) ↔ ∀ key, ¬ Conflict p l r key := by
      refine forall_congr' fun key => ⟨fun calm clash => calm ?_ clash, fun calm _ => calm⟩
      rintro rfl
      exact clash.1 left
    have calm : ∀ candidate ∈ c.candidate, ∀ key, ¬ Conflict p l r key := fun candidate joined =>
      all.mp (joins.mp (Option.isSome_iff_exists.mpr ⟨candidate, joined⟩))
    refine ⟨fun key => ?_, fun key => ?_, joins.trans all, fun key => ?_, fun candidate joined key => ?_, ?_⟩
    · rw [inLeft]
      exact and_iff_right_of_imp fun changed same => changed (same ▸ left)
    · rw [inRight]
      exact and_iff_right_of_imp fun changed same => changed (same ▸ right)
    · rw [clash]
      exact and_iff_right_of_imp fun conflict same => conflict.1 (same ▸ left)
    · obtain ⟨proto, plain⟩ := regular.resolve_left fun ⟨key, conflict⟩ => calm _ joined key conflict
      rw [looked candidate joined]
      by_cases same : protoKey = key
      · subst same
        simp [merged, left, right, proto]
      · rw [if_neg same]
        exact (value_iff (calm candidate joined key) same).mpr (plain key)
    · obtain ⟨⟨p', l', r'⟩, leftKeys, rightKeys, both, witnessed, joined⟩ := build_iff.mp built
      have swapped : buildObjectMergeComputation p r l = some
          { leftChangedKeys := c.rightChangedKeys
            rightChangedKeys := c.leftChangedKeys
            overlapKeys := c.overlapKeys
            obstructions := c.obstructions.map mirror
            candidate := if c.obstructions.length > 0 then none
              else some (applyChanges (copy l) c.leftChangedKeys
                (applyChanges (copy r) c.rightChangedKeys ((copy p).mapValues .text))) } :=
        build_iff.mpr ⟨⟨p', r', l'⟩, rightKeys, leftKeys, (overlap_comm both).1,
          (buildObstructions_spec witnessed).2, by simp⟩
      refine ⟨_, swapped, rfl, fun candidate mem => ?_⟩
      have mem' := mem
      rw [joined] at mem'
      split at mem'
      next => cases mem'
      next free =>
        refine ⟨_, if_neg free, fun key => ?_⟩
        rw [looked candidate mem, (build_spec swapped).2.2.2.2 _ (if_neg free) key]
        have same : l.get key ≠ p.get key → r.get key ≠ p.get key →
            valueAt (copy r) key = valueAt (copy l) key := fun left right => by
          rw [valueAt_eq_iff, get_copy, get_copy,
            not_ne_iff.mp fun apart => calm candidate mem key ⟨left, right, apart⟩]
        split_ifs <;> simp_all

def field (key : String) : OrdMap JsString JsString := .ofList [(lit key, lit "a")]

/-- One side changes a field and the other side adds one. -/
theorem merge_exact_title : ∃ c, buildObjectMergeComputation (field "title")
      (.ofList [(lit "title", lit "b")]) ((field "title").set (lit "due") (lit "c")) = some c ∧
    Exact (field "title") (.ofList [(lit "title", lit "b")])
      ((field "title").set (lit "due") (lit "c")) c :=
  ⟨_, rfl, (merge_exact_iff rfl).mpr ⟨by decide, by decide, Or.inr ⟨by decide, by decide⟩⟩⟩

/-- Where one side removes a key that every object inherits, the candidate holds what is
inherited. -/
theorem removal_inherits : ∃ c,
    buildObjectMergeComputation (field "constructor") .empty (field "constructor") = some c ∧
      ¬ Exact (field "constructor") .empty (field "constructor") c := by
  refine ⟨_, rfl, fun exact => ?_⟩
  have removed := exact.applied _ rfl (lit "constructor")
  exact absurd removed (by decide)

end TtdMerge
end GitWarp
