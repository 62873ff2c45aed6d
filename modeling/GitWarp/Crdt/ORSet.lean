import Mathlib.Data.Option.Defs
import Mathlib.Tactic.Push
import GitWarp.Crdt.VersionVector

/-!
# Observed-remove sets

An element is tagged by the encoded dots of the operations that added it.
Tombstones are global: they name dots, not elements, and may be recorded before
the dot is ever added. An element is in the set while one of its dots is not
tombstoned.
-/
namespace GitWarp

open Js Lib List

structure ORSet where
  entries : OrdMap JsString (OrdSet JsString)
  tombstones : OrdSet JsString
  /-- No element is kept without a dot. -/
  inhabited : ∀ element dots, entries.get element = some dots → dots.toList ≠ []

variable (s : ORSet) (vv : VersionVector)

namespace ORSet

def empty : ORSet := ⟨.empty, .empty, by simp⟩

/-- The dots of an element, tombstoned or not. -/
def dotsOf (s : ORSet) (element : JsString) : OrdSet JsString :=
  (s.entries.get element).getD .empty

def hasDot (s : ORSet) (element encodedDot : JsString) : Bool := (s.dotsOf element).has encodedDot

def isTombstoned (s : ORSet) (encodedDot : JsString) : Bool := s.tombstones.has encodedDot

/-! ### Operations -/

def add (s : ORSet) (element : JsString) (dot : Dot) : ORSet where
  entries := s.entries.set element ((s.dotsOf element).add dot.encode)
  tombstones := s.tombstones
  inhabited := by
    intro x dots found
    rw [OrdMap.get_set] at found
    split at found
    · cases found
      have tagged : dot.encode ∈ ((s.dotsOf element).add dot.encode).toList := by simp
      exact List.ne_nil_of_mem tagged
    · exact s.inhabited x dots found

def remove (s : ORSet) (observedDots : OrdSet JsString) : ORSet :=
  { s with tombstones := s.tombstones.addAll observedDots.toList }

def contains (s : ORSet) (element : JsString) : Bool :=
  (s.dotsOf element).toList.any fun encodedDot => !s.isTombstoned encodedDot

def elements (s : ORSet) : List JsString := s.entries.keys.filter s.contains

def getDots (s : ORSet) (element : JsString) : OrdSet JsString :=
  (s.dotsOf element).filter fun encodedDot => !s.isTombstoned encodedDot

/-- The elements that are kept, with all tombstones. -/
def scopedClone (s : ORSet) (includeElement : JsString → Bool) : ORSet where
  entries := s.entries.filterKeys includeElement
  tombstones := s.tombstones
  inhabited := by
    intro x dots found
    rw [OrdMap.get_filterKeys] at found
    split at found
    · exact s.inhabited x dots found
    · cases found

/-- `_mergeEntries`, one source entry. -/
def mergeEntry (target : OrdMap JsString (OrdSet JsString)) (element : JsString)
    (dots : OrdSet JsString) : OrdMap JsString (OrdSet JsString) :=
  match target.get element with
  | some existing => target.set element (existing.addAll dots.toList)
  | none => target.set element dots

/-- `_mergeEntries`. -/
def mergeEntries (target : OrdMap JsString (OrdSet JsString)) :
    List (JsString × OrdSet JsString) → OrdMap JsString (OrdSet JsString)
  | [] => target
  | (element, dots) :: rest => mergeEntries (mergeEntry target element dots) rest

theorem get_mergeEntry (target) (element x) (dots) :
    (mergeEntry target element dots).get x =
      if element = x then some (match target.get x with
        | some existing => existing.addAll dots.toList
        | none => dots) else target.get x := by
  unfold mergeEntry
  by_cases same : element = x
  · subst same
    cases target.get element <;> simp
  · cases target.get element <;> simp [same]

theorem inhabited_mergeEntries (target) (filled : ∀ entry ∈ others, entry.2.toList ≠ [])
    (old : ∀ x dots, target.get x = some dots → dots.toList ≠ []) (x) (dots)
    (found : (mergeEntries target others).get x = some dots) : dots.toList ≠ [] := by
  induction others generalizing target with
  | nil => exact old x dots found
  | cons entry rest ih =>
    obtain ⟨element, added⟩ := entry
    refine ih (mergeEntry target element added)
      (forall_mem_cons.mp filled).2 ?_ found
    intro y kept there
    have nonempty := filled _ mem_cons_self
    rw [get_mergeEntry] at there
    split at there
    · split at there
      next existing present =>
        cases there
        obtain ⟨d, mem⟩ := exists_mem_of_ne_nil _ nonempty
        have tagged : d ∈ (existing.addAll added.toList).toList := by simp_all
        exact ne_nil_of_mem tagged
      · cases there
        exact nonempty
    · exact old y kept there

def join (s other : ORSet) : ORSet where
  entries := mergeEntries s.entries other.entries.entries
  tombstones := (OrdSet.empty.addAll s.tombstones.toList).addAll other.tombstones.toList
  inhabited := inhabited_mergeEntries s.entries
    (fun entry member => other.inhabited entry.1 entry.2 ((other.entries.mem_entries_iff _).mp member))
    s.inhabited

/-! ### Compaction -/

/-- The tombstoned dots of one element that the vector covers. -/
def collectElementDots (s : ORSet) (includedVV : VersionVector) :
    List JsString → Except Failure (List JsString)
  | [] => .ok []
  | encodedDot :: rest => do
    let dot ← Dot.decode encodedDot
    let tail ← s.collectElementDots includedVV rest
    if s.isTombstoned encodedDot && includedVV.contains dot then pure (encodedDot :: tail)
    else pure tail

/-- `_collectCompactableDots`. -/
def collectCompactableDots (s : ORSet) (includedVV : VersionVector) :
    List (JsString × OrdSet JsString) → Except Failure (List (JsString × JsString))
  | [] => .ok []
  | (element, dots) :: rest => do
    let here ← s.collectElementDots includedVV dots.toList
    let tail ← s.collectCompactableDots includedVV rest
    pure (here.map (fun encodedDot => (element, encodedDot)) ++ tail)

/-- Deletes one dot of one element and its tombstone. -/
def deleteDot (s : ORSet) (element encodedDot : JsString) : ORSet where
  entries := match s.entries.get element with
    | none => s.entries
    | some dots =>
      if (dots.delete encodedDot).toList = [] then s.entries.delete element
      else s.entries.set element (dots.delete encodedDot)
  tombstones := s.tombstones.delete encodedDot
  inhabited := by
    intro x dots found
    split at found
    · exact s.inhabited x dots found
    · split at found
      · rw [OrdMap.get_delete] at found
        split at found
        · cases found
        · exact s.inhabited x dots found
      next kept =>
        rw [OrdMap.get_set] at found
        split at found
        · cases found
          exact kept
        · exact s.inhabited x dots found

/-- `_applyCompaction`. -/
def applyCompaction (s : ORSet) (toDelete : List (JsString × JsString)) : ORSet :=
  toDelete.foldl (fun s target => s.deleteDot target.1 target.2) s

def compact (s : ORSet) (includedVV : VersionVector) : Except Failure ORSet := do
  let toDelete ← s.collectCompactableDots includedVV s.entries.entries
  pure (s.applyCompaction toDelete)

/-! ### Comparison -/

/-- Equal entries and equal tombstones, compared as maps and sets. -/
def Equiv (s other : ORSet) : Prop :=
  (∀ x, Option.Rel OrdSet.Equiv (s.entries.get x) (other.entries.get x)) ∧
    s.tombstones.Equiv other.tombstones

/-! ### What each operation does to tags and tombstones -/

@[simp] theorem hasDot_iff : s.hasDot x d = true ↔ d ∈ s.dotsOf x := by
  simp [hasDot]

@[simp] theorem isTombstoned_iff (d) : s.isTombstoned d = true ↔ d ∈ s.tombstones := by
  simp [isTombstoned]

theorem contains_iff : s.contains x = true ↔ ∃ d ∈ s.dotsOf x, d ∉ s.tombstones := by
  simp [contains, isTombstoned]

@[simp] theorem mem_getDots : d ∈ s.getDots x ↔ d ∈ s.dotsOf x ∧ d ∉ s.tombstones := by
  simp [getDots, isTombstoned]

theorem mem_elements_iff : x ∈ s.elements ↔ s.contains x = true := by
  simp only [elements, mem_filter, and_iff_right_iff_imp]
  intro alive
  obtain ⟨d, tagged, -⟩ := s.contains_iff.mp alive
  rw [OrdMap.mem_keys_iff]
  cases found : s.entries.get x with
  | none => simp [dotsOf, found] at tagged
  | some dots => rfl

@[simp] theorem dotsOf_empty (x) : empty.dotsOf x = .empty := rfl

@[simp] theorem mem_dotsOf_add :
    d ∈ (s.add element dot).dotsOf x ↔ d ∈ s.dotsOf x ∨ x = element ∧ d = dot.encode := by
  by_cases same : element = x
  · subst same
    simp [dotsOf, add]
  · simp [dotsOf, add, same, Ne.symm same]

@[simp] theorem tombstones_add (element dot) : (s.add element dot).tombstones = s.tombstones := rfl

@[simp] theorem dotsOf_remove (observed) (x) : (s.remove observed).dotsOf x = s.dotsOf x := rfl

@[simp] theorem mem_tombstones_remove :
    d ∈ (s.remove observed).tombstones ↔ d ∈ s.tombstones ∨ d ∈ observed := by
  simp [remove]

theorem mem_dotsOf_scopedClone (includeElement) (x d) :
    d ∈ (s.scopedClone includeElement).dotsOf x ↔ includeElement x = true ∧ d ∈ s.dotsOf x := by
  simp only [dotsOf, scopedClone, OrdMap.get_filterKeys]
  by_cases kept : includeElement x = true
  · simp [kept]
  · simp [kept]

theorem mem_mergeEntries (nodup : (others.map Prod.fst).Nodup) (target) :
    d ∈ ((mergeEntries target others).get x).getD .empty ↔
      d ∈ (target.get x).getD .empty ∨ d ∈ (assocGet others x).getD .empty := by
  induction others generalizing target with
  | nil => simp [mergeEntries, assocGet]
  | cons entry rest ih =>
    obtain ⟨element, dots⟩ := entry
    simp only [map_cons, nodup_cons] at nodup
    rw [mergeEntries, ih nodup.2, get_mergeEntry]
    by_cases same : element = x
    · subst same
      have absent : assocGet rest element = none := (assocGet_eq_none_iff rest element).mpr nodup.1
      cases target.get element <;> simp [assocGet, absent]
    · simp [assocGet, same]

@[simp] theorem mem_dotsOf_join :
    d ∈ (s.join other).dotsOf x ↔ d ∈ s.dotsOf x ∨ d ∈ other.dotsOf x :=
  mem_mergeEntries other.entries.nodup s.entries

@[simp] theorem mem_tombstones_join (other d) :
    d ∈ (s.join other).tombstones ↔ d ∈ s.tombstones ∨ d ∈ other.tombstones := by
  simp [join]

theorem equiv_iff :
    s.Equiv other ↔ (∀ x d, d ∈ s.dotsOf x ↔ d ∈ other.dotsOf x) ∧
      ∀ d, d ∈ s.tombstones ↔ d ∈ other.tombstones := by
  refine and_congr ⟨fun same x d => ?_, fun same x => ?_⟩ Iff.rfl
  · have related := same x
    unfold dotsOf
    revert related
    cases s.entries.get x <;> cases other.entries.get x <;> intro related
    · rfl
    · cases related
    · cases related
    · cases related with
      | some agree => exact agree d
  · have agree := same x
    have left := s.inhabited x
    have right := other.inhabited x
    unfold dotsOf at agree
    revert agree left right
    cases s.entries.get x <;> cases other.entries.get x <;> intro agree left right
    · exact .none
    next dots =>
      obtain ⟨d, mem⟩ := exists_mem_of_ne_nil _ (right dots rfl)
      exact absurd ((agree d).mpr mem) (by simp)
    next dots =>
      obtain ⟨d, mem⟩ := exists_mem_of_ne_nil _ (left dots rfl)
      exact absurd ((agree d).mp mem) (by simp)
    · exact .some agree

theorem Equiv.contains_eq {s other : ORSet} (same : s.Equiv other) (x) :
    s.contains x = other.contains x := by
  rw [equiv_iff] at same
  rw [Bool.eq_iff_iff, contains_iff, contains_iff]
  simp only [same.1 x, same.2]

/-! ### Compaction keeps what the vector does not cover -/

/-- The compaction test for one dot: tombstoned, and covered once decoded. -/
def Compactable (s : ORSet) (vv : VersionVector) (d : JsString) : Prop :=
  d ∈ s.tombstones ∧ ∃ dot, Dot.decode d = .ok dot ∧ vv.contains dot = true

/-- Every tag can be decoded, as tags made by `add` can. -/
def Decodable (s : ORSet) : Prop := ∀ x, ∀ d ∈ s.dotsOf x, ∃ dot, Dot.decode d = .ok dot

theorem decodable_empty : empty.Decodable := by
  intro x d tagged
  simp at tagged

theorem Decodable.add {s : ORSet} (decodable : s.Decodable) : (s.add element dot).Decodable := by
  intro x d tagged
  rcases (mem_dotsOf_add s).mp tagged with old | ⟨-, rfl⟩
  · exact decodable x d old
  · obtain ⟨decoded, ok, -⟩ := Dot.decode_encode dot
    exact ⟨decoded, ok⟩

theorem Decodable.join {s other : ORSet} (left : s.Decodable) (right : other.Decodable) :
    (s.join other).Decodable := by
  intro x d tagged
  rcases (mem_dotsOf_join s).mp tagged with old | new
  · exact left x d old
  · exact right x d new

theorem collectElementDots_spec (decodable : ∀ d ∈ dots, ∃ dot, Dot.decode d = .ok dot) :
    ∃ found, s.collectElementDots vv dots = .ok found ∧
      ∀ d, d ∈ found ↔ d ∈ dots ∧ s.Compactable vv d := by
  induction dots with
  | nil => exact ⟨[], rfl, by simp⟩
  | cons first rest ih =>
    obtain ⟨dot, decoded⟩ := decodable first mem_cons_self
    obtain ⟨tail, collected, spec⟩ := ih (forall_mem_cons.mp decodable).2
    have test : s.Compactable vv first ↔
        (s.isTombstoned first && vv.contains dot) = true := by
      simp [Compactable, decoded]
    by_cases covered : (s.isTombstoned first && vv.contains dot) = true
    · refine ⟨first :: tail, ?_, fun d => ?_⟩
      · simp only [collectElementDots, decoded, collected, bind, Except.bind, covered, if_true]
        rfl
      · rw [mem_cons, mem_cons, spec]
        constructor
        · rintro (rfl | ⟨mem, c⟩)
          · exact ⟨Or.inl rfl, test.mpr covered⟩
          · exact ⟨Or.inr mem, c⟩
        · rintro ⟨rfl | mem, c⟩
          · exact Or.inl rfl
          · exact Or.inr ⟨mem, c⟩
    · refine ⟨tail, ?_, fun d => ?_⟩
      · simp only [collectElementDots, decoded, collected, bind, Except.bind, covered]
        rfl
      · rw [mem_cons, spec]
        constructor
        · rintro ⟨mem, c⟩
          exact ⟨Or.inr mem, c⟩
        · rintro ⟨rfl | mem, c⟩
          · exact absurd (test.mp c) covered
          · exact ⟨mem, c⟩

theorem collectCompactableDots_spec {entries}
    (decodable : ∀ entry ∈ entries, ∀ d ∈ entry.2, ∃ dot, Dot.decode d = .ok dot) :
    ∃ found, s.collectCompactableDots vv entries = .ok found ∧
      ∀ x d, (x, d) ∈ found ↔ (∃ dots, (x, dots) ∈ entries ∧ d ∈ dots) ∧ s.Compactable vv d := by
  induction entries with
  | nil => exact ⟨[], rfl, by simp⟩
  | cons entry rest ih =>
    obtain ⟨element, dots⟩ := entry
    obtain ⟨here, collected, spec⟩ :=
      s.collectElementDots_spec vv (decodable _ mem_cons_self)
    obtain ⟨tail, others, tail_spec⟩ :=
      ih (forall_mem_cons.mp decodable).2
    refine ⟨here.map (fun d => (element, d)) ++ tail, ?_, fun x d => ?_⟩
    · simp only [collectCompactableDots, collected, others, bind, Except.bind]
      rfl
    · rw [mem_append, tail_spec]
      simp only [mem_map, Prod.mk.injEq, mem_cons, spec]
      constructor
      · rintro (⟨d', ⟨member, c⟩, rfl, rfl⟩ | ⟨⟨kept, member, tagged⟩, c⟩)
        · exact ⟨⟨dots, Or.inl ⟨rfl, rfl⟩, member⟩, c⟩
        · exact ⟨⟨kept, Or.inr member, tagged⟩, c⟩
      · rintro ⟨⟨kept, ⟨rfl, rfl⟩ | member, tagged⟩, c⟩
        · exact Or.inl ⟨d, ⟨tagged, c⟩, rfl, rfl⟩
        · exact Or.inr ⟨⟨kept, member, tagged⟩, c⟩

theorem mem_dotsOf_deleteDot (element encodedDot x d) :
    d ∈ (s.deleteDot element encodedDot).dotsOf x ↔
      d ∈ s.dotsOf x ∧ ¬ (x = element ∧ d = encodedDot) := by
  by_cases same : element = x
  · subst same
    cases found : s.entries.get element with
    | none => simp [dotsOf, deleteDot, found]
    | some dots =>
      by_cases last : (dots.delete encodedDot).toList = []
      · have none_left : ∀ d, ¬ (d ∈ dots ∧ d ≠ encodedDot) := by
          intro d kept
          have mem : d ∈ (dots.delete encodedDot).toList := by simpa using kept
          simp [last] at mem
        simpa [dotsOf, deleteDot, found, last] using none_left d
      · simp [dotsOf, deleteDot, found, last]
  · have other : (s.deleteDot element encodedDot).entries.get x = s.entries.get x := by
      simp only [deleteDot]
      cases s.entries.get element with
      | none => rfl
      | some dots =>
        simp only
        split <;> simp [same]
    simp [dotsOf, other, Ne.symm same]

theorem mem_dotsOf_applyCompaction (toDelete) (s : ORSet) (x d) :
    d ∈ (s.applyCompaction toDelete).dotsOf x ↔ d ∈ s.dotsOf x ∧ (x, d) ∉ toDelete := by
  induction toDelete generalizing s with
  | nil => simp [applyCompaction]
  | cons target rest ih =>
    change d ∈ ((s.deleteDot target.1 target.2).applyCompaction rest).dotsOf x ↔ _
    rw [ih, mem_dotsOf_deleteDot, mem_cons, not_or, and_assoc, Prod.ext_iff]

theorem mem_tombstones_applyCompaction (toDelete) (s : ORSet) (d) :
    d ∈ (s.applyCompaction toDelete).tombstones ↔
      d ∈ s.tombstones ∧ ∀ x, (x, d) ∉ toDelete := by
  induction toDelete generalizing s with
  | nil => simp [applyCompaction]
  | cons target rest ih =>
    change d ∈ ((s.deleteDot target.1 target.2).applyCompaction rest).tombstones ↔ _
    have step : d ∈ (s.deleteDot target.1 target.2).tombstones ↔
        d ∈ s.tombstones ∧ d ≠ target.2 := by simp [deleteDot]
    rw [ih, step, and_assoc]
    refine and_congr_right fun _ => ⟨fun kept x mem => ?_, fun kept => ⟨?_, ?_⟩⟩
    · rcases mem_cons.mp mem with rfl | old
      · exact kept.1 rfl
      · exact kept.2 x old
    · rintro rfl
      exact kept target.1 mem_cons_self
    · exact fun x mem => kept x (mem_cons_of_mem _ mem)

/-- Compaction drops exactly the covered tombstoned tags, and a tombstone exactly
when a tag it covers was dropped. -/
theorem compact_spec (decodable : s.Decodable) :
    ∃ compacted, s.compact vv = .ok compacted ∧
      (∀ x d, d ∈ compacted.dotsOf x ↔ d ∈ s.dotsOf x ∧ ¬ s.Compactable vv d) ∧
      ∀ d, d ∈ compacted.tombstones ↔
        d ∈ s.tombstones ∧ ¬ (s.Compactable vv d ∧ ∃ x, d ∈ s.dotsOf x) := by
  have listed : ∀ x d, (∃ dots, (x, dots) ∈ s.entries.entries ∧ d ∈ dots) ↔ d ∈ s.dotsOf x := by
    intro x d
    unfold dotsOf
    cases found : s.entries.get x <;> simp [OrdMap.mem_entries_iff, found]
  obtain ⟨toDelete, collected, spec⟩ := s.collectCompactableDots_spec vv
    fun entry member d tagged => decodable entry.1 d ((listed entry.1 d).mp ⟨entry.2, member, tagged⟩)
  have deleted : ∀ x d, (x, d) ∈ toDelete ↔ d ∈ s.dotsOf x ∧ s.Compactable vv d := by
    intro x d
    rw [spec, listed]
  refine ⟨s.applyCompaction toDelete, ?_, fun x d => ?_, fun d => ?_⟩
  · simp only [compact, collected, bind, Except.bind]
    rfl
  · rw [mem_dotsOf_applyCompaction, deleted]
    tauto
  · rw [mem_tombstones_applyCompaction]
    refine and_congr_right fun _ => ?_
    simp only [deleted]
    push Not
    exact ⟨fun kept c x tagged => kept x tagged c, fun kept x tagged c => kept c x tagged⟩

end ORSet
end GitWarp
