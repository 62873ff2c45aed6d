import GitWarp.Reducer.Addressing
import GitWarp.Reducer.ExactDiff

/-!
# Properties in a tracked diff

A diff reports the property writes that changed a value. Registers never vanish,
so every report is about a register of the final state; a report of an edge names
the encoded edge where a report of a node names the node.
-/
namespace GitWarp

open Js Lib KeyCodec List

variable {V : Type} [StrictEq V]

/-! ### Registers stay -/

omit [StrictEq V] in
theorem prop_isSome_mutate {op : Op V} (present : (s.prop.get k).isSome = true) :
    ((op.mutate s e).prop.get k).isSome = true := by
  have write : ∀ key value, ((s.mutatePropLWW key e value).prop.get k).isSome = true := by
    intro key value
    rw [WarpState.get_mutatePropLWW]
    split
    · cases held : s.prop.get k with
      | none => simp [held] at present
      | some r =>
        simp only [later]
        split <;> rfl
    · exact present
  cases op with
  | nodePropSet node key value | edgePropSet src dst label key value => exact write _ _
  | nodeAdd node dot | nodeRemove node dots | edgeAdd src dst label dot
  | edgeRemove src dst label dots | blobValue node oid => exact present

omit [StrictEq V] in
theorem prop_isSome_applyEvents (s) (k) (present : (s.prop.get k).isSome = true) :
    ((applyEvents s events).prop.get k).isSome = true := by
  induction events generalizing s with
  | nil => exact present
  | cons event rest ih => exact ih _ (prop_isSome_mutate present)

omit [StrictEq V] in
theorem prop_isSome_written (s : WarpState V) (key e) :
    ((s.mutatePropLWW key e value).prop.get key).isSome = true := by
  rw [WarpState.get_mutatePropLWW, if_pos rfl]
  cases s.prop.get key with
  | none => rfl
  | some r =>
    simp only [later]
    split <;> rfl

/-! ### Values of edge properties -/

/-- No operation writes an edge property that changes its value. -/
def EdgeValuesKept : WarpState V → List (Event V) → Prop
  | _, [] => True
  | s, event :: rest =>
    (∀ src dst label key value, event.2.op = .edgePropSet src dst label key value →
      StrictEq.strictEq
        ((event.2.op.mutate s event.1).propValue (encodeEdgePropKey src dst label key))
        (s.propValue (encodeEdgePropKey src dst label key)) = true) ∧
      EdgeValuesKept (event.2.op.mutate s event.1) rest

/-- The same along a list of patches. -/
def PatchesKeepEdgeValues : WarpState V → List (PatchEntry V) → Prop
  | _, [] => True
  | s, entry :: rest => EdgeValuesKept s entry.events ∧ PatchesKeepEdgeValues (entry.step s) rest

/-- Every report names a node and is about a register of the state. -/
def Backed (props : List (PropDiffEntry V)) (s : WarpState V) : Prop :=
  ∀ entry ∈ props, fieldSeparator ∉ entry.nodeId ∧
    (s.prop.get (encodePropKey entry.nodeId entry.key)).isSome = true

theorem delta_backed {c : CanonicalOp V} (s)
    (kept : ∀ src dst label key value, c.op = .edgePropSet src dst label key value →
      StrictEq.strictEq ((c.op.mutate s e).propValue (encodeEdgePropKey src dst label key))
        (s.propValue (encodeEdgePropKey src dst label key)) = true) :
    Backed (c.op.delta s e).propsChanged (c.op.mutate s e) := by
  obtain ⟨op, checked⟩ := c
  have silent : Backed ([] : List (PropDiffEntry V)) (op.mutate s e) := by
    intro entry mem
    cases mem
  cases op with
  | nodePropSet node key value =>
    simp only [Op.check, check_then_eq_ok, assertNonEmptyString_ok, assertNoReservedBytes_ok]
      at checked
    intro entry mem
    simp only [Op.delta, Op.report, Op.snapshot, Op.accumulate, accumulatePropDiff] at mem
    split at mem
    · cases mem
    · rw [PatchDiff.empty, nil_append, mem_singleton] at mem
      subst mem
      exact ⟨checked.2.2.1.1, prop_isSome_written s _ e⟩
  | edgePropSet src dst label key value =>
    have same := kept src dst label key value rfl
    simp only [Op.delta, Op.report, Op.snapshot, Op.accumulate, accumulatePropDiff]
    rw [if_pos same]
    exact silent
  | nodeAdd node dot =>
    rw [delta_nodeAdd]
    exact silent
  | edgeAdd src dst label dot =>
    rw [delta_edgeAdd]
    exact silent
  | nodeRemove node observedDots | edgeRemove src dst label observedDots | blobValue node oid =>
    exact silent

theorem reportEvents_backed (s) (diff : PatchDiff V) (kept : EdgeValuesKept s events)
    (before : Backed diff.propsChanged s) :
    Backed (reportEvents events s diff).propsChanged (applyEvents s events) := by
  induction events generalizing s diff with
  | nil => exact before
  | cons event rest ih =>
    apply ih _ _ kept.2
    rw [report_eq_append]
    intro entry mem
    rcases mem_append.mp mem with old | new
    · obtain ⟨node, present⟩ := before entry old
      exact ⟨node, prop_isSome_mutate present⟩
    · exact delta_backed s kept.1 entry new

omit [StrictEq V] in
theorem create_eq {fields diff : PatchDiff V} (created : PatchDiff.create fields = .ok diff) :
    diff = fields := by
  simp only [PatchDiff.create, check_then_eq_ok] at created
  exact (Except.ok.inj created.2.2.2.2.2).symm

/-- The reports of a reduction that changes no edge property. -/
theorem reduceWithDiffFrom_backed (s t) (merged diff : PatchDiff V)
    (valid : ∀ entry ∈ entries, entry.WellFormed) (kept : PatchesKeepEdgeValues s entries)
    (before : Backed merged.propsChanged s)
    (reduced : reduceWithDiffFrom entries s merged = .ok (t, diff)) :
    Backed diff.propsChanged t := by
  induction entries generalizing s merged with
  | nil =>
    cases reduced
    exact before
  | cons entry rest ih =>
    obtain ⟨effect, found⟩ := (valid entry mem_cons_self).effect_ok
    obtain ⟨⟨next, report⟩, applied, tail⟩ := bind_eq_ok.mp reduced
    obtain ⟨joined, mergedOk, later⟩ := bind_eq_ok.mp tail
    rw [applyWithDiff_eq found] at applied
    cases created : PatchDiff.create (reportEvents effect.events s .empty) with
    | error e =>
      rw [created] at applied
      cases applied
    | ok reported =>
      rw [created] at applied
      cases applied
      rw [PatchesKeepEdgeValues, PatchEntry.events_eq found, PatchEntry.step_eq found] at kept
      apply ih _ _ (forall_mem_cons.mp valid).2 kept.2 ?_ later
      rw [create_eq mergedOk]
      intro e mem
      rcases mem_append.mp (mem_deduplicateProps e mem) with old | new
      · obtain ⟨node, present⟩ := before e old
        exact ⟨node, prop_isSome_applyEvents s _ present⟩
      · rw [create_eq created] at new
        refine reportEvents_backed s .empty kept.1 ?_ e new
        intro e' none_
        cases none_

/-! ### Defined values -/

/-- No register holds `undefined`, which is not a property value. -/
def WarpState.Defined (s : WarpState V) : Prop :=
  ∀ k r, s.prop.get k = some r → r.value ≠ StrictEq.undefined

/-- No operation of the patches writes `undefined`. -/
def WritesDefined (entries : List (PatchEntry V)) : Prop :=
  ∀ k r, .write k r ∈ historyFacts entries → r.value ≠ StrictEq.undefined

theorem WarpState.Defined.reduce (defined : s.Defined) {entries : List (PatchEntry V)}
    (writes : WritesDefined entries) (reduced : reducePatches entries s = .ok t) : t.Defined := by
  intro k r found
  have wins := (represents_of_reduced entries s s.facts (represents_facts s) reduced).writes k
  rw [found] at wins
  rcases wins.1 with old | new
  · exact defined k r old
  · exact writes k r new

theorem defined_empty : (WarpState.empty : WarpState V).Defined := by
  intro k r found
  cases found

theorem propValue_eq_iff {s t : WarpState V} (left : s.Defined) (right : t.Defined) (k) :
    s.propValue k = t.propValue k ↔
      (s.prop.get k).map LWWRegister.value = (t.prop.get k).map LWWRegister.value := by
  unfold WarpState.propValue
  cases here : s.prop.get k with
  | none =>
    cases there : t.prop.get k with
    | none => simp
    | some r =>
      simp only [Option.map_none, Option.map_some, reduceCtorEq, iff_false]
      exact fun same => right k r there same.symm
  | some r =>
    cases there : t.prop.get k with
    | none =>
      simp only [Option.map_none, Option.map_some, reduceCtorEq, iff_false]
      exact left k r here
    | some r' => simp

theorem propValue_of_isSome {s : WarpState V} (k) (present : (s.prop.get k).isSome = true) :
    (s.prop.get k).map LWWRegister.value = some (s.propValue k) := by
  unfold WarpState.propValue
  cases held : s.prop.get k with
  | none => simp [held] at present
  | some r => rfl

end GitWarp
