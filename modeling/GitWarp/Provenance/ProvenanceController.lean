import GitWarp.Lib.Worklist
import GitWarp.Provenance.Published
import GitWarp.State.Survival

/-!
# Slices

The provenance index lists, for every entity, the patches that read or write it.
A slice of a node replays the backward cone of the node: the patches that name
it, the patches that name what those read, and so on. Nothing leads from a write
to other patches that name the written entity.
-/
namespace GitWarp

open Js Lib KeyCodec List

variable {V : Type}

/-! ### The index -/

abbrev ProvenanceIndex := OrdMap JsString (OrdSet JsString)

namespace ProvenanceIndex

def addEntry (index : ProvenanceIndex) (entityId patchSha : JsString) : ProvenanceIndex :=
  index.set entityId (((index.get entityId).getD .empty).add patchSha)

def indexEntityList (index : ProvenanceIndex) (entities : List JsString) (patchSha : JsString) :
    ProvenanceIndex :=
  entities.foldl (fun index entityId => index.addEntry entityId patchSha) index

def addPatch (index : ProvenanceIndex) (patchSha : JsString) (reads writes : List JsString) :
    ProvenanceIndex :=
  (index.indexEntityList reads patchSha).indexEntityList writes patchSha

def patchesFor (index : ProvenanceIndex) (entityId : JsString) : List JsString :=
  sortBy id ((index.get entityId).getD .empty).toList

end ProvenanceIndex

def buildProvenance (patches : List (ProvenancePatch V)) : ProvenanceIndex :=
  patches.foldl (fun index p => index.addPatch p.entry.sha p.reads p.writes) .empty

/-! ### The host -/

/-- What the message of a commit says it is. -/
inductive StoredCommit (V : Type)
  | patch (patch : PatchLike V) (reads writes : List JsString)
  | other (kind : JsString)

structure ProvenanceHost (V : Type) where
  commits : OrdMap JsString (StoredCommit V)
  provenanceIndex : Option ProvenanceIndex
  provenanceDegraded : Bool

def provenanceDoc : JsString := lit "docs/READINGS_AND_OPTICS.md#provenance-and-diagnostics"

def provenanceDegraded : Failure :=
  ⟨.queryError, lit "E_PROVENANCE_DEGRADED",
    lit "Provenance reading is unavailable for cached seek. Re-seek with --no-persistent-cache " ++
      lit "or open a coordinate reading before requesting provenance diagnostics. See " ++
      provenanceDoc ++ lit "."⟩

def noProvenanceIndex : Failure :=
  ⟨.queryError, lit "E_NO_STATE",
    lit "No provenance reading index is available for this operation. Open a worldline reading " ++
      lit "or use provenance diagnostics from a checkpoint-backed reading before requesting " ++
      lit "provenance inspection. See " ++ provenanceDoc ++ lit "."⟩

/-- The order of a slice: by lamport, then by writer, then by sha. -/
def causalCompare (localeCompare : JsString → JsString → Int) (a b : PatchEntry V) : Int :=
  let lamportDiff := a.patch.lamport - b.patch.lamport
  if lamportDiff ≠ 0 then lamportDiff
  else
    let writerCmp := localeCompare a.patch.writer b.patch.writer
    if writerCmp ≠ 0 then writerCmp else localeCompare a.sha b.sha

def sortPatchesCausally (localeCompare : JsString → JsString → Int)
    (patches : List (PatchEntry V)) : List (PatchEntry V) :=
  patches.insertionSort fun a b => causalCompare localeCompare a b ≤ 0

structure Slice (V : Type) where
  state : WarpState V
  patchCount : Nat

namespace ProvenanceHost

def loadPatchBySha (host : ProvenanceHost V) (sha : JsString) :
    Except Failure (ProvenancePatch V) :=
  match host.commits.get sha with
  | none => .error ⟨.persistenceError, lit "E_MISSING_OBJECT", lit "Missing Git object: " ++ sha⟩
  | some (.other _) => .error ⟨.queryError, lit "E_COMMIT_NOT_PATCH",
      lit "Commit " ++ sha ++ lit " is not a patch"⟩
  | some (.patch patch reads writes) => .ok ⟨⟨patch, sha⟩, reads, writes⟩

/-- An entity leads to the patches that name it, and those lead to what they read. -/
def leads (host : ProvenanceHost V) (index : ProvenanceIndex) :
    Leads JsString JsString (ProvenancePatch V) Failure where
  itemsOf := index.patchesFor
  load := host.loadPatchBySha
  next := ProvenancePatch.reads

/-- As many rounds as the stored patches have reads, and one. -/
def rounds (host : ProvenanceHost V) (index : ProvenanceIndex) : Nat :=
  1 + (host.commits.keys.map (host.leads index).weight).sum

def computeBackwardCone (host : ProvenanceHost V) (nodeId : JsString) :
    Except Failure (OrdMap JsString (ProvenancePatch V)) :=
  match host.provenanceIndex with
  | none => .error noProvenanceIndex
  | some index =>
    ((host.leads index).search (host.rounds index) (Leads.start nodeId)).map Worklist.found

def materializeSlice (localeCompare : JsString → JsString → Int) (host : ProvenanceHost V)
    (nodeId : JsString) : Except Failure (Slice V) :=
  if host.provenanceDegraded then .error GitWarp.provenanceDegraded
  else if host.provenanceIndex.isNone then .error noProvenanceIndex
  else do
    let conePatchMap ← host.computeBackwardCone nodeId
    if conePatchMap.size = 0 then pure ⟨.empty, 0⟩
    else
      let sortedPatches := sortPatchesCausally localeCompare (conePatchMap.values.map
        ProvenancePatch.entry)
      let state ← reducePatches sortedPatches .empty
      pure ⟨state, sortedPatches.length⟩

end ProvenanceHost

/-! ### The index of a history -/

namespace ProvenanceIndex

/-- The index lists the patch under the entity. -/
def Lists (index : ProvenanceIndex) (entityId sha : JsString) : Prop :=
  sha ∈ (index.get entityId).getD .empty

theorem lists_addEntry (index : ProvenanceIndex) (e sha e' sha') :
    (index.addEntry e sha).Lists e' sha' ↔ index.Lists e' sha' ∨ (e' = e ∧ sha' = sha) := by
  simp only [Lists, addEntry, OrdMap.get_set]
  by_cases same : e = e'
  · subst same
    simp [OrdSet.mem_add]
  · simp [same, Ne.symm same]

theorem lists_indexEntityList (index : ProvenanceIndex) (entities) (sha e' sha') :
    (index.indexEntityList entities sha).Lists e' sha' ↔
      index.Lists e' sha' ∨ (e' ∈ entities ∧ sha' = sha) := by
  induction entities generalizing index with
  | nil => simp [indexEntityList]
  | cons e rest ih =>
    have step := ih (index.addEntry e sha)
    simp only [indexEntityList, foldl_cons] at step ⊢
    rw [step, lists_addEntry, mem_cons, or_assoc, or_and_right]

end ProvenanceIndex

theorem lists_buildProvenance (H : List (ProvenancePatch V)) (e sha) :
    (buildProvenance H).Lists e sha ↔ ∃ p ∈ H, p.entry.sha = sha ∧ p.Names e := by
  -- the index of a history lists a patch under every entity that it names
  have from_ : ∀ (patches : List (ProvenancePatch V)) (index : ProvenanceIndex),
      (patches.foldl (fun index p => index.addPatch p.entry.sha p.reads p.writes) index).Lists e
        sha ↔ index.Lists e sha ∨ ∃ p ∈ patches, p.entry.sha = sha ∧ p.Names e := by
    intro patches
    induction patches with
    | nil => simp
    | cons p rest ih =>
      intro index
      rw [foldl_cons, ih]
      simp only [ProvenanceIndex.addPatch, ProvenanceIndex.lists_indexEntityList,
        exists_mem_cons_iff, ProvenancePatch.Names]
      constructor
      · rintro (((old | ⟨read, rfl⟩) | ⟨written, rfl⟩) | later)
        · exact Or.inl old
        · exact Or.inr (Or.inl ⟨rfl, Or.inl read⟩)
        · exact Or.inr (Or.inl ⟨rfl, Or.inr written⟩)
        · exact Or.inr (Or.inr later)
      · rintro (old | ⟨rfl, read | written⟩ | later)
        · exact Or.inl (Or.inl (Or.inl old))
        · exact Or.inl (Or.inl (Or.inr ⟨read, rfl⟩))
        · exact Or.inl (Or.inr ⟨written, rfl⟩)
        · exact Or.inr later
  rw [buildProvenance, from_ H .empty]
  simp [ProvenanceIndex.Lists]

theorem mem_patchesFor {H : List (ProvenancePatch V)} :
    sha ∈ (buildProvenance H).patchesFor e ↔ ∃ p ∈ H, p.entry.sha = sha ∧ p.Names e := by
  rw [← lists_buildProvenance, ProvenanceIndex.patchesFor, mem_sortBy]
  rfl

end GitWarp
