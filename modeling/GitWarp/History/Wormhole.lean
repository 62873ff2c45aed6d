import GitWarp.Lib.Agree
import GitWarp.Reducer.Convergence

/-!
# Wormholes

A wormhole packs the patches between two commits of a writer's chain, both
included. Two wormholes are composed by joining their payloads, with or without
the repository at hand, which checks that the second range continues the first.
-/
namespace GitWarp

open Js Lib List

variable {V : Type}

/-! ### Commits -/

/-- What the message of a commit says; only a patch commit leads to a patch. -/
inductive CommitContent (V : Type)
  | patch (graph writer : JsString) (patch : PatchLike V)
  | other (kind : Option JsString)

structure GitCommit (V : Type) where
  content : CommitContent V
  parents : List JsString

/-- Every parent is stored before its child; commits are listed newest first. -/
def ParentsBefore : List (JsString × GitCommit V) → Prop
  | [] => True
  | (_, commit) :: older =>
    (∀ parent ∈ commit.parents, parent ∈ older.map Prod.fst) ∧ ParentsBefore older

structure CommitGraph (V : Type) where
  commits : List (JsString × GitCommit V)
  nodup : (commits.map Prod.fst).Nodup
  closed : ParentsBefore commits

namespace CommitGraph

/-- `nodeExists`. -/
def has (g : CommitGraph V) (sha : JsString) : Bool := (assocGet g.commits sha).isSome

/-- `getNodeInfo`. -/
def getNodeInfo (g : CommitGraph V) (sha : JsString) : Except Failure (GitCommit V) :=
  match assocGet g.commits sha with
  | some commit => .ok commit
  | none => .error ⟨.persistenceError, lit "E_MISSING_OBJECT", lit "Missing Git object: " ++ sha⟩

end CommitGraph

/-! ### Payloads -/

structure ProvenancePayload (V : Type) where
  entries : List (PatchEntry V)

namespace ProvenancePayload

def identity : ProvenancePayload V := ⟨[]⟩

def concat (p other : ProvenancePayload V) : ProvenancePayload V :=
  if p.entries = [] then other
  else if other.entries = [] then p
  else ⟨p.entries ++ other.entries⟩

def replay (p : ProvenancePayload V) (initialState : Option (WarpState V)) :
    Except Failure (WarpState V) :=
  if p.entries = [] then .ok (initialState.getD .empty)
  else reducePatches p.entries (initialState.getD .empty)

end ProvenancePayload

/-! ### Creating -/

structure WormholeEdge (V : Type) where
  fromSha : JsString
  toSha : JsString
  writerId : JsString
  payload : ProvenancePayload V
  patchCount : Nat

def wormholeError (code : String) (message : JsString) : Failure :=
  ⟨.wormholeError, lit code, message⟩

structure CollectedPatch (V : Type) where
  entry : PatchEntry V
  writerId : JsString

/-- `processCommit`, once the commit is loaded. -/
def processCommit (graphName sha : JsString) (commit : GitCommit V)
    (expectedWriter : Option JsString) : Except Failure (CollectedPatch V) :=
  match commit.content with
  | .other kind => .error (wormholeError "E_WORMHOLE_NOT_PATCH"
      (lit "Commit '" ++ sha ++ lit "' is not a patch commit (kind: " ++
        kind.getD (lit "none") ++ lit ")"))
  | .patch graph writer patch =>
    if graph ≠ graphName then .error (wormholeError "E_WORMHOLE_INVALID_RANGE"
      (lit "Patch '" ++ sha ++ lit "' belongs to graph '" ++ graph ++ lit "', not '" ++
        graphName ++ lit "'"))
    else
      match expectedWriter with
      | none => .ok ⟨⟨patch, sha⟩, writer⟩
      | some expected =>
        if writer ≠ expected then .error (wormholeError "E_WORMHOLE_MULTI_WRITER"
          (lit "Patches span multiple writers: '" ++ expected ++ lit "' and '" ++ writer ++
            lit "'"))
        else .ok ⟨⟨patch, sha⟩, writer⟩

def notAncestor (fromSha toSha : JsString) : Failure :=
  wormholeError "E_WORMHOLE_INVALID_RANGE"
    (lit "'" ++ fromSha ++ lit "' is not an ancestor of '" ++ toSha ++ lit "'")

/-- The loop of `collectPatchRange` from a sha on, newest patch first. -/
def collectFrom (graphName fromSha toSha : JsString) :
    List (JsString × GitCommit V) → JsString → Option JsString →
      Except Failure (List (CollectedPatch V))
  | [], currentSha, _ =>
    .error ⟨.persistenceError, lit "E_MISSING_OBJECT", lit "Missing Git object: " ++ currentSha⟩
  | (sha, commit) :: older, currentSha, expectedWriter =>
    if sha = currentSha then do
      let collected ← processCommit graphName sha commit expectedWriter
      if currentSha = fromSha then pure [collected]
      else
        match commit.parents.head? with
        | none => .error (notAncestor fromSha toSha)
        | some parentSha => do
          let rest ← collectFrom graphName fromSha toSha older parentSha (some collected.writerId)
          pure (collected :: rest)
    else collectFrom graphName fromSha toSha older currentSha expectedWriter

def verifyShaExists (g : CommitGraph V) (sha : JsString) : Except Failure Unit :=
  if g.has sha then .ok ()
  else .error (wormholeError "E_WORMHOLE_SHA_NOT_FOUND"
    (lit "Patch SHA '" ++ sha ++ lit "' does not exist"))

def createWormhole (g : CommitGraph V) (graphName fromSha toSha : JsString) :
    Except Failure (WormholeEdge V) := do
  verifyShaExists g fromSha
  verifyShaExists g toSha
  let collected ← collectFrom graphName fromSha toSha g.commits toSha none
  let patches := collected.reverse
  let writerId := (patches.head?.map CollectedPatch.writerId).getD []
  pure ⟨fromSha, toSha, writerId, ⟨patches.map CollectedPatch.entry⟩, patches.length⟩

/-! ### Composing -/

/-- The check that `composeWormholes` makes when it is given the repository. -/
def verifyConsecutive (g : CommitGraph V) (first second : WormholeEdge V) :
    Except Failure Unit := do
  let info ← g.getNodeInfo second.fromSha
  if first.toSha ∈ info.parents then pure ()
  else .error (wormholeError "E_WORMHOLE_INVALID_RANGE" (lit "Wormholes are not consecutive"))

def composeWormholes (first second : WormholeEdge V) (persistence : Option (CommitGraph V)) :
    Except Failure (WormholeEdge V) :=
  if first.writerId ≠ second.writerId then
    .error (wormholeError "E_WORMHOLE_MULTI_WRITER"
      (lit "Cannot compose wormholes from different writers: '" ++ first.writerId ++
        lit "' and '" ++ second.writerId ++ lit "'"))
  else do
    persistence.elim (.ok ()) fun g => verifyConsecutive g first second
    pure ⟨first.fromSha, second.toSha, first.writerId, first.payload.concat second.payload,
      first.patchCount + second.patchCount⟩

def replayWormhole (wormhole : WormholeEdge V) (initialState : Option (WarpState V)) :
    Except Failure (WarpState V) := wormhole.payload.replay initialState

/-! ### First-parent ranges -/

/-- The commits from a sha back to `fromSha`, both included, each the first parent of the
one before it. -/
inductive FirstParentRange (commits : List (JsString × GitCommit V)) (fromSha : JsString) :
    JsString → List (JsString × GitCommit V) → Prop
  | single (commit : GitCommit V) (stored : (fromSha, commit) ∈ commits) :
    FirstParentRange commits fromSha fromSha [(fromSha, commit)]
  | parent (sha parentSha : JsString) (commit : GitCommit V)
    (rest : List (JsString × GitCommit V)) (stored : (sha, commit) ∈ commits)
    (first : commit.parents.head? = some parentSha)
    (older : FirstParentRange commits fromSha parentSha rest) :
    FirstParentRange commits fromSha sha ((sha, commit) :: rest)

def GitCommit.IsPatchOf (commit : GitCommit V) (graphName writer : JsString) : Prop :=
  ∃ patch, commit.content = .patch graphName writer patch

def GitCommit.patch? (commit : GitCommit V) : Option (PatchLike V) :=
  match commit.content with
  | .patch _ _ patch => some patch
  | .other _ => none

def rangeEntries (range : List (JsString × GitCommit V)) : List (PatchEntry V) :=
  range.filterMap fun item => item.2.patch?.map fun patch => ⟨patch, item.1⟩

variable {commits range : List (JsString × GitCommit V)}

theorem FirstParentRange.mono (inside : FirstParentRange commits fromSha sha range)
    (subset : commits ⊆ more) : FirstParentRange more fromSha sha range := by
  induction inside with
  | single commit stored => exact .single commit (subset stored)
  | parent sha parentSha commit rest stored first older ih =>
    exact .parent sha parentSha commit rest (subset stored) first ih

theorem FirstParentRange.start_mem (inside : FirstParentRange commits fromSha sha range) :
    sha ∈ commits.map Prod.fst := by
  cases inside with
  | single commit stored | parent sha parentSha commit rest stored first older =>
    exact mem_map_of_mem stored

theorem ParentsBefore.mem (closed : ParentsBefore commits) (stored : (sha, commit) ∈ commits)
    {parent} (isParent : parent ∈ commit.parents) : parent ∈ commits.map Prod.fst := by
  induction commits with
  | nil => cases stored
  | cons next rest ih =>
    rcases mem_cons.mp stored with same | further
    · subst same
      exact mem_cons_of_mem _ (closed.1 parent isParent)
    · exact mem_cons_of_mem _ (ih closed.2 further)

/-- A parent stands behind its child. -/
theorem ParentsBefore.idxOf_lt (nodup : (commits.map Prod.fst).Nodup)
    (closed : ParentsBefore commits) (stored : (sha, commit) ∈ commits) {parent}
    (isParent : parent ∈ commit.parents) :
    (commits.map Prod.fst).idxOf sha < (commits.map Prod.fst).idxOf parent := by
  induction commits with
  | nil => cases stored
  | cons next rest ih =>
    rw [map_cons, nodup_cons] at nodup
    have behind : next.1 ≠ parent := by
      rintro rfl
      rcases mem_cons.mp stored with same | further
      · subst same
        exact nodup.1 (closed.1 _ isParent)
      · exact nodup.1 (closed.2.mem further isParent)
    rw [map_cons, idxOf_cons_ne _ behind]
    rcases mem_cons.mp stored with same | further
    · subst same
      simp
    · have apart : next.1 ≠ sha := by
        rintro rfl
        have listed := mem_map_of_mem (f := Prod.fst) further
        exact nodup.1 listed
      rw [idxOf_cons_ne _ apart]
      exact Nat.succ_lt_succ (ih nodup.2 closed.2 further)

theorem FirstParentRange.idxOf_le (nodup : (commits.map Prod.fst).Nodup)
    (closed : ParentsBefore commits) (inside : FirstParentRange commits fromSha sha range) :
    (commits.map Prod.fst).idxOf sha ≤ (commits.map Prod.fst).idxOf fromSha := by
  induction inside with
  | single commit stored => exact Nat.le_refl _
  | parent sha parentSha commit rest stored first older ih =>
    have next := closed.idxOf_lt nodup stored (mem_of_head? first)
    omega

theorem FirstParentRange.trans (above : FirstParentRange commits between toSha upper)
    (below : FirstParentRange commits fromSha middle lower)
    (joint : ∀ commit, (between, commit) ∈ commits → commit.parents.head? = some middle) :
    FirstParentRange commits fromSha toSha (upper ++ lower) := by
  induction above with
  | single commit stored => exact .parent _ middle commit lower stored (joint commit stored) below
  | parent sha parentSha commit rest stored first older ih =>
    exact .parent sha parentSha commit _ stored first ih

/-! ### What is collected -/

theorem processCommit_ok {collected : CollectedPatch V} :
    processCommit graphName sha commit expectedWriter = .ok collected ↔
      commit.IsPatchOf graphName collected.writerId ∧
        (∀ expected, expectedWriter = some expected → collected.writerId = expected) ∧
        commit.patch? = some collected.entry.patch ∧ collected.entry.sha = sha := by
  obtain ⟨⟨patch, entrySha⟩, writerId⟩ := collected
  unfold processCommit GitCommit.IsPatchOf GitCommit.patch?
  cases commit.content with
  | other kind => simp
  | patch graph writer stored =>
    by_cases foreign : graph = graphName
    · subst foreign
      cases expectedWriter with
      | none =>
        simp
        grind
      | some expected =>
        by_cases other : writer = expected
        · subst other
          simp
          grind
        · simp [other]
          grind
    · simp [foreign]

theorem collectFrom_of_mem {commits} (nodup : (commits.map Prod.fst).Nodup)
    (closed : ParentsBefore commits) (stored : (sha, commit) ∈ commits) (expectedWriter) :
    collectFrom graphName fromSha toSha commits sha expectedWriter = (do
      let collected ← processCommit graphName sha commit expectedWriter
      if sha = fromSha then pure [collected]
      else
        match commit.parents.head? with
        | none => .error (notAncestor fromSha toSha)
        | some parentSha => do
          let rest ← collectFrom graphName fromSha toSha commits parentSha
            (some collected.writerId)
          pure (collected :: rest)) := by
  -- collecting from a stored commit looks at it, then goes on from its first parent
  induction commits with
  | nil => cases stored
  | cons first older ih =>
    obtain ⟨head, top⟩ := first
    rw [map_cons, nodup_cons] at nodup
    -- the newest commit is no parent of a stored one
    have deeper : ∀ p w, p ∈ older.map Prod.fst →
        collectFrom graphName fromSha toSha ((head, top) :: older) p w =
          collectFrom graphName fromSha toSha older p w := by
      intro p w inside
      have apart : head ≠ p := by
        rintro rfl
        exact nodup.1 inside
      rw [collectFrom, if_neg apart]
    rcases mem_cons.mp stored with same | later
    · rw [Prod.mk.injEq] at same
      obtain ⟨rfl, rfl⟩ := same
      rw [collectFrom, if_pos rfl]
      cases parent : commit.parents.head? with
      | none => rfl
      | some p => simp only [deeper p _ (closed.1 p (mem_of_head? parent))]
    · rw [deeper sha expectedWriter (mem_map_of_mem (f := Prod.fst) later),
        ih nodup.2 closed.2 later]
      cases parent : commit.parents.head? with
      | none => rfl
      | some p =>
        simp only [deeper p _ (closed.2.mem later (mem_of_head? parent))]

/-- The writer that a collection stands for, if it must be the expected one. -/
def OfWriter (expectedWriter : Option JsString) (writer : JsString) : Prop :=
  ∀ expected, expectedWriter = some expected → writer = expected

/-- What a range of patches of one writer is collected to. -/
def Collects (graphName writer : JsString) (range : List (JsString × GitCommit V))
    (collected : List (CollectedPatch V)) : Prop :=
  (∀ item ∈ range, item.2.IsPatchOf graphName writer) ∧
    collected.map CollectedPatch.entry = rangeEntries range ∧
    ∀ patch ∈ collected, patch.writerId = writer

variable (g : CommitGraph V)

theorem collectFrom_complete (inside : FirstParentRange g.commits fromSha sha range)
    (patches : ∀ item ∈ range, item.2.IsPatchOf graphName writer) (expectedWriter)
    (same : OfWriter expectedWriter writer) :
    ∃ collected, collectFrom graphName fromSha toSha g.commits sha expectedWriter =
      .ok collected ∧ Collects graphName writer range collected := by
  induction inside generalizing expectedWriter with
  | single commit stored =>
    obtain ⟨patch, content⟩ := patches _ mem_cons_self
    have read : commit.patch? = some patch := by rw [GitCommit.patch?, content]
    have processed : processCommit graphName fromSha commit expectedWriter =
        .ok ⟨⟨patch, fromSha⟩, writer⟩ :=
      processCommit_ok.mpr ⟨⟨patch, content⟩, same, read, rfl⟩
    refine ⟨[⟨⟨patch, fromSha⟩, writer⟩], ?_, patches, ?_, by simp⟩
    · rw [collectFrom_of_mem g.nodup g.closed stored, processed, ok_bind, if_pos rfl]
      rfl
    · simp [rangeEntries, read]
  | parent sha parentSha commit rest stored first older ih =>
    obtain ⟨patch, content⟩ := patches _ mem_cons_self
    have read : commit.patch? = some patch := by rw [GitCommit.patch?, content]
    have processed : processCommit graphName sha commit expectedWriter =
        .ok ⟨⟨patch, sha⟩, writer⟩ :=
      processCommit_ok.mpr ⟨⟨patch, content⟩, same, read, rfl⟩
    -- the walk does not stop before the end of the range
    have below : sha ≠ fromSha := by
      rintro rfl
      have step := g.closed.idxOf_lt g.nodup stored (mem_of_head? first)
      have last := older.idxOf_le g.nodup g.closed
      omega
    obtain ⟨others, found, inner, entries, writers⟩ :=
      ih (forall_mem_cons.mp patches).2 (some writer)
        (fun expected known => Option.some.inj known)
    refine ⟨⟨⟨patch, sha⟩, writer⟩ :: others, ?_, patches, ?_, ?_⟩
    · rw [collectFrom_of_mem g.nodup g.closed stored, processed, ok_bind, if_neg below, first]
      simp only [found, ok_bind]
      rfl
    · simp only [rangeEntries, map_cons, filterMap_cons, read, Option.map_some]
      rw [entries, rangeEntries]
    · intro collected mem
      rcases mem_cons.mp mem with rfl | later
      · rfl
      · exact writers collected later

theorem collectFrom_sound {commits} (sha) (expectedWriter) (collected : List (CollectedPatch V))
    (found : collectFrom graphName fromSha toSha commits sha expectedWriter = .ok collected) :
    ∃ range writer, FirstParentRange commits fromSha sha range ∧ OfWriter expectedWriter writer ∧
      Collects graphName writer range collected := by
  induction commits generalizing sha expectedWriter collected with
  | nil => simp [collectFrom] at found
  | cons first older ih =>
    obtain ⟨head, commit⟩ := first
    have subset : older ⊆ (head, commit) :: older := subset_cons_self _ _
    rw [collectFrom] at found
    split at found
    next here =>
      subst here
      simp only [bind_eq_ok] at found
      obtain ⟨patch, processed, found⟩ := found
      obtain ⟨own, same, read, named⟩ := processCommit_ok.mp processed
      have entry : (⟨patch.entry.patch, head⟩ : PatchEntry V) = patch.entry := by rw [← named]
      split at found
      next last =>
        subst last
        cases found
        refine ⟨[(head, commit)], patch.writerId, .single commit mem_cons_self, same, ?_, ?_, ?_⟩
        · simpa using own
        · simp [rangeEntries, read, entry]
        · simp
      · cases parent : commit.parents.head? with
        | none => simp [parent] at found
        | some parentSha =>
          simp only [parent, bind_eq_ok] at found
          obtain ⟨rest, below, whole⟩ := found
          cases whole
          obtain ⟨range, writer, inside, kept, patches, entries, writers⟩ :=
            ih parentSha (some patch.writerId) rest below
          have one := kept patch.writerId rfl
          subst one
          refine ⟨(head, commit) :: range, patch.writerId, .parent head parentSha commit range
            mem_cons_self parent (inside.mono subset), same, ?_, ?_, ?_⟩
          · intro item mem
            rcases mem_cons.mp mem with rfl | later
            · exact own
            · exact patches item later
          · simp only [rangeEntries, map_cons, filterMap_cons, read, Option.map_some]
            rw [entries, rangeEntries, entry]
          · intro other mem
            rcases mem_cons.mp mem with rfl | later
            · rfl
            · exact writers other later
    · obtain ⟨range, writer, inside, rest⟩ := ih sha expectedWriter collected found
      exact ⟨range, writer, inside.mono subset, rest⟩

/-! ### Creating and composing -/

theorem verifyShaExists_ok (sha) :
    verifyShaExists g sha = .ok () ↔ sha ∈ g.commits.map Prod.fst := by
  unfold verifyShaExists CommitGraph.has
  cases found : assocGet g.commits sha with
  | none =>
    have absent := (assocGet_eq_none_iff g.commits sha).mp found
    simp [absent]
  | some commit =>
    have stored := (assocGet_eq_some_iff g.commits g.nodup sha commit).mp found
    simpa using ⟨commit, stored⟩

theorem FirstParentRange.end_mem (inside : FirstParentRange commits fromSha sha range) :
    fromSha ∈ commits.map Prod.fst := by
  induction inside with
  | single commit stored => exact mem_map_of_mem stored
  | parent sha parentSha commit rest stored first older ih => exact ih

def rangeWormhole (fromSha toSha writer : JsString) (range : List (JsString × GitCommit V)) :
    WormholeEdge V :=
  ⟨fromSha, toSha, writer, ⟨(rangeEntries range).reverse⟩, (rangeEntries range).length⟩

theorem FirstParentRange.ne_nil (inside : FirstParentRange commits fromSha sha range) :
    range ≠ [] := by
  cases inside <;> exact cons_ne_nil _ _

theorem Collects.packed (collects : Collects graphName writer range collected) (filled : range ≠ []) :
    (⟨fromSha, toSha, (collected.reverse.head?.map CollectedPatch.writerId).getD [],
      ⟨collected.reverse.map CollectedPatch.entry⟩, collected.reverse.length⟩ : WormholeEdge V) =
      rangeWormhole fromSha toSha writer range := by
  obtain ⟨patches, entries, writers⟩ := collects
  have some_collected : collected ≠ [] := by
    rintro rfl
    obtain ⟨item, rest, rfl⟩ := exists_cons_of_ne_nil filled
    obtain ⟨patch, content⟩ := patches item mem_cons_self
    simp [rangeEntries, GitCommit.patch?, content] at entries
  have named : (collected.reverse.head?.map CollectedPatch.writerId).getD [] = writer := by
    rw [List.head?_reverse, List.getLast?_eq_getLast_of_ne_nil some_collected]
    exact writers _ (getLast_mem some_collected)
  have counted : collected.reverse.length = (rangeEntries range).length := by
    rw [← entries, length_map, length_reverse]
  rw [rangeWormhole, named, counted, map_reverse, entries]

theorem createWormhole_ok_iff :
    createWormhole g graphName fromSha toSha = .ok w ↔
      ∃ range writer, FirstParentRange g.commits fromSha toSha range ∧
        (∀ item ∈ range, item.2.IsPatchOf graphName writer) ∧
        w = rangeWormhole fromSha toSha writer range := by
  rw [createWormhole, check_then_eq_ok, check_then_eq_ok, verifyShaExists_ok, verifyShaExists_ok,
    bind_eq_ok]
  constructor
  · rintro ⟨-, -, collected, found, whole⟩
    obtain ⟨range, writer, inside, -, collects⟩ :=
      collectFrom_sound toSha none collected found
    cases whole
    exact ⟨range, writer, inside, collects.1, collects.packed inside.ne_nil⟩
  · rintro ⟨range, writer, inside, patches, rfl⟩
    obtain ⟨collected, found, collects⟩ := collectFrom_complete g inside patches none (by simp [OfWriter])
    exact ⟨inside.end_mem, inside.start_mem, collected, found,
      congrArg Except.ok (collects.packed inside.ne_nil)⟩

theorem ProvenancePayload.entries_concat (p other : ProvenancePayload V) :
    (p.concat other).entries = p.entries ++ other.entries := by
  unfold ProvenancePayload.concat
  split
  next silent => simp [silent]
  · split
    next silent => simp [silent]
    · rfl

theorem rangeWormhole_concat :
    (⟨fromSha, toSha, writer, (rangeWormhole fromSha b writer lower).payload.concat
        (rangeWormhole c toSha writer upper).payload,
      (rangeWormhole fromSha b writer lower).patchCount +
        (rangeWormhole c toSha writer upper).patchCount⟩ : WormholeEdge V) =
      rangeWormhole fromSha toSha writer (upper ++ lower) := by
  have joined : rangeEntries (upper ++ lower) = rangeEntries upper ++ rangeEntries lower :=
    filterMap_append
  have payload : (rangeWormhole fromSha b writer lower).payload.concat
      (rangeWormhole c toSha writer upper).payload =
        ⟨(rangeEntries (upper ++ lower)).reverse⟩ := by
    have entries := ProvenancePayload.entries_concat (rangeWormhole fromSha b writer lower).payload
      (rangeWormhole c toSha writer upper).payload
    rw [joined, reverse_append]
    exact congrArg ProvenancePayload.mk entries
  have count : (rangeWormhole fromSha b writer lower).patchCount +
      (rangeWormhole c toSha writer upper).patchCount = (rangeEntries (upper ++ lower)).length := by
    rw [joined, length_append, Nat.add_comm]
    rfl
  rw [payload, count]
  rfl

def CommitGraph.firstParent (g : CommitGraph V) (sha : JsString) : Option JsString :=
  (assocGet g.commits sha).bind fun commit => commit.parents.head?

def CommitGraph.WriterChain (g : CommitGraph V) : Prop :=
  ∀ sha commit, (sha, commit) ∈ g.commits → commit.parents.length ≤ 1

theorem CommitGraph.firstParent_eq_iff (chain : g.WriterChain) (sha parent) :
    g.firstParent sha = some parent ↔
      ∃ commit, assocGet g.commits sha = some commit ∧ parent ∈ commit.parents := by
  rw [firstParent, Option.bind_eq_some_iff]
  apply exists_congr
  intro commit
  apply and_congr_right
  intro found
  have short := chain sha commit ((assocGet_eq_some_iff g.commits g.nodup sha commit).mp found)
  cases parents : commit.parents with
  | nil => simp
  | cons only more =>
    rw [parents, length_cons] at short
    have alone : more = [] := length_eq_zero_iff.mp (by omega)
    simp [alone, eq_comm]

theorem verifyConsecutive_ok (first second) :
    verifyConsecutive g first second = .ok () ↔
      ∃ commit, assocGet g.commits second.fromSha = some commit ∧ first.toSha ∈ commit.parents := by
  unfold verifyConsecutive CommitGraph.getNodeInfo
  cases assocGet g.commits second.fromSha with
  | none => simp [bind, Except.bind]
  | some commit =>
    simp only [ok_bind, Option.some.injEq, exists_eq_left']
    split
    next inside => simp [inside, pure, Except.pure]
    next outside => simp [outside]

theorem composeWormholes_checked_iff (chain : g.WriterChain) :
    (∃ w, composeWormholes first second (some g) = .ok w) ↔
      first.writerId = second.writerId ∧ g.firstParent second.fromSha = some first.toSha := by
  rw [g.firstParent_eq_iff chain, ← verifyConsecutive_ok, composeWormholes]
  by_cases same : first.writerId = second.writerId
  · simp [same, check_then_eq_ok, pure, Except.pure]
  · simp [same]

theorem composeWormholes_unchecked_iff {first second : WormholeEdge V} :
    (∃ w, composeWormholes first second none = .ok w) ↔ first.writerId = second.writerId := by
  rw [composeWormholes]
  by_cases same : first.writerId = second.writerId
  · simp [same, pure, Except.pure]
  · simp [same]

theorem composeWormholes_ok {persistence : Option (CommitGraph V)}
    (composed : composeWormholes first second persistence = .ok w) :
    first.writerId = second.writerId ∧
      w = ⟨first.fromSha, second.toSha, first.writerId, first.payload.concat second.payload,
        first.patchCount + second.patchCount⟩ := by
  unfold composeWormholes at composed
  split at composed
  · cases composed
  next same =>
    rw [check_then_eq_ok] at composed
    obtain ⟨-, whole⟩ := composed
    cases whole
    exact ⟨not_not.mp same, rfl⟩

theorem composeWormholes_eq_create (lower : createWormhole g graphName a b = .ok first)
    (upper : createWormhole g graphName c d = .ok second) (consecutive : g.firstParent c = some b)
    (composed : composeWormholes first second persistence = .ok w) :
    createWormhole g graphName a d = .ok w := by
  -- composing consecutive wormholes gives the wormhole of the joined range
  obtain ⟨below, writer, inLower, ownLower, rfl⟩ := (createWormhole_ok_iff _).mp lower
  obtain ⟨above, writer', inUpper, ownUpper, rfl⟩ := (createWormhole_ok_iff _).mp upper
  obtain ⟨same, whole⟩ := composeWormholes_ok composed
  have one : writer = writer' := same
  subst one
  -- the upper range ends right above the lower one
  have joint : ∀ commit, (c, commit) ∈ g.commits → commit.parents.head? = some b := by
    intro commit stored
    have found := (assocGet_eq_some_iff g.commits g.nodup c commit).mpr stored
    rw [CommitGraph.firstParent, found] at consecutive
    exact consecutive
  rw [createWormhole_ok_iff]
  refine ⟨above ++ below, writer, inUpper.trans inLower joint, ?_, ?_⟩
  · intro item mem
    rcases mem_append.mp mem with high | low
    · exact ownUpper item high
    · exact ownLower item low
  · rw [whole, ← rangeWormhole_concat]
    rfl

/-! ### Replaying -/

theorem reducePatches_eq_foldlM {entries} (s : WarpState V) :
    reducePatches entries s = entries.foldlM applyFast s := by
  induction entries generalizing s with
  | nil => rfl
  | cons entry rest ih =>
    rw [reducePatches, foldlM_cons]
    cases applyFast s entry with
    | error e => rfl
    | ok next => exact ih next

theorem ProvenancePayload.replay_eq (p : ProvenancePayload V) (s) :
    p.replay (some s) = p.entries.foldlM applyFast s := by
  unfold replay
  split
  next silent =>
    rw [silent]
    rfl
  · exact reducePatches_eq_foldlM s

/-! ### The algebra of wormholes -/

/-- Creating, composing and replaying over a writer's chain: composing with the repository at
hand demands consecutive ranges, composing without it does not, and on consecutive ranges
either gives the wormhole of the joined range. -/
theorem wormholes_compose (g : CommitGraph V) (chain : g.WriterChain) (graphName : JsString) :
    (∀ fromSha toSha, (∃ w, createWormhole g graphName fromSha toSha = .ok w) ↔
      ∃ range writer, FirstParentRange g.commits fromSha toSha range ∧
        ∀ item ∈ range, item.2.IsPatchOf graphName writer) ∧
    (∀ first second : WormholeEdge V, ((∃ w, composeWormholes first second (some g) = .ok w) ↔
        first.writerId = second.writerId ∧ g.firstParent second.fromSha = some first.toSha) ∧
      ((∃ w, composeWormholes first second none = .ok w) ↔ first.writerId = second.writerId)) ∧
    (∀ a b c d first second w persistence, createWormhole g graphName a b = .ok first →
      createWormhole g graphName c d = .ok second → g.firstParent c = some b →
      composeWormholes first second persistence = .ok w →
      createWormhole g graphName a d = .ok w) ∧
    ∀ (payload other : ProvenancePayload V) (s : WarpState V),
      payload.replay (some s) = payload.entries.foldlM applyFast s ∧
      (payload.concat other).replay (some s) =
        (payload.entries ++ other.entries).foldlM applyFast s := by
  refine ⟨?_, ?_, ?_, ?_⟩
  · intro fromSha toSha
    simp only [createWormhole_ok_iff]
    constructor
    · rintro ⟨w, range, writer, inside, patches, -⟩
      exact ⟨range, writer, inside, patches⟩
    · rintro ⟨range, writer, inside, patches⟩
      exact ⟨_, range, writer, inside, patches, rfl⟩
  · intro first second
    exact ⟨composeWormholes_checked_iff g chain, composeWormholes_unchecked_iff⟩
  · intro a b c d first second w persistence lower upper consecutive composed
    exact composeWormholes_eq_create g lower upper
      consecutive composed
  · intro payload other s
    refine ⟨payload.replay_eq s, ?_⟩
    rw [ProvenancePayload.replay_eq, ProvenancePayload.entries_concat]

/-! ### A chain of three patches -/

def chainPatch (lamport : Int) : PatchLike Nat := ⟨lit "alice", lamport, [], .absent⟩

def chainCommit (lamport : Int) (parents : List JsString) : GitCommit Nat :=
  ⟨.patch (lit "g") (lit "alice") (chainPatch lamport), parents⟩

def threePatches : CommitGraph Nat where
  commits := [(lit "cccc", chainCommit 3 [lit "bbbb"]), (lit "bbbb", chainCommit 2 [lit "aaaa"]),
    (lit "aaaa", chainCommit 1 [])]
  nodup := by decide
  closed := by simp [ParentsBefore, chainCommit]

theorem threePatches_writerChain : threePatches.WriterChain := by
  intro sha commit stored
  simp only [threePatches, mem_cons, Prod.mk.injEq, not_mem_nil, or_false] at stored
  rcases stored with ⟨-, rfl⟩ | ⟨-, rfl⟩ | ⟨-, rfl⟩ <;> simp [chainCommit]

theorem wormholes_compose_sample :
    createWormhole threePatches (lit "g") (lit "aaaa") (lit "cccc") =
      .ok ⟨lit "aaaa", lit "cccc", lit "alice",
        ⟨[⟨chainPatch 1, lit "aaaa"⟩, ⟨chainPatch 2, lit "bbbb"⟩, ⟨chainPatch 3, lit "cccc"⟩]⟩,
        3⟩ :=
  (wormholes_compose threePatches threePatches_writerChain (lit "g")).2.2.1 (lit "aaaa")
    (lit "aaaa") (lit "bbbb") (lit "cccc") _ _ _ none rfl rfl rfl rfl

/-- Without the repository, two ranges with a patch between them are composed. -/
theorem composeWormholes_skips_patch :
    ∃ first second w, createWormhole threePatches (lit "g") (lit "aaaa") (lit "aaaa") = .ok first ∧
      createWormhole threePatches (lit "g") (lit "cccc") (lit "cccc") = .ok second ∧
      threePatches.firstParent second.fromSha ≠ some first.toSha ∧
      composeWormholes first second none = .ok w ∧
      createWormhole threePatches (lit "g") first.fromSha second.toSha ≠ .ok w := by
  refine ⟨_, _, _, rfl, rfl, by decide, rfl, ?_⟩
  intro same
  have counts := congrArg (Except.map WormholeEdge.patchCount) same
  exact absurd counts (by decide)

end GitWarp
