import GitWarp.Reducer.Absorption

/-!
# Commits and the chains behind them

A repository holds commits by sha, each with one patch and at most one parent
that was there before it. Walking back from a tip gives the patches of a
writer, and a walk splits at each of its commits.
-/
namespace GitWarp

open Js Lib List

variable {V : Type}

structure Commit (V : Type) where
  parent : Option JsString
  patch : PatchLike V

/-- Every parent is stored before its child; commits are listed newest first. -/
def ParentsStored : List (JsString × Commit V) → Prop
  | [] => True
  | (_, commit) :: older =>
    (∀ parent, commit.parent = some parent → parent ∈ older.map Prod.fst) ∧ ParentsStored older

theorem twoShas_nodup : [lit "bbbb", lit "aaaa"].Nodup := by decide

structure CommitStore (V : Type) where
  commits : List (JsString × Commit V)
  nodup : (commits.map Prod.fst).Nodup
  closed : ParentsStored commits

/-- The loop of `loadPatchChainFromSha` from a sha on, oldest patch first. -/
def walkBack (stopAtSha : Option JsString) :
    List (JsString × Commit V) → JsString → List (PatchEntry V)
  | [], _ => []
  | (sha, commit) :: older, current =>
    if some current = stopAtSha then []
    else if sha = current then
      (match commit.parent with
        | none => []
        | some parent => walkBack stopAtSha older parent) ++ [⟨commit.patch, sha⟩]
    else walkBack stopAtSha older current

/-- The loop of `isAncestor`: is the sha met among the parents? -/
def parentWalk (ancestorSha : JsString) : List (JsString × Commit V) → JsString → Bool
  | [], _ => false
  | (sha, commit) :: older, current =>
    if sha = current then
      match commit.parent with
      | none => false
      | some parent => decide (parent = ancestorSha) || parentWalk ancestorSha older parent
    else parentWalk ancestorSha older current

namespace CommitStore

/-- A tip that the store does not have gives no patches; the callers pass tips of refs. -/
def loadPatchChainFromSha (store : CommitStore V) (tipSha : JsString)
    (stopAtSha : Option JsString) : List (PatchEntry V) :=
  if tipSha = [] then [] else walkBack stopAtSha store.commits tipSha

/-- All patches behind a tip. -/
def chain (store : CommitStore V) (tipSha : JsString) : List (PatchEntry V) :=
  store.loadPatchChainFromSha tipSha none

def isAncestor (store : CommitStore V) (ancestorSha descendantSha : JsString) : Bool :=
  if ancestorSha = [] ∨ descendantSha = [] then false
  else decide (ancestorSha = descendantSha) || parentWalk ancestorSha store.commits descendantSha

/-- The patch of each commit can be reduced. -/
def Valid (store : CommitStore V) : Prop :=
  ∀ commit ∈ store.commits, (⟨commit.2.patch, commit.1⟩ : PatchEntry V).WellFormed

end CommitStore

/-! ### What a walk finds -/

theorem mem_walkBack {commits} (current) {entry : PatchEntry V}
    (mem : entry ∈ walkBack stop commits current) :
    ∃ commit, (entry.sha, commit) ∈ commits ∧ entry.patch = commit.patch := by
  induction commits generalizing current with
  | nil => cases mem
  | cons first older ih =>
    obtain ⟨sha, commit⟩ := first
    rw [walkBack] at mem
    split at mem
    · cases mem
    · split at mem
      · rcases mem_append.mp mem with before | last
        · cases parent : commit.parent with
          | none => simp [parent] at before
          | some p =>
            rw [parent] at before
            obtain ⟨found, stored, same⟩ := ih p before
            exact ⟨found, mem_cons_of_mem _ stored, same⟩
        · rw [mem_singleton.mp last]
          exact ⟨commit, mem_cons_self, rfl⟩
      · obtain ⟨found, stored, same⟩ := ih current mem
        exact ⟨found, mem_cons_of_mem _ stored, same⟩

theorem walkBack_subset {commits : List (JsString × Commit V)} (current) :
    walkBack stop commits current ⊆ walkBack none commits current := by
  induction commits generalizing current with
  | nil => exact List.Subset.refl _
  | cons first older ih =>
    obtain ⟨sha, commit⟩ := first
    rw [walkBack, walkBack, if_neg (show ¬ some current = none by simp)]
    split
    · exact nil_subset _
    · split
      · intro entry mem
        rw [mem_append] at mem ⊢
        apply mem.imp_left
        cases commit.parent with
        | none => exact id
        | some parent => exact fun before => ih parent before
      · exact ih current

variable (commits : List (JsString × Commit V))

theorem mem_walkBack_self (stored : sha ∈ commits.map Prod.fst) :
    sha ∈ (walkBack none commits sha).map PatchEntry.sha := by
  induction commits with
  | nil => cases stored
  | cons first older ih =>
    obtain ⟨head, commit⟩ := first
    rw [walkBack, if_neg (by simp)]
    by_cases here : head = sha
    · rw [if_pos here, here]
      simp
    · rw [if_neg here]
      rcases mem_cons.mp stored with same | later
      · exact absurd same.symm here
      · exact ih later

theorem walkBack_split (nodup : (commits.map Prod.fst).Nodup) (current stop)
    (passes : stop ∈ (walkBack none commits current).map PatchEntry.sha) :
    walkBack none commits current =
      walkBack none commits stop ++ walkBack (some stop) commits current := by
  -- a walk passes through each of its commits: up to it is its chain, after it is the walk that
  -- stops there
  induction commits generalizing current with
  | nil => cases passes
  | cons first older ih =>
    obtain ⟨sha, commit⟩ := first
    rw [map_cons, nodup_cons] at nodup
    -- at the stop itself the second walk is empty
    by_cases arrived : current = stop
    · subst arrived
      simp [walkBack]
    · have going : ¬ some current = some stop := by simpa using arrived
      have skips : ∀ p, stop ∈ (walkBack none older p).map PatchEntry.sha →
          walkBack none ((sha, commit) :: older) stop = walkBack none older stop := by
        intro p later
        obtain ⟨entry, member, same⟩ := mem_map.mp later
        obtain ⟨found, stored, -⟩ := mem_walkBack p member
        have apart : sha ≠ stop := by
          rintro rfl
          exact nodup.1 (mem_map.mpr ⟨_, stored, same⟩)
        rw [walkBack, if_neg (by simp), if_neg apart]
      rw [walkBack, if_neg (by simp)] at passes ⊢
      rw [walkBack.eq_def (some stop)]
      simp only [going, if_false]
      by_cases here : sha = current
      · simp only [here, if_true] at passes ⊢
        rw [← here] at passes ⊢
        cases parent : commit.parent with
        | none =>
          rw [parent] at passes
          simp only [nil_append, map_cons, map_nil, mem_singleton] at passes
          exact absurd (passes.trans here).symm arrived
        | some p =>
          rw [parent] at passes
          simp only [map_append, map_cons, map_nil, mem_append, mem_singleton] at passes
          have later : stop ∈ (walkBack none older p).map PatchEntry.sha := by
            rcases passes with later | last
            · exact later
            · exact absurd (last.trans here).symm arrived
          rw [skips p later]
          simp only [ih nodup.2 p later, append_assoc]
      · simp only [here, if_false] at passes ⊢
        rw [skips current passes]
        exact ih nodup.2 current passes

theorem mem_walkBack_of_parentWalk (closed : ParentsStored commits) (ancestor current)
    (met : parentWalk ancestor commits current = true) :
    ancestor ∈ (walkBack none commits current).map PatchEntry.sha := by
  induction commits generalizing current with
  | nil => cases met
  | cons first older ih =>
    obtain ⟨sha, commit⟩ := first
    rw [walkBack, if_neg (by simp)]
    rw [parentWalk] at met
    by_cases here : sha = current
    · rw [if_pos here] at met ⊢
      cases parent : commit.parent with
      | none => simp [parent] at met
      | some p =>
        simp only [parent, Bool.or_eq_true, decide_eq_true_eq] at met
        have stored : p ∈ older.map Prod.fst := closed.1 p parent
        have behind : ancestor ∈ (walkBack none older p).map PatchEntry.sha := by
          rcases met with rfl | further
          · exact mem_walkBack_self older stored
          · exact ih closed.2 p further
        simp [map_append, behind]
    · rw [if_neg here] at met ⊢
      exact ih closed.2 current met

/-- Every other commit of a walk is met among the parents. -/
theorem parentWalk_of_mem_walkBack (ancestor current) (apart : ancestor ≠ current)
    (mem : ancestor ∈ (walkBack none commits current).map PatchEntry.sha) :
    parentWalk ancestor commits current = true := by
  induction commits generalizing current with
  | nil => cases mem
  | cons first older ih =>
    obtain ⟨sha, commit⟩ := first
    rw [walkBack, if_neg (by simp)] at mem
    rw [parentWalk]
    by_cases here : sha = current
    · rw [if_pos here] at mem ⊢
      cases parent : commit.parent with
      | none =>
        simp only [parent, nil_append, map_cons, map_nil, mem_singleton]
          at mem
        exact absurd (mem.trans here) apart
      | some p =>
        simp only [parent, map_append, map_cons, map_nil, mem_append, mem_singleton] at mem
        have behind := mem.resolve_right fun last => apart (last.trans here)
        by_cases arrived : p = ancestor
        · simp [arrived]
        · simp [ih p (Ne.symm arrived) behind]
    · rw [if_neg here] at mem ⊢
      exact ih current apart mem

theorem ParentsStored.mem {commits} (closed : ParentsStored commits) (sha parent)
    (commit : Commit V) (stored : (sha, commit) ∈ commits) (isParent : commit.parent = some parent) :
    parent ∈ commits.map Prod.fst := by
  induction commits with
  | nil => cases stored
  | cons next rest ih =>
    rcases mem_cons.mp stored with same | further
    · rw [← same] at closed ⊢
      exact mem_cons_of_mem _ (closed.1 parent isParent)
    · exact mem_cons_of_mem _ (ih closed.2 further)

/-- The chain of a stored commit is the chain of its parent and its own patch. -/
theorem walkBack_of_mem (nodup : (commits.map Prod.fst).Nodup) (closed : ParentsStored commits)
    (stored : (sha, commit) ∈ commits) :
    walkBack none commits sha =
      (match commit.parent with
        | none => []
        | some parent => walkBack none commits parent) ++ [⟨commit.patch, sha⟩] := by
  induction commits with
  | nil => cases stored
  | cons first older ih =>
    obtain ⟨head, top⟩ := first
    rw [map_cons, nodup_cons] at nodup
    -- the newest commit is no parent of a stored one
    have deeper : ∀ p, p ∈ older.map Prod.fst →
        walkBack none ((head, top) :: older) p = walkBack none older p := by
      intro p inside
      have apart : head ≠ p := by
        rintro rfl
        exact nodup.1 inside
      rw [walkBack, if_neg (by simp), if_neg apart]
    rcases mem_cons.mp stored with same | later
    · rw [Prod.mk.injEq] at same
      obtain ⟨rfl, rfl⟩ := same
      rw [walkBack, if_neg (by simp), if_pos rfl]
      cases parent : commit.parent with
      | none => rfl
      | some p =>
        simp only
        rw [deeper p (closed.1 p parent)]
    · have parents := fun p => closed.2.mem sha p commit
      rw [deeper sha (mem_map_of_mem later), ih nodup.2 closed.2 later]
      cases parent : commit.parent with
      | none => rfl
      | some p =>
        simp only
        rw [deeper p (parents p later parent)]

variable (store : CommitStore V)

namespace CommitStore

theorem mem_load (mem : entry ∈ store.loadPatchChainFromSha tip stop) :
    ∃ commit, (entry.sha, commit) ∈ store.commits ∧ entry.patch = commit.patch := by
  unfold loadPatchChainFromSha at mem
  split at mem
  · cases mem
  · exact mem_walkBack tip mem

theorem load_subset_chain : store.loadPatchChainFromSha tip stop ⊆ store.chain tip := by
  unfold chain loadPatchChainFromSha
  split
  · exact nil_subset _
  · exact walkBack_subset tip

theorem Valid.load {store : CommitStore V} (valid : store.Valid)
    (mem : entry ∈ store.loadPatchChainFromSha tip stop) : entry.WellFormed := by
  obtain ⟨commit, stored, same⟩ := store.mem_load mem
  have good := valid _ stored
  rw [← same] at good
  exact good

theorem eq_of_sha (left : a ∈ store.loadPatchChainFromSha tip stop)
    (right : b ∈ store.loadPatchChainFromSha tip' stop') (same : a.sha = b.sha) : a = b := by
  obtain ⟨commit, stored, patch⟩ := store.mem_load left
  obtain ⟨commit', stored', patch'⟩ := store.mem_load right
  rw [← same] at stored'
  have one : commit = commit' :=
    congrArg Prod.snd (inj_on_of_nodup_map store.nodup stored stored' rfl)
  obtain ⟨pa, sa⟩ := a
  obtain ⟨pb, sb⟩ := b
  simp only at patch patch' same
  rw [patch, patch', one, same]

theorem chain_split {tip stop : JsString} (named : stop ≠ [])
    (passes : stop ∈ (store.chain tip).map PatchEntry.sha) :
    store.chain tip = store.chain stop ++ store.loadPatchChainFromSha tip (some stop) := by
  unfold chain loadPatchChainFromSha at *
  split at passes
  · cases passes
  · rw [if_neg named]
    next tipped =>
      simp only [tipped, if_false]
      exact walkBack_split store.commits store.nodup tip stop passes

theorem mem_chain_of_isAncestor (apart : a ≠ d) (behind : store.isAncestor a d = true) :
    a ∈ (store.chain d).map PatchEntry.sha := by
  unfold isAncestor at behind
  split at behind
  · cases behind
  next named =>
    simp only [not_or] at named
    simp only [apart, decide_false, Bool.false_or] at behind
    rw [chain, loadPatchChainFromSha, if_neg named.2]
    exact mem_walkBack_of_parentWalk store.commits store.closed a d behind

theorem chain_subset_of_isAncestor (behind : a = d ∨ store.isAncestor a d = true)
    (mem : entry ∈ store.chain a) : entry ∈ store.chain d := by
  by_cases same : a = d
  · exact same ▸ mem
  · have met := mem_chain_of_isAncestor store same (behind.resolve_left same)
    have named : a ≠ [] := by
      rintro rfl
      simp [chain, loadPatchChainFromSha] at mem
    rw [store.chain_split named met]
    exact mem_append_left _ mem

end CommitStore
end GitWarp
