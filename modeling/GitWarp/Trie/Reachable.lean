import GitWarp.Trie.MemoryStore

/-!
# Runs of a cursor

A cursor and its store take calls one after another; a call that throws ends the run.
Every state on the way shows a tree that the calls determine, whatever was loaded,
written or reopened in between. So flushing and reopening lose nothing.
-/
namespace GitWarp

open Js Lib TrieCursor

/-! ### Depths -/

namespace Trie

variable {g : TrieGeometry}

theorem fits_update {u : Trie} (fits : ∀ m, (children m).Fits levels) (new : u.Fits levels)
    (m : Nat) : (Function.update children n u m).Fits levels := by
  by_cases same : m = n
  · subst same
    simpa using new
  · rw [Function.update_of_ne same]
    exact fits m

theorem fits_split (remaining page t) (made : split g remaining page = .ok t) :
    t.Fits (remaining + 1) := by
  induction remaining generalizing page t with
  | zero =>
    cases made
    exact Nat.one_pos
  | succ remaining ih =>
    obtain ⟨parts, -, made⟩ := bind_eq_ok.mp made
    obtain ⟨children, folded, made⟩ := bind_eq_ok.mp made
    cases made
    refine ⟨Nat.succ_pos _, ?_⟩
    refine foldlM_invariant (P := fun children => ∀ n, (children n).Fits (remaining + 1)) parts ?_
      (fun _ => trivial) folded
    intro children part children' _ fits step
    split at step
    · obtain ⟨child, installed, step⟩ := bind_eq_ok.mp step
      cases step
      exact fits_update fits (ih part.2 child installed)
    · cases step
      exact fits_update fits (show Fits (leaf part.2) _ from Nat.succ_pos _)

theorem fits_insert (t t' depth levels) (fits : t.Fits levels) (inside : 0 < levels)
    (total : depth + levels = g.maxDepth + 1) (inserted : insert g ctx t depth = .ok t') :
    t'.Fits levels := by
  induction t generalizing depth levels t' with
  | absent =>
    obtain ⟨page, -, made⟩ := bind_eq_ok.mp inserted
    cases made
    exact inside
  | leaf page =>
    obtain ⟨next, -, made⟩ := bind_eq_ok.mp inserted
    split at made
    · have deep := fits_split _ next t' made
      rwa [show g.maxDepth - depth + 1 = levels by omega] at deep
    · cases made
      exact inside
  | branch children ih =>
    obtain ⟨n, found, rest⟩ := bind_eq_ok.mp inserted
    obtain ⟨child, made, rest⟩ := bind_eq_ok.mp rest
    cases rest
    -- a nibble was found, so the branch is not at the last level
    have above : depth < g.maxDepth := by
      by_contra bottom
      simp [RouteKey.nibbleAt, Nat.le_of_not_lt bottom] at found
    exact ⟨inside, fits_update fits.2 (ih n child (depth + 1) (levels - 1) (fits.2 n) (by omega)
      (by omega) made)⟩

theorem fits_add (ctx) (t t') (fits : t.Fits (g.maxDepth + 1)) (added : add g ctx t = .ok t') :
    t'.Fits (g.maxDepth + 1) := by
  cases t with
  | absent =>
    exact fits_insert bare t' 0 _ ⟨Nat.succ_pos _, fun _ => trivial⟩ (Nat.succ_pos _)
      (Nat.zero_add _) added
  | leaf page | branch children =>
    exact fits_insert _ t' 0 _ fits (Nat.succ_pos _) (Nat.zero_add _) added

theorem fits_remove (t : Trie) (levels) (fits : t.Fits levels) :
    (t.remove observedDots).Fits levels := by
  induction t generalizing levels with
  | absent => trivial
  | leaf page => exact fits
  | branch children ih => exact ⟨fits.1, fun n => ih n (levels - 1) (fits.2 n)⟩

theorem fits_removeElement (route) (t : Trie) (depth levels) (fits : t.Fits levels) :
    (t.removeElement g route element observedDots depth).Fits levels := by
  induction t generalizing depth levels with
  | absent => trivial
  | leaf page =>
    rw [removeElement]
    split <;> exact fits
  | branch children ih =>
    rw [removeElement]
    split
    · exact ⟨fits.1, fits_update fits.2 (ih _ (depth + 1) (levels - 1) (fits.2 _))⟩
    · exact fits

theorem fits_mergeSiblings (rounds) (children children') (levels)
    (fits : ∀ n, (children n).Fits levels) (made : mergeSiblings g rounds children = .ok children')
    (n) : (children' n).Fits levels := by
  induction rounds generalizing children with
  | zero =>
    cases made
    exact fits n
  | succ rounds ih =>
    simp only [mergeSiblings] at made
    split at made
    · cases made
      exact fits n
    · next keep drop_ pair =>
      split at made
      next left right first second =>
        obtain ⟨merged, -, made⟩ := bind_eq_ok.mp made
        -- the kept leaf was at an allowed level already
        have inside : 0 < levels := by
          have leaf := fits keep
          rw [Trie.eq_leaf_of_leaf? first] at leaf
          exact leaf
        have kept := fits_update fits (n := keep) (show Fits (leaf merged) levels from inside)
        exact ih _ (fits_update kept (show Fits absent levels from trivial)) made
      · cases made
        exact fits n

theorem fits_rewrite (t) (inside : 0 < levels) (fits : ∀ n, (children n).Fits (levels - 1))
    (made : rewrite g children depth = .ok t) : t.Fits levels := by
  unfold rewrite at made
  split at made
  · split at made
    · cases made
      exact ⟨inside, fun _ => trivial⟩
    · cases made
      trivial
  · split at made
    · split at made
      · cases made
        exact ⟨inside, fits⟩
      · obtain ⟨collapsed, -, made⟩ := bind_eq_ok.mp made
        cases made
        exact inside
    · cases made
      exact ⟨inside, fits⟩
  · cases made
    exact ⟨inside, fits⟩

theorem fits_compact (t t' depth levels) (fits : t.Fits levels)
    (compacted : compact g vv t depth = .ok t') : t'.Fits levels := by
  induction t generalizing depth levels t' with
  | absent =>
    cases compacted
    trivial
  | leaf page =>
    obtain ⟨⟨changed, entries⟩, -, made⟩ := bind_eq_ok.mp compacted
    dsimp only at made
    split at made
    · cases made
      exact fits
    · split at made
      · cases made
        trivial
      · obtain ⟨next, -, made⟩ := bind_eq_ok.mp made
        cases made
        exact fits
  | branch children ih =>
    obtain ⟨each, traversed, rest⟩ := bind_eq_ok.mp compacted
    obtain ⟨merged, made, rest⟩ := bind_eq_ok.mp rest
    have traversed := (gather_ok_iff _ each).mp traversed
    refine fits_rewrite t' fits.1 ?_ rest
    refine fits_mergeSiblings _ each merged _ (fun n => ?_) made
    by_cases below : n ∈ List.range g.fanout
    · exact ih n (each n) (depth + 1) (levels - 1) (fits.2 n) (traversed.1 n below)
    · rw [traversed.2 n below]
      trivial

end Trie

/-! ### Calls -/

inductive TrieAction
  | add (element : JsString) (dot : Dot)
  | remove (observedDots : OrdSet JsString)
  | removeElement (element : JsString) (observedDots : OrdSet JsString)
  | compact (includedVV : VersionVector)
  | contains (element : JsString)
  | getDots (element : JsString)
  | getElementState (element : JsString)
  | scan
  | scanElementStates
  /-- Writes the dirty pages and goes on with the cursor as it is. -/
  | flush
  /-- Writes the dirty pages and reopens on the returned root. -/
  | checkpoint

variable {S : Type}

structure TrieState (env : TrieEnv S) where
  cursor : TrieCursor env.geometry
  store : S

namespace TrieState

variable {env : TrieEnv S}

/-- A new trie over a store. -/
def empty (env : TrieEnv S) (s : S) : TrieState env := ⟨opened none, s⟩

def flushed (st : TrieState env) : Except Failure (FlushResult × S) := do
  let dirty ← DirtyPageSet.ofCursor st.cursor
  let (result, s', _) ← TrieFlusher.flush env dirty st.store
  pure (result, s')

def perform (st : TrieState env) : TrieAction → Except Failure (TrieState env)
  | .add element dot => do
    let c ← st.cursor.add env st.store element dot
    pure ⟨c, st.store⟩
  | .remove observedDots => do
    let c ← st.cursor.remove env st.store observedDots
    pure ⟨c, st.store⟩
  | .removeElement element observedDots => do
    let c ← st.cursor.removeElement env st.store element observedDots
    pure ⟨c, st.store⟩
  | .compact includedVV => do
    let c ← st.cursor.compact env st.store includedVV
    pure ⟨c, st.store⟩
  | .contains element => do
    let (_, c) ← st.cursor.contains env st.store element
    pure ⟨c, st.store⟩
  | .getDots element => do
    let (_, c) ← st.cursor.getDots env st.store element
    pure ⟨c, st.store⟩
  | .getElementState element => do
    let (_, c) ← st.cursor.getElementState env st.store element
    pure ⟨c, st.store⟩
  | .scan => do
    let (_, c) ← st.cursor.scan env st.store
    pure ⟨c, st.store⟩
  | .scanElementStates => do
    let (_, c) ← st.cursor.scanElementStates env st.store
    pure ⟨c, st.store⟩
  | .flush => do
    let (_, s') ← st.flushed
    pure ⟨st.cursor, s'⟩
  | .checkpoint => do
    let (result, s') ← st.flushed
    let c ← st.cursor.rebase result.rootOid
    pure ⟨c, s'⟩

end TrieState

/-- What a call does to a tree. -/
def Trie.perform (env : TrieEnv S) (t : Trie) : TrieAction → Except Failure Trie
  | .add element dot => do
    validateElement element
    t.add env.geometry ⟨env.blake3 (textEncode element), element, dot.encode⟩
  | .remove observedDots => .ok (t.remove observedDots)
  | .removeElement element observedDots => do
    validateElement element
    pure (t.removeElement env.geometry (env.blake3 (textEncode element)) element observedDots 0)
  | .compact includedVV => t.compact env.geometry includedVV 0
  | .contains element => do
    validateElement element
    pure t
  | .getDots element => do
    validateElement element
    pure t
  | .getElementState element => do
    validateElement element
    let _ ← (t.entryOf env element).mapM elementStateOfEntry
    pure t
  | .scan => do
    let _ ← collect (fun leaf => .ok (liveElementsOf leaf)) (t.leaves env.geometry)
    pure t
  | .scanElementStates => do
    let _ ← collect (fun leaf => leaf.entries.mapM elementStateOfEntry) (t.leaves env.geometry)
    pure t
  | .flush => .ok t
  | .checkpoint => .ok t

variable {t : Trie}

namespace TrieState

variable {env : TrieEnv S}

/-- The state shows the tree, and no page of it is too deep for the walks. -/
structure Holds (st : TrieState env) (t : Trie) : Prop where
  shown : Shows env st.store st.cursor t
  fits : t.Fits (env.geometry.maxDepth + 1)

theorem holds_empty : (empty env s).Holds .absent :=
  ⟨shows_opened (by simp) rfl, trivial⟩

theorem flushed_spec (lawful : env.Lawful) {st : TrieState env} (holds : st.Holds t) :
    ∃ result s', st.flushed = .ok (result, s') ∧ env.store.Grows st.store s' ∧
      result.rootOid ≠ some [] ∧ Shows env s' (opened result.rootOid) t := by
  obtain ⟨d, result, s', writes, snapshot, ok, grows, root, reopened, -⟩ := flush_spec lawful holds.shown
  exact ⟨result, s', by simp only [flushed, snapshot, ok, ok_bind]; rfl, grows, root, reopened⟩

theorem agree_validated {element : JsString} {x : Except Failure Trie}
    {y : Except Failure (TrieState env)} (named : element ≠ [] → Agree (fun _ _ => True) R x y)
    (failed : element = [] → ∃ e, y = .error e) :
    Agree (fun _ _ => True) R (validateElement element >>= fun _ => x) y := by
  by_cases empty : element = []
  · obtain ⟨e, thrown⟩ := failed empty
    simp only [validateElement, empty, if_true, thrown]
    trivial
  · simp only [validateElement, empty, if_false, ok_bind]
    exact named empty

/-- Every call does to the shown tree what it does to trees. -/
theorem perform_spec (lawful : env.Lawful) {st : TrieState env} (holds : st.Holds t) (action) :
    Agree (fun _ _ => True) (fun t' st' => st'.Holds t') (t.perform env action) (st.perform action) := by
  obtain ⟨shown, fits⟩ := holds
  cases action with
  | add element dot =>
    refine agree_validated (fun named => ?_) fun empty => ?_
    · rw [← bind_pure (Trie.add ..)]
      refine ((add_spec shown named).weaken fun _ _ _ => trivial).bind ?_
      intro t' c added _ shown'
      exact ⟨shown', Trie.fits_add _ t t' fits added⟩
    · exact ⟨_, by simp only [perform, TrieCursor.add, validateElement, empty, if_true]; rfl⟩
  | remove observedDots =>
    obtain ⟨c, called, shown'⟩ := remove_spec shown fits observedDots
    simp only [perform, called, ok_bind, Trie.perform]
    exact ⟨shown', Trie.fits_remove t _ fits⟩
  | removeElement element observedDots =>
    refine agree_validated (fun named => ?_) fun empty => ?_
    · obtain ⟨c, called, shown'⟩ := removeElement_spec shown named observedDots
      simp only [perform, called, ok_bind]
      exact ⟨shown', Trie.fits_removeElement _ t 0 _ fits⟩
    · exact ⟨_, by simp only [perform, TrieCursor.removeElement, validateElement, empty, if_true]; rfl⟩
  | compact includedVV =>
    simp only [Trie.perform, perform]
    rw [← bind_pure (Trie.compact ..)]
    refine (compact_spec shown fits).bind ?_
    intro t' c compacted _ shown'
    exact ⟨shown', Trie.fits_compact t t' 0 _ fits compacted⟩
  | contains element =>
    refine agree_validated (fun named => ?_) fun empty => ?_
    · obtain ⟨c, called, shown'⟩ := contains_spec shown named
      simp only [perform, called, ok_bind]
      exact ⟨shown', fits⟩
    · exact ⟨_, by simp only [perform, TrieCursor.contains, validateElement, empty, if_true]; rfl⟩
  | getDots element =>
    refine agree_validated (fun named => ?_) fun empty => ?_
    · obtain ⟨c, called, shown'⟩ := getDots_spec shown named
      simp only [perform, called, ok_bind]
      exact ⟨shown', fits⟩
    · exact ⟨_, by simp only [perform, TrieCursor.getDots, validateElement, empty, if_true]; rfl⟩
  | getElementState element =>
    refine agree_validated (fun named => ?_) fun empty => ?_
    · refine ((getElementState_spec shown named).weaken fun _ _ _ => trivial).bind ?_
      intro state result _ _ both
      exact ⟨both.2, fits⟩
    · exact ⟨_, by simp only [perform, TrieCursor.getElementState, validateElement, empty, if_true]; rfl⟩
  | scan =>
    refine ((scanWith_spec _ shown fits).weaken fun _ _ _ => trivial).bind ?_
    intro elements result _ _ both
    exact ⟨both.2, fits⟩
  | scanElementStates =>
    refine ((scanWith_spec _ shown fits).weaken fun _ _ _ => trivial).bind ?_
    intro states result _ _ both
    exact ⟨both.2, fits⟩
  | flush =>
    obtain ⟨result, s', called, grows, -⟩ := flushed_spec lawful ⟨shown, fits⟩
    simp only [perform, called, ok_bind, Trie.perform]
    exact ⟨shown.grows grows, fits⟩
  | checkpoint =>
    obtain ⟨result, s', called, -, root, reopened⟩ := flushed_spec lawful ⟨shown, fits⟩
    simp only [perform, called, ok_bind, Trie.perform, TrieCursor.rebase, root, if_false]
    exact ⟨reopened, fits⟩

theorem run_spec (lawful : env.Lawful) {actions : List TrieAction} :
    Agree (fun _ _ => True) (fun t st => st.Holds t) (actions.foldlM (Trie.perform env) .absent)
      (actions.foldlM perform (empty env s)) :=
  Agree.foldlM (R := fun _ t (st : TrieState env) => st.Holds t) actions
    (fun _ action _ _ _ _ holds => perform_spec lawful holds action) (holds_empty)

end TrieState

/-! ### Answers -/

/-- What a read returns, without the cursor it leaves. -/
def answer {A C : Type} (result : Except Failure (A × C)) : Except Failure A := result.map Prod.fst

theorem answer_of_agree {P : C → Prop} {y : Except Failure (A × C)}
    (both : Agree Eq (fun a result => result.1 = a ∧ P result.2) x y) : answer y = x := by
  cases x with
  | error e =>
    cases y with
    | error e' => exact congrArg Except.error (Eq.symm both)
    | ok result => exact both.elim
  | ok a =>
    cases y with
    | error e' => exact both.elim
    | ok result => exact congrArg Except.ok both.1

variable {env : TrieEnv S}

variable {c : TrieCursor env.geometry}

theorem contains_answer (shown : Shows env s c t) (element) :
    answer (c.contains env s element) = (do
      validateElement element
      pure ((t.entryOf env element).any fun entry => decide (entry.dots.size ≠ 0))) := by
  by_cases empty : element = []
  · simp only [TrieCursor.contains, validateElement, empty, if_true]
    rfl
  · obtain ⟨c', called, -⟩ := contains_spec shown empty
    simp only [called, validateElement, empty, if_false]
    rfl

theorem getDots_answer (shown : Shows env s c t) (element) :
    answer (c.getDots env s element) = (do
      validateElement element
      pure (((t.entryOf env element).map TrieLeafEntry.dots).getD .empty)) := by
  by_cases empty : element = []
  · simp only [TrieCursor.getDots, validateElement, empty, if_true]
    rfl
  · obtain ⟨c', called, -⟩ := getDots_spec shown empty
    simp only [called, validateElement, empty, if_false]
    rfl

theorem getElementState_answer (shown : Shows env s c t) (element) :
    answer (c.getElementState env s element) = (do
      validateElement element
      (t.entryOf env element).mapM elementStateOfEntry) := by
  by_cases empty : element = []
  · simp only [TrieCursor.getElementState, validateElement, empty, if_true]
    rfl
  · simp only [validateElement, empty, if_false, ok_bind]
    exact answer_of_agree (P := fun c => Shows env s c t) (getElementState_spec shown empty)

theorem scanWith_answer (yieldOf : TrieLeaf → Except Failure (List A)) (shown : Shows env s c t)
    (fits : t.Fits (env.geometry.maxDepth + 1)) :
    answer (c.scanWith env s yieldOf) = collect yieldOf (t.leaves env.geometry) :=
  answer_of_agree (P := fun c => Shows env s c t) (scanWith_spec yieldOf shown fits)

theorem ofCursor_apart {g c} {dirty : DirtyPageSet g}
    (snapshot : DirtyPageSet.ofCursor c = .ok dirty) (path) :
    ¬ (c.dirtyLeaves.has path = true ∧ c.dirtyBranches.has path = true) := by
  unfold DirtyPageSet.ofCursor at snapshot
  split at snapshot
  · cases snapshot
  next disjoint =>
    rintro ⟨leaf, branch⟩
    exact List.find?_eq_none.mp disjoint path ((OrdMap.mem_keys_iff _ _).mpr leaf) branch

/-- After any run of calls, the snapshot has no path that is both a dirty leaf and a dirty
branch, the flush succeeds, writes children first and no placeholder, and a cursor opened
on the root it returns answers as the cursor did. -/
theorem flush_reopen_round_trip (env : TrieEnv S) (lawful : env.Lawful) (s : S)
    (actions : List TrieAction) (st : TrieState env)
    (reached : actions.foldlM TrieState.perform (TrieState.empty env s) = .ok st) :
    (∀ path, ¬ (st.cursor.dirtyLeaves.has path = true ∧ st.cursor.dirtyBranches.has path = true)) ∧
      ∃ dirty result s' writes, DirtyPageSet.ofCursor st.cursor = .ok dirty ∧
        TrieFlusher.flush env dirty st.store = .ok (result, s', writes) ∧ ChildrenFirst writes ∧
        NoPlaceholder writes ∧
        (∀ element, answer ((opened result.rootOid : TrieCursor env.geometry).contains env s' element) =
          answer (st.cursor.contains env st.store element)) ∧
        (∀ element, answer ((opened result.rootOid : TrieCursor env.geometry).getDots env s' element) =
          answer (st.cursor.getDots env st.store element)) ∧
        answer ((opened result.rootOid : TrieCursor env.geometry).scan env s') =
          answer (st.cursor.scan env st.store) := by
  obtain ⟨t, -, shown, fits⟩ := (TrieState.run_spec lawful).ok_left reached
  obtain ⟨dirty, result, s', writes, snapshot, flushed, -, -, reopened, order, resolved⟩ :=
    flush_spec lawful shown
  refine ⟨ofCursor_apart snapshot, dirty, result, s', writes, snapshot, flushed, order, resolved,
    fun element => ?_, fun element => ?_, ?_⟩
  · rw [contains_answer reopened, contains_answer shown]
  · rw [getDots_answer reopened, getDots_answer shown]
  · exact (scanWith_answer _ reopened fits).trans (scanWith_answer _ shown fits).symm

theorem exists_of_isOk {A : Type} {x : Except Failure A} (isOk : x.isOk = true) :
    ∃ a, x = .ok a := by
  cases x with
  | error e => cases isOk
  | ok a => exact ⟨a, rfl⟩

/-- Two adds that split a leaf, a checkpoint, and a removal in the reopened trie. -/
def splitAndReopen : List TrieAction :=
  [.add (lit "a") ⟨lit "w", 1, w_named, Nat.one_pos⟩,
    .add (lit "b") ⟨lit "w", 2, w_named, Nat.two_pos⟩,
    .checkpoint, .removeElement (lit "a") (.ofList [lit "w:1"])]

theorem flush_reopen_after_split :
    ∃ st, splitAndReopen.foldlM TrieState.perform
        (TrieState.empty (memoryEnv narrowGeometry letterBlake3) []) = .ok st ∧
      ∃ dirty result s' writes, DirtyPageSet.ofCursor st.cursor = .ok dirty ∧
        TrieFlusher.flush _ dirty st.store = .ok (result, s', writes) ∧ ChildrenFirst writes ∧
        ∀ element, answer ((opened result.rootOid : TrieCursor narrowGeometry).contains
          (memoryEnv narrowGeometry letterBlake3) s' element) =
            answer (st.cursor.contains (memoryEnv narrowGeometry letterBlake3) st.store element) := by
  obtain ⟨st, reached⟩ := exists_of_isOk
    (x := splitAndReopen.foldlM TrieState.perform
      (TrieState.empty (memoryEnv narrowGeometry letterBlake3) [])) (by decide +kernel)
  obtain ⟨-, dirty, result, s', writes, snapshot, flushed, order, -, same, -⟩ :=
    flush_reopen_round_trip _ memoryEnv_lawful [] splitAndReopen st reached
  exact ⟨st, reached, dirty, result, s', writes, snapshot, flushed, order, same⟩

end GitWarp
