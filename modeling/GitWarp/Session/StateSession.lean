import GitWarp.Trie.Contents

/-!
# Sessions

A session keeps the alive nodes and the alive edges in two tries over one store, and
writes both out when they hold too many dirty pages. Whatever the budget, a session
shows two trees that the calls determine, so when pages are written is not observable.
-/
namespace GitWarp

open Js Lib TrieCursor

/-! ### Methods -/

/-- Which of the two sets a method is about. -/
inductive AliveSet
  | nodes
  | edges
  deriving DecidableEq

/-- The methods of a session, on what it keeps. Those of nodes and of edges differ in the
set alone. -/
structure SessionOps (A : Type) where
  contains : AliveSet → JsString → A → Except Failure (Bool × A)
  dots : AliveSet → JsString → A → Except Failure (OrdSet JsString × A)
  elementState : AliveSet → JsString → A → Except Failure (Option ORSetElementState × A)
  add : AliveSet → JsString → Dot → A → Except Failure A
  remove : AliveSet → JsString → OrdSet JsString → A → Except Failure A
  scan : AliveSet → A → Except Failure (List JsString × A)
  scanElementStates : AliveSet → A → Except Failure (List ORSetElementState × A)
  compact : VersionVector → A → Except Failure A

/-- Related keepers give the same answers and stay related, or both throw. -/
structure SessionOps.Refines {A B : Type} (spec : SessionOps A) (impl : SessionOps B)
    (R : A → B → Prop) : Prop where
  contains : ∀ which element a b, R a b → Agree (fun _ _ => True)
    (fun x y => x.1 = y.1 ∧ R x.2 y.2) (spec.contains which element a) (impl.contains which element b)
  dots : ∀ which element a b, R a b → Agree (fun _ _ => True)
    (fun x y => x.1 = y.1 ∧ R x.2 y.2) (spec.dots which element a) (impl.dots which element b)
  elementState : ∀ which element a b, R a b → Agree (fun _ _ => True)
    (fun x y => x.1 = y.1 ∧ R x.2 y.2) (spec.elementState which element a)
      (impl.elementState which element b)
  add : ∀ which element dot a b, R a b → Agree (fun _ _ => True) R (spec.add which element dot a)
    (impl.add which element dot b)
  remove : ∀ which element observedDots a b, R a b → Agree (fun _ _ => True) R
    (spec.remove which element observedDots a) (impl.remove which element observedDots b)
  scan : ∀ which a b, R a b → Agree (fun _ _ => True)
    (fun x y => x.1 = y.1 ∧ R x.2 y.2) (spec.scan which a) (impl.scan which b)
  scanElementStates : ∀ which a b, R a b → Agree (fun _ _ => True)
    (fun x y => x.1 = y.1 ∧ R x.2 y.2) (spec.scanElementStates which a)
      (impl.scanElementStates which b)
  compact : ∀ includedVV a b, R a b → Agree (fun _ _ => True) R (spec.compact includedVV a)
    (impl.compact includedVV b)

/-! ### The session -/

variable {S : Type}

structure StateSession (env : TrieEnv S) where
  nodeAlive : TrieCursor env.geometry
  edgeAlive : TrieCursor env.geometry
  store : S
  /-- Whether a workspace retains the pages, and the budget that comes with it. -/
  workspace : Bool
  maxDirtyPages : Nat

structure StateSessionCloseResult where
  nodeAliveRootOid : Option Oid
  edgeAliveRootOid : Option Oid

namespace StateSession

variable {env : TrieEnv S}

/-- `StateSession.open`. -/
def opened (env : TrieEnv S) (roots : StateSessionCloseResult) (s : S) (workspace : Bool)
    (maxDirtyPages : Nat) : StateSession env where
  nodeAlive := TrieCursor.opened roots.nodeAliveRootOid
  edgeAlive := TrieCursor.opened roots.edgeAliveRootOid
  store := s
  workspace := workspace
  maxDirtyPages := maxDirtyPages

def alive (st : StateSession env) : AliveSet → TrieCursor env.geometry
  | .nodes => st.nodeAlive
  | .edges => st.edgeAlive

def setAlive (st : StateSession env) (which : AliveSet) (c : TrieCursor env.geometry) :
    StateSession env :=
  match which with
  | .nodes => { st with nodeAlive := c }
  | .edges => { st with edgeAlive := c }

def dirtyPageCount (st : StateSession env) : Nat :=
  st.nodeAlive.dirtyPageCount + st.edgeAlive.dirtyPageCount

/-- `ShadowTrieORSet.prepareFlush`. -/
def prepareFlush (c : TrieCursor env.geometry) (s : S) : Except Failure (FlushResult × S) := do
  let dirty ← DirtyPageSet.ofCursor c
  let (result, s', _) ← TrieFlusher.flush env dirty s
  pure (result, s')

/-- Writes both tries and goes on from their roots. -/
def flushAndRetain (st : StateSession env) :
    Except Failure (StateSessionCloseResult × StateSession env) := do
  let (nodeFlush, s1) ← prepareFlush st.nodeAlive st.store
  let (edgeFlush, s2) ← prepareFlush st.edgeAlive s1
  let nodeAlive ← st.nodeAlive.rebase nodeFlush.rootOid
  let edgeAlive ← st.edgeAlive.rebase edgeFlush.rootOid
  pure (⟨nodeFlush.rootOid, edgeFlush.rootOid⟩, { st with nodeAlive, edgeAlive, store := s2 })

def checkpointIfNeeded (st : StateSession env) : Except Failure (StateSession env) :=
  if st.dirtyPageCount < st.maxDirtyPages then .ok st
  else Prod.snd <$> st.flushAndRetain

/-! `nodeContains`, `nodeDots`, `addNode` and so on are these methods for the nodes,
`edgeContains` and so on those for the edges. -/

def contains (which : AliveSet) (element : JsString) (st : StateSession env) :
    Except Failure (Bool × StateSession env) := do
  let (found, c) ← (st.alive which).contains env st.store element
  pure (found, st.setAlive which c)

def dots (which : AliveSet) (element : JsString) (st : StateSession env) :
    Except Failure (OrdSet JsString × StateSession env) := do
  let (found, c) ← (st.alive which).getDots env st.store element
  pure (found, st.setAlive which c)

def elementState (which : AliveSet) (element : JsString) (st : StateSession env) :
    Except Failure (Option ORSetElementState × StateSession env) := do
  let (found, c) ← (st.alive which).getElementState env st.store element
  pure (found, st.setAlive which c)

def add (which : AliveSet) (element : JsString) (dot : Dot) (st : StateSession env) :
    Except Failure (StateSession env) := do
  let c ← (st.alive which).add env st.store element dot
  (st.setAlive which c).checkpointIfNeeded

def remove (which : AliveSet) (element : JsString) (observedDots : OrdSet JsString)
    (st : StateSession env) : Except Failure (StateSession env) := do
  let c ← (st.alive which).removeElement env st.store element observedDots
  (st.setAlive which c).checkpointIfNeeded

def scan (which : AliveSet) (st : StateSession env) :
    Except Failure (List JsString × StateSession env) := do
  let (found, c) ← (st.alive which).scan env st.store
  pure (found, st.setAlive which c)

def scanElementStates (which : AliveSet) (st : StateSession env) :
    Except Failure (List ORSetElementState × StateSession env) := do
  let (found, c) ← (st.alive which).scanElementStates env st.store
  pure (found, st.setAlive which c)

/-- The nodes first, then the edges. -/
def compact (includedVV : VersionVector) (st : StateSession env) :
    Except Failure (StateSession env) :=
  if st.workspace then
    .error ⟨.stateSessionError, lit "E_STATE_SESSION_INPUT",
      lit "Bounded StateSession compaction requires resumable subtree checkpoints"⟩
  else do
    let nodeAlive ← st.nodeAlive.compact env st.store includedVV
    let edgeAlive ← st.edgeAlive.compact env st.store includedVV
    checkpointIfNeeded { st with nodeAlive, edgeAlive }

def ops (env : TrieEnv S) : SessionOps (StateSession env) :=
  ⟨contains, dots, elementState, add, remove, scan, scanElementStates, compact⟩

end StateSession

/-! ### Two trees -/

/-- What a session shows, apart from its pages. -/
abbrev SessionTrees := AliveSet → Trie

namespace SessionTrees

variable (env : TrieEnv S) (workspace : Bool)

def empty : SessionTrees := fun _ => .absent

def setTree (trees : SessionTrees) (which : AliveSet) (t : Trie) : SessionTrees :=
  Function.update trees which t

def act (which : AliveSet) (action : TrieAction) (trees : SessionTrees) :
    Except Failure SessionTrees := do
  let t ← (trees which).perform env action
  pure (trees.setTree which t)

def ops : SessionOps SessionTrees where
  contains which element trees := do
    validateElement element
    pure (((trees which).entryOf env element).any fun entry => decide (entry.dots.size ≠ 0), trees)
  dots which element trees := do
    validateElement element
    pure ((((trees which).entryOf env element).map TrieLeafEntry.dots).getD .empty, trees)
  elementState which element trees := do
    validateElement element
    let state ← ((trees which).entryOf env element).mapM elementStateOfEntry
    pure (state, trees)
  add which element dot trees := act env which (.add element dot) trees
  remove which element observedDots trees := act env which (.removeElement element observedDots) trees
  scan which trees := do
    let elements ← collect (fun leaf => .ok (liveElementsOf leaf)) ((trees which).leaves env.geometry)
    pure (elements, trees)
  scanElementStates which trees := do
    let states ← collect (fun leaf => leaf.entries.mapM elementStateOfEntry)
      ((trees which).leaves env.geometry)
    pure (states, trees)
  compact includedVV trees :=
    if workspace then .error ⟨.stateSessionError, [], []⟩
    else act env .nodes (.compact includedVV) trees >>= act env .edges (.compact includedVV)

end SessionTrees

/-! ### What a session shows -/

namespace StateSession

variable {env : TrieEnv S}

/-- Both tries show their trees. -/
structure Holds (st : StateSession env) (trees : SessionTrees) : Prop where
  shown : ∀ which, Shows env st.store (st.alive which) (trees which)
  fits : ∀ which, (trees which).Fits (env.geometry.maxDepth + 1)

@[simp] theorem store_setAlive (st : StateSession env) (which) (c) :
    (st.setAlive which c).store = st.store := by
  cases which <;> rfl

@[simp] theorem workspace_setAlive (st : StateSession env) (which) (c) :
    (st.setAlive which c).workspace = st.workspace := by
  cases which <;> rfl

theorem alive_setAlive (st : StateSession env) (which other) (c) :
    (st.setAlive which c).alive other = if other = which then c else st.alive other := by
  cases which <;> cases other <;> rfl

theorem holds_opened_none {s workspace maxDirtyPages} :
    (opened env ⟨none, none⟩ s workspace maxDirtyPages).Holds SessionTrees.empty := by
  constructor
  · intro which
    cases which <;> exact shows_opened (by simp [SessionTrees.empty]) rfl
  · exact fun _ => trivial

theorem Holds.trie {st : StateSession env} (holds : st.Holds trees) (which) :
    (⟨st.alive which, st.store⟩ : TrieState env).Holds (trees which) :=
  ⟨holds.shown which, holds.fits which⟩

theorem Holds.set {st : StateSession env} (holds : st.Holds trees) (which)
    (shown : Shows env st.store c t) (fits : t.Fits (env.geometry.maxDepth + 1)) :
    (st.setAlive which c).Holds (trees.setTree which t) := by
  constructor
  · intro other
    rw [store_setAlive, alive_setAlive, SessionTrees.setTree, Function.update_apply]
    split
    · exact shown
    · exact holds.shown other
  · intro other
    rw [SessionTrees.setTree, Function.update_apply]
    split
    · exact fits
    · exact holds.fits other

theorem Holds.setSame {st : StateSession env} (holds : st.Holds trees)
    (shown : Shows env st.store c (trees which)) : (st.setAlive which c).Holds trees := by
  have kept := holds.set which shown (holds.fits which)
  rwa [SessionTrees.setTree, Function.update_eq_self] at kept

/-! ### Writing -/

theorem prepareFlush_spec (lawful : env.Lawful) (shown : Shows env s c t) :
    ∃ result s', prepareFlush c s = .ok (result, s') ∧ env.store.Grows s s' ∧
      result.rootOid ≠ some [] ∧ Shows env s' (TrieCursor.opened result.rootOid) t := by
  obtain ⟨d, result, s', writes, snapshot, ok, grows, root, reopened, -⟩ := flush_spec lawful shown
  exact ⟨result, s', by simp only [prepareFlush, snapshot, ok, ok_bind]; rfl, grows, root, reopened⟩

theorem flushAndRetain_spec (lawful : env.Lawful) {st : StateSession env} (holds : st.Holds trees) :
    ∃ roots s', st.flushAndRetain = .ok (roots, opened env roots s' st.workspace st.maxDirtyPages) ∧
      ∀ workspace maxDirtyPages, (opened env roots s' workspace maxDirtyPages).Holds trees := by
  obtain ⟨nodeFlush, s1, first, grows1, root1, shown1⟩ := prepareFlush_spec lawful (holds.shown .nodes)
  obtain ⟨edgeFlush, s2, second, grows2, root2, shown2⟩ :=
    prepareFlush_spec lawful ((holds.shown .edges).grows grows1)
  refine ⟨⟨nodeFlush.rootOid, edgeFlush.rootOid⟩, s2, ?_, fun _ _ => ⟨?_, holds.fits⟩⟩
  · change prepareFlush st.nodeAlive st.store = _ at first
    change prepareFlush st.edgeAlive s1 = _ at second
    simp only [flushAndRetain, first, second, ok_bind, TrieCursor.rebase, if_neg root1, if_neg root2]
    rfl
  · intro which
    cases which with
    | nodes => exact shown1.grows grows2
    | edges => exact shown2

theorem checkpointIfNeeded_spec (lawful : env.Lawful) {st : StateSession env}
    (holds : st.Holds trees) : ∃ st', st.checkpointIfNeeded = .ok st' ∧ st'.Holds trees ∧
      st'.workspace = st.workspace := by
  unfold checkpointIfNeeded
  split
  · exact ⟨st, rfl, holds, rfl⟩
  · obtain ⟨roots, s', wrote, reopened⟩ := flushAndRetain_spec lawful holds
    exact ⟨_, by rw [wrote]; rfl, reopened _ _, rfl⟩

/-! ### Refinement -/

/-- A session with or without a workspace, that shows the trees. -/
def Shown (workspace : Bool) (trees : SessionTrees) (st : StateSession env) : Prop :=
  st.Holds trees ∧ st.workspace = workspace

theorem shown_checkpoint (lawful : env.Lawful) {workspace trees} {st : StateSession env}
    (shown : Shown workspace trees st) :
    ∃ st', st.checkpointIfNeeded = .ok st' ∧ Shown workspace trees st' := by
  obtain ⟨st', done, holds, same⟩ := checkpointIfNeeded_spec lawful shown.1
  exact ⟨st', done, holds, same.trans shown.2⟩

theorem agree_read {A workspace trees st} (shown : Shown workspace trees st) (which)
    (element : JsString) (x) (y : Except Failure (A × TrieCursor env.geometry))
    (named : element ≠ [] → Agree (fun _ _ => True)
      (fun a result => result.1 = a ∧ Shows env st.store result.2 (trees which)) x y)
    (failed : element = [] → ∃ e, y = .error e) :
    Agree (fun _ _ => True) (fun a b => a.1 = b.1 ∧ Shown workspace a.2 b.2)
      (validateElement element >>= fun _ => x >>= fun a => pure (a, trees))
      (y >>= fun result => pure (result.1, st.setAlive which result.2)) := by
  by_cases empty : element = []
  · obtain ⟨e, thrown⟩ := failed empty
    simp only [validateElement, empty, if_true, thrown]
    trivial
  · simp only [validateElement, empty, if_false, ok_bind]
    apply (named empty).bind
    rintro a ⟨b, c⟩ - - ⟨same, shows_⟩
    exact ⟨same.symm, shown.1.setSame shows_, by rw [workspace_setAlive]; exact shown.2⟩

theorem agree_write (lawful : env.Lawful) {workspace trees st} (shown : Shown workspace trees st)
    (both : Agree (fun _ _ => True)
      (fun t c => Shows env st.store c t ∧ t.Fits (env.geometry.maxDepth + 1)) x y) :
    Agree (fun _ _ => True) (Shown workspace) (x >>= fun t => pure (trees.setTree which t))
      (y >>= fun c => (st.setAlive which c).checkpointIfNeeded) := by
  apply both.bind
  rintro t c - - ⟨shows_, fits⟩
  have kept : Shown workspace (trees.setTree which t) (st.setAlive which c) :=
    ⟨shown.1.set which shows_ fits, by rw [workspace_setAlive]; exact shown.2⟩
  obtain ⟨st', done, shown'⟩ := shown_checkpoint lawful kept
  rw [done]
  exact shown'

theorem agree_cursor {st : TrieState env} (lawful : env.Lawful) (holds : st.Holds t) (action)
    (called : st.perform action = y >>= fun c => pure ⟨c, st.store⟩) :
    Agree (fun _ _ => True)
      (fun t c => Shows env st.store c t ∧ t.Fits (env.geometry.maxDepth + 1))
      (t.perform env action) y := by
  have both := TrieState.perform_spec lawful holds action
  rw [called] at both
  cases ran : t.perform env action with
  | error e =>
    rw [ran] at both
    cases y with
    | error e' => trivial
    | ok c => exact False.elim both
  | ok t' =>
    rw [ran] at both
    cases y with
    | error e' => exact False.elim both
    | ok c =>
      have holds' : (⟨c, st.store⟩ : TrieState env).Holds t' := both
      exact ⟨holds'.shown, holds'.fits⟩

theorem agree_scan {yieldOf : TrieLeaf → Except Failure (List A)} {workspace trees}
    (shown : Shown workspace trees st) :
    Agree (fun _ _ => True) (fun a b => a.1 = b.1 ∧ Shown workspace a.2 b.2)
      (collect yieldOf ((trees which).leaves env.geometry) >>= fun found => pure (found, trees))
      ((st.alive which).scanWith env st.store yieldOf >>= fun result =>
        pure (result.1, st.setAlive which result.2)) := by
  have both := scanWith_spec yieldOf (shown.1.shown which) (shown.1.fits which)
  apply (both.weaken fun _ _ _ => trivial).bind
  rintro found ⟨found', c⟩ - - ⟨same, shows_⟩
  exact ⟨same.symm, shown.1.setSame shows_, by rw [workspace_setAlive]; exact shown.2⟩

/-- A session does to the trees it shows what the calls do to trees, whatever its budget. -/
theorem ops_refines (lawful : env.Lawful) (workspace) :
    (SessionTrees.ops env workspace).Refines (StateSession.ops env) (Shown workspace) where
  contains which element trees st shown := by
    have read := agree_read shown which element
      (pure (((trees which).entryOf env element).any fun entry => decide (entry.dots.size ≠ 0)))
    apply read
    · intro named
      obtain ⟨c, called, shows_⟩ := contains_spec (shown.1.shown which) named
      rw [called]
      exact ⟨rfl, shows_⟩
    · intro empty
      exact ⟨_, by simp only [TrieCursor.contains, validateElement, empty, if_true]; rfl⟩
  dots which element trees st shown := by
    have read := agree_read shown which element
      (pure ((((trees which).entryOf env element).map TrieLeafEntry.dots).getD .empty))
    apply read
    · intro named
      obtain ⟨c, called, shows_⟩ := getDots_spec (shown.1.shown which) named
      rw [called]
      exact ⟨rfl, shows_⟩
    · intro empty
      exact ⟨_, by simp only [TrieCursor.getDots, validateElement, empty, if_true]; rfl⟩
  elementState which element trees st shown := by
    have read := agree_read shown which element
      (((trees which).entryOf env element).mapM elementStateOfEntry)
    apply read
    · intro named
      have both := getElementState_spec (shown.1.shown which) named
      exact both.weaken fun _ _ _ => trivial
    · intro empty
      exact ⟨_, by simp only [TrieCursor.getElementState, validateElement, empty, if_true]; rfl⟩
  add which element dot trees st shown :=
    agree_write lawful shown
      (agree_cursor lawful (shown.1.trie which) (.add element dot) rfl)
  remove which element observedDots trees st shown :=
    agree_write lawful shown
      (agree_cursor lawful (shown.1.trie which) (.removeElement element observedDots) rfl)
  scan which trees st shown := agree_scan shown
  scanElementStates which trees st shown := agree_scan shown
  compact includedVV trees st shown := by
    obtain ⟨holds, rfl⟩ := shown
    change Agree _ _ (if st.workspace then _ else _) (if st.workspace then _ else _)
    split
    · trivial
    · have first := agree_cursor lawful (holds.trie .nodes) (.compact includedVV) rfl
      have second := agree_cursor lawful (holds.trie .edges) (.compact includedVV) rfl
      rw [SessionTrees.act, bind_assoc]
      apply first.bind
      rintro t c - - ⟨shownNodes, fitsNodes⟩
      simp only [pure_bind, SessionTrees.act]
      -- the edges are compacted as they were, whatever became of the nodes
      have other : trees.setTree .nodes t .edges = trees .edges := rfl
      apply second.bind
      rintro t' c' - - ⟨shownEdges, fitsEdges⟩
      have nodes := holds.set .nodes shownNodes fitsNodes
      have edges := nodes.set .edges (c := c') (t := t') shownEdges fitsEdges
      obtain ⟨st', done, holds', same⟩ := checkpointIfNeeded_spec lawful edges
      have called : checkpointIfNeeded { st with nodeAlive := c, edgeAlive := c' } = .ok st' := done
      rw [called]
      exact ⟨holds', same⟩

end StateSession

end GitWarp
