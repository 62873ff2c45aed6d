import GitWarp.Trie.PartialRemoval

/-!
# Calls cut by a failed page read

Which calls a failed read cuts without a trace, and what the others leave. A read
of the root that fails leaves a cursor that takes the trie for empty. A walk that
has changed a page before its next read fails keeps that change.
-/
namespace GitWarp

open Js Lib TrieCursor Interruptible TrieState

variable {S : Type} {env : TrieEnv S} {s : S} {fails : Path → Option Failure}

variable {e : Failure} {t : Trie} {st st' : TrieState env} {c' c : TrieCursor env.geometry}
  {action : TrieAction}

namespace TrieCursor.Interrupted

/-! ### The root -/

/-- The root is loaded, there is none, or its read succeeds. -/
def RootSpared (fails : Path → Option Failure) (c : TrieCursor env.geometry) : Prop :=
  c.rootLoaded = true ∨ c.initialRootOid = none ∨ fails [] = none

variable (env s fails) in
/-- The bare walk of `remove` and `compact`, from the root. -/
def walk (c : TrieCursor env.geometry) :
    Interruptible Failure (TrieCursor env.geometry × List Path) Unit :=
  ((loadRootIfNeeded env s fails c).onto id fun c => (c, [])).bind fun _ walked =>
    if walked.1.hasRoot then walkBelow env s fails (env.geometry.maxDepth + 1) walked.1 []
    else .done () walked

theorem loadRootIfNeeded_cut (cut : loadRootIfNeeded env s fails c = .readFailed e c') :
    c' = { c with rootLoaded := true } ∧ c.rootLoaded = false ∧ c.initialRootOid ≠ none := by
  unfold loadRootIfNeeded at cut
  split at cut
  · cases cut
  next unloaded =>
    have fresh : c.rootLoaded = false := by simpa using unloaded
    cases oid : c.initialRootOid with
    | none =>
      rw [oid] at cut
      cases cut
    | some o =>
      rw [oid] at cut
      dsimp only at cut
      split at cut
      · cases cut
        exact ⟨rfl, fresh, by simp⟩
      · cases cut

variable (fails) in
theorem loadRootIfNeeded_cases (shows_ : Shows env s c t) :
    (∃ c', loadRootIfNeeded env s fails c = .done () c' ∧ Shows env s c' t ∧ c'.rootLoaded = true) ∨
    (¬ RootSpared fails c ∧
      ∃ e, loadRootIfNeeded env s fails c = .readFailed e { c with rootLoaded := true }) := by
  -- a root that is shown is loaded, or its read failed and only the flag is set
  obtain ⟨c', plain, shows', loaded⟩ := loadRootIfNeeded_spec shows_
  have follows : (loadRootIfNeeded env s fails c).Follows (Quiet fails) (fun _ c => c)
      (c.loadRootIfNeeded env s) := loadRootIfNeeded_follows c
  cases result : loadRootIfNeeded env s fails c with
  | done _ c1 =>
    rw [result] at follows
    cases plain.symm.trans follows
    exact Or.inl ⟨_, rfl, shows', loaded⟩
  | threw e =>
    rw [result] at follows
    cases plain.symm.trans follows
  | readFailed e c1 =>
    obtain ⟨rfl, unloaded, named⟩ := loadRootIfNeeded_cut result
    refine Or.inr ⟨?_, e, rfl⟩
    rintro (loaded' | none_ | reads)
    · rw [unloaded] at loaded'
      cases loaded'
    · exact named none_
    · -- the store has the page, so only the fault can fail its read
      unfold loadRootIfNeeded at result
      unfold TrieCursor.loadRootIfNeeded at plain
      simp only [unloaded, reads, readUnless] at result plain
      cases oid : c.initialRootOid with
      | none => exact named oid
      | some o =>
        rw [oid] at result plain
        dsimp only [Bool.false_eq_true, if_false] at result plain
        cases page : env.readBranchStrict s o [] with
        | error e' =>
          rw [page] at plain
          cases plain
        | ok rootBranch =>
          rw [page] at result
          cases result

section

variable (shows_ : Shows env s c t) (spared : RootSpared fails c)
include shows_ spared

theorem afterRoot {next : TrieCursor env.geometry → CursorCall env A}
    (cut : ((loadRootIfNeeded env s fails c).bind fun _ c => next c) = .readFailed e c') :
    ∃ c1, loadRootIfNeeded env s fails c = .done () c1 ∧ Shows env s c1 t ∧ c1.rootLoaded = true ∧
      next c1 = .readFailed e c' := by
  rcases loadRootIfNeeded_cases fails shows_ with
    ⟨c1, ok, shows1, loaded⟩ | ⟨unspared, -⟩
  · rw [ok, done_bind] at cut
    exact ⟨c1, ok, shows1, loaded, cut⟩
  · exact absurd spared unspared

/-! ### Calls that leave no trace -/

theorem locateEntry_cut (cut : locateEntry env s fails c element = .readFailed e c') :
    Shows env s c' t := by
  obtain ⟨c1, -, shows1, loaded, cut⟩ := afterRoot shows_ spared cut
  rcases shows1.hasRoot loaded with ⟨-, noRoot⟩ | ⟨children, rfl, root, below⟩
  · simp only [noRoot] at cut
    cases cut
  · simp only [root, if_true] at cut
    obtain ⟨route, -, cut⟩ := given_eq_readFailed cut
    exact shows1.keeps loaded (descendForLookup_cut _ c1 children [] 0 below cut)
      (by simp)

theorem lookup_cut {answerOf : Option TrieLeafEntry → Except Failure A}
    (cut : lookup env s fails answerOf c element = .readFailed e c') : Shows env s c' t := by
  obtain ⟨_, -, cut⟩ := given_eq_readFailed cut
  rcases bind_eq_readFailed cut with located | ⟨_, _, -, answered⟩
  · exact locateEntry_cut shows_ spared located
  · obtain ⟨_, -, ended⟩ := given_eq_readFailed answered
    cases ended

theorem removeElement_cut
    (cut : removeElement env s fails c element observedDots = .readFailed e c') :
    Shows env s c' t := by
  obtain ⟨_, -, cut⟩ := given_eq_readFailed cut
  split at cut
  · cases cut
  · rcases bind_eq_readFailed cut with located | ⟨located, c1, -, rewritten⟩
    · exact locateEntry_cut shows_ spared located
    · -- once the entry is located nothing is read
      cases located with
      | none => cases rewritten
      | some located =>
        dsimp only at rewritten
        split at rewritten
        · cases rewritten
        · exact absurd rewritten step_ne_readFailed

theorem add_cut (cut : add env s fails c element dot = .readFailed e c') : Shows env s c' t := by
  obtain ⟨_, -, cut⟩ := given_eq_readFailed cut
  obtain ⟨route, -, cut⟩ := given_eq_readFailed cut
  obtain ⟨c1, -, shows1, loaded, cut⟩ := afterRoot shows_ spared cut
  rcases shows1.hasRoot loaded with ⟨-, noRoot⟩ | ⟨children, rfl, root, below⟩
  · simp only [noRoot] at cut
    obtain ⟨_, -, cut⟩ := given_eq_readFailed cut
    exact absurd cut step_ne_readFailed
  · simp only [root, if_true] at cut
    exact shows1.keeps loaded (insertBelowBranch_cut _ _ c1 children [] 0 below cut) (by simp)

end

theorem scanWith_cut {yieldOf : TrieLeaf → Except Failure (List A)} (shows_ : Shows env s c t)
    (fits : t.Fits (env.geometry.maxDepth + 1)) (spared : RootSpared fails c)
    (cut : scanWith env s fails yieldOf c = .readFailed e c') : Shows env s c' t := by
  obtain ⟨c1, -, shows1, loaded, cut⟩ := afterRoot shows_ spared cut
  rcases shows1.hasRoot loaded with ⟨-, noRoot⟩ | ⟨children, rfl, root, below⟩
  · simp only [noRoot] at cut
    cases cut
  · simp only [root, if_true] at cut
    exact shows1.keeps loaded ((scanBelow_leaves _ c1 _ [] fits below).of_cut cut) (by simp)

/-! ### Walks that have changed nothing yet -/

theorem Visitor.Spares.cutRoot {v : Visitor env s fails A B}
    (spares : v.Spares settled reports gathered)
    (rootLoaded : loadRootIfNeeded env s fails c = .done () c1) (shows1 : Shows env s c1 t)
    (loaded : c1.rootLoaded = true) (root : c1.hasRoot = true)
    (cut : walk env s fails c = .readFailed e walked) (still : ∀ q ∈ walked.2, settled (t.sub q)) :
    v.visit (env.geometry.maxDepth + 1) c1 [] = .readFailed e walked.1 ∧
      Shows env s walked.1 t := by
  simp only [walk, rootLoaded, Interruptible.onto, done_bind, root, if_true] at cut
  rcases shows1.hasRoot loaded with ⟨-, noRoot⟩ | ⟨children, rfl, -, below⟩
  · rw [root] at noRoot
    cases noRoot
  · refine ⟨spares.cut _ _ c1 _ [] (by simp) below cut still, ?_⟩
    exact shows1.keeps loaded ((walkBelow_keeps _ c1 _ [] below).of_cut cut) (by simp)

end TrieCursor.Interrupted

open TrieCursor.Interrupted

/-- Where a failed read cuts a call without a trace: the read of the root succeeds, and whatever
a walk over all pages leaves behind before its next read fails, it leaves as it was. -/
def Spared (fails : Path → Option Failure) (st : TrieState env) (t : Trie) : TrieAction → Prop
  | .remove observedDots => RootSpared fails st.cursor ∧
    ∃ e walked, walk env st.store fails st.cursor = .readFailed e walked ∧
      ∀ q ∈ walked.2, Unmarked observedDots (t.sub q)
  | .compact includedVV => RootSpared fails st.cursor ∧
    ∃ e walked, walk env st.store fails st.cursor = .readFailed e walked ∧
      ∀ q ∈ walked.2, Compact env.geometry includedVV (t.sub q)
  | _ => RootSpared fails st.cursor

theorem remove_cut (shows_ : Shows env st.store st.cursor t)
    (spared : Spared fails st t (.remove observedDots))
    (cut : Interrupted.remove env st.store fails st.cursor observedDots = .readFailed e c') :
    Shows env st.store c' t := by
  obtain ⟨rootSpared, e', walked, walkCut, still⟩ := spared
  unfold Interrupted.remove at cut
  split at cut
  · cases cut
  · obtain ⟨c1, rootLoaded, shows1, loaded, cut⟩ := afterRoot shows_ rootSpared cut
    split at cut
    next root =>
      obtain ⟨visited, kept⟩ := tombstoneVisitor_spares.cutRoot rootLoaded shows1
        loaded root walkCut still
      cases visited.symm.trans cut
      exact kept
    next => cases cut

theorem compact_cut (shows_ : Shows env st.store st.cursor t)
    (spared : Spared fails st t (.compact includedVV))
    (cut : Interrupted.compact env st.store fails st.cursor includedVV = .readFailed e c') :
    Shows env st.store c' t := by
  obtain ⟨rootSpared, e', walked, walkCut, still⟩ := spared
  obtain ⟨c1, rootLoaded, shows1, loaded, cut⟩ := afterRoot shows_ rootSpared cut
  split at cut
  next root =>
    obtain ⟨visited, kept⟩ := compactVisitor_spares.cutRoot rootLoaded shows1 loaded
      root walkCut still
    rcases bind_eq_readFailed cut with below | ⟨_, _, -, ended⟩
    · cases visited.symm.trans below
      exact kept
    · cases ended
  next => cases cut

theorem holds_of_spared (holds : st.Holds t) (spared : Spared fails st t action)
    (cut : Interrupted.call fails st action = .readFailed e st') : st'.Holds t := by
  -- a spared call leaves a state that holds the same tree
  cases action with
  | add element dot =>
    obtain ⟨c, inner, rfl⟩ := onto_eq_readFailed cut
    exact ⟨add_cut holds.shown spared inner, holds.fits⟩
  | remove observedDots =>
    obtain ⟨c, inner, rfl⟩ := onto_eq_readFailed cut
    have shown := remove_cut holds.shown spared inner
    exact ⟨shown, holds.fits⟩
  | removeElement element observedDots =>
    obtain ⟨c, inner, rfl⟩ := onto_eq_readFailed cut
    exact ⟨removeElement_cut holds.shown spared inner, holds.fits⟩
  | compact includedVV =>
    obtain ⟨c, inner, rfl⟩ := onto_eq_readFailed cut
    have shown := compact_cut holds.shown spared inner
    exact ⟨shown, holds.fits⟩
  | contains element | getDots element | getElementState element =>
    obtain ⟨c, inner, rfl⟩ := onto_eq_readFailed cut
    exact ⟨lookup_cut holds.shown spared inner, holds.fits⟩
  | scan | scanElementStates =>
    obtain ⟨c, inner, rfl⟩ := onto_eq_readFailed cut
    exact ⟨scanWith_cut holds.shown holds.fits spared inner, holds.fits⟩
  | flush | checkpoint => exact absurd cut stepWith_ne_readFailed

/-! ### Calls that leave a trace -/

namespace TrieCursor.Interrupted

theorem loadRootIfNeeded_of_unspared (unspared : ¬ RootSpared fails c) :
    ∃ e, loadRootIfNeeded env s fails c = .readFailed e { c with rootLoaded := true } := by
  unfold RootSpared at unspared
  rw [not_or, not_or] at unspared
  obtain ⟨unloaded, named, fault⟩ := unspared
  obtain ⟨o, oid⟩ := Option.ne_none_iff_exists'.mp named
  obtain ⟨e, failed⟩ := Option.ne_none_iff_exists'.mp fault
  exact ⟨e, by simp [loadRootIfNeeded, unloaded, oid, failed, readUnless]⟩

theorem call_of_unspared (unspared : ¬ RootSpared fails st.cursor)
    (cut : call fails st action = .readFailed e st') :
    st' = ⟨{ st.cursor with rootLoaded := true }, st.store⟩ := by
  -- behind a root whose read fails, a call that is cut has set the flag and done nothing else
  obtain ⟨e', failed⟩ := loadRootIfNeeded_of_unspared (s := st.store) unspared
  have located : ∀ element c, locateEntry env st.store fails st.cursor element =
      .readFailed e c → c = { st.cursor with rootLoaded := true } := by
    intro element c cut
    rw [locateEntry, failed] at cut
    cases cut
    rfl
  have looked : ∀ {A : Type} (answerOf : Option TrieLeafEntry → Except Failure A) element c,
      lookup env st.store fails answerOf st.cursor element = .readFailed e c →
      c = { st.cursor with rootLoaded := true } := by
    intro A answerOf element c cut
    obtain ⟨_, -, cut⟩ := given_eq_readFailed cut
    rcases bind_eq_readFailed cut with found | ⟨_, _, -, answered⟩
    · exact located element c found
    · obtain ⟨_, -, ended⟩ := given_eq_readFailed answered
      cases ended
  have scanned : ∀ {A : Type} (yieldOf : TrieLeaf → Except Failure (List A)) c,
      scanWith env st.store fails yieldOf st.cursor = .readFailed e c →
      c = { st.cursor with rootLoaded := true } := by
    intro A yieldOf c cut
    rw [scanWith, failed] at cut
    cases cut
    rfl
  cases action with
  | add element dot =>
    obtain ⟨c, inner, rfl⟩ := onto_eq_readFailed cut
    obtain ⟨_, -, inner⟩ := given_eq_readFailed inner
    obtain ⟨_, -, inner⟩ := given_eq_readFailed inner
    dsimp only at inner
    rw [failed] at inner
    cases inner
    rfl
  | remove observedDots =>
    obtain ⟨c, inner, rfl⟩ := onto_eq_readFailed cut
    unfold remove at inner
    split at inner
    · cases inner
    · rw [failed] at inner
      cases inner
      rfl
  | removeElement element observedDots =>
    obtain ⟨c, inner, rfl⟩ := onto_eq_readFailed cut
    obtain ⟨_, -, inner⟩ := given_eq_readFailed inner
    split at inner
    · cases inner
    · rcases bind_eq_readFailed inner with found | ⟨_, _, found, -⟩
      · rw [located element c found]
      · rw [locateEntry, failed] at found
        cases found
  | compact includedVV =>
    obtain ⟨c, inner, rfl⟩ := onto_eq_readFailed cut
    rw [compact, failed] at inner
    cases inner
    rfl
  | contains element | getDots element | getElementState element =>
    obtain ⟨c, inner, rfl⟩ := onto_eq_readFailed cut
    rw [looked _ element c inner]
  | scan | scanElementStates =>
    obtain ⟨c, inner, rfl⟩ := onto_eq_readFailed cut
    rw [scanned _ c inner]
  | flush | checkpoint => exact absurd cut stepWith_ne_readFailed

theorem remove_cut_partly (holds : st.Holds t) (spared : RootSpared fails st.cursor)
    (cut : remove env st.store fails st.cursor observedDots = .readFailed e c') :
    ∃ u walked, walk env st.store fails st.cursor = .readFailed e walked ∧
      (⟨c', st.store⟩ : TrieState env).Holds u ∧ t.PartlyRemoved observedDots u ∧
      ∀ q ∈ walked.2, u.sub q = (t.sub q).remove observedDots := by
  -- a removal that is cut behind a spared root holds a tree part of the way
  unfold remove at cut
  split at cut
  · cases cut
  obtain ⟨c1, rootLoaded, shows1, loaded, cut⟩ := afterRoot holds.shown spared cut
  split at cut
  next root =>
    rcases shows1.hasRoot loaded with ⟨-, noRoot⟩ | ⟨children, rfl, -, below⟩
    · rw [root] at noRoot
      cases noRoot
    obtain ⟨o, shown, there, finish⟩ := shows1.rootShown loaded (by simp)
    have path : OnPath c1 [] := fun q above => List.prefix_nil.mp above ▸ there
    have walks : walk env st.store fails st.cursor =
        walkBelow env st.store fails (env.geometry.maxDepth + 1) c1 [] := by
      simp only [walk, rootLoaded, Interruptible.onto, done_bind, root, if_true]
    rcases tombstoneBelow_walk fails c1 c1 _ o []
      shown path (by simp) (by simpa using holds.fits) (fun q _ => .refl) with
      ⟨c2, w, ended, -⟩ | ⟨e', c2, w, u, removed, bare, below⟩
    · rw [ended] at cut
      cases cut
    · cases removed.symm.trans cut
      have partly : (Trie.branch children).PartlyRemoved observedDots u := by
        simpa using below.partly
      refine ⟨u, w, walks.trans bare, ⟨?_, partly.fits _ holds.fits⟩, partly, fun q mem => ?_⟩
      · exact finish c' u (by simpa using below.shown) (below.mutated.present [] there)
          below.mutated.rootLoaded below.mutated.rootOid (partly.not_leaf (by simp))
      · obtain ⟨r, rfl, passed⟩ := below.passed q mem
        simpa using passed
  next => cases cut

end TrieCursor.Interrupted

theorem scan_shown (holds : st.Holds t) (names : t.Names (· ≠ [])) :
    ∃ states st1, st.call .scanElementStates = .ok (.states states, st1) ∧
      states.map shownOfState = t.shown env.geometry := by
  obtain ⟨states, collected, shown⟩ := collect_elementStates
    (t.mem_leaves_names names)
  have answered := scanWith_answer (fun page => page.entries.mapM elementStateOfEntry) holds.shown
    holds.fits
  rw [collected] at answered
  unfold TrieState.call TrieCursor.scanElementStates
  cases scanned : st.cursor.scanWith env st.store fun page => page.entries.mapM elementStateOfEntry with
  | error e =>
    rw [scanned] at answered
    cases answered
  | ok result =>
    rw [scanned] at answered
    cases answered
    exact ⟨result.1, _, rfl, shown⟩

theorem shown_of_behavesAs (same : st.BehavesAs st')
    (here : st.call .scanElementStates = .ok (.states states, st1))
    (there : st'.call .scanElementStates = .ok (.states states', st1')) : states = states' := by
  have answers := same [.scanElementStates]
  simp only [TrieState.observe, here, there, ok_bind] at answers
  simpa [pure, Except.pure, Except.toOption] using answers

theorem rootSpared_of_behavesAs (holds : st.Holds t) (names : t.Names (· ≠ []))
    (filled : t.shown env.geometry ≠ [])
    (cut : Interrupted.call fails st action = .readFailed e st') (same : st.BehavesAs st') :
    RootSpared fails st.cursor := by
  -- a failed read of the root is noticed where the tree has an entry
  by_contra unspared
  obtain rfl := call_of_unspared unspared cut
  obtain ⟨states, st1, here, shown⟩ := scan_shown holds names
  -- the root counts as loaded and there is no page of it
  have unloaded : st.cursor.rootLoaded = false := by
    simpa using not_or.mp unspared |>.1
  have nothing := (holds.shown.unloaded unloaded).1 [] List.prefix_rfl |>.1
  have there : ∀ c : TrieCursor env.geometry, c.rootLoaded = true → c.hasRoot = false →
      TrieState.call (⟨c, st.store⟩ : TrieState env) .scanElementStates =
        .ok (.states [], ⟨c, st.store⟩) := by
    intro c loaded noRoot
    simp only [TrieState.call, TrieCursor.scanElementStates, TrieCursor.scanWith,
      TrieCursor.loadRootIfNeeded, loaded, if_true, ok_bind, noRoot]
    rfl
  have noRoot : ({ st.cursor with rootLoaded := true } : TrieCursor env.geometry).hasRoot =
      false := by
    simp [TrieCursor.hasRoot, OrdMap.has, nothing.branch, nothing.dirtyBranch]
  have empty := shown_of_behavesAs same here (there _ rfl noRoot)
  rw [empty] at shown
  exact filled shown.symm

theorem spared_of_behavesAs_remove (holds : st.Holds t) (names : t.Names (· ≠ []))
    (spared : RootSpared fails st.cursor)
    (cut : Interrupted.call fails st (.remove observedDots) = .readFailed e st')
    (same : st.BehavesAs st') : Spared fails st t (.remove observedDots) := by
  obtain ⟨c, inner, rfl⟩ := onto_eq_readFailed cut
  obtain ⟨u, walked, walks, holds', partly, passed⟩ := remove_cut_partly holds spared inner
  obtain ⟨states, st1, here, shown⟩ := scan_shown holds names
  obtain ⟨states', st1', there, shown'⟩ := scan_shown holds' (partly.names names)
  have equal := shown_of_behavesAs same here there
  rw [equal, shown'] at shown
  exact ⟨spared, e, walked, walks, fun q mem => Trie.unmarked_of_same partly
    (shows_bounded holds.shown) shown.symm q (passed q mem)⟩

/-! ### Runs -/

/-- The states of a cursor over a store, with the trees that they show: calls that went through,
and failed reads that were spared. -/
inductive Reached (env : TrieEnv S) (s : S) : TrieState env → Trie → Prop
  | empty : Reached env s (TrieState.empty env s) .absent
  | call {st st' : TrieState env} {t t' : Trie} {action : TrieAction} {answer : TrieAnswer}
      (reached : Reached env s st t) (called : st.call action = .ok (answer, st'))
      (performed : t.perform env action = .ok t') : Reached env s st' t'
  | failed {st st' : TrieState env} {t : Trie} {fails : Path → Option Failure}
      {action : TrieAction} {e : Failure} (reached : Reached env s st t)
      (spared : Spared fails st t action)
      (cut : Interrupted.call fails st action = .readFailed e st') : Reached env s st' t

theorem Reached.holds (lawful : env.Lawful) (reached : Reached env s st t) : st.Holds t := by
  induction reached with
  | empty => exact holds_empty
  | @call st st' t t' action answer reached called performed ih =>
    have plain : st.perform action = .ok st' := by
      rw [← call_perform, called]
      rfl
    obtain ⟨u, same, held⟩ := (perform_spec lawful ih action).ok_left plain
    cases same.symm.trans performed
    exact held
  | failed reached spared cut ih => exact holds_of_spared ih spared cut

theorem Reached.names (reached : Reached env s st t) : t.Names (· ≠ []) := by
  induction reached with
  | empty => trivial
  | call reached called performed ih => exact Trie.names_perform _ _ _ ih performed
  | failed reached spared cut ih => exact ih

theorem Reached.step (lawful : env.Lawful) {answer} (reached : Reached env s st t)
    (called : st.call action = .ok (answer, st')) : ∃ t', Reached env s st' t' := by
  have plain : st.perform action = .ok st' := by
    rw [← call_perform, called]
    rfl
  obtain ⟨t', performed, -⟩ :=
    (perform_spec lawful (reached.holds lawful) action).ok_left plain
  exact ⟨t', reached.call called performed⟩

/-- A call that a failed read cuts leaves no trace where it is spared; elsewhere a scan shows the
difference, for the removal and for whatever is cut by the read of the root. -/
theorem failed_reads_leave_no_trace (lawful : env.Lawful) {st st' : TrieState env} {t : Trie}
    {action : TrieAction} {e : Failure} (reached : Reached env s st t)
    (cut : Interrupted.call fails st action = .readFailed e st') :
    (Spared fails st t action → st.BehavesAs st') ∧
      (t.shown env.geometry ≠ [] → st.BehavesAs st' → RootSpared fails st.cursor ∧
        ((∀ includedVV, action ≠ .compact includedVV) → Spared fails st t action)) := by
  have holds := reached.holds lawful
  have names := reached.names
  constructor
  · intro spared
    exact behavesAs_of_holds lawful holds (holds_of_spared holds spared cut)
  · intro filled same
    have rootSpared := rootSpared_of_behavesAs holds names filled cut same
    refine ⟨rootSpared, fun walks => ?_⟩
    cases action with
    | remove observedDots =>
      exact spared_of_behavesAs_remove holds names rootSpared cut same
    | compact includedVV => exact absurd rfl (walks includedVV)
    | add element dot | removeElement element observedDots | contains element | getDots element
    | getElementState element | scan | scanElementStates | flush | checkpoint => exact rootSpared

/-! ### Two cut calls -/

theorem Reached.run (lawful : env.Lawful) {actions : List TrieAction} (reached : Reached env s st t)
    (ran : actions.foldlM TrieState.perform st = .ok st') : ∃ t', Reached env s st' t' := by
  induction actions generalizing st t with
  | nil =>
    cases ran
    exact ⟨t, reached⟩
  | cons action rest ih =>
    rw [List.foldlM_cons] at ran
    obtain ⟨middle, performed, ran⟩ := bind_eq_ok.mp ran
    rw [← call_perform] at performed
    cases called : st.call action with
    | error e =>
      rw [called] at performed
      cases performed
    | ok result =>
      rw [called] at performed
      cases performed
      obtain ⟨t', next⟩ := reached.step lawful called
      exact ih next ran

/-- The state before a call that a failed read cuts, and the one after it. -/
def aroundFailedRead (fails : Path → Option Failure) (st : TrieState env)
    (before : List TrieAction) (action : TrieAction) : Option (TrieState env × TrieState env) :=
  match before.foldlM TrieState.perform st with
  | .error _ => none
  | .ok st =>
    match Interrupted.call fails st action with
    | .readFailed _ st' => some (st, st')
    | _ => none

theorem reached_of_aroundFailedRead (lawful : env.Lawful)
    (around : aroundFailedRead fails (TrieState.empty env s) before action = some (st, st')) :
    ∃ t e, Reached env s st t ∧ Interrupted.call fails st action = .readFailed e st' := by
  unfold aroundFailedRead at around
  split at around
  · cases around
  next middle ran =>
    split at around
    next e cutState cut =>
      cases around
      obtain ⟨t, reached⟩ := Reached.empty.run lawful ran
      exact ⟨t, e, reached, cut⟩
    · cases around

/-- Whether a call finds the element, after the calls before it. -/
def TrieState.finds (st : TrieState env) (before : List TrieAction) (element : JsString) :
    Option Bool :=
  ((st.observe (before ++ [.contains element])).toOption.bind List.getLast?).bind fun
    | .found there => some there
    | _ => none

theorem TrieState.BehavesAs.finds (same : st.BehavesAs st') (before) (element) :
    st.finds before element = st'.finds before element := by
  unfold TrieState.finds
  rw [same]

def failsAt (path : Path) : Path → Option Failure := fun q =>
  if q = path then some ⟨.trieStoreError, [], lit "store unavailable"⟩ else none

def lettersEnv : TrieEnv MemoryStore := memoryEnv narrowGeometry letterBlake3

def addLetter (letter : String) (counter : Nat) (positive : 0 < counter) : TrieAction :=
  .add (lit letter) ⟨lit "w", counter, w_named, positive⟩

/-- An addition whose read of the root fails makes the next flush lose what was stored. -/
theorem failed_root_read_loses_elements : ∃ st st' t e, Reached lettersEnv [] st t ∧
    Interrupted.call (failsAt []) st (addLetter "b" 2 (by decide)) = .readFailed e st' ∧
      st.finds [addLetter "b" 2 (by decide), .checkpoint] (lit "a") = some true ∧
      st'.finds [addLetter "b" 2 (by decide), .checkpoint] (lit "a") = some false ∧
      ¬ st.BehavesAs st' := by
  have evaluated : (aroundFailedRead (failsAt []) (TrieState.empty lettersEnv [])
      [addLetter "a" 1 (by decide), .checkpoint] (addLetter "b" 2 (by decide))).map
        (fun around => (around.1.finds [addLetter "b" 2 (by decide), .checkpoint] (lit "a"),
          around.2.finds [addLetter "b" 2 (by decide), .checkpoint] (lit "a"))) =
      some (some true, some false) := by decide +kernel
  obtain ⟨⟨st, st'⟩, around, found⟩ := Option.map_eq_some_iff.mp evaluated
  obtain ⟨found, lost⟩ := Prod.mk.inj found
  obtain ⟨t, e, reached, cut⟩ := reached_of_aroundFailedRead
    memoryEnv_lawful around
  refine ⟨st, st', t, e, reached, cut, found, lost, fun same => ?_⟩
  have agree := same.finds [addLetter "b" 2 (by decide), .checkpoint] (lit "a")
  rw [show st.finds _ _ = some true from found, show st'.finds _ _ = some false from lost] at agree
  cases agree

/-- A lookup whose read of a lower page fails leaves no trace. -/
theorem failed_reads_leave_no_trace_lookup : ∃ st st' e,
    Interrupted.call (failsAt [1]) st (.contains (lit "a")) = .readFailed e st' ∧
      (st : TrieState lettersEnv).BehavesAs st' := by
  have evaluated : (aroundFailedRead (failsAt [1]) (TrieState.empty lettersEnv [])
      [addLetter "a" 1 (by decide), addLetter "b" 2 (by decide), .checkpoint]
      (.contains (lit "a"))).isSome = true := by decide +kernel
  obtain ⟨⟨st, st'⟩, around⟩ := Option.isSome_iff_exists.mp evaluated
  obtain ⟨t, e, reached, cut⟩ := reached_of_aroundFailedRead
    memoryEnv_lawful around
  have spared : RootSpared (failsAt [1]) st.cursor := Or.inr (Or.inr rfl)
  exact ⟨st, st', e, cut, (failed_reads_leave_no_trace memoryEnv_lawful reached cut).1 spared⟩

end GitWarp
