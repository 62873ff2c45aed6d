import GitWarp.Trie.FailedReads
import GitWarp.Trie.Naming

/-!
# Removals cut on their way

A walk that removes dots keeps what it has removed when a later read fails. The
cursor then shows the tree with the dots removed from the subtrees that the walk
has left behind, and a scan of the element states tells the two trees apart as
soon as one of those subtrees had one of the dots.
-/
namespace GitWarp

open Js Lib TrieCursor List

variable {S : Type} {env : TrieEnv S} {s : S} {fails : Path → Option Failure}

/-! ### Trees of a removal part of the way -/

namespace Trie

/-- Some leaves have lost the dots, the others are as they were. -/
def PartlyRemoved (observedDots : OrdSet JsString) : Trie → Trie → Prop
  | .absent, .absent => True
  | .leaf page, .leaf page' => page' = page ∨ page' = page.tombstone observedDots
  | .branch children, .branch children' => ∀ n, PartlyRemoved observedDots (children n) (children' n)
  | _, _ => False

namespace PartlyRemoved

variable {observedDots : OrdSet JsString}

theorem refl : PartlyRemoved observedDots t t := by
  induction t with
  | absent => trivial
  | leaf page => exact Or.inl rfl
  | branch children ih => exact ih

theorem all (t) : PartlyRemoved observedDots t (t.remove observedDots) := by
  induction t with
  | absent => trivial
  | leaf page => exact Or.inr rfl
  | branch children ih => exact ih

section

variable (partly : PartlyRemoved observedDots t u)
include partly

theorem fits (levels) (fits : t.Fits levels) : u.Fits levels := by
  induction t generalizing u levels with
  | absent => cases u with
    | absent => trivial
    | leaf page | branch children => exact partly.elim
  | leaf page => cases u with
    | absent | branch children => exact partly.elim
    | leaf page' => exact fits
  | branch children ih => cases u with
    | absent | leaf page' => exact partly.elim
    | branch children' => exact ⟨fits.1, fun n => ih n (partly n) (levels - 1) (fits.2 n)⟩

theorem names (names : t.Names P) : u.Names P := by
  induction t generalizing u with
  | absent => cases u with
    | absent => trivial
    | leaf page | branch children => exact partly.elim
  | leaf page => cases u with
    | absent | branch children => exact partly.elim
    | leaf page' =>
      rcases partly with rfl | rfl
      · exact names
      · exact namesOf_tombstone names
  | branch children ih => cases u with
    | absent | leaf page' => exact partly.elim
    | branch children' => exact fun n => ih n (partly n) (names n)

theorem not_leaf (root : ∀ page, t ≠ .leaf page) (page) : u ≠ .leaf page := by
  rintro rfl
  cases t with
  | absent | branch children => exact partly
  | leaf page' => exact root page' rfl

end

end PartlyRemoved

/-- What a scan of the element states shows, entry by entry. -/
def shown (g : TrieGeometry) (t : Trie) : List (JsString × OrdSet JsString × OrdSet JsString) :=
  ((t.leaves g).flatMap TrieLeaf.entries).map shownOfEntry

theorem shown_branch (g children) :
    shown g (.branch children) = (List.range g.fanout).flatMap fun n => shown g (children n) := by
  unfold shown
  rw [leaves, flatMap_assoc, map_flatMap]

theorem shown_leaf (g) (page) : shown g (.leaf page) = page.entries.map shownOfEntry := by
  simp [shown, leaves]

theorem length_shown (g) (partly : PartlyRemoved observedDots t u) :
    (shown g u).length = (shown g t).length := by
  induction t generalizing u with
  | absent => cases u with
    | absent => rfl
    | leaf page | branch children => exact partly.elim
  | leaf page => cases u with
    | absent | branch children => exact partly.elim
    | leaf page' =>
      rcases partly with rfl | rfl
      · rfl
      · simp only [shown_leaf, length_map, tombstone_entries]
  | branch children ih => cases u with
    | absent | leaf page' => exact partly.elim
    | branch children' =>
      rw [shown_branch, shown_branch, length_flatMap, length_flatMap]
      congr 1
      exact map_congr_left fun n _ => ih n (partly n)

theorem pieces_eq {A : Type} {f f' : Nat → List A} {items : List Nat}
    (lengths : ∀ n ∈ items, (f' n).length = (f n).length)
    (same : items.flatMap f = items.flatMap f') : ∀ n ∈ items, f n = f' n := by
  induction items with
  | nil => simp
  | cons first rest ih =>
    rw [forall_mem_cons] at lengths ⊢
    rw [flatMap_cons, flatMap_cons] at same
    obtain ⟨here, later⟩ := append_inj same lengths.1.symm
    exact ⟨here, ih lengths.2 later⟩

theorem unmarked_of_shown (same : page.entries.map shownOfEntry =
      (page.tombstone observedDots).entries.map shownOfEntry) :
    rewriteLeafWithTombstones page observedDots = none := by
  rw [tombstone_entries, map_map] at same
  simp only [rewriteLeafWithTombstones]
  split
  next marked =>
    -- an entry with one of the dots shows fewer live ones
    rw [any_eq_true] at marked
    obtain ⟨_, member, alive⟩ := marked
    obtain ⟨entry, inside, rfl⟩ := mem_map.mp member
    have dots := congrArg (fun shown => shown.2.1) ((map_inj_left.mp same) entry inside)
    obtain ⟨dot, there, observed⟩ := any_eq_true.mp alive
    have gone : dot ∈ (entry.dots.filter fun dot => !observedDots.has dot).toList := by
      have kept : entry.dots = entry.dots.filter fun dot => !observedDots.has dot := dots
      rw [← kept]
      exact there
    simp [observed] at gone
  · rfl

/-- Where a removal part of the way shows the same entries, the subtrees that it has passed had
none of the dots. -/
theorem unmarked_of_same (partly : PartlyRemoved observedDots t u) (bounded : t.Bounded g)
    (same : shown g t = shown g u) (r) (passed : u.sub r = (t.sub r).remove observedDots) :
    Interrupted.Unmarked observedDots (t.sub r) := by
  induction t generalizing u r with
  | absent =>
    rw [sub_absent]
    trivial
  | leaf page => cases r with
    | nil =>
      rw [sub_nil] at passed ⊢
      rw [sub_nil] at passed
      subst passed
      rw [shown_leaf, Trie.remove, shown_leaf] at same
      exact unmarked_of_shown same
    | cons n rest => trivial
  | branch children ih => cases u with
    | absent | leaf page' => exact partly.elim
    | branch children' =>
      rw [shown_branch, shown_branch] at same
      have pieces := pieces_eq
        (fun n _ => length_shown g (partly n)) same
      -- nothing is left of a subtree outside the geometry
      have each : ∀ n r, (children' n).sub r = ((children n).sub r).remove observedDots →
          Interrupted.Unmarked observedDots ((children n).sub r) := by
        intro n r passed
        by_cases inside : n < g.fanout
        · exact ih n (partly n) (bounded.2 n) (pieces n (mem_range.mpr inside)) r passed
        · rw [bounded.1 n (Nat.le_of_not_lt inside), sub_absent]
          trivial
      cases r with
      | nil =>
        intro n
        have whole : Trie.branch children' = .branch fun n => (children n).remove observedDots := passed
        have here := congrFun (Trie.branch.inj whole) n
        have done := each n [] (by simpa using here)
        simpa using done
      | cons n rest => exact each n rest passed

end Trie

/-! ### Shown trees are bounded -/

theorem stored_bounded (t o) (stored : Stored env s t o) : t.Bounded env.geometry := by
  induction t generalizing o with
  | absent | leaf page => trivial
  | branch children ih =>
    obtain ⟨-, page, -, slots⟩ := stored
    refine Trie.branch_bounded page (fun n taken => ?_) fun n child taken => ?_
    · have slot := slots n
      rw [taken] at slot
      exact slot
    · have slot := slots n
      rw [taken] at slot
      exact ih n child slot

theorem clean_bounded (p o) (clean : Clean env s c t p o) : t.Bounded env.geometry := by
  induction t generalizing p o with
  | absent | leaf page => trivial
  | branch children ih =>
    obtain ⟨-, page, -, -, slots⟩ := clean
    refine Trie.branch_bounded page (fun n taken => ?_) fun n child taken => ?_
    · have slot := slots n
      rw [taken] at slot
      exact slot.1
    · have slot := slots n
      rw [taken] at slot
      exact ih n (p ++ [n]) child slot

theorem dirty_bounded (c) (t p) (dirty : Dirty env s c t p) : t.Bounded env.geometry := by
  induction t generalizing p with
  | absent | leaf page => trivial
  | branch children ih =>
    obtain ⟨page, -, slots⟩ := dirty
    refine Trie.branch_bounded page (fun n taken => ?_) fun n child taken => ?_
    · have slot := slots n
      rw [taken] at slot
      exact slot.1
    · have slot := slots n
      rw [taken] at slot
      rcases slot with below | below
      · exact ih n (p ++ [n]) below
      · exact clean_bounded (p ++ [n]) child below

theorem shows_bounded (shows_ : Shows env s c t) : t.Bounded env.geometry := by
  cases loaded : c.rootLoaded with
  | false =>
    obtain ⟨-, held⟩ := shows_.unloaded loaded
    split at held
    · rw [held]
      trivial
    · exact stored_bounded t _ held
  | true =>
    rcases shows_.loaded loaded with dirty | rest
    · exact dirty_bounded c t [] dirty
    · split at rest
      · rw [rest.1]
        trivial
      · exact clean_bounded [] _ rest.1

/-! ### The removal beside the bare walk -/

namespace TrieCursor.Interrupted

/-- Two cursors hold the same pages at a path and below it. -/
def Alike {g : TrieGeometry} (c c' : TrieCursor g) (p : Path) : Prop := ∀ q, p <+: q → SameAt c c' q

theorem Alike.child {c c' : TrieCursor g} (alike : Alike c c' p) (n) :
    Alike c c' (p ++ [n]) := fun q below => alike q (prefix_of_child below)

theorem SameAt.load {c c' : TrieCursor g} (same : SameAt c c' q) (p page o) :
    SameAt { c with
      workingLeaves := c.workingLeaves.set p page, cleanChildren := c.cleanChildren.set p o }
      { c' with
        workingLeaves := c'.workingLeaves.set p page
        cleanChildren := c'.cleanChildren.set p o } q where
  dirtyLeaf := same.dirtyLeaf
  dirtyBranch := same.dirtyBranch
  leaf := by simp only [OrdMap.get_set, same.leaf]
  branch := same.branch
  cleanOid := by simp only [OrdMap.get_set, same.cleanOid]

theorem SameAt.loadBranch {g c c' q} (same : SameAt c c' q) (p) (page : TrieBranch g) (o) :
    SameAt { c with
      workingBranches := c.workingBranches.set p page, cleanChildren := c.cleanChildren.set p o }
      { c' with
        workingBranches := c'.workingBranches.set p page
        cleanChildren := c'.cleanChildren.set p o } q where
  dirtyLeaf := same.dirtyLeaf
  dirtyBranch := same.dirtyBranch
  leaf := same.leaf
  branch := by simp only [OrdMap.get_set, same.branch]
  cleanOid := by simp only [OrdMap.get_set, same.cleanOid]

theorem ensureChildLoaded_alike (alike : Alike c c' (p ++ [n])) {kind}
    (here : ensureChildLoaded env s fails c p n o = .done kind c1)
    (there : ensureChildLoaded env s fails c' p n o = .done kind' c1') :
    Alike c1 c1' (p ++ [n]) := by
  -- loading a child over cursors that are alike there ends in the same way
  have same := alike (p ++ [n]) prefix_rfl
  unfold ensureChildLoaded at here there
  dsimp only at here there
  rw [same.leafAt, same.branchAt] at there
  split at here
  next found =>
    rw [if_pos found] at there
    cases here
    cases there
    exact alike
  next free =>
    rw [if_neg free] at there
    split at here
    next found =>
      rw [if_pos found] at there
      cases here
      cases there
      exact alike
    next free' =>
      rw [if_neg free'] at there
      unfold loadChildFromStore at here there
      split at here
      next => cases here
      next leaf read =>
        rw [read] at there
        cases here
        cases there
        exact fun q below => SameAt.load (alike q below) _ _ _
      next read =>
        rw [read] at there
        split at here
        next => cases here
        next branch read' =>
          rw [read'] at there
          cases here
          cases there
          exact fun q below => SameAt.loadBranch (alike q below) _ _ _

theorem ensureChildLoaded_alike_cut (alike : Alike c c' (p ++ [n]))
    (here : ensureChildLoaded env s fails c p n o = .readFailed e c1) :
    ensureChildLoaded env s fails c' p n o = .readFailed e c' := by
  have same := alike (p ++ [n]) prefix_rfl
  unfold ensureChildLoaded at here ⊢
  dsimp only at here ⊢
  rw [same.leafAt, same.branchAt]
  split at here
  · cases here
  next free =>
    rw [if_neg free]
    split at here
    · cases here
    next free' =>
      rw [if_neg free']
      unfold loadChildFromStore at here ⊢
      split at here
      next =>
        cases here
        rfl
      next => cases here
      next =>
        split at here
        next =>
          cases here
          rfl
        next => cases here

variable (fails) in
theorem ensureChildLoaded_both (alike : Alike c c' (p ++ [n]))
    (shown : Shown env s c t (p ++ [n]) o) :
    (∃ c1 c1', ensureChildLoaded env s fails c p n o = .done t.kind c1 ∧
      ensureChildLoaded env s fails c' p n o = .done t.kind c1' ∧ Alike c1 c1' (p ++ [n]) ∧
      Loaded env s c1' t (p ++ [n]) ∧ Keeps env s c' c1' t (p ++ [n]) o) ∨
    ∃ e, ensureChildLoaded env s fails c p n o = .readFailed e c ∧
      ensureChildLoaded env s fails c' p n o = .readFailed e c' := by
  have shown' : Shown env s c' t (p ++ [n]) o := shown.congr alike
  rcases ensureChildLoaded_cases fails shown with ⟨c1, ok, -, -⟩ | ⟨e, failed⟩
  · rcases ensureChildLoaded_cases fails shown' with ⟨c1', ok', loaded, keeps⟩ | ⟨e, failed⟩
    · exact Or.inl ⟨c1, c1', ok, ok', ensureChildLoaded_alike alike ok ok', loaded, keeps⟩
    · -- alike cursors fail together
      have back := ensureChildLoaded_alike_cut (fun q below => (alike q below).symm) failed
      rw [ok] at back
      cases back
  · exact Or.inr ⟨e, failed, ensureChildLoaded_alike_cut alike failed⟩

variable (env s) in
/-- A removal cut below a path: it shows a tree part of the way, and the subtrees that the bare
walk has left behind have lost the dots. -/
structure CutBelow (observedDots : OrdSet JsString) (c : TrieCursor env.geometry) (t : Trie)
    (o : Oid) (p : Path) (c' : TrieCursor env.geometry) (finished : List Path) (u : Trie) : Prop where
  shown : Shown env s c' (t.setAt p u) [] o
  mutated : Mutated c c' p
  partly : Trie.PartlyRemoved observedDots (t.sub p) u
  passed : ∀ q ∈ finished, ∃ r, q = p ++ r ∧ u.sub r = ((t.sub p).sub r).remove observedDots

theorem partly_children (done : List Nat) (partly : Trie.PartlyRemoved observedDots (children n) u) :
    Trie.PartlyRemoved observedDots (.branch children) (.branch (Function.update
      (fun m => if m ∈ done then (children m).remove observedDots else children m) n u)) := by
  intro m
  by_cases same : m = n
  · subst same
    simpa using partly
  · simp only [Function.update_of_ne same]
    split
    · exact .all _
    · exact .refl

theorem cutBelow_of_walked (walked : Walked env s observedDots c t o p children done c')
    (shape : t.sub p = .branch children) (fresh : n ∉ done) :
    CutBelow env s observedDots c t o p c' (done.map fun m => p ++ [m])
      (.branch fun m => if m ∈ done then (children m).remove observedDots else children m) where
  shown := walked.shown
  mutated := walked.mutated
  partly := by
    rw [shape]
    have same : Trie.PartlyRemoved observedDots (children n) (children n) := .refl
    have whole := partly_children done same
    rwa [Function.update_eq_self_iff.mpr (by simp [fresh])] at whole
  passed := by
    intro q mem
    obtain ⟨m, inside, rfl⟩ := mem_map.mp mem
    exact ⟨[m], rfl, by simp [shape, Trie.sub, inside]⟩

theorem CutBelow.parent (below : CutBelow env s observedDots c2 (t.setAt p (.branch fun m =>
      if m ∈ done then (children m).remove observedDots else children m)) o (p ++ [n]) c3 finished u)
    (walked : Walked env s observedDots c t o p children done c1)
    (shape : t.sub p = .branch children) (fresh : n ∉ done) (loading : Mutated c1 c2 (p ++ [n]))
    (subChild : (t.setAt p (.branch fun m =>
      if m ∈ done then (children m).remove observedDots else children m)).sub (p ++ [n]) =
        children n) :
    CutBelow env s observedDots c t o p c3 ((done.map fun m => p ++ [m]) ++ finished)
      (.branch (Function.update
        (fun m => if m ∈ done then (children m).remove observedDots else children m) n u))  where
  shown := by
    rw [← setAt_child_of_walk shape]
    exact below.shown
  mutated := walked.mutated.trans (loading.trans below.mutated).parent
  partly := by
    have inner := below.partly
    rw [subChild] at inner
    rw [shape]
    exact partly_children done inner
  passed := by
    intro q mem
    rcases mem_append.mp mem with earlier | inside
    · obtain ⟨m, listed, rfl⟩ := mem_map.mp earlier
      have apart : m ≠ n := fun same => fresh (same ▸ listed)
      exact ⟨[m], rfl, by simp [shape, Trie.sub, Function.update_of_ne apart, listed]⟩
    · obtain ⟨r, rfl, passed⟩ := below.passed q inside
      rw [subChild] at passed
      exact ⟨n :: r, by simp, by simpa [shape, Trie.sub] using passed⟩

variable (env s fails) in
def tombstoneChild (observedDots : OrdSet JsString) (levels : Nat) (path : Path)
    (child : Nat × Oid) (c : TrieCursor env.geometry) : CursorCall env Unit :=
  (ensureChildLoaded env s fails c path child.1 child.2).bind fun _ loaded =>
    tombstoneBelow env s fails observedDots levels loaded (path ++ [child.1])

variable (fails) in
/-- The removal and the bare walk, over cursors that are alike, end together or are cut by the
same failed read. -/
theorem tombstoneBelow_walk (c c') (t o p) (shown : Shown env s c t [] o) (path : OnPath c p)
    (there : t.sub p ≠ .absent) (fits : (t.sub p).Fits levels) (alike : Alike c c' p) :
    (∃ c1 w, tombstoneBelow env s fails observedDots levels c p = .done () c1 ∧
      walkBelow env s fails levels c' p = .done () w) ∨
    ∃ e c1 w u, tombstoneBelow env s fails observedDots levels c p = .readFailed e c1 ∧
      walkBelow env s fails levels c' p = .readFailed e w ∧
      CutBelow env s observedDots c t o p c1 w.2 u := by
  induction levels generalizing c c' t p with
  | zero => exact absurd fits (Trie.not_fits_zero there)
  | succ levels ih =>
    have same := alike p prefix_rfl
    obtain ⟨o', here⟩ := shown.sub (by simpa [OnPath] using path) there
    rw [nil_append] at here
    have loaded := here.loaded_of_present (path p prefix_rfl)
    cases shape : t.sub p with
    | absent => exact absurd shape there
    | leaf page =>
      rw [shape] at loaded
      have found : c.leafAt p = some page := loaded
      have found' : c'.leafAt p = some page := same.leafAt.trans found
      obtain ⟨c1, ok, -⟩ := tombstoneInLeaf_spec observedDots shown path shape
      exact Or.inl ⟨c1, (c', []), by simp only [tombstoneBelow, found, ok]; rfl,
        by simp only [walkBelow, found']⟩
    | branch children =>
      rw [shape] at loaded fits
      obtain ⟨page, noLeaf, present, slots⟩ := loaded.branch
      have slotHere : ∀ n, c.slotAt p n = page.get n := fun n => by simp [slotAt, present]
      rw [walkBelow_branch levels (same.leafAt.trans noLeaf) (same.branchAt.trans present)]
      have unfolded : tombstoneBelow env s fails observedDots (levels + 1) c p =
          Interruptible.fold (fun _ => tombstoneChild env s fails observedDots levels p) ()
            page.children.entries c := by
        simp only [tombstoneBelow, noLeaf, present]
        rfl
      rw [unfolded]
      -- both loops side by side, from any point on
      have loops : ∀ items done c1 c1', page.children.entries = done ++ items →
          Walked env s observedDots c t o p children (done.map Prod.fst) c1 →
          (∀ n, n ∉ done.map Prod.fst → Alike c' c1' (p ++ [n])) →
          (∃ c2 w, Interruptible.fold (fun _ => tombstoneChild env s fails observedDots levels p) ()
              items c1 = .done () c2 ∧
            Interruptible.fold (fun _ child => walkChild env s fails levels p child) () items
              (c1', (done.map Prod.fst).map fun m => p ++ [m]) = .done () w) ∨
          ∃ e c2 w u,
            Interruptible.fold (fun _ => tombstoneChild env s fails observedDots levels p) ()
              items c1 = .readFailed e c2 ∧
            Interruptible.fold (fun _ child => walkChild env s fails levels p child) () items
              (c1', (done.map Prod.fst).map fun m => p ++ [m]) = .readFailed e w ∧
            CutBelow env s observedDots c t o p c2 w.2 u := by
        intro items
        induction items with
        | nil => exact fun done c1 c1' _ _ _ => Or.inl ⟨c1, _, rfl, rfl⟩
        | cons first rest later =>
          obtain ⟨n, child⟩ := first
          intro done c1 c1' whole walked beside
          obtain ⟨taken, fresh⟩ := Trie.fresh_of_entries whole
          have apart : Alike c1 c1' (p ++ [n]) := fun q below =>
            ((walked.beside n fresh q below).symm.trans (alike.child n q below)).trans
              (beside n fresh q below)
          have slot : Shown env s c1 (children n) (p ++ [n]) child :=
            (slots.some taken).congr (walked.beside n fresh)
          rcases ensureChildLoaded_both fails apart slot with
            ⟨c2, c2', ok, ok', alike2, loaded2, keeps2⟩ | ⟨e, failed, failed'⟩
          · have plain : (ensureChildLoaded env s fails c1 p n child).Follows (Quiet fails) Prod.mk _ :=
              ensureChildLoaded_follows
            rw [ok] at plain
            have slotThere := (slotHere n).trans taken
            obtain ⟨shown2, subChild, path2, loading⟩ := walked.loadChild path shape fresh slotThere
              (slots.some taken) plain
            rcases ih c2 c2' _ (p ++ [n]) shown2 path2 (by rw [subChild]; exact slot.ne_absent)
              (by rw [subChild]; exact fits.2 n) alike2 with
              ⟨c3, w, removed, bare⟩ | ⟨e, c3, w, u, cut, bare, below⟩
            · -- the child is left behind by both
              have plain' : (tombstoneBelow env s fails observedDots levels c2 (p ++ [n])).Follows
                  (Quiet fails) (fun _ c => c) _ := tombstoneBelow_follows c2 _
              rw [removed] at plain'
              obtain ⟨_, stepped, walked3⟩ := walked.step path shape fresh
                slotThere (slots.some taken) fun c t shown path same =>
                  tombstoneBelow_spec observedDots c t (p ++ [n]) shown path
                    (by rw [same]; exact slot.ne_absent) (by rw [same]; exact fits.2 n)
              rw [plain, ok_bind] at stepped
              cases plain'.symm.trans stepped
              have kept := (walkBelow_keeps levels c2' _ (p ++ [n]) loaded2).of_done bare child
              have next := later (done ++ [(n, child)]) c3 w.1 (by rw [whole]; simp)
                (by simpa using walked3) fun m outside q below => by
                  rw [map_append, mem_append, not_or, map_singleton, mem_singleton] at outside
                  exact ((beside m outside.1 q below).trans
                    (keeps2.frame.sibling outside.2 below)).trans
                    (kept.frame.sibling outside.2 below)
              rw [map_append, map_append, map_singleton, map_singleton] at next
              rw [Interruptible.fold, Interruptible.fold, tombstoneChild, walkChild]
              simpa only [ok, ok', removed, bare, Interruptible.done_bind] using next
            · -- a read below this child fails in both
              refine Or.inr ⟨e, c3, (w.1, (done.map Prod.fst).map (fun m => p ++ [m]) ++ w.2), _, ?_,
                ?_, below.parent walked shape fresh loading subChild⟩
              · rw [Interruptible.fold, tombstoneChild, ok, Interruptible.done_bind, cut]
                rfl
              · rw [Interruptible.fold, walkChild]
                simp only [ok', bare]
                rfl
          · -- the read of this child fails in both
            refine Or.inr ⟨e, c1, (c1', (done.map Prod.fst).map fun m => p ++ [m]), _, ?_, ?_,
              cutBelow_of_walked walked shape fresh⟩
            · rw [Interruptible.fold, tombstoneChild, failed]
              rfl
            · rw [Interruptible.fold, walkChild]
              simp only [failed']
              rfl
      have init : Walked env s observedDots c t o p children ([].map (Prod.fst (β := Oid))) c := by
        refine ⟨?_, .refl, fun _ _ => rfl, fun _ _ q _ => .refl⟩
        simpa [← shape, Trie.setAt_sub t there] using shown
      exact loops page.children.entries [] c c' rfl init fun n _ q _ => .refl

end TrieCursor.Interrupted

end GitWarp
