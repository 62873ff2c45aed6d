import GitWarp.Trie.Editing

/-!
# Removals

A removal changes loaded leaves in place and rebinds every branch above each of
them, up to the root. The walk over a subtree therefore changes pages above it too;
`Mutated` says which ones, and that the slots beside the path stay as they are.
-/
namespace GitWarp

open Js Lib TrieCursor List

variable {S : Type} {env : TrieEnv S} {s : S}

/-! ### Subtrees -/

variable {c c' : TrieCursor env.geometry} {p : Path} {children : Nat → Trie} (t : Trie)

namespace Trie

@[simp] theorem sub_absent (p) : absent.sub p = absent := by cases p <;> rfl

theorem sub_append (p q) : t.sub (p ++ q) = (t.sub p).sub q := by
  induction p generalizing t with
  | nil => cases t <;> rfl
  | cons n rest ih =>
    cases t with
    | absent => simp
    | leaf page => exact (sub_absent q).symm
    | branch children => exact ih (children n)

@[simp] theorem setAt_nil (u) : t.setAt [] u = u := by cases t <;> rfl

@[simp] theorem sub_nil : t.sub [] = t := by cases t <;> rfl

theorem sub_setAt (u) (there : t.sub p ≠ absent) : (t.setAt p u).sub p = u := by
  induction p generalizing t with
  | nil => simp
  | cons n rest ih =>
    cases t with
    | absent => simp at there
    | leaf page => exact absurd rfl there
    | branch children => simpa [setAt, sub] using ih (children n) there

theorem setAt_sub (there : t.sub p ≠ absent) : t.setAt p (t.sub p) = t := by
  induction p generalizing t with
  | nil => simp
  | cons n rest ih =>
    cases t with
    | absent => simp at there
    | leaf page => exact absurd rfl there
    | branch children => simp [setAt, sub, ih (children n) there]

theorem setAt_setAt (u v p) : (t.setAt p u).setAt p v = t.setAt p v := by
  induction p generalizing t with
  | nil => simp
  | cons n rest ih => cases t <;> simp [setAt, ih]

theorem setAt_child (there : t.sub p = branch children) :
    t.setAt (p ++ [n]) u = t.setAt p (branch (Function.update children n u)) := by
  induction p generalizing t with
  | nil =>
    rw [sub_nil] at there
    simp [there, setAt]
  | cons m rest ih =>
    cases t with
    | absent => simp at there
    | leaf page => cases there
    | branch children' => simp [setAt, ih (children' m) there]

theorem isBranch_of_sub_child (p n) (there : t.sub (p ++ [n]) ≠ absent) :
    ∃ children, t.sub p = branch children := by
  rw [sub_append] at there
  cases shape : t.sub p with
  | absent => simp [shape] at there
  | leaf page => exact absurd (by rw [shape]; rfl) there
  | branch children => exact ⟨children, rfl⟩

end Trie

/-! ### Pages on a path -/

/-- Every page from the root to the path is loaded. -/
def OnPath (c : TrieCursor env.geometry) (p : Path) : Prop := ∀ q, q <+: p → Present c q

variable {t : Trie}

theorem OnPath.above {q : Path} (path : OnPath c p) (above : q <+: p) :
    OnPath c q := fun r inner => path r (inner.trans above)

theorem OnPath.child (path : OnPath c p) (there : Present c (p ++ [n])) : OnPath c (p ++ [n]) := by
  intro q above
  rcases prefix_concat_iff.mp above with rfl | above
  · exact there
  · exact path q above

theorem Vacant.not_present (vacant : Vacant c p) : ¬ Present c p := by
  have here := vacant p prefix_rfl
  simp [Present, here.leafAt, here.branchAt]

theorem Shown.sub (shown : Shown env s c t r o) (path : ∀ q, q <+: p → Present c (r ++ q))
    (there : t.sub p ≠ .absent) : ∃ o', Shown env s c (t.sub p) (r ++ p) o' := by
  induction p generalizing t r o with
  | nil => exact ⟨o, by simpa using shown⟩
  | cons n rest ih =>
    cases t with
    | absent => simp at there
    | leaf page => exact absurd rfl there
    | branch children =>
      have here : Present c r := by simpa using path [] nil_prefix
      obtain ⟨page, -, -, slots⟩ := (shown.loaded_of_present here).branch
      cases taken : page.get n with
      | none =>
        have empty := (slots.none taken).1
        simp [Trie.sub, empty] at there
      | some child =>
        have below : ∀ q, q <+: rest → Present c (r ++ [n] ++ q) := by
          intro q above
          simpa using path (n :: q) (cons_prefix_cons.mpr ⟨rfl, above⟩)
        simpa [Trie.sub] using ih (slots.some taken) below there

theorem Keeps.lift (p : Path) (n child) (loaded : Loaded env s c t r)
    (path : ∀ q, q <+: p → Present c (r ++ q)) (taken : c.slotAt (r ++ p) n = some child)
    (there : t.sub (p ++ [n]) ≠ .absent)
    (keeps : Keeps env s c c' (t.sub (p ++ [n])) (r ++ p ++ [n]) child) (o) :
    Keeps env s c c' t r o := by
  -- keeping the subtree in a slot on a loaded path keeps the whole tree
  induction p generalizing t r o with
  | nil =>
    cases t with
    | absent => exact loaded.elim
    | leaf page => exact absurd rfl there
    | branch children =>
      obtain ⟨page, -, present, -⟩ := loaded.branch
      simp only [append_nil, slotAt, present, Option.bind_some] at taken
      exact Keeps.parent present taken (by simpa [Trie.sub] using keeps)
  | cons m rest ih =>
    cases t with
    | absent => exact loaded.elim
    | leaf page => exact absurd rfl there
    | branch children =>
      obtain ⟨page, -, present, slots⟩ := loaded.branch
      have below : ∀ q, q <+: rest → Present c (r ++ [m] ++ q) := by
        intro q above
        simpa using path (m :: q) (cons_prefix_cons.mpr ⟨rfl, above⟩)
      have here : Present c (r ++ [m]) := by simpa using below [] nil_prefix
      cases used : page.get m with
      | none => exact absurd here (slots.none used).2.not_present
      | some next =>
        have deeper := (slots.some used).loaded_of_present here
        refine Keeps.parent present used (ih deeper below ?_ there ?_ next)
        · simpa using taken
        · simpa [Trie.sub] using keeps

/-! ### Mutations -/

/-- Only pages on the way to the path and below it differ, and on the way only the slots
that lead to the path. -/
structure Mutated (c c' : TrieCursor env.geometry) (p : Path) : Prop where
  outside : ∀ q, ¬ p <+: q → ¬ q <+: p → SameAt c c' q
  slots : ∀ q n, ¬ p <+: q → ¬ q ++ [n] <+: p → c'.slotAt q n = c.slotAt q n
  present : ∀ q, Present c q → Present c' q
  rootLoaded : c'.rootLoaded = c.rootLoaded
  rootOid : c'.initialRootOid = c.initialRootOid

namespace Mutated

theorem refl : Mutated c c p :=
  ⟨fun q _ _ => .refl, fun _ _ _ _ => rfl, fun _ there => there, rfl, rfl⟩

theorem trans (first : Mutated c c' p) (second : Mutated c' c'' p) : Mutated c c'' p :=
  ⟨fun q below above => (first.outside q below above).trans (second.outside q below above),
    fun q n below above => (second.slots q n below above).trans (first.slots q n below above),
    fun q there => second.present q (first.present q there),
    second.rootLoaded.trans first.rootLoaded, second.rootOid.trans first.rootOid⟩

theorem parent (mutated : Mutated c c' (p ++ [n])) :
    Mutated c c' p where
  outside := by
    intro q below above
    refine mutated.outside q (fun deeper => below (prefix_of_child deeper)) fun inner => ?_
    rcases prefix_concat_iff.mp inner with rfl | inner
    · exact below (prefix_append p [n])
    · exact above inner
  slots := by
    intro q m below above
    refine mutated.slots q m (fun deeper => below (prefix_of_child deeper)) fun inner => ?_
    rcases prefix_concat_iff.mp inner with same | inner
    · rw [append_inj_left' same rfl] at below
      exact below prefix_rfl
    · exact above inner
  present := mutated.present
  rootLoaded := mutated.rootLoaded
  rootOid := mutated.rootOid

theorem not_sibling {r : Path} (apart : m ≠ n) (below : p ++ [m] <+: r) :
    ¬ r <+: p ++ [n] := fun above =>
  apart (child_eq_of_below (below.trans above) prefix_rfl)

theorem sibling (mutated : Mutated c c' (p ++ [n])) (apart : m ≠ n) (r : Path)
    (below : p ++ [m] <+: r) : SameAt c c' r :=
  mutated.outside r (fun deeper => apart (child_eq_of_below below deeper)) (not_sibling apart below)

theorem siblingSlot (mutated : Mutated c c' (p ++ [n])) (apart : m ≠ n) :
    c'.slotAt p m = c.slotAt p m :=
  mutated.slots p m not_child_prefix_self (not_sibling apart prefix_rfl)

end Mutated

theorem SameAt.slotAt (same : SameAt c c' q) (n) : c'.slotAt q n = c.slotAt q n := by
  rw [TrieCursor.slotAt, TrieCursor.slotAt, same.branchAt]

theorem Mutated.ofPage (other : ∀ q, q ≠ p → SameAt c c' q) (present : Present c p → Present c' p)
    (rootLoaded : c'.rootLoaded = c.rootLoaded) (rootOid : c'.initialRootOid = c.initialRootOid) :
    Mutated c c' p where
  outside := fun q below _ => other q (ne_of_not_below below)
  slots := fun q n below _ => (other q (ne_of_not_below below)).slotAt n
  present := by
    intro q there
    by_cases same : q = p
    · exact same ▸ present (same ▸ there)
    · exact (other q same).present there
  rootLoaded := rootLoaded
  rootOid := rootOid

theorem Place.bound (place : Place env s c children q) (there : children n ≠ .absent) :
    n < env.geometry.fanout := by
  have slot := place.slots n
  split at slot
  · exact absurd slot.1 there
  next child taken =>
    obtain ⟨page, -, found⟩ := Option.bind_eq_some_iff.mp taken
    exact (page.get_valid found).1

theorem present_markLeafDirty (c : TrieCursor env.geometry) (p) :
    Present (c.markLeafDirty p page) p := Or.inl (by simp [leafAt, markLeafDirty])

theorem present_markBranchDirty (c : TrieCursor env.geometry) (p) :
    Present (c.markBranchDirty p page) p :=
  Or.inr (by simp [branchAt, markBranchDirty])

theorem Mutated.rebind (mutated : Mutated c c1 p) (above : q ++ [n] <+: p)
    (get : ∀ m, page.get m = if n = m then some (pendingChildOid q n) else c.slotAt q m) :
    Mutated c (c1.markBranchDirty q page) p where
  outside := by
    -- the branch that is bound again is on the way to the path
    intro r below aside
    have apart : r ≠ q := by
      rintro rfl
      exact aside (prefix_of_child above)
    exact (mutated.outside r below aside).trans (sameAt_markBranchDirty c1 q r page apart)
  slots := by
    intro r m below aside
    by_cases same : r = q
    · subst same
      have other : n ≠ m := by
        rintro rfl
        exact aside above
      have held : (c1.markBranchDirty r page).branchAt r = some page := by
        simp [branchAt, markBranchDirty]
      rw [slotAt, held, Option.bind_some, get, if_neg other]
    · rw [(sameAt_markBranchDirty c1 q r page same).slotAt]
      exact mutated.slots r m below aside
  present := by
    intro r there
    by_cases same : r = q
    · exact same ▸ present_markBranchDirty c1 q
    · exact (sameAt_markBranchDirty c1 q r page same).present (mutated.present r there)
  rootLoaded := mutated.rootLoaded
  rootOid := mutated.rootOid

theorem rebindAncestors_spec (shown : Shown env s c t [] o) (path : OnPath c p) (above) (c1) (u)
    (inside : above.reverse <+: p) (there : t.sub above.reverse ≠ .absent)
    (frame : Frame c c1 above.reverse) (dirty : Dirty env s c1 u above.reverse)
    (mutated : Mutated c c1 p) :
    ∃ c', c1.rebindAncestors above = .ok c' ∧ Dirty env s c' (t.setAt above.reverse u) [] ∧
      Mutated c c' p := by
  -- rebinding from a changed subtree up to the root makes the whole tree dirty
  induction above generalizing c1 u with
  | nil => exact ⟨c1, rfl, by simpa using dirty, mutated⟩
  | cons n above ih =>
    rw [reverse_cons] at inside there frame dirty
    obtain ⟨children, shape⟩ := t.isBranch_of_sub_child _ n there
    have upper : above.reverse <+: p := prefix_of_child inside
    have here : t.sub above.reverse ≠ .absent := by simp [shape]
    obtain ⟨o', shownHere⟩ := shown.sub (by simpa [OnPath] using path.above upper) here
    rw [shape, nil_append] at shownHere
    have place := (shownHere.loaded_of_present (path _ upper)).place
    rw [Trie.sub_append, shape] at there
    have bound := place.bound (n := n) (by simpa [Trie.sub] using there)
    obtain ⟨page, ok, rebound⟩ := rebindParentBranch_spec place bound frame dirty
    obtain ⟨c', ok', dirty', mutated'⟩ := ih _ _ upper here rebound.frame rebound.dirty
      (mutated.rebind inside rebound.get)
    refine ⟨c', by simp [rebindAncestors, ok, ok'], ?_, mutated'⟩
    rw [reverse_cons, t.setAt_child shape]
    exact dirty'

theorem markLoadedLeafMutation_spec (shown : Shown env s c t [] o) (path : OnPath c p)
    (leaf : t.sub p = .leaf page) (next) :
    ∃ c', c.markLoadedLeafMutation p next = .ok c' ∧ Dirty env s c' (t.setAt p (.leaf next)) [] ∧
      Mutated c c' p := by
  have there : t.sub p ≠ .absent := by simp [leaf]
  obtain ⟨o', here⟩ := shown.sub (by simpa [OnPath] using path) there
  rw [leaf, nil_append] at here
  obtain ⟨noBranch, noDirty, vacant⟩ := here.leafPlace
  obtain ⟨dirty, frame⟩ := markLeafDirty_spec (s := s) next noBranch noDirty vacant
  have mutated : Mutated c (c.markLeafDirty p next) p :=
    .ofPage (fun q => sameAt_markLeafDirty c p q next) (fun _ => present_markLeafDirty c p) rfl rfl
  have rebound := rebindAncestors_spec shown path p.reverse (c.markLeafDirty p next) (.leaf next)
  simp only [reverse_reverse] at rebound
  exact rebound prefix_rfl there frame dirty mutated

/-! ### The walk -/

variable (page : TrieLeaf) (observedDots : OrdSet JsString)

theorem TrieLeaf.new_tombstone (next)
    (changed : rewriteLeafWithTombstones page observedDots = some next) :
    TrieLeaf.new next = .ok (page.tombstone observedDots) := by
  have sorted := sortedEntries_of_suffixes page.sorted
    (rewriteLeaf_suffixes changed)
  rw [TrieLeaf.new_of_sorted sorted]
  unfold TrieLeaf.tombstone
  split
  next unchanged => simp [unchanged] at changed
  next next' changed' =>
    cases changed.symm.trans changed'
    rfl

theorem TrieLeaf.tombstone_unchanged
    (unchanged : rewriteLeafWithTombstones page observedDots = none) :
    page.tombstone observedDots = page := by
  unfold TrieLeaf.tombstone
  split
  · rfl
  next next changed => simp [changed] at unchanged

variable (element : JsString)

theorem TrieLeaf.new_tombstoneElement (observedDots next)
    (changed : rewriteElementWithTombstones page element observedDots = some next) :
    TrieLeaf.new next = .ok (page.tombstoneElement element observedDots) := by
  have sorted := sortedEntries_of_suffixes page.sorted
    (rewriteElement_suffixes changed)
  rw [TrieLeaf.new_of_sorted sorted]
  unfold TrieLeaf.tombstoneElement
  split
  next unchanged => simp [unchanged] at changed
  next next' changed' =>
    cases changed.symm.trans changed'
    rfl

theorem TrieLeaf.tombstoneElement_unchanged {observedDots}
    (unchanged : rewriteElementWithTombstones page element observedDots = none) :
    page.tombstoneElement element observedDots = page := by
  unfold TrieLeaf.tombstoneElement
  split
  · rfl
  next next changed => simp [changed] at unchanged

variable (env s) in
def RemovedBelow (observedDots : OrdSet JsString) (c : TrieCursor env.geometry) (t : Trie) (o : Oid)
    (p : Path) (c' : TrieCursor env.geometry) : Prop :=
  Shown env s c' (t.setAt p ((t.sub p).remove observedDots)) [] o ∧ Mutated c c' p

theorem tombstoneInLeaf_spec {o page} (shown : Shown env s c t [] o) (path : OnPath c p)
    (leaf : t.sub p = .leaf page) :
    ∃ c', tombstoneInLeaf env observedDots c p page = .ok c' ∧
      RemovedBelow env s observedDots c t o p c' := by
  simp only [RemovedBelow, leaf, Trie.remove, tombstoneInLeaf]
  cases changed : rewriteLeafWithTombstones page observedDots with
  | none =>
    refine ⟨c, rfl, ?_, .refl⟩
    rw [page.tombstone_unchanged _ changed, ← leaf, Trie.setAt_sub _ (by simp [leaf])]
    exact shown
  | some next =>
    obtain ⟨c', ok, dirty, mutated⟩ := markLoadedLeafMutation_spec shown path leaf
      (page.tombstone observedDots)
    refine ⟨c', ?_, Or.inl dirty, mutated⟩
    simp only [page.new_tombstone _ _ changed, ok_bind, ok]

variable (env s) in
/-- A walk over a branch part of the way: the children done so far have the dots removed,
and nothing happened to the others. -/
structure Walked (observedDots : OrdSet JsString) (c : TrieCursor env.geometry) (t : Trie) (o : Oid)
    (p : Path) (children : Nat → Trie) (done : List Nat) (c' : TrieCursor env.geometry) : Prop where
  shown : Shown env s c' (t.setAt p (.branch fun n =>
    if n ∈ done then (children n).remove observedDots else children n)) [] o
  mutated : Mutated c c' p
  slots : ∀ n, n ∉ done → c'.slotAt p n = c.slotAt p n
  beside : ∀ n, n ∉ done → ∀ q, p ++ [n] <+: q → SameAt c c' q

/-- Loading a child that is not done, in the middle of a walk. -/
theorem Walked.loadChild {observedDots c1 o child done} {kind}
    (walked : Walked env s observedDots c t o p children done c') (path : OnPath c p)
    (shape : t.sub p = .branch children) (fresh : n ∉ done) (taken : c.slotAt p n = some child)
    (slot : Shown env s c (children n) (p ++ [n]) child)
    (ok : c'.ensureChildLoaded env s p n child = .ok (kind, c1)) :
    Shown env s c1 (t.setAt p (.branch fun m =>
        if m ∈ done then (children m).remove observedDots else children m)) [] o ∧
      (t.setAt p (.branch fun m =>
        if m ∈ done then (children m).remove observedDots else children m)).sub (p ++ [n]) =
          children n ∧
      OnPath c1 (p ++ [n]) ∧ Mutated c' c1 (p ++ [n]) := by
  obtain ⟨shown, mutated, slots, beside⟩ := walked
  have there : t.sub p ≠ .absent := by simp [shape]
  have subHere := t.sub_setAt (.branch fun m =>
    if m ∈ done then (children m).remove observedDots else children m) there
  generalize t.setAt p (.branch fun m =>
    if m ∈ done then (children m).remove observedDots else children m) = t' at shown subHere
  have subChild : t'.sub (p ++ [n]) = children n := by
    simp [Trie.sub_append, subHere, Trie.sub, fresh]
  have path' : OnPath c' p := fun q above => mutated.present q (path q above)
  obtain ⟨_, ok', loaded, keeps, other⟩ := ensureChildLoaded_spec (slot.congr (beside n fresh))
  cases ok'.symm.trans ok
  have kept : Keeps env s c' c1 t' [] o := by
    refine Keeps.lift p n child (shown.loaded_of_present (path' [] nil_prefix))
      (by simpa [OnPath] using path') ?_ ?_ ?_ o
    · simpa using (slots n fresh).trans taken
    · rw [subChild]
      exact slot.ne_absent
    · simpa [subChild] using keeps
  have loading : Mutated c' c1 (p ++ [n]) :=
    .ofPage other keeps.present keeps.frame.rootLoaded keeps.frame.rootOid
  have path1 : OnPath c1 (p ++ [n]) :=
    OnPath.child (fun q above => loading.present q (path' q above)) loaded.present
  exact ⟨kept.shown shown, subChild, path1, loading⟩

theorem setAt_child_of_walk {observedDots} (shape : t.sub p = .branch children) (done : List Nat)
    (n u) :
    (t.setAt p (.branch fun m =>
      if m ∈ done then (children m).remove observedDots else children m)).setAt (p ++ [n]) u =
      t.setAt p (.branch (Function.update
        (fun m => if m ∈ done then (children m).remove observedDots else children m) n u)) := by
  have there : t.sub p ≠ .absent := by simp [shape]
  have subHere := t.sub_setAt (.branch fun m =>
    if m ∈ done then (children m).remove observedDots else children m) there
  rw [Trie.setAt_child _ subHere, Trie.setAt_setAt]

/-- Loading a child and removing below it, in the middle of a walk. -/
theorem Walked.step {observedDots o child done n}
    (walked : Walked env s observedDots c t o p children done c') (path : OnPath c p)
    (shape : t.sub p = .branch children) (fresh : n ∉ done) (taken : c.slotAt p n = some child)
    (slot : Shown env s c (children n) (p ++ [n]) child)
    (below : ∀ c t, Shown env s c t [] o → OnPath c (p ++ [n]) → t.sub (p ++ [n]) = children n →
      ∃ c', tombstoneBelow env s observedDots levels c (p ++ [n]) = .ok c' ∧
        RemovedBelow env s observedDots c t o (p ++ [n]) c') :
    ∃ c'', (do
        let (_, loaded) ← c'.ensureChildLoaded env s p n child
        tombstoneBelow env s observedDots levels loaded (p ++ [n])) = .ok c'' ∧
      Walked env s observedDots c t o p children (done ++ [n]) c'' := by
  obtain ⟨c1, ok, -, -, -⟩ := ensureChildLoaded_spec (slot.congr (walked.beside n fresh))
  obtain ⟨shown1, subChild, path1, loading⟩ := walked.loadChild path shape fresh taken slot ok
  obtain ⟨c2, ok2, shown2, mutated2⟩ := below c1 _ shown1 path1 subChild
  have both := loading.trans mutated2
  refine ⟨c2, by simp [ok, ok2], ?_, walked.mutated.trans both.parent, ?_, ?_⟩
  · rw [subChild, setAt_child_of_walk shape] at shown2
    refine (congrArg (fun u => Shown env s c2 (t.setAt p (.branch u)) [] o) ?_).mp shown2
    funext m
    by_cases same : m = n
    · simp [same]
    · simp [same]
  · intro m later
    rw [mem_append, mem_singleton, not_or] at later
    exact (both.siblingSlot later.2).trans (walked.slots m later.1)
  · intro m later q inner
    rw [mem_append, mem_singleton, not_or] at later
    exact (walked.beside m later.1 q inner).trans (both.sibling later.2 q inner)

theorem tombstoneBelow_spec (c) (t p) (shown : Shown env s c t [] o) (path : OnPath c p)
    (there : t.sub p ≠ .absent) (fits : (t.sub p).Fits levels) :
    ∃ c', tombstoneBelow env s observedDots levels c p = .ok c' ∧
      RemovedBelow env s observedDots c t o p c' := by
  induction levels generalizing c t p with
  | zero => exact absurd fits (Trie.not_fits_zero there)
  | succ levels ih =>
    obtain ⟨o', here⟩ := shown.sub (by simpa [OnPath] using path) there
    rw [nil_append] at here
    have loaded := here.loaded_of_present (path p prefix_rfl)
    cases shape : t.sub p with
    | absent => exact absurd shape there
    | leaf page =>
      rw [shape] at loaded
      have found : c.leafAt p = some page := loaded
      simp only [tombstoneBelow, found]
      exact tombstoneInLeaf_spec observedDots shown path shape
    | branch children =>
      rw [shape] at loaded fits
      obtain ⟨page, noLeaf, present, slots⟩ := loaded.branch
      have slotHere : ∀ n, c.slotAt p n = page.get n := fun n => by simp [slotAt, present]
      simp only [tombstoneBelow, noLeaf, present]
      have all : (fun n => if n ∈ page.children.entries.map Prod.fst then
          (children n).remove observedDots else children n) =
          fun n => (children n).remove observedDots := by
        funext n
        split
        · rfl
        next free =>
          have unused : page.get n = none := (assocGet_eq_none_iff _ n).mpr free
          rw [(slots.none unused).1]
          rfl
      have init : Walked env s observedDots c t o p children ([].map (Prod.fst (β := Oid))) c := by
        refine ⟨?_, .refl, fun _ _ => rfl, fun _ _ q _ => .refl⟩
        simpa [← shape, Trie.setAt_sub t there] using shown
      have folded := foldlM_ok
        (R := fun done c' => Walked env s observedDots c t o p children (done.map Prod.fst) c')
        (f := fun (c : TrieCursor env.geometry) (child : Nat × Oid) => do
          let (_, loaded) ← c.ensureChildLoaded env s p child.1 child.2
          tombstoneBelow env s observedDots levels loaded (p ++ [child.1]))
        page.children.entries ?_ init
      · obtain ⟨c', ok, walked⟩ := folded
        refine ⟨c', ok, ?_, walked.mutated⟩
        rw [shape, Trie.remove, ← all]
        exact walked.shown
      · rintro done ⟨n, child⟩ rest c' whole walked
        obtain ⟨taken, fresh⟩ := Trie.fresh_of_entries whole
        have next := walked.step path shape fresh ((slotHere n).trans taken) (slots.some taken)
          fun c t shown path same => ih c t (p ++ [n]) shown path
            (by rw [same]; exact (slots.some taken).ne_absent) (by rw [same]; exact fits.2 n)
        simpa using next

/-! ### The whole cursor -/

/-- A loaded root is shown under an identifier for which showing it is enough. -/
theorem Shows.rootShown (shows_ : Shows env s c t) (rootLoaded : c.rootLoaded = true)
    (there : t ≠ .absent) :
    ∃ o, Shown env s c t [] o ∧ Present c [] ∧
      ∀ c' t', Shown env s c' t' [] o → Present c' [] → c'.rootLoaded = c.rootLoaded →
        c'.initialRootOid = c.initialRootOid → (∀ page, t' ≠ .leaf page) → Shows env s c' t' := by
  rcases shows_.loaded rootLoaded with dirty | rest
  · -- a placeholder names no stored page, so a tree shown under it is dirty
    refine ⟨pendingChildOid [] 0, Or.inl dirty, dirty.loaded.present, ?_⟩
    exact fun c' t' shown _ loaded _ root =>
      .ofDirty (loaded.trans rootLoaded) shown.dirty_of_pending root
  · cases oid : c.initialRootOid with
    | none =>
      simp only [oid] at rest
      exact absurd rest.1 there
    | some o =>
      simp only [oid] at rest
      refine ⟨o, Or.inr rest.1, rest.2, fun c' t' shown there loaded rootOid root => ?_⟩
      rcases shown with dirty | clean
      · exact .ofDirty (loaded.trans rootLoaded) dirty root
      · refine ⟨fun unloaded => ?_, fun _ => Or.inr ?_, root⟩
        · rw [loaded, rootLoaded] at unloaded
          cases unloaded
        · simp only [rootOid]
          exact ⟨clean, there⟩

theorem TrieLeaf.tombstone_none (empty : observedDots.size = 0) :
    page.tombstone observedDots = page := by
  refine page.tombstone_unchanged _ ?_
  have nothing := observedDots.size_eq_zero_iff.mp empty
  simp [rewriteLeafWithTombstones, tombstoneEntry, nothing]

theorem TrieLeaf.tombstoneElement_none (observedDots) (empty : observedDots.size = 0) :
    page.tombstoneElement element observedDots = page := by
  refine page.tombstoneElement_unchanged _ ?_
  have nothing := observedDots.size_eq_zero_iff.mp empty
  simp only [rewriteElementWithTombstones, ite_eq_right_iff, any_eq_true, mem_map,
    exists_exists_and_eq_and]
  rintro ⟨entry, -, changed⟩
  split at changed
  · simp [tombstoneEntry, nothing] at changed
  · cases changed

theorem Trie.remove_none (t : Trie) (observedDots) (empty : observedDots.size = 0) :
    t.remove observedDots = t := by
  induction t with
  | absent => rfl
  | leaf page => rw [Trie.remove, page.tombstone_none _ empty]
  | branch children ih => simp [Trie.remove, ih]

theorem Trie.removeElement_none (g) (route element) (observedDots) (t : Trie) (depth)
    (empty : observedDots.size = 0) : t.removeElement g route element observedDots depth = t := by
  induction t generalizing depth with
  | absent => rfl
  | leaf page =>
    rw [Trie.removeElement]
    split
    · rfl
    · rw [page.tombstoneElement_none _ _ empty]
  | branch children ih =>
    rw [Trie.removeElement]
    split
    · rw [ih, Function.update_eq_self]
    · rfl

theorem remove_spec (shows_ : Shows env s c t) (fits : t.Fits (env.geometry.maxDepth + 1))
    (observedDots) :
    ∃ c', c.remove env s observedDots = .ok c' ∧ Shows env s c' (t.remove observedDots) := by
  by_cases empty : observedDots.size = 0
  · exact ⟨c, by simp [TrieCursor.remove, empty], by rwa [t.remove_none _ empty]⟩
  · obtain ⟨c1, ok, shows1, loaded⟩ := loadRootIfNeeded_spec shows_
    simp only [TrieCursor.remove, empty, if_false, ok, ok_bind]
    rcases shows1.hasRoot loaded with ⟨rfl, noRoot⟩ | ⟨children, rfl, root, -⟩
    · simp only [noRoot]
      exact ⟨c1, rfl, shows1⟩
    · obtain ⟨o, shown, there, finish⟩ := shows1.rootShown loaded (by simp)
      have path : OnPath c1 [] := fun q above => prefix_nil.mp above ▸ there
      obtain ⟨c2, ok2, shown2, mutated⟩ := tombstoneBelow_spec observedDots c1 _ [] shown path
        (by simp) (by simpa using fits)
      simp only [root, if_true]
      exact ⟨c2, ok2, finish c2 _ (by simpa using shown2) (mutated.present [] there)
        mutated.rootLoaded mutated.rootOid (by simp [Trie.remove])⟩

theorem removeElement_spec (shows_ : Shows env s c t) {element : JsString} (named : element ≠ [])
    (observedDots) :
    ∃ c', c.removeElement env s element observedDots = .ok c' ∧ Shows env s c'
      (t.removeElement env.geometry (env.blake3 (textEncode element)) element observedDots 0) := by
  by_cases empty : observedDots.size = 0
  · refine ⟨c, by simp [TrieCursor.removeElement, validateElement, named, empty], ?_⟩
    rwa [t.removeElement_none _ _ _ _ _ empty]
  · obtain ⟨located, c1, ok, -, shows1, loaded, found⟩ := locateEntry_spec shows_ named
    simp only [TrieCursor.removeElement, validateElement, named, if_false, empty, ok, ok_bind]
    cases located with
    | none => exact ⟨c1, rfl, by rw [found observedDots]; exact shows1⟩
    | some located =>
      obtain ⟨rest, path, present, leaf, removes⟩ := found
      rw [removes observedDots]
      rw [nil_append] at path
      have inside : t ≠ .absent := by
        rintro rfl
        simp at leaf
      obtain ⟨o, shown, there, finish⟩ := shows1.rootShown loaded inside
      cases changed : rewriteElementWithTombstones located.leaf element observedDots with
      | none =>
        refine ⟨c1, by simp only [changed]; rfl, ?_⟩
        rw [located.leaf.tombstoneElement_unchanged _ changed, ← leaf,
          Trie.setAt_sub _ (by simp [leaf])]
        exact shows1
      | some next =>
        obtain ⟨c2, ok2, dirty, mutated⟩ := markLoadedLeafMutation_spec shown (p := rest)
          (by simpa [OnPath] using present) leaf
          (located.leaf.tombstoneElement element observedDots)
        simp only [changed, located.leaf.new_tombstoneElement _ _ _ changed, ok_bind, path]
        refine ⟨c2, ok2, finish c2 _ (Or.inl dirty) (mutated.present [] there) mutated.rootLoaded
          mutated.rootOid fun page isLeaf => ?_⟩
        cases t with
        | absent => exact inside rfl
        | leaf page => exact shows1.root page rfl
        | branch children =>
          cases rest with
          | nil => cases leaf
          | cons n rest => cases isLeaf

end GitWarp
