import GitWarp.Trie.Loading

/-!
# Changes

An operation that changes a page makes the page dirty and puts a placeholder into
every branch above it. So the top of the changed subtree is dirty again, and it
shows the changed tree; nothing beside the subtree is touched.
-/
namespace GitWarp

open Js Lib TrieCursor List

variable {S : Type} {env : TrieEnv S} {s : S}

/-! ### Placeholders -/

theorem pendingChildOid_ne_nil : pendingChildOid p n ≠ [] := by
  have nonempty : pendingOidText ≠ [] := by decide
  simp [pendingChildOid, nonempty]

variable {c c' : TrieCursor env.geometry} {children : Nat → Trie} {p q : Path} {g : TrieGeometry}
  {n : Nat} {page : TrieLeaf}

theorem not_clean_pending : ¬ Clean env s c t p (pendingChildOid q n) := by
  intro clean
  have stored := clean.validOid.stored
  cases stored

theorem Shown.dirty_of_pending (shown : Shown env s c t p (pendingChildOid q n)) :
    Dirty env s c t p :=
  shown.resolve_right not_clean_pending

/-! ### Replacing one child -/

theorem Slots.replace {page o u} (slots : Slots env s c page children p)
    (taken : page.get n = Option.some o) (frame : Frame c c' (p ++ [n]))
    (shown : Shown env s c' u (p ++ [n]) o) :
    Slots env s c' page (Function.update children n u) p := by
  intro m
  have slot := slots m
  by_cases same : m = n
  · subst same
    simp only [taken, Function.update_self]
    exact shown
  · rw [Function.update_of_ne same]
    split at slot
    · exact ⟨slot.1, slot.2.congr fun q below => frame.sibling same below⟩
    · exact Shown.congr slot fun q below => frame.sibling same below

/-- The slot of the branch page at a path, if there is one. -/
def TrieCursor.slotAt {g : TrieGeometry} (c : TrieCursor g) (q : Path) (n : Nat) : Option Oid :=
  (c.branchAt q).bind fun page => page.get n

variable (env s) in
/-- A place for a branch: no leaf is there, and what lies below are the children. -/
structure Place (c : TrieCursor env.geometry) (children : Nat → Trie) (q : Path) : Prop where
  dirtyLeaf : c.dirtyLeaves.get q = none
  leaf : c.workingLeaves.get q = none
  slots : ∀ n, match c.slotAt q n with
    | none => children n = .absent ∧ Vacant c (q ++ [n])
    | some child => Shown env s c (children n) (q ++ [n]) child

theorem Loaded.place (loaded : Loaded env s c (.branch children) q) : Place env s c children q := by
  obtain ⟨page, noLeaf, present, slots⟩ := loaded.branch
  simp only [leafAt, Option.or_eq_none_iff] at noLeaf
  refine ⟨noLeaf.1, noLeaf.2, fun n => ?_⟩
  simp only [slotAt, present, Option.bind_some]
  exact slots n

theorem Vacant.place (vacant : Vacant c q) : Place env s c (fun _ => .absent) q := by
  have here := vacant q prefix_rfl
  refine ⟨here.dirtyLeaf, here.leaf, fun n => ?_⟩
  simp only [slotAt, here.branchAt, Option.bind_none]
  exact ⟨trivial, vacant.child n⟩

theorem buildBranchWithPendingChild_ok (c : TrieCursor g) (q n) (inside : n < g.fanout) :
    ∃ page, c.buildBranchWithPendingChild q n = .ok page ∧
      ∀ m, page.get m = if n = m then some (pendingChildOid q n) else c.slotAt q m := by
  have valid : ∀ child ∈ (((c.branchAt q).map TrieBranch.children).getD .empty |>.set n
      (pendingChildOid q n)).entries, child.1 < g.fanout ∧ child.2 ≠ [] := by
    rintro ⟨m, oid⟩ mem
    rw [OrdMap.mem_entries_iff, OrdMap.get_set] at mem
    split at mem
    next same =>
      cases mem
      exact ⟨same ▸ inside, pendingChildOid_ne_nil⟩
    next =>
      cases held : c.branchAt q with
      | none => simp [held] at mem
      | some page => exact page.get_valid (by simpa [held, TrieBranch.get] using mem)
  refine ⟨⟨_, valid⟩, TrieBranch.new_of_valid valid, fun m => ?_⟩
  simp only [TrieBranch.get, OrdMap.get_set, slotAt]
  cases c.branchAt q <;> simp

theorem sameAt_markBranchDirty (c) (p q) (page : TrieBranch g) (apart : q ≠ p) :
    SameAt c (c.markBranchDirty p page) q :=
  ⟨rfl, by simp [markBranchDirty, Ne.symm apart], rfl, by simp [markBranchDirty, Ne.symm apart], rfl⟩

theorem sameAt_markLeafDirty (c : TrieCursor g) (p q page) (apart : q ≠ p) :
    SameAt c (c.markLeafDirty p page) q :=
  ⟨by simp [markLeafDirty, Ne.symm apart], rfl, by simp [markLeafDirty, Ne.symm apart], rfl, rfl⟩

structure Rebound (env : TrieEnv S) (s : S) (c c' : TrieCursor env.geometry) (children : Nat → Trie)
    (q : Path) (n : Nat) (u : Trie) (page : TrieBranch env.geometry) : Prop where
  held : DirtyBranch c' q page
  slots : Slots env s c' page (Function.update children n u) q
  get : ∀ m, page.get m = if n = m then some (pendingChildOid q n) else c.slotAt q m
  frame : Frame c c' q

theorem Rebound.dirty {u page} (rebound : Rebound env s c c' children q n u page) :
    Dirty env s c' (.branch (Function.update children n u)) q :=
  ⟨page, rebound.held, rebound.slots⟩

theorem rebindParentBranch_spec (place : Place env s c children q)
    (inside : n < env.geometry.fanout) (frame : Frame c c1 (q ++ [n]))
    (dirty : Dirty env s c1 u (q ++ [n])) :
    ∃ page, c1.rebindParentBranch q n = .ok (c1.markBranchDirty q page) ∧
      Rebound env s c (c1.markBranchDirty q page) children q n u page := by
  obtain ⟨page, built, get⟩ := buildBranchWithPendingChild_ok c1 q n inside
  have slotSame : ∀ m, c1.slotAt q m = c.slotAt q m := by
    intro m
    rw [slotAt, slotAt, frame.self.branchAt]
  simp only [slotSame] at get
  have other := sameAt_markBranchDirty c1 q
  refine ⟨page, by simp [rebindParentBranch, built], ?_, ?_, get, ?_⟩
  · exact ⟨by simp [markBranchDirty], by simp [markBranchDirty], frame.self.leaf ▸ place.leaf,
      frame.self.dirtyLeaf ▸ place.dirtyLeaf⟩
  · intro m
    have below := fun r (below : q ++ [m] <+: r) => other r page (ne_of_below_child below)
    by_cases same : n = m
    · subst same
      simp only [get, if_true, Function.update_self]
      exact Or.inl (dirty.congr below)
    · have slot := place.slots m
      simp only [get, same, if_false]
      rw [Function.update_of_ne (Ne.symm same)]
      have through := fun r (deeper : q ++ [m] <+: r) =>
        (frame.sibling (Ne.symm same) deeper).trans (below r deeper)
      -- both the slot and the goal are about the same entry of the old branch
      revert slot
      cases c.slotAt q m with
      | none => exact fun slot => ⟨slot.1, slot.2.congr through⟩
      | some child => exact fun slot => Shown.congr slot through
  · exact ⟨fun r away => (frame.outside r fun deeper => away (prefix_of_child deeper)).trans
      (other r page (ne_of_not_below away)), frame.rootLoaded, frame.rootOid⟩

theorem rebindParentBranch_again {c} {page : TrieBranch g} (held : DirtyBranch c q page)
    (pending : page.get n = some (pendingChildOid q n)) : c.rebindParentBranch q n = .ok c := by
  have same : page.children.set n (pendingChildOid q n) = page.children :=
    OrdMap.set_of_get _ _ pending
  have built : c.buildBranchWithPendingChild q n = .ok page := by
    simp only [buildBranchWithPendingChild, held.branchAt.2, Option.map_some, Option.getD_some, same]
    exact TrieBranch.new_of_valid page.valid
  simp [rebindParentBranch, built, markBranchDirty, OrdMap.set_of_get _ _ held.branch,
    OrdMap.set_of_get _ _ held.dirtyBranch, pure, Except.pure]

theorem markLeafDirty_spec (page) (branch : c.workingBranches.get p = none)
    (dirtyBranch : c.dirtyBranches.get p = none) (vacant : ∀ n, Vacant c (p ++ [n])) :
    Dirty env s (c.markLeafDirty p page) (.leaf page) p ∧ Frame c (c.markLeafDirty p page) p := by
  have other := fun q => sameAt_markLeafDirty c p q page
  refine ⟨⟨⟨by simp [markLeafDirty], by simp [markLeafDirty], branch, dirtyBranch⟩, fun n => ?_⟩, ?_⟩
  · exact (vacant n).congr fun q below => other q (ne_of_below_child below)
  · exact ⟨fun q away => other q (ne_of_not_below away), rfl, rfl⟩

/-! ### Splitting -/

variable (g : TrieGeometry)

theorem firstNibble_lt (suffix) : firstNibbleOfSuffix g suffix < g.fanout := by
  rw [firstNibbleOfSuffix, Nat.one_shiftLeft, Nat.and_two_pow_sub_one_eq_mod, g.width]
  exact Nat.mod_lt _ (Nat.two_pow_pos _)

theorem partition_key_lt (mem : part ∈ (partitionEntriesByNextNibble g page).entries) :
    part.1 < g.fanout := by
  suffices general : ∀ (entries : List TrieLeafEntry) (buckets : OrdMap Nat (List TrieLeafEntry)),
      (∀ part ∈ buckets.entries, part.1 < g.fanout) →
      ∀ part ∈ (entries.foldl (fun buckets entry =>
        pushIntoBucket buckets (firstNibbleOfSuffix g entry.routeKeySuffix) entry) buckets).entries,
        part.1 < g.fanout from general page.entries .empty (by simp [OrdMap.empty]) part mem
  intro entries
  induction entries with
  | nil => exact fun buckets bounded => bounded
  | cons entry rest ih =>
    intro buckets bounded
    refine ih _ ?_
    rintro ⟨n, bucket⟩ mem
    simp only [pushIntoBucket] at mem
    rw [OrdMap.mem_entries_iff, OrdMap.get_set] at mem
    split at mem
    next same => exact same ▸ firstNibble_lt g _
    next => exact bounded (n, bucket) ((OrdMap.mem_entries_iff _ _).mpr mem)

def installLeaves (p : Path) (parts : List (Nat × TrieLeaf)) (c : TrieCursor env.geometry) :
    TrieCursor env.geometry :=
  parts.foldl (fun c part => c.markLeafDirty (p ++ [part.1]) part.2) c

def pendingEntries (p : Path) (parts : List (Nat × TrieLeaf)) (entries : OrdMap Nat Oid) :
    OrdMap Nat Oid :=
  parts.foldl (fun entries part => entries.set part.1 (pendingChildOid p part.1)) entries

theorem installPartitionedLeaves_spec (p suffixNibbles) (parts c entries) :
    Agree Eq (fun pages result => pages.map Prod.fst = parts.map Prod.fst ∧
        result = (installLeaves p pages c, pendingEntries p pages entries))
      (parts.mapM fun part => do
        let partLeaf ← TrieLeaf.new (shortenEntries env.geometry part.2 suffixNibbles)
        pure (part.1, partLeaf))
      (installPartitionedLeaves env p suffixNibbles parts c entries) := by
  induction parts generalizing c entries with
  | nil => exact ⟨rfl, rfl⟩
  | cons part rest ih =>
    obtain ⟨n, part⟩ := part
    rw [mapM_cons, installPartitionedLeaves, bind_assoc]
    refine Agree.self.bind fun page page' _ _ same => ?_
    obtain ⟨-, rfl⟩ := same
    rw [pure_bind, ← bind_pure (installPartitionedLeaves ..)]
    refine (ih _ _).bind fun pages result _ _ both => ⟨?_, ?_⟩
    · simp [both.1]
    · exact both.2

theorem installLeaves_spec (p) (parts c) (nodup : (parts.map Prod.fst).Nodup)
    (vacant : ∀ n ∈ parts.map Prod.fst, Vacant c (p ++ [n])) :
    (∀ part ∈ parts, Dirty env s (installLeaves p parts c) (.leaf part.2) (p ++ [part.1])) ∧
      (∀ q, (∀ n ∈ parts.map Prod.fst, ¬ p ++ [n] <+: q) → SameAt c (installLeaves p parts c) q) ∧
      (installLeaves p parts c).rootLoaded = c.rootLoaded ∧
      (installLeaves p parts c).initialRootOid = c.initialRootOid := by
  induction parts generalizing c with
  | nil => exact ⟨by simp, fun q _ => .refl, rfl, rfl⟩
  | cons part rest ih =>
    rw [map_cons, nodup_cons] at nodup
    have free := vacant part.1 (by simp)
    obtain ⟨dirty, frame⟩ := markLeafDirty_spec (s := s) part.2
      (free _ prefix_rfl).branch (free _ prefix_rfl).dirtyBranch fun n => free.child n
    have apart : ∀ n ∈ rest.map Prod.fst, n ≠ part.1 := fun n mem same => nodup.1 (same ▸ mem)
    obtain ⟨leaves, beside, rootLoaded, rootOid⟩ := ih (c.markLeafDirty (p ++ [part.1]) part.2) nodup.2
      fun n mem => (vacant n (mem_cons_of_mem _ mem)).congr fun q below =>
        frame.sibling (apart n mem) below
    refine ⟨?_, ?_, rootLoaded, rootOid⟩
    · intro later mem
      rcases mem_cons.mp mem with rfl | mem
      · refine dirty.congr fun q below => beside q fun n mem deeper => ?_
        exact apart n mem (child_eq_of_below deeper below)
      · exact leaves later mem
    · intro q away
      exact (frame.outside q (away part.1 (by simp))).trans
        (beside q (forall_mem_cons.mp away).2)

theorem pendingEntries_entries (p) (nodup : (parts.map Prod.fst).Nodup) :
    (pendingEntries p parts .empty).entries = parts.map fun part => (part.1, pendingChildOid p part.1) := by
  have appended := OrdMap.entries_foldl_set (fun part : Nat × TrieLeaf =>
    (part.1, pendingChildOid p part.1)) .empty nodup (by simp)
  simpa [pendingEntries, OrdMap.empty] using appended

theorem Shown.leafPlace (shown : Shown env s c (.leaf page) p o) :
    c.workingBranches.get p = none ∧ c.dirtyBranches.get p = none ∧ ∀ n, Vacant c (p ++ [n]) := by
  rcases shown with dirty | ⟨-, -, untouched | ⟨held, -, vacant⟩⟩
  · exact ⟨dirty.1.branch, dirty.1.dirtyBranch, dirty.2⟩
  · have here := (untouched p prefix_rfl).1
    exact ⟨here.branch, here.dirtyBranch, fun n => untouched.child.vacant⟩
  · exact ⟨held.branch, held.dirtyBranch, vacant⟩

theorem clearLeafAt_vacant (shown : Shown env s c (.leaf page) p o) :
    Vacant (c.clearLeafAt p) p ∧ ∀ q, q ≠ p → SameAt c (c.clearLeafAt p) q := by
  have other : ∀ q, q ≠ p → SameAt c (c.clearLeafAt p) q := fun q apart =>
    ⟨by simp [clearLeafAt, Ne.symm apart], rfl, by simp [clearLeafAt, Ne.symm apart], rfl, rfl⟩
  obtain ⟨noBranch, noDirty, vacant⟩ := shown.leafPlace
  refine ⟨fun q below => ?_, other⟩
  rcases eq_or_below_child below with rfl | ⟨n, deeper⟩
  · exact ⟨by simp [clearLeafAt], noDirty, by simp [clearLeafAt], noBranch⟩
  · exact (other q (ne_of_below_child deeper)).noPage (vacant n q deeper)

def partChildren (parts : List (Nat × TrieLeaf)) (n : Nat) : Trie :=
  match assocGet parts n with
  | none => .absent
  | some page => .leaf page

theorem installBranch_spec (dirty : Dirty env s c (.leaf page) p)
    (nodup : (parts.map Prod.fst).Nodup) (bounded : ∀ part ∈ parts, part.1 < env.geometry.fanout) :
    ∃ branch, TrieBranch.new env.geometry (pendingEntries p parts .empty) = .ok branch ∧
      branch.children.keys = parts.map Prod.fst ∧
      (∀ n ∈ parts.map Prod.fst, branch.get n = some (pendingChildOid p n)) ∧
      DirtyBranch ((installLeaves p parts (c.clearLeafAt p)).markBranchDirty p branch) p branch ∧
      Slots env s ((installLeaves p parts (c.clearLeafAt p)).markBranchDirty p branch) branch
        (partChildren parts) p ∧
      Frame c ((installLeaves p parts (c.clearLeafAt p)).markBranchDirty p branch) p := by
  -- clearing a dirty leaf, installing its parts and a branch over them
  obtain ⟨vacant, cleared⟩ := clearLeafAt_vacant (o := []) (Or.inl dirty)
  obtain ⟨leaves, beside, rootLoaded, rootOid⟩ := installLeaves_spec (s := s) p parts
    (c.clearLeafAt p) nodup fun n _ => vacant.child n
  have entries := pendingEntries_entries p nodup
  have valid : ∀ child ∈ (pendingEntries p parts .empty).entries,
      child.1 < env.geometry.fanout ∧ child.2 ≠ [] := by
    rw [entries]
    intro child mem
    obtain ⟨part, there, rfl⟩ := mem_map.mp mem
    exact ⟨bounded part there, pendingChildOid_ne_nil⟩
  have away : ∀ n ∈ parts.map Prod.fst, ¬ p ++ [n] <+: p := fun n _ => not_child_prefix_self
  have here := (beside p away).noPage (vacant p prefix_rfl)
  have get : ∀ n o, (⟨_, valid⟩ : TrieBranch env.geometry).get n = some o ↔
      n ∈ parts.map Prod.fst ∧ o = pendingChildOid p n := by
    intro n o
    rw [TrieBranch.get, ← OrdMap.mem_entries_iff]
    simp only [entries, mem_map, Prod.mk.injEq]
    constructor
    · rintro ⟨part, there, rfl, rfl⟩
      exact ⟨⟨part, there, rfl⟩, rfl⟩
    · rintro ⟨⟨part, there, rfl⟩, rfl⟩
      exact ⟨part, there, rfl, rfl⟩
  have other := sameAt_markBranchDirty (installLeaves p parts (c.clearLeafAt p)) p
  refine ⟨⟨_, valid⟩, TrieBranch.new_of_valid valid, ?_, ?_, ?_, fun n => ?_, ?_⟩
  · simp [OrdMap.keys, entries]
  · exact fun n mem => (get n _).mpr ⟨mem, rfl⟩
  · exact ⟨by simp [markBranchDirty], by simp [markBranchDirty], here.leaf, here.dirtyLeaf⟩
  · have below := fun q (below : p ++ [n] <+: q) =>
      other q ⟨_, valid⟩ (ne_of_below_child below)
    cases found : assocGet parts n with
    | none =>
      have unused := (assocGet_eq_none_iff parts n).mp found
      have free : (⟨_, valid⟩ : TrieBranch env.geometry).get n = none := by
        refine Option.eq_none_iff_forall_ne_some.mpr fun o taken => ?_
        exact unused ((get n o).mp taken).1
      simp only [free, partChildren, found]
      refine ⟨trivial, (vacant.child n).congr fun q deeper => (beside q ?_).trans (below q deeper)⟩
      intro m mem inner
      exact unused (child_eq_of_below inner deeper ▸ mem)
    | some part =>
      have mem := (assocGet_eq_some_iff parts nodup n part).mp found
      have taken := (get n _).mpr ⟨mem_map_of_mem mem, rfl⟩
      simp only [taken, partChildren, found]
      exact Or.inl ((leaves (n, part) mem).congr below)
  · refine ⟨fun q outside => ?_, rootLoaded, rootOid⟩
    have apart := ne_of_not_below outside
    exact (cleared q apart).trans ((beside q fun n _ inner => outside (prefix_of_child inner)).trans
      (other q _ apart))

variable (env s) in
/-- A split part of the way: the parts done so far have their final children. -/
structure Cascade (c c' : TrieCursor env.geometry) (p : Path) (branch : TrieBranch env.geometry)
    (parts done : List (Nat × TrieLeaf)) (children : Nat → Trie) : Prop where
  held : DirtyBranch c' p branch
  slots : Slots env s c' branch
    (fun n => if n ∈ done.map Prod.fst then children n else partChildren parts n) p
  rest : ∀ n, n ∉ done.map Prod.fst → children n = .absent
  frame : Frame c c' p

theorem Cascade.finish (cascade : Cascade env s c c' p branch parts parts children) :
    Dirty env s c' (.branch children) p := by
  have all : (fun n => if n ∈ parts.map Prod.fst then children n else partChildren parts n) =
      children := by
    funext n
    split
    · rfl
    next unused =>
      rw [cascade.rest n unused, partChildren, (assocGet_eq_none_iff parts n).mpr unused]
  exact ⟨branch, cascade.held, all ▸ cascade.slots⟩

/-- One more part of a split gets its final child. -/
theorem Cascade.step (cascade : Cascade env s c c' p branch parts done children)
    (taken : branch.get part.1 = some o) (frame : Frame c' c'' (p ++ [part.1]))
    (dirty : Dirty env s c'' u (p ++ [part.1])) :
    Cascade env s c c'' p branch parts (done ++ [part]) (Function.update children part.1 u) where
  held := frame.self.dirtyBranchPage cascade.held
  slots := by
    have replaced := cascade.slots.replace taken frame (Or.inl dirty)
    refine (congrArg (fun children => Slots env s c'' branch children p) ?_).mp replaced
    funext n
    by_cases same : n = part.1
    · simp [same]
    · simp only [Function.update_of_ne same, map_append, map_cons, map_nil,
        mem_append, mem_singleton, same, or_false]
  rest := by
    intro n unused
    simp only [map_append, map_cons, map_nil, mem_append, mem_singleton, not_or] at unused
    rw [Function.update_of_ne unused.2]
    exact cascade.rest n unused.1
  frame := cascade.frame.trans frame.parent

theorem splitLeaf_spec (remaining) (c) (parent n page) (above)
    (dirty : Dirty env s c (.leaf page) (parent ++ [n])) (held : DirtyBranch c parent above)
    (pending : above.get n = some (pendingChildOid parent n)) :
    Agree Eq (fun t c' => Dirty env s c' t (parent ++ [n]) ∧ Frame c c' (parent ++ [n]))
      (Trie.split env.geometry remaining page)
      (splitLeaf env remaining c parent (parent ++ [n]) n) := by
  induction remaining generalizing c parent n page above with
  | zero => exact ⟨dirty, .refl ..⟩
  | succ remaining ih =>
    simp only [Trie.split, splitLeaf, dirty.1.leafAt]
    refine (installPartitionedLeaves_spec ..).bind fun parts result _ _ both => ?_
    obtain ⟨keys, rfl⟩ := both
    have nodup : (parts.map Prod.fst).Nodup :=
      keys ▸ (partitionEntriesByNextNibble env.geometry page).nodup
    have bounded : ∀ part ∈ parts, part.1 < env.geometry.fanout := by
      intro part member
      have there : part.1 ∈ parts.map Prod.fst := mem_map_of_mem member
      rw [keys] at there
      obtain ⟨bucket, member, same⟩ := mem_map.mp there
      exact same ▸ partition_key_lt env.geometry member
    obtain ⟨branch, made, branchKeys, taken, top, slots, frame⟩ := installBranch_spec dirty nodup bounded
    have held' := frame.self.dirtyBranchPage held
    simp only [made, ok_bind, rebindParentBranch_again held' pending, branchKeys, foldlM_map]
    rw [← bind_pure (List.foldlM (m := Except Failure) _ (markBranchDirty ..) parts)]
    refine Agree.bind (R := fun children c' =>
        Cascade env s c c' (parent ++ [n]) branch parts parts children)
      (Agree.foldlM (R := fun done children c' =>
        Cascade env s c c' (parent ++ [n]) branch parts done children) parts ?_ ?_) ?_
    · intro done part rest children c' whole cascade
      have member : part ∈ parts := by simp [whole]
      have slot := cascade.slots.some (taken part.1 (mem_map_of_mem member))
      have fresh : part.1 ∉ done.map Prod.fst := by
        intro again
        rw [whole, map_append, nodup_append] at nodup
        exact nodup.2.2 part.1 again part.1 (by simp) rfl
      have found := (assocGet_eq_some_iff parts nodup part.1 part.2).mpr member
      simp only [fresh, if_false, partChildren, found] at slot
      have leaf := slot.dirty_of_pending
      simp only [leaf.1.leafAt]
      cases part.2.requiresSplit env.geometry with
      | false => exact cascade.step (taken part.1 (mem_map_of_mem member)) (.refl ..) leaf
      | true =>
        simp only [if_true]
        rw [← bind_pure (splitLeaf ..)]
        refine (ih c' (parent ++ [n]) part.1 part.2 branch leaf cascade.held
          (taken part.1 (mem_map_of_mem member))).bind fun u c'' _ _ both => ?_
        exact cascade.step (taken part.1 (mem_map_of_mem member)) both.2 both.1
    · exact ⟨top, by simpa using slots, fun _ _ => rfl, frame⟩
    · intro children c' _ _ cascade
      exact ⟨cascade.finish, cascade.frame⟩

/-! ### Inserting -/

variable (env s) in
/-- The outcome of a change to the child `n` of a branch at a path. -/
def ChildChanged (c : TrieCursor env.geometry) (children : Nat → Trie) (p : Path) (n : Nat) (u : Trie)
    (c' : TrieCursor env.geometry) : Prop :=
  Dirty env s c' (.branch (Function.update children n u)) p ∧ Frame c c' p

variable (ctx : InsertContext)

theorem insertFreshLeafChild_spec (depth) (place : Place env s c children p)
    (inside : n < env.geometry.fanout) (vacant : Vacant c (p ++ [n])) :
    Agree Eq (ChildChanged env s c children p n) (Trie.insert env.geometry ctx .absent depth)
      (c.insertFreshLeafChild env ctx p n depth) := by
  refine Agree.self.bind fun page page' _ _ same => ?_
  obtain ⟨-, rfl⟩ := same
  have free := vacant _ prefix_rfl
  obtain ⟨dirty, frame⟩ := markLeafDirty_spec (s := s) page free.branch free.dirtyBranch vacant.child
  obtain ⟨_, ok, rebound⟩ := rebindParentBranch_spec place inside frame dirty
  rw [ok]
  exact ⟨rebound.dirty, rebound.frame⟩

theorem insertIntoLeafAtPath_spec (place : Place env s c children p)
    (inside : n < env.geometry.fanout) (shown : Shown env s c (.leaf page) (p ++ [n]) o)
    (there : c.leafAt (p ++ [n]) = some page) :
    Agree Eq (ChildChanged env s c children p n) (Trie.insert env.geometry ctx (.leaf page) depth)
      (c.insertIntoLeafAtPath env ctx p n depth) := by
  simp only [Trie.insert, insertIntoLeafAtPath, requireLeafAt, there, ok_bind]
  refine Agree.self.bind fun next next' _ _ same => ?_
  obtain ⟨-, rfl⟩ := same
  obtain ⟨noBranch, noDirty, vacant⟩ := shown.leafPlace
  obtain ⟨dirty, frame⟩ := markLeafDirty_spec (s := s) next noBranch noDirty vacant
  obtain ⟨branch, ok, rebound⟩ := rebindParentBranch_spec place inside frame dirty
  rw [ok, ok_bind]
  cases next.requiresSplit env.geometry with
  | false => exact ⟨rebound.dirty, rebound.frame⟩
  | true =>
    have pending : branch.get n = some (pendingChildOid p n) := by simp [rebound.get]
    have leaf := rebound.slots.some pending
    rw [Function.update_self] at leaf
    simp only [if_true]
    refine (splitLeaf_spec _ _ p n next branch leaf.dirty_of_pending rebound.held pending).mono ?_
    rintro u c2 - - ⟨changed, frame'⟩
    have slots := rebound.slots.replace pending frame' (Or.inl changed)
    rw [Function.update_idem] at slots
    exact ⟨⟨branch, frame'.self.dirtyBranchPage rebound.held, slots⟩,
      rebound.frame.trans frame'.parent⟩

theorem insertBelowBranch_spec (remaining) (c children) (p depth)
    (levels : depth + remaining = env.geometry.maxDepth)
    (loaded : Loaded env s c (.branch children) p) :
    Agree Eq (fun t c' => Dirty env s c' t p ∧ Frame c c' p)
      (Trie.insert env.geometry ctx (.branch children) depth)
      (insertBelowBranch env s ctx remaining c p depth) := by
  induction remaining generalizing c children p depth with
  | zero =>
    obtain ⟨page, -, present, -⟩ := loaded.branch
    have bottom : env.geometry.maxDepth ≤ depth := by omega
    simp only [Trie.insert, insertBelowBranch, requireBranchAt, present, ok_bind]
    refine Agree.self.bind fun n n' found _ _ => ?_
    simp [RouteKey.nibbleAt, bottom] at found
  | succ remaining ih =>
    obtain ⟨page, noLeaf, present, slots⟩ := loaded.branch
    have inside : depth < env.geometry.maxDepth := by omega
    have place := loaded.place
    have bound := nibble_lt env.geometry ctx.route depth
    simp only [Trie.insert, insertBelowBranch, requireBranchAt, present, ok_bind,
      nibbleAt_ok _ _ _ inside]
    generalize ctx.route.nibble env.geometry depth = n at bound
    cases taken : page.get n with
    | none =>
      obtain ⟨empty, vacant⟩ := slots.none taken
      rw [empty, ← bind_pure (insertFreshLeafChild ..)]
      exact (insertFreshLeafChild_spec ctx _ place bound vacant).bind fun _ _ _ _ changed => changed
    | some child =>
      obtain ⟨c1, ok, childLoaded, keeps, -⟩ := ensureChildLoaded_spec (slots.some taken)
      have present' : c1.branchAt p = some page := keeps.frame.self.branchAt.trans present
      have noLeaf' : c1.leafAt p = none := keeps.frame.self.leafAt.trans noLeaf
      have place' : Place env s c1 children p :=
        Loaded.place ⟨noLeaf', page, present', slots.keeps taken keeps⟩
      have first := keeps.frame.parent
      have shown := keeps.shown (slots.some taken)
      simp only [ok, ok_bind]
      cases shape : children n with
      | absent => exact absurd shape shown.ne_absent
      | leaf page' =>
        rw [shape] at childLoaded shown
        simp only [Trie.kind]
        rw [← bind_pure (insertIntoLeafAtPath ..)]
        refine (insertIntoLeafAtPath_spec ctx place' bound shown childLoaded).bind ?_
        intro u c2 _ _ changed
        exact ⟨changed.1, first.trans changed.2⟩
      | branch below =>
        rw [shape] at childLoaded
        simp only [Trie.kind]
        refine (ih c1 below (p ++ [n]) (depth + 1) (by omega) childLoaded).bind ?_
        rintro u c2 - - ⟨dirty, frame⟩
        obtain ⟨_, ok', rebound⟩ := rebindParentBranch_spec place' bound frame dirty
        rw [ok']
        exact ⟨rebound.dirty, first.trans rebound.frame⟩

/-! ### The whole cursor -/

theorem Shows.ofDirty (rootLoaded : c.rootLoaded = true) (dirty : Dirty env s c t [])
    (root : ∀ page, t ≠ .leaf page) : Shows env s c t where
  unloaded := by
    intro unloaded
    rw [rootLoaded] at unloaded
    cases unloaded
  loaded := fun _ => Or.inl dirty
  root := root

theorem Shows.vacant (shows_ : Shows env s c .absent) (rootLoaded : c.rootLoaded = true) :
    Vacant c [] := by
  rcases shows_.loaded rootLoaded with dirty | rest
  · exact dirty.elim
  · cases oid : c.initialRootOid with
    | none =>
      simp only [oid] at rest
      exact rest.2
    | some o =>
      simp only [oid] at rest
      exact rest.1.elim

theorem insert_branch_of_inside (children) (depth) (inside : depth < g.maxDepth) :
    Trie.insert g ctx (.branch children) depth = (do
      let u ← Trie.insert g ctx (children (ctx.route.nibble g depth)) (depth + 1)
      pure (.branch (Function.update children (ctx.route.nibble g depth) u))) := by
  rw [Trie.insert, nibbleAt_ok _ _ _ inside, ok_bind]

theorem insert_branch (children) (depth t)
    (inserted : Trie.insert g ctx (.branch children) depth = .ok t) :
    ∃ n u, Trie.insert g ctx (children n) (depth + 1) = .ok u ∧ ctx.route.nibbleAt g depth = .ok n ∧
      t = .branch (Function.update children n u) := by
  simp only [Trie.insert, bind, Except.bind] at inserted
  split at inserted
  · cases inserted
  next n found =>
    split at inserted
    · cases inserted
    next u made =>
      cases inserted
      exact ⟨n, u, made, found, rfl⟩

theorem add_spec (shows_ : Shows env s c t) {element : JsString} (named : element ≠ []) :
    Agree Eq (fun t' c' => Shows env s c' t')
      (t.add env.geometry ⟨env.blake3 (textEncode element), element, dot.encode⟩)
      (c.add env s element dot) := by
  obtain ⟨c1, ok, shows1, loaded⟩ := loadRootIfNeeded_spec shows_
  simp only [TrieCursor.add, validateElement, named, if_false, RouteKey.fromElement, ok, ok_bind]
  have finish : ∀ children (c' : TrieCursor env.geometry),
      Dirty env s c' (.branch children) [] ∧ Frame c1 c' [] → Shows env s c' (.branch children) :=
    fun children c' changed => .ofDirty (changed.2.rootLoaded.trans loaded) changed.1 (by simp)
  rcases shows1.hasRoot loaded with ⟨rfl, noRoot⟩ | ⟨children, rfl, root, top⟩
  · have vacant := shows1.vacant loaded
    have inside := env.geometry.maxDepth_pos
    simp only [noRoot, Trie.add, nibbleAt_ok _ _ _ inside, ok_bind]
    rw [Trie.bare, insert_branch_of_inside _ _ _ _ inside]
    have both := insertFreshLeafChild_spec (s := s)
      ⟨env.blake3 (textEncode element), element, dot.encode⟩ 1 vacant.place
      (nibble_lt env.geometry (env.blake3 (textEncode element)) 0) (vacant.child _)
    rw [← bind_pure (insertFreshLeafChild ..)]
    exact both.bind fun u c' _ _ changed => finish _ c' changed
  · simp only [root, if_true, Trie.add]
    refine (insertBelowBranch_spec _ _ c1 children [] 0 (Nat.zero_add _) top).mono ?_
    intro t' c' inserted _ changed
    obtain ⟨n, u, -, -, rfl⟩ := insert_branch _ _ _ _ _ inserted
    exact finish _ c' changed

end GitWarp
