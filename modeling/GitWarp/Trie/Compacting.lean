import GitWarp.Trie.Removing

/-!
# Compaction

Compaction walks the loaded pages bottom up. Of each child it reports whether it is
gone, changed or as before; the branch above keeps the identifiers of the unchanged
ones. The walk takes the children in the order of the page, the tree in the order of
their nibbles, so where it fails the errors may differ.
-/
namespace GitWarp

open Js Lib TrieCursor List

variable {S : Type} {env : TrieEnv S} {s : S}

/-! ### Traversals -/

/-- The results for a list of nibbles. -/
def gather (f : Nat → Except Failure Trie) (nibbles : List Nat) (init : Nat → Trie) :
    Except Failure (Nat → Trie) :=
  nibbles.foldlM (fun children n => do
    let child ← f n
    pure (Function.update children n child)) init

theorem gather_ok_iff (init children) :
    gather f nibbles init = .ok children ↔
      (∀ n ∈ nibbles, f n = .ok (children n)) ∧ ∀ n, n ∉ nibbles → children n = init n := by
  induction nibbles generalizing init with
  | nil =>
    simp only [gather, foldlM_nil, pure, Except.pure, Except.ok.injEq]
    refine ⟨fun same => ⟨by simp, fun n _ => by rw [same]⟩, fun both => ?_⟩
    funext n
    exact (both.2 n (by simp)).symm
  | cons n rest ih =>
    have unfolded : gather f (n :: rest) init = (do
        let child ← f n
        gather f rest (Function.update init n child)) := by
      simp [gather, foldlM_cons]
    rw [unfolded]
    cases found : f n with
    | error e =>
      refine ⟨fun impossible => (nomatch impossible), fun both => ?_⟩
      rw [both.1 n mem_cons_self] at found
      cases found
    | ok child =>
      rw [ok_bind, ih]
      constructor
      · rintro ⟨later, rest'⟩
        have here : children n = child := by
          by_cases again : n ∈ rest
          · exact (Except.ok.inj (found.symm.trans (later n again))).symm
          · simpa using rest' n again
        refine ⟨fun m mem => ?_, fun m outside => ?_⟩
        · rcases mem_cons.mp mem with rfl | mem
          · rw [found, here]
          · exact later m mem
        · rw [mem_cons, not_or] at outside
          rw [rest' m outside.2, Function.update_of_ne outside.1]
      · rintro ⟨all, rest'⟩
        have here : children n = child :=
          (Except.ok.inj (found.symm.trans (all n mem_cons_self))).symm
        refine ⟨(forall_mem_cons.mp all).2, fun m outside => ?_⟩
        by_cases same : m = n
        · simp [same, here]
        · rw [Function.update_of_ne same]
          exact rest' m (by simp [same, outside])

theorem gather_agree (f) (all some_) (inside : ∀ n ∈ some_, n ∈ all)
    (rest : ∀ n, n ∉ some_ → f n = .ok .absent) :
    Agree (fun _ _ => True) Eq (gather f all fun _ => .absent) (gather f some_ fun _ => .absent) := by
  -- nibbles without a child may be left out
  have same : ∀ children, gather f all (fun _ => .absent) = .ok children ↔
      gather f some_ (fun _ => .absent) = .ok children := by
    intro children
    rw [gather_ok_iff, gather_ok_iff]
    refine ⟨fun both => ⟨fun n mem => both.1 n (inside n mem), fun n outside => ?_⟩,
      fun both => ⟨fun n _ => ?_, fun n outside => both.2 n fun mem => outside (inside n mem)⟩⟩
    · by_cases mem : n ∈ all
      · exact (Except.ok.inj ((rest n outside).symm.trans (both.1 n mem))).symm
      · exact both.2 n mem
    · by_cases mem : n ∈ some_
      · exact both.1 n mem
      · rw [rest n mem, both.2 n mem]
  cases left : gather f all fun _ => .absent with
  | ok children => simp [(same children).mp left, Agree]
  | error e =>
    cases right : gather f some_ fun _ => .absent with
    | ok children =>
      rw [(same children).mpr right] at left
      cases left
    | error e' => trivial

/-! ### Merge pairs -/

theorem mergeable_of_none (none_ : leafOf n = none ∨ leafOf m = none) :
    mergeable g leafOf n m = false := by
  unfold mergeable
  split
  next leaf other left right => rcases none_ with none_ | none_ <;> simp_all
  · rfl

theorem findSome_filter_of_none {A B : Type} (f : A → Option B) {keep}
    (rest : ∀ x, keep x = false → f x = none) {items : List A} :
    (items.filter keep).findSome? f = items.findSome? f := by
  induction items with
  | nil => rfl
  | cons x items ih =>
    cases kept : keep x with
    | true => rw [filter_cons_of_pos kept, List.findSome?_cons, List.findSome?_cons, ih]
    | false => rw [filter_cons_of_neg (by simp [kept]), List.findSome?_cons, rest x kept, ih]

theorem findMergePair_filter (rest : ∀ n, keep n = false → leafOf n = none) :
    findMergePair g leafOf (nibbles.filter keep) = findMergePair g leafOf nibbles := by
  have inner : ∀ n, (nibbles.filter keep).find? (mergeable g leafOf n) =
      nibbles.find? (mergeable g leafOf n) := by
    intro n
    rw [List.find?_filter]
    congr 1
    funext m
    cases kept : keep m with
    | true => simp
    | false => simp [mergeable_of_none (Or.inr (rest m kept))]
  simp only [findMergePair, inner]
  refine findSome_filter_of_none _ (fun n kept => ?_)
  have never : nibbles.find? (mergeable g leafOf n) = none :=
    List.find?_eq_none.mpr fun m _ => by simp [mergeable_of_none (Or.inl (rest n kept))]
  rw [never]
  rfl

/-! ### What the walk reports -/

variable (env s) in
/-- The report on a subtree `t` after the walk, which is `u` in the compacted tree. -/
structure Reported (c c' : TrieCursor env.geometry) (t : Trie) (p : Path) (o : Oid) (u : Trie)
    (state : NodeState env.geometry) : Prop where
  absent : state.isAbsent = u.isAbsent
  leaf : state.leaf? = u.leaf?
  vacant : u = .absent → Vacant c' p
  changed : u ≠ .absent → state.changed = true → Dirty env s c' u p
  unchanged : u ≠ .absent → state.changed = false → u = t
  dirty : u ≠ .absent → state.changed = false → Dirty env s c t p → Dirty env s c' t p
  clean : u ≠ .absent → state.changed = false → Clean env s c t p o → Clean env s c' t p o
  present : u ≠ .absent → state.changed = false → Present c p → Present c' p

theorem Reported.congr (reported : Reported env s c c' t p o u state)
    (same : ∀ q, p <+: q → SameAt c' c'' q) : Reported env s c c'' t p o u state where
  absent := reported.absent
  leaf := reported.leaf
  vacant := fun gone => (reported.vacant gone).congr same
  changed := fun there changed => (reported.changed there changed).congr same
  unchanged := reported.unchanged
  dirty := fun there unchanged dirty => (reported.dirty there unchanged dirty).congr same
  clean := fun there unchanged clean => (reported.clean there unchanged clean).congr same
  present := fun there unchanged present =>
    (same p prefix_rfl).present (reported.present there unchanged present)

theorem Reported.shown (reported : Reported env s c c' t p o u state) (shown : Shown env s c t p o)
    (there : u ≠ .absent) :
    Shown env s c' u p (if state.changed then pendingChildOid q n else o) := by
  cases changed : state.changed with
  | true => exact Or.inl (reported.changed there changed)
  | false =>
    rw [reported.unchanged there changed]
    exact shown.imp (reported.dirty there changed) (reported.clean there changed)

variable (env s) in
/-- The pages of a branch while its children are compacted: the branch itself is as
before, and every state tells what is under its nibble. -/
structure Children (c c' : TrieCursor env.geometry) (p : Path) (page : TrieBranch env.geometry)
    (before after : Nat → Trie) (states : ChildStates env.geometry) : Prop where
  frame : Frame c c' p
  self : SameAt c c' p
  gone : ∀ n, states.get n = none → after n = .absent ∧ Vacant c' (p ++ [n])
  reported : ∀ n state, states.get n = some state → ∃ child, page.get n = some child ∧
    Reported env s c c' (before n) (p ++ [n]) child (after n) state

theorem Children.leafOf {after} (kids : Children env s c c' p page before after states) (n) :
    ChildStates.leafOf states n = (after n).leaf? := by
  unfold ChildStates.leafOf
  cases found : states.get n with
  | none => rw [(kids.gone n found).1]; rfl
  | some state =>
    obtain ⟨child, -, reported⟩ := kids.reported n state found
    exact reported.leaf

theorem Children.pairs {after} (kids : Children env s c c' p page before after states) :
    findMergePair env.geometry (ChildStates.leafOf states) (sortNibbles states.keys) =
      findMergePair env.geometry (fun n => (after n).leaf?) (List.range env.geometry.fanout) := by
  have inside : ∀ n state, states.get n = some state → n < env.geometry.fanout := by
    intro n state found
    obtain ⟨child, taken, -⟩ := kids.reported n state found
    exact (page.get_valid taken).1
  rw [sortNibbles_keys inside, funext kids.leafOf]
  refine findMergePair_filter (fun n free => ?_)
  rw [(kids.gone n (by simpa using free)).1]
  rfl

/-! ### Merging siblings -/

theorem findMergePair_ne (found : findMergePair g leafOf nibbles = some (keep, drop_)) :
    keep ≠ drop_ := by
  obtain ⟨n, -, inner⟩ := List.exists_of_findSome?_eq_some found
  obtain ⟨m, first, pair⟩ := Option.map_eq_some_iff.mp inner
  have both := List.find?_some first
  have apart : m ≠ n := by
    unfold mergeable at both
    split at both
    · simp only [Bool.and_eq_true, decide_eq_true_eq] at both
      exact both.1.2
    · cases both
  cases pair
  omega

theorem Children.shown {after} (kids : Children env s c c' p page before after states)
    (slots : Slots env s c page before p) (there : after n ≠ .absent) :
    ∃ state child, states.get n = some state ∧ page.get n = some child ∧
      Shown env s c' (after n) (p ++ [n])
        (if state.changed then pendingChildOid p n else child) := by
  cases found : states.get n with
  | none => exact absurd (kids.gone n found).1 there
  | some state =>
    obtain ⟨child, taken, reported⟩ := kids.reported n state found
    exact ⟨state, child, rfl, taken, reported.shown (slots.some taken) there⟩

theorem Children.merge {after} (kids : Children env s c c' p page before after states)
    (slots : Slots env s c page before p) (apart : keep ≠ drop_) (first : after keep = .leaf left)
    (second : after drop_ = .leaf right) :
    Children env s c
      ((c'.markLeafDirty (p ++ [keep]) merged).clearLeafAt (p ++ [drop_])) p page before
      (Function.update (Function.update after keep (.leaf merged)) drop_ .absent)
      ((states.set keep (.leaf true merged)).delete drop_) := by
  obtain ⟨_, keepOid, -, keepTaken, shownKeep⟩ := kids.shown slots (n := keep) (by simp [first])
  obtain ⟨_, dropOid, -, dropTaken, shownDrop⟩ := kids.shown slots (n := drop_) (by simp [second])
  rw [first] at shownKeep
  rw [second] at shownDrop
  obtain ⟨noBranch, noDirty, vacant⟩ := shownKeep.leafPlace
  obtain ⟨dirty, frame⟩ := markLeafDirty_spec (s := s) merged noBranch noDirty vacant
  obtain ⟨cleared, other⟩ := clearLeafAt_vacant (shownDrop.congr fun q below =>
    frame.sibling (Ne.symm apart) below)
  have clearing : Frame (c'.markLeafDirty (p ++ [keep]) merged)
      ((c'.markLeafDirty (p ++ [keep]) merged).clearLeafAt (p ++ [drop_])) (p ++ [drop_]) :=
    ⟨fun q away => other q (ne_of_not_below away), rfl, rfl⟩
  have beside : ∀ n, n ≠ keep → n ≠ drop_ → ∀ q, p ++ [n] <+: q → SameAt c'
      ((c'.markLeafDirty (p ++ [keep]) merged).clearLeafAt (p ++ [drop_])) q :=
    fun n notKeep notDrop q below =>
      (frame.sibling notKeep below).trans (clearing.sibling notDrop below)
  refine ⟨kids.frame.trans (frame.parent.trans clearing.parent),
    kids.self.trans (frame.self.trans clearing.self), ?_, ?_⟩
  · intro n free
    by_cases isDrop : n = drop_
    · subst isDrop
      exact ⟨by simp, cleared⟩
    · have notKeep : n ≠ keep := by
        rintro rfl
        simp [Ne.symm isDrop] at free
      rw [OrdMap.get_delete, if_neg (Ne.symm isDrop), OrdMap.get_set, if_neg (Ne.symm notKeep)] at free
      rw [Function.update_of_ne isDrop, Function.update_of_ne notKeep]
      exact ⟨(kids.gone n free).1, (kids.gone n free).2.congr (beside n notKeep isDrop)⟩
  · intro n state found
    have notDrop : n ≠ drop_ := by
      rintro rfl
      simp at found
    rw [OrdMap.get_delete, if_neg (Ne.symm notDrop), OrdMap.get_set] at found
    rw [Function.update_of_ne notDrop]
    split at found
    next same =>
      subst same
      cases found
      rw [Function.update_self]
      refine ⟨keepOid, keepTaken, rfl, rfl, by simp, fun _ _ => ?_, ?_, ?_, ?_, ?_⟩
      · exact dirty.congr fun q below => clearing.sibling apart below
      all_goals simp [NodeState.changed]
    next notKeep =>
      rw [Function.update_of_ne (Ne.symm notKeep)]
      obtain ⟨child, taken, reported⟩ := kids.reported n state found
      exact ⟨child, taken, reported.congr (beside n (Ne.symm notKeep) notDrop)⟩

theorem Trie.eq_leaf_of_leaf? {t : Trie} (found : t.leaf? = some page) : t = .leaf page := by
  cases t with
  | absent | branch children => cases found
  | leaf page' =>
    cases found
    rfl

theorem mergeSiblingLeaves_spec {after} (rounds merged) (slots : Slots env s c page before p)
    (kids : Children env s c c' p page before after states) :
    Agree (fun _ _ => True)
      (fun after' result => Children env s c result.1 p page before after' result.2.1)
      (Trie.mergeSiblings env.geometry rounds after)
      (mergeSiblingLeaves p rounds c' states merged) := by
  induction rounds generalizing c' after states merged with
  | zero => exact kids
  | succ rounds ih =>
    simp only [Trie.mergeSiblings, mergeSiblingLeaves, findMergeCandidate, kids.pairs, kids.leafOf]
    cases found : findMergePair env.geometry (fun n => (after n).leaf?)
        (List.range env.geometry.fanout) with
    | none => exact kids
    | some pair =>
      obtain ⟨keep, drop_⟩ := pair
      cases first : (after keep).leaf? with
      | none =>
        simp only [first]
        exact kids
      | some left =>
        cases second : (after drop_).leaf? with
        | none =>
          simp only [first, second]
          exact kids
        | some right =>
          simp only [first, second, bind_assoc, pure_bind]
          refine (Agree.self.weaken fun _ _ _ => trivial).bind fun next next' _ _ same => ?_
          obtain ⟨-, rfl⟩ := same
          exact ih true (kids.merge slots (findMergePair_ne found)
            (Trie.eq_leaf_of_leaf? first) (Trie.eq_leaf_of_leaf? second))

/-! ### Rewriting a branch -/

/-- The identifier that a rewritten branch has for a child. -/
def nextChild {g : TrieGeometry} (p : Path) (states : ChildStates g) (n : Nat) (oid : Oid) : Option Oid :=
  match states.get n with
  | none => none
  | some state =>
    if state.isAbsent then none else some (if state.changed then pendingChildOid p n else oid)

theorem nextChildren_get {states : ChildStates g} (nodup : (entries.map Prod.fst).Nodup) (n) :
    (nextChildren p states entries).get n = (assocGet entries n).bind (nextChild p states n) := by
  suffices general : ∀ next : OrdMap Nat Oid,
      (entries.foldl (fun next child =>
        match states.get child.1 with
        | none => next
        | some state =>
          if state.isAbsent then next
          else next.set child.1 (if state.changed then pendingChildOid p child.1 else child.2))
        next).get n = ((assocGet entries n).bind (nextChild p states n)).or (next.get n) from
    (general .empty).trans (by simp)
  induction entries with
  | nil => simp [assocGet]
  | cons child rest ih =>
    intro next
    rw [map_cons, nodup_cons] at nodup
    rw [foldl_cons, ih nodup.2]
    by_cases same : child.1 = n
    · subst same
      have fresh : assocGet rest child.1 = none := (assocGet_eq_none_iff rest child.1).mpr nodup.1
      simp only [fresh, Option.bind_none, Option.none_or, assocGet, if_true, Option.bind_some, nextChild]
      cases states.get child.1 with
      | none => rfl
      | some state =>
        dsimp only
        split <;> simp
    · simp only [assocGet, same, if_false]
      congr 1
      cases states.get child.1 with
      | none => rfl
      | some state =>
        dsimp only
        split <;> simp [same]

section Rewriting

variable {c c' : TrieCursor env.geometry} {p : Path} {page : TrieBranch env.geometry}
  {before after : Nat → Trie} {states : ChildStates env.geometry}

theorem Children.next_absent {after} (kids : Children env s c c' p page before after states)
    (gone : after n = .absent) : (nextChildren p states page.children.entries).get n = none := by
  rw [nextChildren_get page.children.nodup]
  cases taken : assocGet page.children.entries n with
  | none => rfl
  | some oid =>
    simp only [Option.bind_some, nextChild]
    cases found : states.get n with
    | none => rfl
    | some state =>
      obtain ⟨child, -, reported⟩ := kids.reported n state found
      simp [reported.absent, gone, Trie.isAbsent]

theorem Children.next_there {after} (kids : Children env s c c' p page before after states)
    (slots : Slots env s c page before p) (there : after n ≠ .absent) :
    ∃ oid, (nextChildren p states page.children.entries).get n = some oid ∧ oid ≠ [] ∧
      n < env.geometry.fanout ∧ Shown env s c' (after n) (p ++ [n]) oid := by
  obtain ⟨state, child, found, taken, shown⟩ := kids.shown slots there
  have present : state.isAbsent = false := by
    obtain ⟨_, -, reported⟩ := kids.reported n state found
    rw [reported.absent]
    cases shape : after n with
    | absent => exact absurd shape there
    | leaf page | branch children => rfl
  have slot : assocGet page.children.entries n = some child := taken
  refine ⟨_, ?_, ?_, (page.get_valid taken).1, shown⟩
  · rw [nextChildren_get page.children.nodup]
    simp [slot, nextChild, found, present]
  · split
    · exact pendingChildOid_ne_nil
    · exact (page.get_valid taken).2

theorem Children.vacant {after} (kids : Children env s c c' p page before after states)
    (gone : after n = .absent) : Vacant c' (p ++ [n]) := by
  cases found : states.get n with
  | none => exact (kids.gone n found).2
  | some state =>
    obtain ⟨child, -, reported⟩ := kids.reported n state found
    exact reported.vacant gone

theorem Children.newBranch {after} (kids : Children env s c c' p page before after states)
    (slots : Slots env s c page before p) :
    ∃ next : TrieBranch env.geometry,
      TrieBranch.new env.geometry (nextChildren p states page.children.entries) = .ok next ∧
      Slots env s c' next after p := by
  have valid : ∀ child ∈ (nextChildren p states page.children.entries).entries,
      child.1 < env.geometry.fanout ∧ child.2 ≠ [] := by
    rintro ⟨n, oid⟩ mem
    rw [OrdMap.mem_entries_iff] at mem
    have there : after n ≠ .absent := by
      intro gone
      rw [kids.next_absent gone] at mem
      cases mem
    obtain ⟨oid', found, nonempty, inside, -⟩ := kids.next_there slots there
    cases mem.symm.trans found
    exact ⟨inside, nonempty⟩
  refine ⟨⟨_, valid⟩, TrieBranch.new_of_valid valid, fun n => ?_⟩
  simp only [TrieBranch.get]
  by_cases gone : after n = .absent
  · simp only [kids.next_absent gone]
    exact ⟨gone, kids.vacant gone⟩
  · obtain ⟨oid, found, -, -, shown⟩ := kids.next_there slots gone
    simp only [found]
    exact shown

/-- Where no child is gone or changed, the branch is as before. -/
theorem Children.same {after} (kids : Children env s c c' p page before after states)
    (slots : Slots env s c page before p)
    (unchanged : someChildChanged states page.children.entries = false) :
    after = before ∧ ∀ n child, page.get n = some child →
      (Dirty env s c (before n) (p ++ [n]) → Dirty env s c' (before n) (p ++ [n])) ∧
      (Clean env s c (before n) (p ++ [n]) child → Clean env s c' (before n) (p ++ [n]) child) := by
  have each : ∀ n child, page.get n = some child → ∃ state, states.get n = some state ∧
      state.isAbsent = false ∧ state.changed = false := by
    intro n child taken
    have clear := any_eq_false.mp unchanged (n, child)
      ((OrdMap.mem_entries_iff _ _).mpr taken)
    cases found : states.get n with
    | none => simp [found] at clear
    | some state => exact ⟨state, rfl, by simpa [found] using clear⟩
  have both : ∀ n child, page.get n = some child → after n = before n ∧
      (Dirty env s c (before n) (p ++ [n]) → Dirty env s c' (before n) (p ++ [n])) ∧
      (Clean env s c (before n) (p ++ [n]) child → Clean env s c' (before n) (p ++ [n]) child) := by
    intro n child taken
    obtain ⟨state, found, present, same⟩ := each n child taken
    obtain ⟨child', taken', reported⟩ := kids.reported n state found
    cases taken.symm.trans taken'
    have there : after n ≠ .absent := by
      intro gone
      rw [reported.absent, gone] at present
      cases present
    exact ⟨reported.unchanged there same, reported.dirty there same, reported.clean there same⟩
  refine ⟨funext fun n => ?_, fun n child taken => (both n child taken).2⟩
  cases taken : page.get n with
  | none =>
    rw [(slots.none taken).1]
    refine (kids.gone n ?_).1
    cases found : states.get n with
    | none => rfl
    | some state =>
      obtain ⟨child, taken', -⟩ := kids.reported n state found
      rw [taken] at taken'
      cases taken'
  | some child => exact (both n child taken).1

variable (env s) in
/-- The outcome of a compaction: nothing outside changed, and the report is right. -/
def Compacted (c : TrieCursor env.geometry) (t : Trie) (p : Path) (o : Oid) (u : Trie)
    (result : NodeState env.geometry × TrieCursor env.geometry) : Prop :=
  Frame c result.2 p ∧ Reported env s c result.2 t p o u result.1

theorem rewriteBranch_branch {after} (o) (kids : Children env s c c' p page before after states)
    (noLeaf : c.leafAt p = none) (present : c.branchAt p = some page)
    (slots : Slots env s c page before p) (flag) :
    Agree (fun _ _ => True) (Compacted env s c (.branch before) p o) (.ok (.branch after))
      (if (flag || someChildChanged states page.children.entries) = true then do
        let nextBranch ← TrieBranch.new env.geometry (nextChildren p states page.children.entries)
        pure (.branch true nextBranch, c'.markBranchDirty p nextBranch)
      else .ok (.branch false page, c')) := by
  -- a branch that stays a branch
  simp only [leafAt, Option.or_eq_none_iff] at noLeaf
  split
  next =>
    obtain ⟨next, made, nextSlots⟩ := kids.newBranch slots
    rw [made, ok_bind]
    have other := fun q => sameAt_markBranchDirty c' p q next
    have held : DirtyBranch (c'.markBranchDirty p next) p next :=
      ⟨by simp [markBranchDirty], by simp [markBranchDirty], kids.self.leaf ▸ noLeaf.2,
        kids.self.dirtyLeaf ▸ noLeaf.1⟩
    have dirty : Dirty env s (c'.markBranchDirty p next) (.branch after) p := by
      refine ⟨next, held, fun n => ?_⟩
      have slot := nextSlots n
      split at slot
      · exact ⟨slot.1, slot.2.congr fun q below => other q (ne_of_below_child below)⟩
      · exact Shown.congr slot fun q below => other q (ne_of_below_child below)
    refine ⟨?_, rfl, rfl, by simp, fun _ _ => dirty, ?_, ?_, ?_, ?_⟩
    · exact kids.frame.trans ⟨fun q away => other q (ne_of_not_below away), rfl, rfl⟩
    all_goals simp [NodeState.changed]
  next unchanged =>
    rw [Bool.not_eq_true, Bool.or_eq_false_iff] at unchanged
    obtain ⟨rfl, keep⟩ := kids.same slots unchanged.2
    refine ⟨kids.frame, rfl, rfl, by simp, by simp [NodeState.changed], fun _ _ => rfl, ?_, ?_,
      fun _ _ => kids.self.present⟩
    · rintro - - ⟨page', held, slots'⟩
      cases held.branchAt.2.symm.trans present
      refine ⟨page, kids.self.dirtyBranchPage held, fun n => ?_⟩
      have slot := slots' n
      split at slot
      · exact ⟨slot.1, kids.vacant slot.1⟩
      next child taken => exact slot.imp (keep n child taken).1 (keep n child taken).2
    · rintro - - ⟨valid, page', reads, untouched | ⟨held, cleanOid⟩, slots'⟩
      · rw [(untouched p prefix_rfl).1.branchAt] at present
        cases present
      cases held.branchAt.2.symm.trans present
      refine ⟨valid, page, reads, Or.inr ⟨kids.self.cleanBranch held, ?_⟩, fun n => ?_⟩
      · unfold CleanOid
        rw [← kids.self.cleanOid]
        exact cleanOid
      have slot := slots' n
      split at slot
      · exact ⟨slot.1, kids.vacant slot.1⟩
      next child taken => exact (keep n child taken).2 slot

theorem Children.nibbles {after} (kids : Children env s c c' p page before after states)
    (slots : Slots env s c page before p) :
    (nextChildren p states page.children.entries).keys.Perm
      ((List.range env.geometry.fanout).filter fun n => !(after n).isAbsent) := by
  refine (perm_ext_iff_of_nodup (OrdMap.nodup _) (nodup_range.filter _)).mpr fun n => ?_
  have absentIff : (after n).isAbsent = true ↔ after n = .absent := by
    cases after n <;> simp [Trie.isAbsent]
  change n ∈ OrdMap.keys _ ↔ _
  rw [OrdMap.mem_keys_iff, mem_filter, mem_range]
  by_cases gone : after n = .absent
  · simp [kids.next_absent gone, absentIff.mpr gone]
  · obtain ⟨oid, found, -, inside, -⟩ := kids.next_there slots gone
    have present : (after n).isAbsent = false := by
      rw [← Bool.not_eq_true, absentIff]
      exact gone
    simp [found, inside, present]

theorem clearBranchAt_sameAt (c : TrieCursor g) (p q) (apart : q ≠ p) :
    SameAt c (c.clearBranchAt p) q :=
  ⟨rfl, by simp [clearBranchAt, Ne.symm apart], rfl, by simp [clearBranchAt, Ne.symm apart], rfl⟩

theorem rewriteBranch_gone {after} (o) (kids : Children env s c c' p page before after states)
    (noLeaf : c.leafAt p = none) (gone : ∀ n, after n = .absent) :
    Compacted env s c (.branch before) p o .absent (.absent true, c'.clearBranchAt p) := by
  simp only [leafAt, Option.or_eq_none_iff] at noLeaf
  have other := clearBranchAt_sameAt c' p
  refine ⟨kids.frame.trans ⟨fun q away => other q (ne_of_not_below away), rfl, rfl⟩, rfl, rfl,
    fun _ q below => ?_, ?_, ?_, ?_, ?_, ?_⟩
  · rcases eq_or_below_child below with rfl | ⟨n, deeper⟩
    · exact ⟨kids.self.dirtyLeaf ▸ noLeaf.1, by simp [clearBranchAt], kids.self.leaf ▸ noLeaf.2,
        by simp [clearBranchAt]⟩
    · exact (other q (ne_of_below_child deeper)).noPage (kids.vacant (gone n) q deeper)
  all_goals simp

theorem rewriteBranch_bare {after} (o) (kids : Children env s c c' p page before after states)
    (noLeaf : c.leafAt p = none) (gone : ∀ n, after n = .absent) :
    Compacted env s c (.branch before) p o .bare
      (.branch true .empty, c'.markBranchDirty p .empty) := by
  simp only [leafAt, Option.or_eq_none_iff] at noLeaf
  have other := fun q => sameAt_markBranchDirty c' p q .empty
  refine ⟨kids.frame.trans ⟨fun q away => other q (ne_of_not_below away), rfl, rfl⟩, rfl, rfl,
    by simp [Trie.bare], fun _ _ => ⟨.empty, ?_, fun n => ?_⟩, ?_, ?_, ?_, ?_⟩
  · exact ⟨by simp [markBranchDirty], by simp [markBranchDirty], kids.self.leaf ▸ noLeaf.2,
      kids.self.dirtyLeaf ▸ noLeaf.1⟩
  · simp only [show (TrieBranch.empty : TrieBranch env.geometry).get n = none from rfl]
    exact ⟨trivial, (kids.vacant (gone n)).congr fun q below => other q (ne_of_below_child below)⟩
  all_goals simp [NodeState.changed]

theorem rewriteBranch_collapse {after} (o) (kids : Children env s c c' p page before after states)
    (slots : Slots env s c page before p) (single : after only = .leaf leaf)
    (gone : ∀ n, n ≠ only → after n = .absent) :
    Compacted env s c (.branch before) p o (.leaf collapsed) (.leaf true collapsed,
      ((c'.clearLeafAt (p ++ [only])).clearBranchAt p).markLeafDirty p collapsed) := by
  -- the only leaf of a branch is pulled up
  obtain ⟨_, _, -, -, shown⟩ := kids.shown slots (n := only) (by simp [single])
  rw [single] at shown
  obtain ⟨cleared, other⟩ := clearLeafAt_vacant shown
  have upper := clearBranchAt_sameAt (c'.clearLeafAt (p ++ [only])) p
  have vacant : ∀ n, Vacant ((c'.clearLeafAt (p ++ [only])).clearBranchAt p) (p ++ [n]) := by
    intro n
    refine Vacant.congr ?_ fun q below => upper q (ne_of_below_child below)
    by_cases same : n = only
    · exact same ▸ cleared
    · refine (kids.vacant (gone n same)).congr fun q below => other q ?_
      rintro rfl
      exact same (child_eq_of_below below prefix_rfl)
  obtain ⟨dirty, frame⟩ := markLeafDirty_spec (s := s) collapsed
    (by simp [clearBranchAt] : ((c'.clearLeafAt (p ++ [only])).clearBranchAt p).workingBranches.get p = none)
    (by simp [clearBranchAt]) vacant
  have clearing : Frame c' ((c'.clearLeafAt (p ++ [only])).clearBranchAt p) p := by
    refine ⟨fun q away => (other q ?_).trans (upper q (ne_of_not_below away)), rfl, rfl⟩
    rintro rfl
    exact away (prefix_append p [only])
  refine ⟨kids.frame.trans (clearing.trans frame), rfl, rfl, by simp, fun _ _ => dirty, ?_, ?_, ?_,
    ?_⟩
  all_goals simp [NodeState.changed]

theorem rewriteBranch_spec {after} (o) (kids : Children env s c c' p page before after states)
    (noLeaf : c.leafAt p = none) (present : c.branchAt p = some page)
    (slots : Slots env s c page before p) (flag) :
    Agree (fun _ _ => True) (Compacted env s c (.branch before) p o)
      (Trie.rewrite env.geometry after p.length) (c'.rewriteBranch p page states flag) := by
  have nibbles := kids.nibbles slots
  have goneOf : ∀ n, n ∉ (nextChildren p states page.children.entries).keys → after n = .absent := by
    intro n unused
    by_contra there
    obtain ⟨oid, found, -⟩ := kids.next_there slots there
    exact unused ((OrdMap.mem_keys_iff _ n).mpr (by simp [found]))
  have stays := rewriteBranch_branch o kids noLeaf present slots flag
  simp only [Trie.rewrite, rewriteBranch]
  simp only [OrdMap.keys] at nibbles goneOf
  cases shape : (nextChildren p states page.children.entries).entries with
  | nil =>
    rw [shape, map_nil] at nibbles goneOf
    rw [nil_perm.mp nibbles]
    by_cases root : p = []
    · subst root
      exact rewriteBranch_bare o kids noLeaf fun n => goneOf n (by simp)
    · have below : p.length ≠ 0 := fun zero => root (length_eq_zero_iff.mp zero)
      simp only [root, below, if_false]
      exact rewriteBranch_gone o kids noLeaf fun n => goneOf n (by simp)
  | cons first rest =>
    rw [shape, map_cons] at nibbles
    cases rest with
    | nil =>
      rw [← singleton_perm.mp nibbles]
      by_cases root : p = []
      · subst root
        simp only [length_nil, if_true]
        cases (after first.1).leaf? <;> exact stays
      · have below : p.length ≠ 0 := fun zero => root (length_eq_zero_iff.mp zero)
        simp only [root, below, if_false, kids.leafOf]
        cases single : (after first.1).leaf? with
        | none => exact stays
        | some leaf =>
          refine (Agree.self.weaken fun _ _ _ => trivial).bind fun next next' _ _ same => ?_
          obtain ⟨-, rfl⟩ := same
          refine rewriteBranch_collapse o kids slots (Trie.eq_leaf_of_leaf? single) ?_
          exact fun n apart => goneOf n (by simp [shape, apart])
    | cons second rest =>
      obtain ⟨a, b, more, several⟩ : ∃ a b more, ((List.range env.geometry.fanout).filter fun n =>
          !(after n).isAbsent) = a :: b :: more := by
        have size := nibbles.length_eq
        cases list : (List.range env.geometry.fanout).filter fun n => !(after n).isAbsent with
        | nil => simp [list] at size
        | cons a others =>
          cases others with
          | nil => simp [list] at size
          | cons b more => exact ⟨a, b, more, rfl⟩
      rw [several]
      by_cases root : p = [] <;> simp only [root, if_true, if_false]
      · exact root ▸ stays
      · exact stays

end Rewriting

/-! ### The walk -/

theorem compactLeaf_spec (vv) (shown : Shown env s c (.leaf page) p o) :
    Agree (fun _ _ => True) (Compacted env s c (.leaf page) p o) (Trie.compactLeaf vv page)
      (c.compactLeaf p page vv) := by
  refine (Agree.self.weaken fun _ _ _ => trivial).bind fun result result' _ _ same => ?_
  obtain ⟨-, rfl⟩ := same
  obtain ⟨changed, entries⟩ := result
  cases changed with
  | false =>
    exact ⟨.refl .., rfl, rfl, by simp, by simp [NodeState.changed], fun _ _ => rfl,
      fun _ _ dirty => dirty, fun _ _ clean => clean, fun _ _ there => there⟩
  | true =>
    by_cases empty : entries = []
    · simp only [empty, if_true]
      obtain ⟨vacant, other⟩ := clearLeafAt_vacant shown
      exact ⟨⟨fun q away => other q (ne_of_not_below away), rfl, rfl⟩, rfl, rfl, fun _ => vacant,
        by simp, by simp, by simp, by simp, by simp⟩
    · simp only [empty, if_false]
      refine (Agree.self.weaken fun _ _ _ => trivial).bind fun next next' _ _ same => ?_
      obtain ⟨-, rfl⟩ := same
      obtain ⟨noBranch, noDirty, vacant⟩ := shown.leafPlace
      obtain ⟨dirty, frame⟩ := markLeafDirty_spec (s := s) next noBranch noDirty vacant
      refine ⟨frame, rfl, rfl, by simp, fun _ _ => dirty, ?_, ?_, ?_, ?_⟩
      all_goals simp [NodeState.changed]

theorem Reported.after (reported : Reported env s c1 c' t p o u state)
    (dirty : Dirty env s c t p → Dirty env s c1 t p)
    (clean : Clean env s c t p o → Clean env s c1 t p o) (present : Present c p → Present c1 p) :
    Reported env s c c' t p o u state where
  absent := reported.absent
  leaf := reported.leaf
  vacant := reported.vacant
  changed := reported.changed
  unchanged := reported.unchanged
  dirty := fun there unchanged held => reported.dirty there unchanged (dirty held)
  clean := fun there unchanged held => reported.clean there unchanged (clean held)
  present := fun there unchanged held => reported.present there unchanged (present held)

variable (env s) in
/-- The children of a branch part of the way: nothing happened to the ones not done. -/
structure Progress (c c' : TrieCursor env.geometry) (p : Path) (page : TrieBranch env.geometry)
    (before after : Nat → Trie) (states : ChildStates env.geometry) (done : List Nat) : Prop where
  frame : Frame c c' p
  self : SameAt c c' p
  todo : ∀ n, n ∉ done → states.get n = none ∧ after n = .absent ∧
    ∀ q, p ++ [n] <+: q → SameAt c c' q
  reported : ∀ n ∈ done, ∃ state child, states.get n = some state ∧ page.get n = some child ∧
    Reported env s c c' (before n) (p ++ [n]) child (after n) state

theorem Progress.finish {after}
    (progress : Progress env s c c' p page before after states (page.children.entries.map Prod.fst))
    (slots : Slots env s c page before p) : Children env s c c' p page before after states := by
  refine ⟨progress.frame, progress.self, fun n free => ?_, fun n state found => ?_⟩
  · by_cases mem : n ∈ page.children.entries.map Prod.fst
    · obtain ⟨state, _, found, -⟩ := progress.reported n mem
      rw [free] at found
      cases found
    · obtain ⟨-, gone, same⟩ := progress.todo n mem
      have unused : page.get n = none := (assocGet_eq_none_iff _ n).mpr mem
      exact ⟨gone, (slots.none unused).2.congr same⟩
  · by_cases mem : n ∈ page.children.entries.map Prod.fst
    · obtain ⟨state', child, found', taken, reported⟩ := progress.reported n mem
      cases found.symm.trans found'
      exact ⟨child, taken, reported⟩
    · rw [(progress.todo n mem).1] at found
      cases found

theorem Progress.step {after} (vv) (progress : Progress env s c c' p page before after states done)
    (fresh : n ∉ done) (taken : page.get n = some child)
    (slot : Shown env s c (before n) (p ++ [n]) child)
    (below : ∀ c, Shown env s c (before n) (p ++ [n]) child → Present c (p ++ [n]) →
      Agree (fun _ _ => True) (Compacted env s c (before n) (p ++ [n]) child)
        ((before n).compact env.geometry vv (p.length + 1))
        (compactBelow env s vv levels c (p ++ [n]))) :
    Agree (fun _ _ => True)
      (fun after' acc => Progress env s c acc.1 p page before after' acc.2 (done ++ [n]))
      (do
        let u ← (before n).compact env.geometry vv (p.length + 1)
        pure (Function.update after n u))
      (do
        let (_, loaded) ← c'.ensureChildLoaded env s p n child
        let (state, next) ← compactBelow env s vv levels loaded (p ++ [n])
        pure (next, states.set n state)) := by
  have same := (progress.todo n fresh).2.2
  obtain ⟨c1, ok, loaded, keeps, other⟩ := ensureChildLoaded_spec (slot.congr same)
  simp only [ok, ok_bind]
  refine (below c1 (keeps.shown (slot.congr same)) loaded.present).bind ?_
  rintro u ⟨state, c2⟩ - - ⟨frame, reported⟩
  have both := keeps.frame.trans frame
  refine ⟨progress.frame.trans both.parent, progress.self.trans both.self, fun m later => ?_,
    fun m mem => ?_⟩
  · rw [mem_append, mem_singleton, not_or] at later
    obtain ⟨free, gone, untouched⟩ := progress.todo m later.1
    refine ⟨?_, ?_, fun q inner => (untouched q inner).trans (both.sibling later.2 inner)⟩
    · rw [OrdMap.get_set, if_neg (Ne.symm later.2)]
      exact free
    · rw [Function.update_of_ne later.2]
      exact gone
  · by_cases here : m = n
    · subst here
      refine ⟨state, child, by simp, taken, ?_⟩
      rw [Function.update_self]
      exact reported.after (fun dirty => keeps.dirty (dirty.congr same))
        (fun clean => keeps.clean (clean.congr same))
        fun held => keeps.present ((same _ prefix_rfl).present held)
    · have earlier : m ∈ done := by simpa [here] using mem
      obtain ⟨state', child', found, taken', earlierReport⟩ := progress.reported m earlier
      refine ⟨state', child', ?_, taken', ?_⟩
      · rw [OrdMap.get_set, if_neg (Ne.symm here)]
        exact found
      · rw [Function.update_of_ne here]
        exact earlierReport.congr fun q inner => both.sibling here inner

theorem compactBelow_spec (vv) (levels) (c) (t p o) (shown : Shown env s c t p o)
    (there : Present c p) (fits : t.Fits levels) :
    Agree (fun _ _ => True) (Compacted env s c t p o) (t.compact env.geometry vv p.length)
      (compactBelow env s vv levels c p) := by
  induction levels generalizing c t p o with
  | zero =>
    cases t with
    | absent => exact absurd rfl shown.ne_absent
    | leaf page | branch children => simp [Trie.Fits] at fits
  | succ levels ih =>
    have loaded := shown.loaded_of_present there
    cases t with
    | absent => exact absurd rfl shown.ne_absent
    | leaf page =>
      have found : c.leafAt p = some page := loaded
      simp only [Trie.compact, compactBelow, found]
      exact compactLeaf_spec vv shown
    | branch before =>
      obtain ⟨page, noLeaf, present, slots⟩ := loaded.branch
      simp only [Trie.compact, compactBelow, noLeaf, present]
      have walk : Agree (fun _ _ => True)
          (fun after acc => Progress env s c acc.1 p page before after acc.2
            (page.children.entries.map Prod.fst))
          (Trie.traverse env.geometry fun n => (before n).compact env.geometry vv (p.length + 1))
          (page.children.entries.foldlM (fun acc child => do
            let (_, loaded) ← acc.1.ensureChildLoaded env s p child.1 child.2
            let (state, next) ← compactBelow env s vv levels loaded (p ++ [child.1])
            pure (next, acc.2.set child.1 state)) (c, (.empty : ChildStates env.geometry))) := by
        refine (gather_agree _ _ (page.children.entries.map Prod.fst) ?_ ?_).trans_eq ?_
        · intro n mem
          obtain ⟨child, inside, rfl⟩ := mem_map.mp mem
          exact mem_range.mpr (page.valid child inside).1
        · intro n free
          have unused : page.get n = none := (assocGet_eq_none_iff _ n).mpr free
          rw [(slots.none unused).1]
          rfl
        · rw [gather, foldlM_map]
          refine Agree.foldlM (R := fun done after
            (acc : TrieCursor env.geometry × ChildStates env.geometry) =>
            Progress env s c acc.1 p page before after acc.2 (done.map Prod.fst)) _ ?_ ?_
          · rintro done ⟨n, child⟩ rest after ⟨c', states⟩ whole progress
            obtain ⟨taken, fresh⟩ := Trie.fresh_of_entries whole
            have next := progress.step vv fresh taken (slots.some taken)
              fun c shown there => by
                simpa using ih c (before n) (p ++ [n]) child shown there (fits.2 n)
            simpa using next
          · exact ⟨.refl c p, .refl, fun n _ => ⟨rfl, rfl, fun q _ => .refl⟩, by simp⟩
      refine walk.bind fun after acc _ _ progress => ?_
      refine (mergeSiblingLeaves_spec _ _ slots (progress.finish slots)).bind ?_
      intro merged result _ _ kids
      exact rewriteBranch_spec o kids noLeaf present slots _

/-! ### The whole cursor -/

theorem compact_root (g vv children) (t)
    (compacted : Trie.compact g vv (.branch children) 0 = .ok t) :
    ∃ children', t = .branch children' := by
  simp only [Trie.compact, Trie.rewrite, bind, Except.bind] at compacted
  split at compacted
  · cases compacted
  split at compacted
  · cases compacted
  split at compacted
  · exact ⟨_, (Except.ok.inj compacted).symm⟩
  · split at compacted
    · exact ⟨_, (Except.ok.inj compacted).symm⟩
    · exact ⟨_, (Except.ok.inj compacted).symm⟩
  · exact ⟨_, (Except.ok.inj compacted).symm⟩

theorem compact_spec (shows_ : Shows env s c t) (fits : t.Fits (env.geometry.maxDepth + 1)) :
    Agree (fun _ _ => True) (fun t' c' => Shows env s c' t') (t.compact env.geometry vv 0)
      (c.compact env s vv) := by
  obtain ⟨c1, ok, shows1, loaded⟩ := loadRootIfNeeded_spec shows_
  simp only [TrieCursor.compact, ok, ok_bind]
  rcases shows1.hasRoot loaded with ⟨rfl, noRoot⟩ | ⟨children, rfl, root, -⟩
  · simp only [noRoot]
    exact shows1
  · obtain ⟨o, shown, there, finish⟩ := shows1.rootShown loaded (by simp)
    simp only [root, if_true]
    rw [← bind_pure (Trie.compact ..)]
    refine (compactBelow_spec vv _ c1 _ [] o shown there fits).bind ?_
    rintro t' ⟨state, c2⟩ made - ⟨frame, reported⟩
    obtain ⟨children', rfl⟩ := compact_root _ _ _ _ made
    cases changed : state.changed with
    | true =>
      exact .ofDirty (frame.rootLoaded.trans loaded) (reported.changed (by simp) changed) (by simp)
    | false =>
      have same := reported.unchanged (by simp) changed
      refine finish c2 _ ?_ (reported.present (by simp) changed there) frame.rootLoaded
        frame.rootOid (by simp)
      rw [same]
      exact shown.imp (reported.dirty (by simp) changed) (reported.clean (by simp) changed)


end GitWarp
