import GitWarp.Trie.Tree

/-!
# What a cursor shows

A subtree is *clean* when no page of it is dirty: then the store holds it under the
identifier in its parent. It is *dirty* when its top page is: then each child is dirty, or
clean under the identifier in the dirty branch. Both notions look only at pages at or
below the subtree's path.
-/
namespace GitWarp

open Js Lib List

variable {S : Type} {g : TrieGeometry}

/-! ### Paths -/

variable {p q : Path} {t : Trie} {o : Oid} {page : TrieBranch g} {c c' : TrieCursor g} {n : Nat}

theorem prefix_of_child (below : p ++ [n] <+: q) : p <+: q :=
  (prefix_append p [n]).trans below

theorem not_child_prefix_self : ¬ p ++ [n] <+: p := by
  intro below
  have size := below.length_le
  rw [length_append, length_singleton] at size
  omega

theorem child_eq_of_below (left : p ++ [n] <+: q) (right : p ++ [m] <+: q) : n = m := by
  obtain ⟨rest, rfl⟩ := left
  obtain ⟨rest', same⟩ := right
  simp only [append_assoc, append_cancel_left_eq, singleton_append, List.cons.injEq] at same
  exact same.1.symm

theorem eq_or_below_child (below : p <+: q) : q = p ∨ ∃ n, p ++ [n] <+: q := by
  obtain ⟨rest, rfl⟩ := below
  cases rest with
  | nil => exact Or.inl (by simp)
  | cons n rest => exact Or.inr ⟨n, rest, by simp⟩

/-! ### Pages -/

/-- The cursor has no page at the path. -/
structure NoPage (c : TrieCursor g) (q : Path) : Prop where
  dirtyLeaf : c.dirtyLeaves.get q = none
  dirtyBranch : c.dirtyBranches.get q = none
  leaf : c.workingLeaves.get q = none
  branch : c.workingBranches.get q = none

def Vacant (c : TrieCursor g) (p : Path) : Prop := ∀ q, p <+: q → NoPage c q

/-- Nothing at or below the path was ever loaded. -/
def Untouched (c : TrieCursor g) (p : Path) : Prop :=
  ∀ q, p <+: q → NoPage c q ∧ c.cleanChildren.get q = none

structure CleanLeaf (c : TrieCursor g) (p : Path) (page : TrieLeaf) : Prop where
  leaf : c.workingLeaves.get p = some page
  branch : c.workingBranches.get p = none
  dirtyLeaf : c.dirtyLeaves.get p = none
  dirtyBranch : c.dirtyBranches.get p = none

structure CleanBranch (c : TrieCursor g) (p : Path) (page : TrieBranch g) : Prop where
  branch : c.workingBranches.get p = some page
  leaf : c.workingLeaves.get p = none
  dirtyLeaf : c.dirtyLeaves.get p = none
  dirtyBranch : c.dirtyBranches.get p = none

structure DirtyLeaf (c : TrieCursor g) (p : Path) (page : TrieLeaf) : Prop where
  dirtyLeaf : c.dirtyLeaves.get p = some page
  leaf : c.workingLeaves.get p = some page
  branch : c.workingBranches.get p = none
  dirtyBranch : c.dirtyBranches.get p = none

structure DirtyBranch (c : TrieCursor g) (p : Path) (page : TrieBranch g) : Prop where
  dirtyBranch : c.dirtyBranches.get p = some page
  branch : c.workingBranches.get p = some page
  leaf : c.workingLeaves.get p = none
  dirtyLeaf : c.dirtyLeaves.get p = none

/-- The cursor has a page at the path. -/
def Present (c : TrieCursor g) (q : Path) : Prop :=
  (c.leafAt q).isSome = true ∨ (c.branchAt q).isSome = true

/-- The identifier that the flush would take for a clean page is the right one. -/
def CleanOid (c : TrieCursor g) (p : Path) (o : Oid) : Prop :=
  c.cleanChildren.get p = none ∨ c.cleanChildren.get p = some o

/-- Two cursors hold the same at a path. -/
structure SameAt (c c' : TrieCursor g) (q : Path) : Prop where
  dirtyLeaf : c.dirtyLeaves.get q = c'.dirtyLeaves.get q
  dirtyBranch : c.dirtyBranches.get q = c'.dirtyBranches.get q
  leaf : c.workingLeaves.get q = c'.workingLeaves.get q
  branch : c.workingBranches.get q = c'.workingBranches.get q
  cleanOid : c.cleanChildren.get q = c'.cleanChildren.get q

namespace SameAt

theorem refl : SameAt c c q := ⟨rfl, rfl, rfl, rfl, rfl⟩

theorem symm (same : SameAt c c' q) : SameAt c' c q :=
  ⟨same.dirtyLeaf.symm, same.dirtyBranch.symm, same.leaf.symm, same.branch.symm, same.cleanOid.symm⟩

theorem trans (first : SameAt c c' q) (second : SameAt c' c'' q) : SameAt c c'' q :=
  ⟨first.dirtyLeaf.trans second.dirtyLeaf, first.dirtyBranch.trans second.dirtyBranch,
    first.leaf.trans second.leaf, first.branch.trans second.branch,
    first.cleanOid.trans second.cleanOid⟩

section

variable (same : SameAt c c' q)
include same

theorem noPage (none_ : NoPage c q) : NoPage c' q :=
  ⟨same.dirtyLeaf ▸ none_.dirtyLeaf, same.dirtyBranch ▸ none_.dirtyBranch,
    same.leaf ▸ none_.leaf, same.branch ▸ none_.branch⟩

theorem cleanLeaf {page} (held : CleanLeaf c q page) : CleanLeaf c' q page :=
  ⟨same.leaf ▸ held.leaf, same.branch ▸ held.branch, same.dirtyLeaf ▸ held.dirtyLeaf,
    same.dirtyBranch ▸ held.dirtyBranch⟩

theorem cleanBranch (held : CleanBranch c q page) : CleanBranch c' q page :=
  ⟨same.branch ▸ held.branch, same.leaf ▸ held.leaf, same.dirtyLeaf ▸ held.dirtyLeaf,
    same.dirtyBranch ▸ held.dirtyBranch⟩

theorem dirtyLeafPage {page} (held : DirtyLeaf c q page) : DirtyLeaf c' q page :=
  ⟨same.dirtyLeaf ▸ held.dirtyLeaf, same.leaf ▸ held.leaf, same.branch ▸ held.branch,
    same.dirtyBranch ▸ held.dirtyBranch⟩

theorem dirtyBranchPage (held : DirtyBranch c q page) : DirtyBranch c' q page :=
  ⟨same.dirtyBranch ▸ held.dirtyBranch, same.branch ▸ held.branch, same.leaf ▸ held.leaf,
    same.dirtyLeaf ▸ held.dirtyLeaf⟩

end

end SameAt

theorem Vacant.congr (vacant : Vacant c p) (same : ∀ q, p <+: q → SameAt c c' q) : Vacant c' p :=
  fun q below => (same q below).noPage (vacant q below)

theorem Untouched.congr (untouched : Untouched c p) (same : ∀ q, p <+: q → SameAt c c' q) :
    Untouched c' p :=
  fun q below => ⟨(same q below).noPage (untouched q below).1,
    (same q below).cleanOid ▸ (untouched q below).2⟩

theorem Untouched.vacant (untouched : Untouched c p) : Vacant c p :=
  fun q below => (untouched q below).1

theorem Untouched.child (untouched : Untouched c p) : Untouched c (p ++ [n]) :=
  fun q below => untouched q (prefix_of_child below)

theorem Vacant.child (vacant : Vacant c p) (n) : Vacant c (p ++ [n]) :=
  fun q below => vacant q (prefix_of_child below)

/-! ### Stored trees -/

/-- An identifier that a branch may hold and that is no placeholder. -/
structure ValidOid (o : Oid) : Prop where
  nonempty : o ≠ []
  stored : isPendingOid o = false

variable (env : TrieEnv S) (s : S)

def ReadsLeaf (o : Oid) (page : TrieLeaf) : Prop :=
  ∀ path, env.tryReadLeaf s o path = .ok (some page)

structure ReadsBranch (o : Oid) (page : TrieBranch env.geometry) : Prop where
  notLeaf : ∀ path, env.tryReadLeaf s o path = .ok none
  branch : ∀ path, env.readBranchStrict s o path = .ok page

/-- The store holds the tree under the identifier. -/
def Stored : Trie → Oid → Prop
  | .absent, _ => False
  | .leaf page, o => ValidOid o ∧ ReadsLeaf env s o page
  | .branch children, o => ValidOid o ∧ ∃ page, ReadsBranch env s o page ∧
      ∀ n, match page.get n with
        | none => children n = .absent
        | some child => Stored (children n) child

/-! ### Shown trees -/

/-- No page at or below the path is dirty, and the store holds the tree. -/
def Clean (c : TrieCursor env.geometry) : Trie → Path → Oid → Prop
  | .absent, _, _ => False
  | .leaf page, p, o => ValidOid o ∧ ReadsLeaf env s o page ∧
      (Untouched c p ∨ CleanLeaf c p page ∧ CleanOid c p o ∧ ∀ n, Vacant c (p ++ [n]))
  | .branch children, p, o => ValidOid o ∧ ∃ page, ReadsBranch env s o page ∧
      (Untouched c p ∨ CleanBranch c p page ∧ CleanOid c p o) ∧
      ∀ n, match page.get n with
        | none => children n = .absent ∧ Vacant c (p ++ [n])
        | some child => Clean c (children n) (p ++ [n]) child

/-- The page at the path is dirty; the rest of the tree is dirty or clean below it. -/
def Dirty (c : TrieCursor env.geometry) : Trie → Path → Prop
  | .absent, _ => False
  | .leaf page, p => DirtyLeaf c p page ∧ ∀ n, Vacant c (p ++ [n])
  | .branch children, p => ∃ page, DirtyBranch c p page ∧
      ∀ n, match page.get n with
        | none => children n = .absent ∧ Vacant c (p ++ [n])
        | some child => Dirty c (children n) (p ++ [n]) ∨ Clean env s c (children n) (p ++ [n]) child

def Shown (c : TrieCursor env.geometry) (t : Trie) (p : Path) (o : Oid) : Prop :=
  Dirty env s c t p ∨ Clean env s c t p o

/-- The whole cursor shows the tree. The root is a branch, or there is none. -/
structure Shows (c : TrieCursor env.geometry) (t : Trie) : Prop where
  unloaded : c.rootLoaded = false → Untouched c [] ∧
    match c.initialRootOid with
    | none => t = .absent
    | some o => Stored env s t o
  loaded : c.rootLoaded = true → Dirty env s c t [] ∨
    match c.initialRootOid with
    | none => t = .absent ∧ Vacant c []
    | some o => Clean env s c t [] o ∧ Present c []
  root : ∀ page, t ≠ .leaf page

variable {env s}

variable {c c' : TrieCursor env.geometry}

theorem Clean.congr (clean : Clean env s c t p o) (same : ∀ q, p <+: q → SameAt c c' q) :
    Clean env s c' t p o := by
  induction t generalizing p o with
  | absent => exact clean
  | leaf page =>
    obtain ⟨valid, reads, untouched | ⟨held, cleanOid, vacant⟩⟩ := clean
    · exact ⟨valid, reads, Or.inl (untouched.congr same)⟩
    · have here := same p prefix_rfl
      exact ⟨valid, reads, Or.inr ⟨here.cleanLeaf held, by
        unfold CleanOid; rw [← here.cleanOid]; exact cleanOid,
        fun n => (vacant n).congr fun q below => same q (prefix_of_child below)⟩⟩
  | branch children ih =>
    obtain ⟨valid, page, reads, state, slots⟩ := clean
    have here := same p prefix_rfl
    refine ⟨valid, page, reads, ?_, fun n => ?_⟩
    · rcases state with untouched | ⟨held, cleanOid⟩
      · exact Or.inl (untouched.congr same)
      · exact Or.inr ⟨here.cleanBranch held, by
          unfold CleanOid; rw [← here.cleanOid]; exact cleanOid⟩
    · have slot := slots n
      split at slot
      · exact ⟨slot.1, slot.2.congr fun q below => same q (prefix_of_child below)⟩
      · exact ih n slot fun q below => same q (prefix_of_child below)

theorem Dirty.congr (dirty : Dirty env s c t p) (same : ∀ q, p <+: q → SameAt c c' q) :
    Dirty env s c' t p := by
  induction t generalizing p with
  | absent => exact dirty
  | leaf page =>
    exact ⟨(same p prefix_rfl).dirtyLeafPage dirty.1, fun n =>
      (dirty.2 n).congr fun q below => same q (prefix_of_child below)⟩
  | branch children ih =>
    obtain ⟨page, held, slots⟩ := dirty
    refine ⟨page, (same p prefix_rfl).dirtyBranchPage held, fun n => ?_⟩
    have slot := slots n
    split at slot
    · exact ⟨slot.1, slot.2.congr fun q below => same q (prefix_of_child below)⟩
    · exact slot.imp (fun dirty => ih n dirty fun q below => same q (prefix_of_child below))
        fun clean => clean.congr fun q below => same q (prefix_of_child below)

theorem Shown.congr (shown : Shown env s c t p o) (same : ∀ q, p <+: q → SameAt c c' q) :
    Shown env s c' t p o :=
  shown.imp (fun dirty => dirty.congr same) fun clean => clean.congr same

theorem Clean.stored (clean : Clean env s c t p o) : Stored env s t o := by
  induction t generalizing p o with
  | absent => exact clean
  | leaf page => exact ⟨clean.1, clean.2.1⟩
  | branch children ih =>
    obtain ⟨valid, page, reads, -, slots⟩ := clean
    refine ⟨valid, page, reads, fun n => ?_⟩
    have slot := slots n
    split at slot
    · exact slot.1
    · exact ih n slot

theorem Stored.clean (stored : Stored env s t o) (untouched : Untouched c p) :
    Clean env s c t p o := by
  induction t generalizing p o with
  | absent => exact stored
  | leaf page => exact ⟨stored.1, stored.2, Or.inl untouched⟩
  | branch children ih =>
    obtain ⟨valid, page, reads, slots⟩ := stored
    refine ⟨valid, page, reads, Or.inl untouched, fun n => ?_⟩
    have slot := slots n
    split at slot
    · exact ⟨slot, untouched.child.vacant⟩
    · exact ih n slot (untouched.child)

theorem Clean.validOid (clean : Clean env s c t p o) : ValidOid o := by
  cases t with
  | absent => exact clean.elim
  | leaf page | branch children => exact clean.1

theorem Clean.cleanOid (clean : Clean env s c t p o) : CleanOid c p o := by
  cases t with
  | absent => exact clean.elim
  | leaf page =>
    obtain ⟨-, -, untouched | ⟨-, cleanOid, -⟩⟩ := clean
    · exact Or.inl (untouched p prefix_rfl).2
    · exact cleanOid
  | branch children =>
    obtain ⟨-, page, -, untouched | ⟨-, cleanOid⟩, -⟩ := clean
    · exact Or.inl (untouched p prefix_rfl).2
    · exact cleanOid

theorem Clean.notDirty (clean : Clean env s c t p o) (below : p <+: q) :
    c.dirtyLeaves.get q = none ∧ c.dirtyBranches.get q = none := by
  induction t generalizing p o with
  | absent => exact clean.elim
  | leaf page =>
    obtain ⟨-, -, untouched | ⟨held, -, vacant⟩⟩ := clean
    · exact ⟨(untouched q below).1.dirtyLeaf, (untouched q below).1.dirtyBranch⟩
    · rcases eq_or_below_child below with rfl | ⟨n, deeper⟩
      · exact ⟨held.dirtyLeaf, held.dirtyBranch⟩
      · exact ⟨(vacant n q deeper).dirtyLeaf, (vacant n q deeper).dirtyBranch⟩
  | branch children ih =>
    obtain ⟨-, page, -, untouched | ⟨held, -⟩, slots⟩ := clean
    · exact ⟨(untouched q below).1.dirtyLeaf, (untouched q below).1.dirtyBranch⟩
    · rcases eq_or_below_child below with rfl | ⟨n, deeper⟩
      · exact ⟨held.dirtyLeaf, held.dirtyBranch⟩
      · have slot := slots n
        split at slot
        · exact ⟨(slot.2 q deeper).dirtyLeaf, (slot.2 q deeper).dirtyBranch⟩
        · exact ih n slot deeper

/-! ### The page at the top of a shown tree -/

theorem NoPage.leafAt {c : TrieCursor g} (page : NoPage c p) : c.leafAt p = none := by
  simp [TrieCursor.leafAt, page.dirtyLeaf, page.leaf]

theorem NoPage.branchAt {c : TrieCursor g} (page : NoPage c p) : c.branchAt p = none := by
  simp [TrieCursor.branchAt, page.dirtyBranch, page.branch]

theorem CleanLeaf.leafAt {c : TrieCursor g} {page} (held : CleanLeaf c p page) :
    c.leafAt p = some page := by
  simp [TrieCursor.leafAt, held.dirtyLeaf, held.leaf]

theorem DirtyLeaf.leafAt {c : TrieCursor g} {page} (held : DirtyLeaf c p page) :
    c.leafAt p = some page := by
  simp [TrieCursor.leafAt, held.dirtyLeaf]

theorem CleanBranch.branchAt {c} (held : CleanBranch c p page) :
    c.leafAt p = none ∧ c.branchAt p = some page := by
  simp [TrieCursor.leafAt, TrieCursor.branchAt, held.dirtyLeaf, held.leaf, held.dirtyBranch,
    held.branch]

theorem DirtyBranch.branchAt {c} (held : DirtyBranch c p page) :
    c.leafAt p = none ∧ c.branchAt p = some page := by
  simp [TrieCursor.leafAt, TrieCursor.branchAt, held.dirtyLeaf, held.leaf, held.dirtyBranch]

theorem SameAt.leafAt {c c' : TrieCursor g} (same : SameAt c c' q) : c'.leafAt q = c.leafAt q := by
  simp [TrieCursor.leafAt, same.dirtyLeaf, same.leaf]

theorem SameAt.branchAt {c c' : TrieCursor g} (same : SameAt c c' q) :
    c'.branchAt q = c.branchAt q := by
  simp [TrieCursor.branchAt, same.dirtyBranch, same.branch]

variable (env s)

/-- What the slots of a branch page show. -/
def Slots (c : TrieCursor env.geometry) (page : TrieBranch env.geometry) (children : Nat → Trie)
    (p : Path) : Prop :=
  ∀ n, match page.get n with
    | none => children n = .absent ∧ Vacant c (p ++ [n])
    | some child => Shown env s c (children n) (p ++ [n]) child

/-- The top page of the tree is loaded. -/
def Loaded (c : TrieCursor env.geometry) : Trie → Path → Prop
  | .absent, _ => False
  | .leaf page, p => c.leafAt p = some page
  | .branch children, p => c.leafAt p = none ∧ ∃ page, c.branchAt p = some page ∧
      Slots env s c page children p

variable {env s}

theorem Dirty.loaded (dirty : Dirty env s c t p) : Loaded env s c t p := by
  cases t with
  | absent => exact dirty
  | leaf page => exact dirty.1.leafAt
  | branch children =>
    obtain ⟨page, held, slots⟩ := dirty
    exact ⟨held.branchAt.1, page, held.branchAt.2, slots⟩

theorem Clean.loaded (clean : Clean env s c t p o) : Untouched c p ∨ Loaded env s c t p := by
  cases t with
  | absent => exact clean.elim
  | leaf page =>
    obtain ⟨-, -, untouched | ⟨held, -⟩⟩ := clean
    · exact Or.inl untouched
    · exact Or.inr held.leafAt
  | branch children =>
    obtain ⟨-, page, -, untouched | ⟨held, -⟩, slots⟩ := clean
    · exact Or.inl untouched
    · refine Or.inr ⟨held.branchAt.1, page, held.branchAt.2, fun n => ?_⟩
      have slot := slots n
      split at slot
      · exact slot
      · exact Or.inr slot

theorem Slots.none {page children} (slots : Slots env s c page children p)
    (free : page.get n = none) : children n = .absent ∧ Vacant c (p ++ [n]) := by
  simpa only [free] using slots n

theorem Slots.some {page children} (slots : Slots env s c page children p)
    (taken : page.get n = some o) : Shown env s c (children n) (p ++ [n]) o := by
  simpa only [taken] using slots n

theorem Shown.ne_absent (shown : Shown env s c t p o) : t ≠ .absent := by
  rintro rfl
  rcases shown with dirty | clean
  · exact dirty
  · exact clean

theorem Loaded.present (loaded : Loaded env s c t p) : Present c p := by
  cases t with
  | absent => exact loaded.elim
  | leaf page =>
    have there : c.leafAt p = some page := loaded
    exact Or.inl (by simp [there])
  | branch children =>
    obtain ⟨-, page, there, -⟩ := loaded
    exact Or.inr (by simp [there])

theorem Untouched.not_present {c : TrieCursor g} (untouched : Untouched c p) : ¬ Present c p := by
  have here := (untouched p prefix_rfl).1
  simp [Present, here.leafAt, here.branchAt]

theorem Clean.loaded_of_present (clean : Clean env s c t p o) (there : Present c p) :
    Loaded env s c t p :=
  clean.loaded.resolve_left fun untouched => untouched.not_present there

theorem Shown.loaded_of_present (shown : Shown env s c t p o) (there : Present c p) :
    Loaded env s c t p :=
  shown.elim Dirty.loaded fun clean => clean.loaded_of_present there

theorem SameAt.present {c c' : TrieCursor g} (same : SameAt c c' q) (there : Present c q) :
    Present c' q := by
  unfold Present
  rw [same.leafAt, same.branchAt]
  exact there

/-! ### Frames -/

/-- Nothing changed outside the subtree at the path. -/
structure Frame (c c' : TrieCursor g) (p : Path) : Prop where
  outside : ∀ q, ¬ p <+: q → SameAt c c' q
  rootLoaded : c'.rootLoaded = c.rootLoaded
  rootOid : c'.initialRootOid = c.initialRootOid

theorem Frame.refl (c : TrieCursor g) (p) : Frame c c p := ⟨fun q _ => .refl, rfl, rfl⟩

theorem Frame.trans {c c' c'' : TrieCursor g} (first : Frame c c' p) (second : Frame c' c'' p) :
    Frame c c'' p :=
  ⟨fun q away => (first.outside q away).trans (second.outside q away),
    second.rootLoaded.trans first.rootLoaded, second.rootOid.trans first.rootOid⟩

theorem Frame.parent {c c' : TrieCursor g} (frame : Frame c c' (p ++ [n])) : Frame c c' p :=
  ⟨fun q away => frame.outside q fun below => away (prefix_of_child below), frame.rootLoaded,
    frame.rootOid⟩

theorem Frame.sibling {c c' : TrieCursor g} (frame : Frame c c' (p ++ [n])) (apart : m ≠ n)
    (below : p ++ [m] <+: q) : SameAt c c' q :=
  frame.outside q fun deeper => apart (child_eq_of_below below deeper)

theorem Frame.self {c c' : TrieCursor g} (frame : Frame c c' (p ++ [n])) : SameAt c c' p :=
  frame.outside p (not_child_prefix_self)

/-- The subtree is shown as before, with the same pages dirty. -/
structure Keeps (env : TrieEnv S) (s : S) (c c' : TrieCursor env.geometry) (t : Trie) (p : Path)
    (o : Oid) : Prop where
  frame : Frame c c' p
  present : Present c p → Present c' p
  dirty : Dirty env s c t p → Dirty env s c' t p
  clean : Clean env s c t p o → Clean env s c' t p o

theorem Keeps.refl (c) (t p o) : Keeps env s c c t p o := ⟨.refl c p, id, id, id⟩

theorem Keeps.trans (first : Keeps env s c c' t p o) (second : Keeps env s c' c'' t p o) :
    Keeps env s c c'' t p o :=
  ⟨first.frame.trans second.frame, second.present ∘ first.present, second.dirty ∘ first.dirty,
    second.clean ∘ first.clean⟩

theorem Keeps.shown (keeps : Keeps env s c c' t p o) (shown : Shown env s c t p o) :
    Shown env s c' t p o :=
  shown.imp keeps.dirty keeps.clean

/-- Keeping a child keeps its loaded parent. -/
theorem Keeps.parent {c c' children p n o child page} (present : c.branchAt p = some page)
    (taken : page.get n = some child) (keeps : Keeps env s c c' (children n) (p ++ [n]) child) :
    Keeps env s c c' (.branch children) p o where
  frame := keeps.frame.parent
  present := keeps.frame.self.present
  dirty := by
    rintro ⟨page', held, slots⟩
    cases held.branchAt.2.symm.trans present
    refine ⟨page, keeps.frame.self.dirtyBranchPage held, fun m => ?_⟩
    have slot := slots m
    split at slot
    next free =>
      have apart : m ≠ n := by
        rintro rfl
        rw [taken] at free
        cases free
      exact ⟨slot.1, slot.2.congr fun q below => keeps.frame.sibling apart below⟩
    next other found =>
      by_cases same : m = n
      · subst same
        cases taken.symm.trans found
        exact keeps.shown slot
      · exact Shown.congr slot fun q below => keeps.frame.sibling same below
  clean := by
    rintro ⟨valid, page', reads, untouched | ⟨held, cleanOid⟩, slots⟩
    · rw [(untouched p prefix_rfl).1.branchAt] at present
      cases present
    cases held.branchAt.2.symm.trans present
    refine ⟨valid, page, reads, Or.inr ⟨keeps.frame.self.cleanBranch held, ?_⟩, fun m => ?_⟩
    · unfold CleanOid
      rw [← keeps.frame.self.cleanOid]
      exact cleanOid
    have slot := slots m
    split at slot
    next free =>
      have apart : m ≠ n := by
        rintro rfl
        rw [taken] at free
        cases free
      exact ⟨slot.1, slot.2.congr fun q below => keeps.frame.sibling apart below⟩
    next other found =>
      by_cases same : m = n
      · subst same
        cases taken.symm.trans found
        exact keeps.clean slot
      · exact slot.congr fun q below => keeps.frame.sibling same below

end GitWarp
