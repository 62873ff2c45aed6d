import GitWarp.Lib.Agree
import GitWarp.Trie.Paging

/-!
# Reads

Loading a page changes what the cursor holds and not what it shows. So every lookup
and every scan returns what the shown tree determines, and leaves a cursor that shows
the same tree.
-/
namespace GitWarp

open Js Lib TrieCursor List

variable {S : Type} {env : TrieEnv S} {s : S}

def Trie.kind : Trie → ChildKind
  | .leaf _ => .leaf
  | _ => .branch

/-! ### Loading a child -/

theorem sameAt_of_ne_leaf (c : TrieCursor env.geometry) (p q page o) (apart : q ≠ p) :
    SameAt c { c with
      workingLeaves := c.workingLeaves.set p page
      cleanChildren := c.cleanChildren.set p o } q :=
  ⟨rfl, rfl, by simp [Ne.symm apart], rfl, by simp [Ne.symm apart]⟩

theorem sameAt_of_ne_branch (c) (p q) (page : TrieBranch env.geometry) (o) (apart : q ≠ p) :
    SameAt c { c with
      workingBranches := c.workingBranches.set p page
      cleanChildren := c.cleanChildren.set p o } q :=
  ⟨rfl, rfl, rfl, by simp [Ne.symm apart], by simp [Ne.symm apart]⟩

variable {c : TrieCursor env.geometry} {t : Trie} {p : Path} {children : Nat → Trie}

theorem ne_of_not_below {q : Path} (away : ¬ p <+: q) : q ≠ p :=
  fun same => away (same ▸ prefix_rfl)

theorem ne_of_below_child {q : Path} (below : p ++ [n] <+: q) : q ≠ p := by
  rintro rfl
  exact not_child_prefix_self below

theorem loadChildFromStore_spec (clean : Clean env s c t p o) (untouched : Untouched c p) :
    ∃ c', c.loadChildFromStore env s p o = .ok (t.kind, c') ∧ Clean env s c' t p o ∧
      (∀ q, q ≠ p → SameAt c c' q) ∧ c'.rootLoaded = c.rootLoaded ∧
      c'.initialRootOid = c.initialRootOid ∧ Present c' p := by
  -- loading an untouched clean subtree's page
  have here := (untouched p prefix_rfl).1
  cases t with
  | absent => exact clean.elim
  | leaf page =>
    have same := fun q => sameAt_of_ne_leaf c p q page o
    refine ⟨_, by simp [loadChildFromStore, clean.2.1 p]; rfl, ?_, same, rfl, rfl, ?_⟩
    · exact ⟨clean.1, clean.2.1, Or.inr ⟨⟨by simp, here.branch, here.dirtyLeaf, here.dirtyBranch⟩,
        Or.inr (by simp), fun n => untouched.child.vacant.congr fun q below =>
          same q (ne_of_below_child below)⟩⟩
    · exact Or.inl (by simp [leafAt, here.dirtyLeaf])
  | branch children =>
    obtain ⟨valid, page, reads, -, slots⟩ := clean
    have same := fun q => sameAt_of_ne_branch c p q page o
    refine ⟨_, by simp [loadChildFromStore, reads.notLeaf p, reads.branch p]; rfl, ?_, same, rfl,
      rfl, ?_⟩
    · refine ⟨valid, page, reads, Or.inr ⟨⟨by simp, here.leaf, here.dirtyLeaf, here.dirtyBranch⟩,
        Or.inr (by simp)⟩, fun n => ?_⟩
      have slot := slots n
      split at slot
      · exact ⟨slot.1, slot.2.congr fun q below => same q (ne_of_below_child below)⟩
      · exact slot.congr fun q below => same q (ne_of_below_child below)
    · exact Or.inr (by simp [branchAt, here.dirtyBranch])

theorem ensureChildLoaded_of_loaded (o) (loaded : Loaded env s c t (p ++ [n])) :
    c.ensureChildLoaded env s p n o = .ok (t.kind, c) := by
  cases t with
  | absent => exact loaded.elim
  | leaf page =>
    have present : c.leafAt (p ++ [n]) = some page := loaded
    simp [ensureChildLoaded, present, Trie.kind]
  | branch children =>
    obtain ⟨noLeaf, page, present, -⟩ := loaded
    simp [ensureChildLoaded, noLeaf, present, Trie.kind]

theorem ensureChildLoaded_spec (shown : Shown env s c t (p ++ [n]) o) :
    ∃ c', c.ensureChildLoaded env s p n o = .ok (t.kind, c') ∧ Loaded env s c' t (p ++ [n]) ∧
      Keeps env s c c' t (p ++ [n]) o ∧ ∀ q, q ≠ p ++ [n] → SameAt c c' q := by
  by_cases loaded : Loaded env s c t (p ++ [n])
  · exact ⟨c, ensureChildLoaded_of_loaded o loaded, loaded, .refl c t _ o, fun q _ => .refl⟩
  · rcases shown with dirty | clean
    · exact absurd dirty.loaded loaded
    · have untouched := clean.loaded.resolve_right loaded
      have here := (untouched _ prefix_rfl).1
      obtain ⟨c', ok, clean', same, rootLoaded, rootOid, there⟩ :=
        loadChildFromStore_spec clean untouched
      refine ⟨c', ?_, clean'.loaded_of_present there, ?_, same⟩
      · simpa [ensureChildLoaded, here.leafAt, here.branchAt] using ok
      · exact ⟨⟨fun q away => same q (ne_of_not_below away), rootLoaded, rootOid⟩,
          fun _ => there, fun dirty => absurd dirty.loaded loaded, fun _ => clean'⟩

/-! ### Lookup -/

theorem Loaded.branch (loaded : Loaded env s c (.branch children) p) :
    ∃ page, c.leafAt p = none ∧ c.branchAt p = some page ∧ Slots env s c page children p := by
  obtain ⟨noLeaf, page, present, slots⟩ := loaded
  exact ⟨page, noLeaf, present, slots⟩

/-- What a lookup found: nothing to remove, or a loaded leaf below the path together with
what removing the element does to the tree. -/
def Locates (c : TrieCursor env.geometry) (t : Trie) (p : Path) (depth : Nat) (route : RouteKey)
    (element : JsString) : Option LocatedEntry → Prop
  | none => ∀ dots, t.removeElement env.geometry route element dots depth = t
  | some located => ∃ rest, located.path = p ++ rest ∧ (∀ q, q <+: rest → Present c (p ++ q)) ∧
      t.sub rest = .leaf located.leaf ∧
      ∀ dots, t.removeElement env.geometry route element dots depth =
        t.setAt rest (.leaf (located.leaf.tombstoneElement element dots))

theorem Locates.parent (inside : depth < env.geometry.maxDepth) (here : Present c p)
    (found : Locates c (children (route.nibble env.geometry depth))
      (p ++ [route.nibble env.geometry depth]) (depth + 1) route element located) :
    Locates c (.branch children) p depth route element located := by
  cases located with
  | none =>
    intro dots
    simp [Trie.removeElement, inside, found dots]
  | some located =>
    obtain ⟨rest, path, present, leaf, removes⟩ := found
    refine ⟨route.nibble env.geometry depth :: rest, by simp [path], ?_, leaf, fun dots => ?_⟩
    · intro q below
      cases q with
      | nil => simpa using here
      | cons m q =>
        rw [cons_prefix_cons] at below
        have there := present q below.2
        rw [append_assoc] at there
        exact below.1 ▸ there
    · simp [Trie.removeElement, inside, removes dots, Trie.setAt]

theorem descendForLookup_spec {remaining} (c children) (p depth)
    (levels : depth + remaining = env.geometry.maxDepth)
    (loaded : Loaded env s c (.branch children) p) :
    ∃ located c', descendForLookup env s route element remaining c p depth = .ok (located, c') ∧
      located.map LocatedEntry.entry = (Trie.branch children).find env.geometry route element depth ∧
      (∀ o, Keeps env s c c' (.branch children) p o) ∧
      Locates c' (.branch children) p depth route element located := by
  induction remaining generalizing c children p depth with
  | zero =>
    obtain ⟨page, noLeaf, -, -⟩ := loaded.branch
    have bottom : ¬ depth < env.geometry.maxDepth := by omega
    refine ⟨none, c, by simp [descendForLookup, noLeaf], ?_, fun o => .refl .., ?_⟩
    · simp [Trie.find, bottom]
    · intro dots
      simp [Trie.removeElement, bottom]
  | succ remaining ih =>
    obtain ⟨page, noLeaf, present, slots⟩ := loaded.branch
    have inside : depth < env.geometry.maxDepth := by omega
    simp only [descendForLookup, present, nibbleAt_ok _ _ _ inside, Trie.find, inside, if_true,
      bind, Except.bind]
    cases taken : page.get (route.nibble env.geometry depth) with
    | none =>
      have empty := (slots.none taken).1
      refine ⟨none, c, rfl, by simp [empty, Trie.find], fun o => .refl .., fun dots => ?_⟩
      simp only [Trie.removeElement, inside, if_true, empty]
      rw [← empty, Function.update_eq_self]
    | some child =>
      obtain ⟨c1, ok, childLoaded, keeps, -⟩ := ensureChildLoaded_spec (slots.some taken)
      have here : Present c1 p := keeps.frame.self.present (Or.inr (by simp [present]))
      simp only [ok]
      cases shape : children (route.nibble env.geometry depth) with
      | absent => exact absurd shape (slots.some taken).ne_absent
      | leaf page' =>
        rw [shape] at childLoaded
        have there : c1.leafAt (p ++ [route.nibble env.geometry depth]) = some page' := childLoaded
        refine ⟨_, c1, rfl, ?_, fun o => keeps.parent present taken, ?_⟩
        · simp [there, locateEntryInLeaf, Trie.find, Option.map_map, Function.comp_def]
        · refine Locates.parent inside here ?_
          simp only [there, Option.bind_some, locateEntryInLeaf, shape]
          cases found : findEntryInLeaf env.geometry page' route (depth + 1) element with
          | none =>
            intro dots
            simp [Trie.removeElement, found]
          | some entry =>
            refine ⟨[], by simp, fun q below => ?_, rfl, fun dots => ?_⟩
            · rw [prefix_nil.mp below, append_nil]
              exact Or.inl (by simp [there])
            · simp [Trie.removeElement, found, Trie.setAt]
      | branch below =>
        rw [shape] at childLoaded keeps
        obtain ⟨located, c2, ok', same, keeps', found⟩ := ih c1 below
          (p ++ [route.nibble env.geometry depth]) (depth + 1) (by omega) childLoaded
        have both := keeps.trans (keeps' child)
        rw [← shape] at both found
        refine ⟨located, c2, ok', same, fun o => both.parent present taken, found.parent inside ?_⟩
        exact (keeps' child).frame.self.present here

/-! ### The root -/

theorem Shows.keeps (shows_ : Shows env s c t) (rootLoaded : c.rootLoaded = true)
    (keeps : ∀ o, Keeps env s c c' t [] o) (root : t ≠ .absent) :
    Shows env s c' t where
  unloaded := by
    intro unloaded
    rw [(keeps []).frame.rootLoaded, rootLoaded] at unloaded
    cases unloaded
  loaded := by
    intro _
    rcases shows_.loaded rootLoaded with dirty | rest
    · exact Or.inl ((keeps []).dirty dirty)
    · right
      rw [(keeps []).frame.rootOid]
      cases oid : c.initialRootOid with
      | none =>
        simp only [oid] at rest
        exact absurd rest.1 root
      | some o =>
        simp only [oid] at rest
        exact ⟨(keeps o).clean rest.1, (keeps o).present rest.2⟩
  root := shows_.root

/-- With the root loaded, there is a root page exactly when there is a tree. -/
theorem Shows.hasRoot (shows_ : Shows env s c t) (rootLoaded : c.rootLoaded = true) :
    (t = .absent ∧ c.hasRoot = false) ∨
      ∃ children, t = .branch children ∧ c.hasRoot = true ∧ Loaded env s c t [] := by
  have ofLoaded : Loaded env s c t [] →
      ∃ children, t = .branch children ∧ c.hasRoot = true ∧ Loaded env s c t [] := by
    intro loaded
    cases shape : t with
    | absent => rw [shape] at loaded; exact loaded.elim
    | leaf page => exact absurd shape (shows_.root page)
    | branch children =>
      refine ⟨children, rfl, ?_, shape ▸ loaded⟩
      rw [shape] at loaded
      obtain ⟨page, -, present, -⟩ := loaded.branch
      simp only [branchAt, Option.or_eq_some_iff] at present
      rcases present with dirty | ⟨-, working⟩
      · simp [TrieCursor.hasRoot, OrdMap.has, dirty]
      · simp [TrieCursor.hasRoot, OrdMap.has, working]
  rcases shows_.loaded rootLoaded with dirty | rest
  · exact Or.inr (ofLoaded dirty.loaded)
  · cases oid : c.initialRootOid with
    | none =>
      simp only [oid] at rest
      have here := rest.2 [] prefix_rfl
      exact Or.inl ⟨rest.1, by simp [TrieCursor.hasRoot, OrdMap.has, here.branch, here.dirtyBranch]⟩
    | some o =>
      simp only [oid] at rest
      exact Or.inr (ofLoaded (rest.1.loaded_of_present rest.2))

theorem loadRootIfNeeded_spec (shows_ : Shows env s c t) :
    ∃ c', c.loadRootIfNeeded env s = .ok c' ∧ Shows env s c' t ∧ c'.rootLoaded = true := by
  cases loaded : c.rootLoaded with
  | true => exact ⟨c, by simp [loadRootIfNeeded, loaded], shows_, loaded⟩
  | false =>
    obtain ⟨untouched, held⟩ := shows_.unloaded loaded
    cases oid : c.initialRootOid with
    | none =>
      simp only [oid] at held
      refine ⟨_, by simp [loadRootIfNeeded, loaded, oid]; rfl, ⟨by simp, fun _ => Or.inr ?_,
        shows_.root⟩, rfl⟩
      dsimp only
      exact ⟨held, fun q below => ⟨(untouched q below).1.dirtyLeaf, (untouched q below).1.dirtyBranch,
        (untouched q below).1.leaf, (untouched q below).1.branch⟩⟩
    | some o =>
      simp only [oid] at held
      cases shape : t with
      | absent => rw [shape] at held; exact held.elim
      | leaf page => exact absurd shape (shows_.root page)
      | branch children =>
        rw [shape] at held
        obtain ⟨valid, page, reads, slots⟩ := held
        have here := (untouched [] prefix_rfl).1
        let c' := { c with rootLoaded := true, workingBranches := c.workingBranches.set [] page }
        have same : ∀ q, q ≠ [] → SameAt c c' q :=
          fun q apart => ⟨rfl, rfl, rfl, by simp [c', Ne.symm apart], rfl⟩
        refine ⟨c', by simp [loadRootIfNeeded, loaded, oid, reads.branch, c'],
          ⟨by simp [c'], fun _ => Or.inr ?_, by simp⟩, rfl⟩
        simp only [show c'.initialRootOid = some o from oid]
        refine ⟨⟨valid, page, reads, Or.inr ⟨⟨by simp [c'], here.leaf, here.dirtyLeaf,
          here.dirtyBranch⟩, Or.inl (untouched [] prefix_rfl).2⟩, fun n => ?_⟩,
          Or.inr (by simp [branchAt, here.dirtyBranch, c'])⟩
        have slot := slots n
        split at slot
        · exact ⟨slot, untouched.child.vacant.congr fun q below =>
            same q (ne_of_below_child below)⟩
        · exact (slot.clean untouched.child).congr fun q below =>
            same q (ne_of_below_child below)

/-! ### What reads return -/

variable (env s)

/-- The entry of an element in the tree of a cursor. -/
def Trie.entryOf (t : Trie) (element : JsString) : Option TrieLeafEntry :=
  t.find env.geometry (env.blake3 (textEncode element)) element 0

variable {env s}

theorem locateEntry_spec (shows_ : Shows env s c t) {element : JsString} (named : element ≠ []) :
    ∃ located c', c.locateEntry env s element = .ok (located, c') ∧
      located.map LocatedEntry.entry = t.entryOf env element ∧ Shows env s c' t ∧
      c'.rootLoaded = true ∧
      Locates c' t [] 0 (env.blake3 (textEncode element)) element located := by
  obtain ⟨c1, ok, shows1, loaded⟩ := loadRootIfNeeded_spec shows_
  simp only [locateEntry, ok, bind, Except.bind]
  rcases shows1.hasRoot loaded with ⟨rfl, noRoot⟩ | ⟨children, rfl, root, top⟩
  · refine ⟨none, c1, by simp [noRoot, pure, Except.pure], rfl, shows1, loaded, fun dots => rfl⟩
  · obtain ⟨located, c2, ok2, same, keeps, found⟩ := descendForLookup_spec c1 children [] 0
      (Nat.zero_add _) top
    refine ⟨located, c2, ?_, same, shows1.keeps loaded keeps (by simp), ?_, found⟩
    · simp [root, RouteKey.fromElement, named, ok2]
    · rw [(keeps []).frame.rootLoaded, loaded]

theorem contains_spec (shows_ : Shows env s c t) {element : JsString} (named : element ≠ []) :
    ∃ c', c.contains env s element = .ok ((t.entryOf env element).any fun entry =>
      decide (entry.dots.size ≠ 0), c') ∧ Shows env s c' t := by
  obtain ⟨located, c1, ok, same, shows1, -⟩ := locateEntry_spec shows_ named
  refine ⟨c1, ?_, shows1⟩
  simp [TrieCursor.contains, lookupEntry, validateElement, named, ok, same, bind, Except.bind, pure,
    Except.pure]

theorem getDots_spec (shows_ : Shows env s c t) {element : JsString} (named : element ≠ []) :
    ∃ c', c.getDots env s element =
      .ok (((t.entryOf env element).map TrieLeafEntry.dots).getD .empty, c') ∧ Shows env s c' t := by
  obtain ⟨located, c1, ok, same, shows1, -⟩ := locateEntry_spec shows_ named
  refine ⟨c1, ?_, shows1⟩
  simp [TrieCursor.getDots, lookupEntry, validateElement, named, ok, same, bind, Except.bind, pure,
    Except.pure]

theorem getElementState_spec (shows_ : Shows env s c t) {element : JsString} (named : element ≠ []) :
    Agree Eq (fun state result => result.1 = state ∧ Shows env s result.2 t)
      ((t.entryOf env element).mapM elementStateOfEntry) (c.getElementState env s element) := by
  obtain ⟨located, c1, ok, same, shows1, -⟩ := locateEntry_spec shows_ named
  simp only [TrieCursor.getElementState, lookupEntry, validateElement, named, ok, same, if_false, bind,
    Except.bind, pure, Except.pure]
  cases t.entryOf env element with
  | none => exact ⟨rfl, shows1⟩
  | some entry =>
    cases made : elementStateOfEntry entry with
    | error e => simp [Agree, Option.mapM_some, made, Functor.map, Except.map]
    | ok state => simpa [Agree, Option.mapM_some, made, Functor.map, Except.map] using shows1

/-! ### Scans -/

/-- What a scan yields from a list of leaves. -/
def collect {A : Type} (yieldOf : TrieLeaf → Except Failure (List A)) :
    List TrieLeaf → Except Failure (List A)
  | [] => .ok []
  | page :: rest => do
    let yielded ← yieldOf page
    let later ← collect yieldOf rest
    pure (yielded ++ later)

theorem collect_append (yieldOf : TrieLeaf → Except Failure (List A)) (left right) :
    collect yieldOf (left ++ right) = (do
      let first ← collect yieldOf left
      let second ← collect yieldOf right
      pure (first ++ second)) := by
  induction left with
  | nil => cases h : collect yieldOf right <;> simp [collect, h, bind, Except.bind, pure, Except.pure]
  | cons page rest ih =>
    simp only [cons_append, collect, ih]
    cases yieldOf page <;> simp only [bind, Except.bind]
    cases collect yieldOf rest <;> simp only
    cases collect yieldOf right <;> simp [pure, Except.pure]

theorem collect_ok (f : TrieLeaf → List A) (pages) :
    collect (fun page => .ok (f page)) pages = .ok (pages.flatMap f) := by
  induction pages with
  | nil => rfl
  | cons page rest ih => simp [collect, ih, bind, Except.bind, pure, Except.pure]

theorem Slots.keeps (slots : Slots env s c page children p) (taken : page.get n = Option.some child)
    (keeps : Keeps env s c c' (children n) (p ++ [n]) child) : Slots env s c' page children p := by
  intro m
  have slot := slots m
  by_cases same : m = n
  · subst same
    simp only [taken] at slot ⊢
    exact keeps.shown slot
  · split at slot
    · exact ⟨slot.1, slot.2.congr fun q below => keeps.frame.sibling same below⟩
    · exact Shown.congr slot fun q below => keeps.frame.sibling same below

theorem scanChildren_spec {A yieldOf levels page} (p)
    (below : ∀ n c, Loaded env s c (children n) (p ++ [n]) →
      Agree Eq (fun ys result => result.1 = ys ∧ ∀ o, Keeps env s c result.2 (children n) (p ++ [n]) o)
        (collect yieldOf ((children n).leaves env.geometry))
        (scanBelow env s yieldOf levels c (p ++ [n]))) (nibbles : List Nat)
    (taken : ∀ n ∈ nibbles, (page.get n).isSome = true) (acc : List A) (c)
    (present : c.branchAt p = some page) (slots : Slots env s c page children p) :
    Agree Eq (fun ys result => result.1 = acc ++ ys ∧ ∀ o, Keeps env s c result.2 (.branch children) p o)
      (collect yieldOf (nibbles.flatMap fun n => (children n).leaves env.geometry))
      (nibbles.foldlM (fun acc nibble =>
        match page.get nibble with
        | none => pure acc
        | some childOid => do
          let (_, loaded) ← acc.2.ensureChildLoaded env s p nibble childOid
          let (yielded, next) ← scanBelow env s yieldOf levels loaded (p ++ [nibble])
          pure (acc.1 ++ yielded, next)) (acc, c)) := by
  induction nibbles generalizing acc c with
  | nil => exact ⟨by simp, fun o => .refl ..⟩
  | cons n nibbles ih =>
    obtain ⟨child, found⟩ := Option.isSome_iff_exists.mp (taken n mem_cons_self)
    obtain ⟨c1, ok, loaded, keeps, -⟩ := ensureChildLoaded_spec (slots.some found)
    rw [flatMap_cons, collect_append, foldlM_cons]
    simp only [found, ok, ok_bind, bind_assoc, pure_bind]
    refine (below n c1 loaded).bind fun ys result _ _ both => ?_
    obtain ⟨yielded, keeps'⟩ := both
    have whole := keeps.trans (keeps' child)
    have present' : result.2.branchAt p = some page := whole.frame.self.branchAt.trans present
    have rest := ih (forall_mem_cons.mp taken).2 (acc ++ result.1)
      result.2 present' (slots.keeps found whole)
    rw [← bind_pure (List.foldlM _ _ nibbles)]
    refine rest.bind fun later result' _ _ both => ⟨?_, fun o => ?_⟩
    · rw [both.1, yielded, append_assoc]
    · exact (whole.parent present found).trans (both.2 o)

theorem sortNibbles_keys {m : OrdMap Nat V} (inside : ∀ n v, m.get n = some v → n < bound) :
    sortNibbles m.keys = (List.range bound).filter fun n => (m.get n).isSome := by
  have sortedLeft : (sortNibbles m.keys).Pairwise (· ≤ ·) := pairwise_insertionSort _ _
  have sortedRight : ((List.range bound).filter fun n => (m.get n).isSome).Pairwise (· ≤ ·) :=
    pairwise_le_range.filter _
  refine List.Perm.eq_of_pairwise (fun a b _ _ => Nat.le_antisymm) sortedLeft sortedRight ?_
  refine (perm_ext_iff_of_nodup ?_ ?_).mpr fun n => ?_
  · exact (perm_insertionSort _ _).nodup_iff.mpr m.nodup
  · exact nodup_range.filter _
  · rw [sortNibbles, mem_insertionSort, OrdMap.mem_keys_iff, mem_filter, mem_range]
    refine ⟨fun there => ⟨?_, there⟩, fun both => both.2⟩
    obtain ⟨v, found⟩ := Option.isSome_iff_exists.mp there
    exact inside n v found

theorem flatMap_filter_of_empty {A B : Type} (f : A → List B) (keep) (items : List A)
    (empty : ∀ x ∈ items, keep x = false → f x = []) :
    (items.filter keep).flatMap f = items.flatMap f := by
  induction items with
  | nil => rfl
  | cons x rest ih =>
    have later := ih (forall_mem_cons.mp empty).2
    cases kept : keep x with
    | true => rw [filter_cons_of_pos kept, flatMap_cons, flatMap_cons, later]
    | false =>
      rw [filter_cons_of_neg (by simp [kept]), flatMap_cons, later,
        empty x mem_cons_self kept, nil_append]

theorem scanBelow_spec {yieldOf : TrieLeaf → Except Failure (List A)} (c) (t p)
    (fits : t.Fits levels) (loaded : Loaded env s c t p) :
    Agree Eq (fun ys result => result.1 = ys ∧ ∀ o, Keeps env s c result.2 t p o)
      (collect yieldOf (t.leaves env.geometry)) (scanBelow env s yieldOf levels c p) := by
  induction levels generalizing c t p with
  | zero =>
    cases t with
    | absent => exact loaded.elim
    | leaf page => exact absurd fits (by simp [Trie.Fits])
    | branch children => exact absurd fits.1 (by simp)
  | succ levels ih =>
    cases t with
    | absent => exact loaded.elim
    | leaf page =>
      have there : c.leafAt p = some page := loaded
      simp only [scanBelow, there, Trie.leaves, collect]
      cases yieldOf page with
      | error e => rfl
      | ok ys => exact ⟨by simp, fun o => .refl ..⟩
    | branch children =>
      obtain ⟨page, noLeaf, present, slots⟩ := loaded.branch
      simp only [scanBelow, noLeaf, present, Trie.leaves]
      have absentOf : ∀ n ∈ List.range env.geometry.fanout, (page.get n).isSome = false →
          (children n).leaves env.geometry = [] := by
        intro n _ free
        rw [(slots.none (Option.not_isSome_iff_eq_none.mp (by simp [free]))).1]
        rfl
      rw [sortNibbles_keys fun n o found => (page.get_valid found).1,
        ← flatMap_filter_of_empty _ _ _ absentOf]
      refine (scanChildren_spec p (fun n c loaded =>
        ih c (children n) (p ++ [n]) (fits.2 n) loaded) _ ?_ [] c present slots).mono ?_
      · intro n mem
        exact (mem_filter.mp mem).2
      · rintro ys result - - ⟨yielded, keeps⟩
        exact ⟨by simpa using yielded, keeps⟩

theorem scanWith_spec (yieldOf : TrieLeaf → Except Failure (List A)) (shows_ : Shows env s c t)
    (fits : t.Fits (env.geometry.maxDepth + 1)) :
    Agree Eq (fun ys result => result.1 = ys ∧ Shows env s result.2 t)
      (collect yieldOf (t.leaves env.geometry)) (c.scanWith env s yieldOf) := by
  obtain ⟨c1, ok, shows1, loaded⟩ := loadRootIfNeeded_spec shows_
  simp only [scanWith, ok, ok_bind]
  rcases shows1.hasRoot loaded with ⟨rfl, noRoot⟩ | ⟨children, rfl, root, top⟩
  · simp only [noRoot]
    exact ⟨rfl, shows1⟩
  · simp only [root, if_true]
    refine (scanBelow_spec c1 _ [] fits top).mono ?_
    rintro ys result - - ⟨yielded, keeps⟩
    exact ⟨yielded, shows1.keeps loaded keeps (by simp)⟩

end GitWarp
