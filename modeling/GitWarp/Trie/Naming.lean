import GitWarp.Trie.Contents

/-!
# The elements that a trie names

No call makes up an element: whatever holds of the elements of a tree and of an
added one holds of the elements afterwards, over splits, merges and collapses.
-/
namespace GitWarp

open Js Lib TrieCursor List

/-- Every entry is of an element with the property. -/
def NamesOf (P : JsString → Prop) (entries : List TrieLeafEntry) : Prop :=
  ∀ entry ∈ entries, P entry.element

variable {P : JsString → Prop}

variable {entries : List TrieLeafEntry} {page : TrieLeaf}

theorem namesOf_of_new (made : TrieLeaf.new entries = .ok page) (names : NamesOf P entries) :
    NamesOf P page.entries := by
  rwa [TrieLeaf.entries_of_new page made]

theorem namesOf_insertEntry (names : NamesOf P entries) (named : P entry.element) :
    NamesOf P (insertEntry entries entry) := by
  intro other mem
  rcases eq_or_mem_of_mem_insertIdx mem with rfl | old
  · exact named
  · exact names other old

theorem namesOf_upsert {next} (names : NamesOf P page.entries) (named : P element)
    (made : upsertIntoLeaf g page route depth element encodedDot = .ok next) :
    NamesOf P next.entries := by
  unfold upsertIntoLeaf at made
  dsimp only at made
  split at made
  · exact namesOf_of_new made (namesOf_insertEntry names named)
  · split at made
    · cases made
      exact names
    next index existing found =>
      unfold upsertAtExistingIndex at made
      split at made
      · exact namesOf_of_new made (namesOf_insertEntry names named)
      · split at made
        · cases made
          exact names
        · -- the entry of the element gains the dot
          refine namesOf_of_new made fun other mem => ?_
          rcases mem_or_eq_of_mem_set mem with old | rfl
          · exact names other old
          · exact names existing (mem_of_getElem? found)

theorem namesOf_sortEntries (names : NamesOf P entries) : NamesOf P (sortEntries entries) := by
  intro entry mem
  exact names entry ((mem_insertionSort _).mp mem)

theorem namesOf_shortenEntries (names : NamesOf P entries) :
    NamesOf P (shortenEntries g entries suffixNibbles) := by
  intro entry mem
  obtain ⟨old, there, rfl⟩ := (mem_shortenEntries g).mp mem
  exact names old there

theorem namesOf_tombstone (names : NamesOf P page.entries) :
    NamesOf P (page.tombstone observedDots).entries := by
  intro entry mem
  rw [tombstone_entries] at mem
  obtain ⟨old, there, rfl⟩ := mem_map.mp mem
  exact names old there

theorem namesOf_tombstoneElement (names : NamesOf P page.entries) :
    NamesOf P (page.tombstoneElement element observedDots).entries := by
  intro entry mem
  rw [tombstoneElement_entries] at mem
  obtain ⟨old, there, rfl⟩ := mem_map.mp mem
  unfold tombstoneFor
  split
  · exact names old there
  · exact names old there

theorem namesOf_compactLeafEntries (names : NamesOf P entries)
    (made : compactLeafEntries vv entries = .ok (changed, compacted)) : NamesOf P compacted := by
  induction entries generalizing changed compacted with
  | nil =>
    cases made
    exact names
  | cons entry rest ih =>
    obtain ⟨⟨next, entryChanged⟩, first, made⟩ := bind_eq_ok.mp made
    obtain ⟨⟨restChanged, others⟩, later, made⟩ := bind_eq_ok.mp made
    cases made
    have below := ih (fun other mem => names other (.tail entry mem)) later
    intro other mem
    rcases mem_append.mp mem with here | there
    · -- what is left of an entry keeps its element
      obtain ⟨live, -, first⟩ := bind_eq_ok.mp first
      obtain ⟨tombstoned, -, first⟩ := bind_eq_ok.mp first
      split at first
      · cases first
        simp at here
      · cases first
        obtain rfl : other = _ := by simpa using here
        exact names entry (.head rest)
    · exact below other there

namespace Trie

def Names (P : JsString → Prop) : Trie → Prop
  | absent => True
  | leaf page => NamesOf P page.entries
  | branch children => ∀ n, Names P (children n)

variable {g : TrieGeometry}

theorem names_update {u : Trie} (names : ∀ m, (children m).Names P) (new : u.Names P) (m : Nat) :
    (Function.update children n u m).Names P := by
  by_cases same : m = n
  · subst same
    simpa using new
  · rw [Function.update_of_ne same]
    exact names m

theorem names_split (remaining page t) (names : NamesOf P page.entries)
    (made : split g remaining page = .ok t) : t.Names P := by
  induction remaining generalizing page t with
  | zero =>
    cases made
    exact names
  | succ remaining ih =>
    obtain ⟨parts, partitioned, made⟩ := bind_eq_ok.mp made
    obtain ⟨children, folded, made⟩ := bind_eq_ok.mp made
    cases made
    have partNames : ∀ part ∈ parts, NamesOf P part.2.entries := by
      intro part mem
      obtain ⟨⟨nibble, entries⟩, listed, built⟩ := mem_of_mapM_ok _ partitioned part mem
      obtain ⟨partLeaf, made, built⟩ := bind_eq_ok.mp built
      cases built
      refine namesOf_of_new made (namesOf_shortenEntries ?_)
      -- the bucket of a nibble is a part of the leaf
      have taken := (OrdMap.mem_entries_iff _ _).mp listed
      rw [get_partition] at taken
      split at taken
      · cases taken
      · cases taken
        intro entry inside
        exact names entry (mem_of_mem_filter inside)
    refine foldlM_invariant (P := fun children => ∀ n, (children n).Names P) parts ?_
      (fun _ => trivial) folded
    intro children part children' mem held step
    split at step
    · obtain ⟨child, installed, step⟩ := bind_eq_ok.mp step
      cases step
      exact names_update held (ih part.2 child (partNames part mem) installed)
    · cases step
      exact names_update held (show Names P (leaf part.2) from partNames part mem)

theorem names_insert (named : P ctx.element) (t t' depth) (names : t.Names P)
    (inserted : insert g ctx t depth = .ok t') : t'.Names P := by
  induction t generalizing depth t' with
  | absent =>
    obtain ⟨page, made, rest⟩ := bind_eq_ok.mp inserted
    cases rest
    refine namesOf_of_new made fun entry mem => ?_
    obtain rfl := mem_singleton.mp mem
    exact named
  | leaf page =>
    obtain ⟨next, upserted, made⟩ := bind_eq_ok.mp inserted
    have kept := namesOf_upsert names named upserted
    split at made
    · exact names_split _ next t' kept made
    · cases made
      exact kept
  | branch children ih =>
    obtain ⟨n, -, rest⟩ := bind_eq_ok.mp inserted
    obtain ⟨child, made, rest⟩ := bind_eq_ok.mp rest
    cases rest
    exact names_update names (ih n child (depth + 1) (names n) made)

theorem names_add (ctx) (named : P ctx.element) (t t') (names : t.Names P)
    (added : add g ctx t = .ok t') : t'.Names P := by
  cases t with
  | absent => exact names_insert named bare t' 0 (fun _ => trivial) added
  | leaf page | branch children => exact names_insert named _ t' 0 names added

theorem names_remove (t : Trie) (names : t.Names P) : (t.remove observedDots).Names P := by
  induction t with
  | absent => trivial
  | leaf page => exact namesOf_tombstone names
  | branch children ih => exact fun n => ih n (names n)

theorem names_removeElement (route) (t : Trie) (depth) (names : t.Names P) :
    (t.removeElement g route element observedDots depth).Names P := by
  induction t generalizing depth with
  | absent => trivial
  | leaf page =>
    rw [removeElement]
    split
    · exact names
    · exact namesOf_tombstoneElement names
  | branch children ih =>
    rw [removeElement]
    split
    · exact names_update names (ih _ (depth + 1) (names _))
    · exact names

theorem names_mergeSiblings (rounds) (children children') (names : ∀ n, (children n).Names P)
    (made : mergeSiblings g rounds children = .ok children') (n) : (children' n).Names P := by
  induction rounds generalizing children with
  | zero =>
    cases made
    exact names n
  | succ rounds ih =>
    simp only [mergeSiblings] at made
    split at made
    · cases made
      exact names n
    · next keep drop_ pair =>
      split at made
      next left right first second =>
        obtain ⟨merged, joined, made⟩ := bind_eq_ok.mp made
        have both : NamesOf P merged.entries := by
          have leftNames := names keep
          have rightNames := names drop_
          rw [Trie.eq_leaf_of_leaf? first] at leftNames
          rw [Trie.eq_leaf_of_leaf? second] at rightNames
          refine namesOf_of_new joined (namesOf_sortEntries fun entry mem => ?_)
          exact (mem_append.mp mem).elim (leftNames entry) (rightNames entry)
        have kept := names_update names (n := keep) (show Names P (leaf merged) from both)
        exact ih _ (names_update kept (show Names P absent from trivial)) made
      · cases made
        exact names n

theorem names_rewrite (t) (names : ∀ n, (children n).Names P)
    (made : rewrite g children depth = .ok t) : t.Names P := by
  unfold rewrite at made
  split at made
  · split at made
    · cases made
      exact fun _ => trivial
    · cases made
      trivial
  next only alone =>
    split at made
    next page found =>
      split at made
      · cases made
        exact names
      · obtain ⟨collapsed, pulled, made⟩ := bind_eq_ok.mp made
        cases made
        -- the only leaf is pulled up with its entries
        have below := names only
        rw [Trie.eq_leaf_of_leaf? found] at below
        refine namesOf_of_new pulled (namesOf_sortEntries fun entry mem => ?_)
        obtain ⟨old, there, rfl⟩ := mem_map.mp mem
        exact below old there
    · cases made
      exact names
  · cases made
    exact names

theorem names_compact (t t' depth) (names : t.Names P) (compacted : compact g vv t depth = .ok t') :
    t'.Names P := by
  induction t generalizing depth t' with
  | absent =>
    cases compacted
    trivial
  | leaf page =>
    obtain ⟨⟨changed, entries⟩, rewritten, made⟩ := bind_eq_ok.mp compacted
    dsimp only at made
    split at made
    · cases made
      exact names
    · split at made
      · cases made
        trivial
      · obtain ⟨next, built, made⟩ := bind_eq_ok.mp made
        cases made
        exact namesOf_of_new built (namesOf_compactLeafEntries names rewritten)
  | branch children ih =>
    obtain ⟨each, traversed, rest⟩ := bind_eq_ok.mp compacted
    obtain ⟨merged, made, rest⟩ := bind_eq_ok.mp rest
    have traversed := (gather_ok_iff _ each).mp traversed
    refine names_rewrite t' ?_ rest
    refine names_mergeSiblings _ each merged (fun n => ?_) made
    by_cases below : n ∈ List.range g.fanout
    · exact ih n (each n) (depth + 1) (names n) (traversed.1 n below)
    · rw [traversed.2 n below]
      trivial

/-- Elements are checked to be named before they are added. -/
theorem names_perform {env : TrieEnv S} (t t' : Trie) (action) (names : t.Names (· ≠ []))
    (performed : t.perform env action = .ok t') : t'.Names (· ≠ []) := by
  cases action with
  | add element dot =>
    obtain ⟨_, checked, added⟩ := bind_eq_ok.mp performed
    refine names_add _ ?_ t t' names added
    rintro rfl
    cases checked
  | remove observedDots =>
    cases performed
    exact names_remove t names
  | removeElement element observedDots =>
    obtain ⟨_, -, rest⟩ := bind_eq_ok.mp performed
    cases rest
    exact names_removeElement _ t 0 names
  | compact includedVV => exact names_compact t t' 0 names performed
  | contains element | getDots element | scan | scanElementStates =>
    obtain ⟨_, -, rest⟩ := bind_eq_ok.mp performed
    cases rest
    exact names
  | getElementState element =>
    obtain ⟨_, -, rest⟩ := bind_eq_ok.mp performed
    obtain ⟨_, -, rest⟩ := bind_eq_ok.mp rest
    cases rest
    exact names
  | flush | checkpoint =>
    cases performed
    exact names

/-! ### The states of all elements -/

theorem mem_leaves_names (t : Trie) (names : t.Names P) :
    ∀ page ∈ t.leaves g, NamesOf P page.entries := by
  induction t with
  | absent => simp [leaves]
  | leaf page =>
    intro page' mem
    obtain rfl := mem_singleton.mp mem
    exact names
  | branch children ih =>
    intro page mem
    obtain ⟨n, -, inside⟩ := mem_flatMap.mp mem
    exact ih n (names n) page inside

end Trie

/-- What a scan of element states makes of one entry. -/
def stateOfEntry (entry : TrieLeafEntry) (named : entry.element ≠ []) : ORSetElementState :=
  ⟨entry.element, entry.dots, entry.tombstonedDots, named⟩

/-- The fields that the state of an element shows of an entry. -/
def shownOfEntry (entry : TrieLeafEntry) : JsString × OrdSet JsString × OrdSet JsString :=
  (entry.element, entry.dots, entry.tombstonedDots)

def shownOfState (state : ORSetElementState) : JsString × OrdSet JsString × OrdSet JsString :=
  (state.element, state.dots, state.tombstonedDots)

theorem mapM_elementStateOfEntry (names : NamesOf (· ≠ []) entries) :
    ∃ states, entries.mapM elementStateOfEntry = .ok states ∧
      states.map shownOfState = entries.map shownOfEntry := by
  induction entries with
  | nil => exact ⟨[], rfl, rfl⟩
  | cons entry rest ih =>
    obtain ⟨states, later, shown⟩ := ih fun other mem => names other (.tail entry mem)
    have first : elementStateOfEntry entry = .ok (stateOfEntry entry (names entry (.head rest))) :=
      dif_neg (names entry (.head rest))
    refine ⟨stateOfEntry entry (names entry (.head rest)) :: states, ?_, ?_⟩
    · rw [mapM_cons, first, ok_bind, later]
      rfl
    · rw [map_cons, map_cons, shown]
      rfl

theorem collect_elementStates (names : ∀ page ∈ pages, NamesOf (· ≠ []) page.entries) :
    ∃ states, collect (fun page => page.entries.mapM elementStateOfEntry) pages = .ok states ∧
      states.map shownOfState = (pages.flatMap TrieLeaf.entries).map shownOfEntry := by
  induction pages with
  | nil => exact ⟨[], rfl, rfl⟩
  | cons page rest ih =>
    rw [forall_mem_cons] at names
    obtain ⟨first, here, shown⟩ := mapM_elementStateOfEntry names.1
    obtain ⟨states, later, shown'⟩ := ih names.2
    refine ⟨first ++ states, ?_, ?_⟩
    · rw [collect, here, ok_bind, later]
      rfl
    · rw [map_append, shown, shown', flatMap_cons, map_append]

end GitWarp
