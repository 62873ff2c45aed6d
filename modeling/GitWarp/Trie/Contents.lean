import GitWarp.Trie.LeafContents
import GitWarp.Trie.Reachable

/-!
# What a trie says of its elements

Every call does to the marks of the elements what it does to a plain map of them, as long
as the leaf of an added element admits it: the tag that tells colliding elements apart is
lost by a split, two of three colliding elements may share it, and a tagged entry is never
looked for when its element is added again.
-/
namespace GitWarp

open Js Lib TrieCursor List Function TrieState

/-! ### Placement in a tree -/

variable {leadsHere : RouteKey → Prop}

namespace Trie

variable (g : TrieGeometry) (blake3 : Blake3)

/-- Every leaf is placed at its depth under the routes that lead to it. -/
def Placed : Trie → Nat → (RouteKey → Prop) → Prop
  | absent, _, _ => True
  | leaf page, depth, leadsHere => LeafPlaced g blake3 depth leadsHere page ∧ Small g depth page
  | branch children, depth, leadsHere => depth < g.maxDepth ∧ ∀ n,
    Placed (children n) (depth + 1) fun route => leadsHere route ∧ route.nibble g depth = n

def marksAt (t : Trie) (depth : Nat) (element : JsString) : Option Marks :=
  (t.find g (routeOf blake3 element) element depth).map TrieLeafEntry.marks

/-- The leaf on the element's route admits it. -/
def Admits (element : JsString) : Trie → Nat → Prop
  | absent, _ => True
  | leaf page, depth => LeafAdmits g blake3 depth element page
  | branch children, depth =>
    Admits element (children ((routeOf blake3 element).nibble g depth)) (depth + 1)

variable {g blake3}

theorem marksAt_leaf (leaf : LeafPlaced g blake3 depth leadsHere page) (element) :
    marksAt g blake3 (.leaf page) depth element = page.marksOf element := by
  simp only [marksAt, find, leaf.find_eq, TrieLeaf.marksOf]

theorem marksAt_branch (inside : depth < g.maxDepth) (element) :
    marksAt g blake3 (.branch children) depth element =
      marksAt g blake3 (children ((routeOf blake3 element).nibble g depth)) (depth + 1) element := by
  simp only [marksAt, find, if_pos inside]

theorem placed_update (placed : Placed g blake3 (.branch children) depth leadsHere) (child)
    (new : Placed g blake3 child (depth + 1) fun route => leadsHere route ∧ route.nibble g depth =
      n) : Placed g blake3 (.branch (Function.update children n child)) depth leadsHere := by
  refine ⟨placed.1, fun m => ?_⟩
  by_cases same : m = n
  · subst same
    simpa using new
  · rw [update_of_ne same]
    exact placed.2 m

/-! ### Splitting -/

theorem split_spec (remaining page depth) (leadsHere) (total : depth + remaining = g.maxDepth)
    (leaf : LeafPlaced g blake3 depth leadsHere page) (untagged : Untagged g blake3 depth page) :
    ∃ t, split g remaining page = .ok t ∧ Placed g blake3 t depth leadsHere ∧
      ∀ x, marksAt g blake3 t depth x = page.marksOf x := by
  -- a leaf without tags splits into leaves that say the same of every element
  induction remaining generalizing page depth leadsHere with
  | zero =>
    -- at the last level the leaf stays as it is
    exact ⟨.leaf page, rfl, ⟨leaf, Or.inr (by omega)⟩, marksAt_leaf leaf⟩
  | succ remaining ih =>
    have inside : depth < g.maxDepth := by omega
    have levels : g.maxDepth - depth = remaining + 1 := by omega
    choose part made placed tagless marks using fun n => leaf.bucket untagged inside n
    rw [levels] at made
    have held := (partitionEntriesByNextNibble g page).mem_entries_iff
    have keys : ∀ n, n ∈ (partitionEntriesByNextNibble g page).keys ↔ bucket g page n ≠ [] := by
      intro n
      rw [OrdMap.mem_keys_iff, get_partition]
      split <;> simp_all
    have parts : (partitionEntriesByNextNibble g page).entries.mapM (fun entry => do
        let partLeaf ← TrieLeaf.new (shortenEntries g entry.2 (remaining + 1))
        pure (entry.1, partLeaf)) =
          .ok ((partitionEntriesByNextNibble g page).entries.map fun entry => (entry.1, part entry.1)) := by
      apply mapM_eq_map
      rintro ⟨n, entries⟩ mem
      rw [held, get_partition] at mem
      split at mem
      · cases mem
      · cases mem
        rw [made]
        rfl
    -- a part that is still too large splits again, one level further down
    have each : ∀ n, ∃ t, (if (part n).requiresSplit g then split g remaining (part n)
        else pure (.leaf (part n))) = .ok t ∧
          (Placed g blake3 t (depth + 1) fun route => leadsHere route ∧ route.nibble g depth = n) ∧
          ∀ x, marksAt g blake3 t (depth + 1) x = (part n).marksOf x := by
      intro n
      split
      · exact ih (part n) (depth + 1) _ (by omega) (placed n) (tagless n)
      next fits =>
        refine ⟨_, rfl, ⟨placed n, Or.inl ?_⟩, marksAt_leaf (placed n)⟩
        simpa [TrieLeaf.requiresSplit, TrieGeometry.splitRequired] using fits
    choose child installed sound same using each
    let children : Nat → Trie := fun n =>
      if n ∈ (partitionEntriesByNextNibble g page).keys then child n else .absent
    have gathered := (gather_ok_iff (fun _ => .absent) children).mpr
      ⟨fun n mem => by simp only [children, if_pos mem]; exact installed n,
        fun n outside => if_neg outside⟩
    refine ⟨.branch children, ?_, ⟨inside, fun n => ?_⟩, fun x => ?_⟩
    · rw [split, parts, ok_bind, foldlM_map]
      rw [gather, OrdMap.keys, foldlM_map] at gathered
      apply bind_eq_ok.mpr
      refine ⟨children, ?_, rfl⟩
      rw [← gathered]
      congr 1
      funext before entry
      split <;> rfl
    · dsimp only [children]
      split
      · exact sound n
      · trivial
    · rw [marksAt_branch inside]
      have own := marks ((routeOf blake3 x).nibble g depth) x rfl
      dsimp only [children]
      split
      · rw [same, own]
      next outside =>
        -- an empty bucket has no entry of the element
        rw [keys, not_not] at outside
        rw [← own]
        have empty := TrieLeaf.entries_of_new _ (made ((routeOf blake3 x).nibble g depth))
        rw [outside] at empty
        simp [TrieLeaf.marksOf, empty, shortenEntries, sortEntries, marksAt, find]

/-! ### Adding -/

theorem placed_single (depth) (element encodedDot : JsString) (named : element ≠ [])
    (here : leadsHere (routeOf blake3 element)) :
    ∃ page, TrieLeaf.new [makeEntry (suffixOfRouteKey g (routeOf blake3 element) depth) element
        encodedDot] = .ok page ∧
      LeafPlaced g blake3 depth leadsHere page ∧ Small g depth page ∧
      ∀ x, page.marksOf x = if x = element then some (Marks.add encodedDot none) else none := by
  have nothing : LeafPlaced g blake3 depth leadsHere ⟨[], List.Pairwise.nil⟩ :=
    ⟨by simp, by simp, by simp [OneEntry]⟩
  obtain ⟨page, made, placed, size, -, marks⟩ := nothing.insert
    (makeEntry (suffixOf g blake3 element depth) element encodedDot) (by simp) (by simp) here
    ⟨named, Or.inl rfl⟩
  refine ⟨page, made, placed, Or.inl ?_, marks⟩
  rw [size]
  exact g.room

theorem insert_spec (t depth) (leadsHere) (inside : depth ≤ g.maxDepth)
    (placed : Placed g blake3 t depth leadsHere) {element : JsString} (named : element ≠ [])
    (here : leadsHere (routeOf blake3 element)) (admits : Admits g blake3 element t depth) :
    ∃ t', insert g ⟨routeOf blake3 element, element, encodedDot⟩ t depth = .ok t' ∧
      Placed g blake3 t' depth leadsHere ∧
      ∀ x, marksAt g blake3 t' depth x =
        if x = element then some (Marks.add encodedDot (marksAt g blake3 t depth element))
        else marksAt g blake3 t depth x := by
  induction t generalizing depth leadsHere with
  | absent =>
    obtain ⟨page, made, leaf, small, marks⟩ := placed_single (g := g) depth element
      encodedDot named here
    refine ⟨.leaf page, ?_, ⟨leaf, small⟩, fun x => (marksAt_leaf leaf x).trans (marks x)⟩
    rw [insert, made]
    rfl
  | leaf page =>
    obtain ⟨leaf, small⟩ := placed
    obtain ⟨next, upserted, leaf', ready, marks⟩ :=
      upsertIntoLeaf_spec leaf small named here admits
    rw [insert, upserted, ok_bind]
    simp only [marksAt_leaf leaf]
    split
    next large =>
      have full : g.leafCapacity < next.size := by
        simpa [TrieLeaf.requiresSplit, TrieGeometry.splitRequired] using large
      rcases ready with (fits | bottom) | untagged
      · omega
      · -- at the last level a leaf is never split
        rw [show g.maxDepth - depth = 0 by omega]
        exact ⟨.leaf next, rfl, ⟨leaf', Or.inr bottom⟩, fun x => (marksAt_leaf leaf' x).trans (marks x)⟩
      · obtain ⟨t', made, sound, same⟩ := split_spec (g.maxDepth - depth) next depth leadsHere
          (by omega) leaf' untagged
        exact ⟨t', made, sound, fun x => (same x).trans (marks x)⟩
    next fits =>
      refine ⟨.leaf next, rfl, ⟨leaf', Or.inl ?_⟩, fun x => (marksAt_leaf leaf' x).trans (marks x)⟩
      simpa [TrieLeaf.requiresSplit, TrieGeometry.splitRequired] using fits
  | branch children ih =>
    obtain ⟨above, each⟩ := placed
    obtain ⟨child, made, sound, marks⟩ := ih ((routeOf blake3 element).nibble g depth) (depth + 1) _
      above (each _) ⟨here, rfl⟩ admits
    refine ⟨.branch (Function.update children ((routeOf blake3 element).nibble g depth) child), ?_,
      placed_update ⟨above, each⟩ child sound, fun x => ?_⟩
    · rw [insert, nibbleAt_ok g _ depth above, ok_bind, made]
      rfl
    · simp only [marksAt_branch above]
      by_cases leads : (routeOf blake3 x).nibble g depth = (routeOf blake3 element).nibble g depth
      · rw [leads, update_self, marks]
      · -- the elements of the other children are untouched
        have apart : x ≠ element := fun same => leads (same ▸ rfl)
        rw [update_of_ne leads, if_neg apart]

theorem add_spec (t) (placed : Placed g blake3 t 0 fun _ => True) {element encodedDot : JsString}
    (named : element ≠ []) (admits : Admits g blake3 element t 0) :
    ∃ t', add g ⟨routeOf blake3 element, element, encodedDot⟩ t = .ok t' ∧
      (Placed g blake3 t' 0 fun _ => True) ∧
      ∀ x, marksAt g blake3 t' 0 x =
        if x = element then some (Marks.add encodedDot (marksAt g blake3 t 0 element))
        else marksAt g blake3 t 0 x := by
  cases t with
  | absent =>
    have nowhere : ∀ x, marksAt g blake3 bare 0 x = marksAt g blake3 .absent 0 x := fun x =>
      marksAt_branch g.maxDepth_pos x
    simp only [← nowhere]
    exact insert_spec bare 0 _ (Nat.zero_le _) ⟨g.maxDepth_pos, fun _ => trivial⟩
      named trivial trivial
  | leaf page => exact insert_spec _ 0 _ (Nat.zero_le _) placed named trivial admits
  | branch children =>
    exact insert_spec _ 0 _ (Nat.zero_le _) placed named trivial admits

/-! ### Refused additions -/

theorem split_untagged {remaining} (inside : g.maxDepth - depth = remaining + 1)
    (leaf : LeafPlaced g blake3 depth leadsHere page) (t)
    (made : split g (remaining + 1) page = .ok t) : Untagged g blake3 depth page := by
  rw [split] at made
  obtain ⟨parts, cut, -⟩ := bind_eq_ok.mp made
  apply leaf.untagged_of_buckets (by omega)
  intro nibble filled
  have held : (nibble, bucket g page nibble) ∈ (partitionEntriesByNextNibble g page).entries := by
    rw [OrdMap.mem_entries_iff, get_partition, if_neg filled]
  obtain ⟨part, installed⟩ := each_of_mapM_ok _ cut _ held
  obtain ⟨partLeaf, made, -⟩ := bind_eq_ok.mp installed
  exact ⟨partLeaf, inside ▸ made⟩

theorem roomy_or_untagged {next} (inside : depth ≤ g.maxDepth)
    (leaf : LeafPlaced g blake3 depth leadsHere next) (size : next.size = page.size + 1) (t)
    (made : (if next.requiresSplit g then split g (g.maxDepth - depth) next else pure (.leaf next)) =
      .ok t) : Roomy g depth page ∨ Untagged g blake3 depth next := by
  by_cases bottom : depth = g.maxDepth
  · exact Or.inl (Or.inr bottom)
  split at made
  next large =>
    obtain ⟨remaining, levels⟩ : ∃ remaining, g.maxDepth - depth = remaining + 1 :=
      ⟨g.maxDepth - depth - 1, by omega⟩
    rw [levels] at made
    exact Or.inr (split_untagged levels leaf t made)
  next fits =>
    have small : next.size ≤ g.leafCapacity := by
      simpa [TrieLeaf.requiresSplit, TrieGeometry.splitRequired] using fits
    exact Or.inl (Or.inl (by omega))

theorem leaf_admits (inside : depth ≤ g.maxDepth) (leaf : LeafPlaced g blake3 depth leadsHere page)
    {element encodedDot : JsString} (named : element ≠ [])
    (here : leadsHere (routeOf blake3 element)) (t)
    (inserted : insert g ⟨routeOf blake3 element, element, encodedDot⟩ (.leaf page) depth = .ok t) :
    LeafAdmits g blake3 depth element page := by
  -- an addition to a leaf that goes through was admitted
  obtain ⟨next, upserted, made⟩ := bind_eq_ok.mp inserted
  have suffixed : suffixOfRouteKey g (routeOf blake3 element) depth = suffixOf g blake3 element depth :=
    rfl
  rw [upsertIntoLeaf, suffixed] at upserted
  unfold LeafAdmits
  rcases page.search_cases (suffixOf g blake3 element depth) with
    ⟨searched, missed, fresh⟩ | ⟨i, holder, searched, there, found, held⟩
  · rw [missed]
    rw [searched] at upserted
    obtain ⟨grown, installed, leaf', size, members, -⟩ := leaf.insert
      (makeEntry (suffixOf g blake3 element depth) element encodedDot) (leaf.absent fresh) fresh
      here ⟨named, Or.inl rfl⟩
    have same : grown = next := Except.ok.inj (installed.symm.trans upserted)
    subst same
    apply (roomy_or_untagged inside leaf' size t made).imp_right
    exact fun untagged x mem => untagged x ((members x).mpr (Or.inr mem))
  · rw [found]
    by_cases own : holder.element = element
    · exact Or.inl own
    right
    have mem := mem_of_getElem? there
    rw [searched] at upserted
    dsimp only at upserted
    rw [there] at upserted
    dsimp only at upserted
    rw [upsertAtExistingIndex, if_pos own] at upserted
    have fresh := fresh_of_insert _ upserted
    refine ⟨?_, fresh⟩
    obtain ⟨grown, installed, leaf', size, members, -⟩ := leaf.insert
      (makeEntry (taggedSuffixOf g blake3 element depth) element encodedDot)
      (leaf.absent_beside mem held own fresh) fresh here
      ⟨named, Or.inr ⟨rfl, holder, (mem_insertEntry _ page.sorted _ _).mpr (Or.inr mem), held⟩⟩
    have same : grown = next := Except.ok.inj (installed.symm.trans upserted)
    subst same
    -- the new entry is tagged itself, so the leaf has had room
    apply (roomy_or_untagged inside leaf' size t made).resolve_right
    intro untagged
    exact tagged_ne_suffix _ _ (untagged _ ((members _).mpr (Or.inl rfl)))

theorem admits_of_insert (t depth) (leadsHere) (inside : depth ≤ g.maxDepth)
    (placed : Placed g blake3 t depth leadsHere) {element encodedDot : JsString}
    (named : element ≠ []) (here : leadsHere (routeOf blake3 element)) (t')
    (inserted : insert g ⟨routeOf blake3 element, element, encodedDot⟩ t depth = .ok t') :
    Admits g blake3 element t depth := by
  induction t generalizing depth leadsHere t' with
  | absent => trivial
  | leaf page => exact leaf_admits inside placed.1 named here t' inserted
  | branch children ih =>
    obtain ⟨above, each⟩ := placed
    rw [insert, nibbleAt_ok g _ depth above, ok_bind] at inserted
    obtain ⟨child, made, -⟩ := bind_eq_ok.mp inserted
    exact ih _ (depth + 1) _ above (each _) ⟨here, rfl⟩ child made

theorem add_ok_iff (t) (placed : Placed g blake3 t 0 fun _ => True) {element encodedDot : JsString}
    (named : element ≠ []) :
    (∃ t', add g ⟨routeOf blake3 element, element, encodedDot⟩ t = .ok t') ↔
      Admits g blake3 element t 0 := by
  constructor
  · rintro ⟨t', added⟩
    cases t with
    | absent => trivial
    | leaf page => exact admits_of_insert _ 0 _ (Nat.zero_le _) placed named trivial t' added
    | branch children =>
      exact admits_of_insert _ 0 _ (Nat.zero_le _) placed named trivial t' added
  · intro admits
    obtain ⟨t', added, -⟩ := add_spec t placed named admits
    exact ⟨t', added⟩

/-! ### Removing -/

theorem remove_spec (t depth) (leadsHere) (placed : Placed g blake3 t depth leadsHere) :
    Placed g blake3 (t.remove observedDots) depth leadsHere ∧
      ∀ x, marksAt g blake3 (t.remove observedDots) depth x =
        (marksAt g blake3 t depth x).map (Marks.remove observedDots) := by
  induction t generalizing depth leadsHere with
  | absent => exact ⟨trivial, fun _ => rfl⟩
  | leaf page =>
    obtain ⟨leaf, small⟩ := placed
    obtain ⟨leaf', size, marks⟩ := leaf.tombstone
    refine ⟨⟨leaf', small.imp_left fun fits => size ▸ fits⟩, fun x => ?_⟩
    rw [remove, marksAt_leaf leaf', marksAt_leaf leaf, marks]
  | branch children ih =>
    obtain ⟨above, each⟩ := placed
    refine ⟨⟨above, fun n => (ih n (depth + 1) _ (each n)).1⟩, fun x => ?_⟩
    rw [remove, marksAt_branch above, marksAt_branch above]
    exact (ih _ (depth + 1) _ (each _)).2 x

theorem removeElement_spec (t depth) (leadsHere) (placed : Placed g blake3 t depth leadsHere) :
    Placed g blake3 (t.removeElement g (routeOf blake3 element) element observedDots depth) depth
        leadsHere ∧
      ∀ x, marksAt g blake3 (t.removeElement g (routeOf blake3 element) element observedDots depth)
          depth x =
        if x = element then (marksAt g blake3 t depth element).map (Marks.remove observedDots)
        else marksAt g blake3 t depth x := by
  induction t generalizing depth leadsHere with
  | absent => exact ⟨trivial, fun x => (ite_self none).symm⟩
  | leaf page =>
    obtain ⟨leaf, small⟩ := placed
    obtain ⟨leaf', size, marks⟩ := leaf.tombstoneElement
    rw [removeElement, leaf.find_eq]
    cases found : page.entries.find? fun entry => entry.element = element with
    | none =>
      -- an element that the leaf does not have has no marks to change
      have unmarked : page.marksOf element = none := by rw [TrieLeaf.marksOf, found]; rfl
      refine ⟨⟨leaf, small⟩, fun x => ?_⟩
      simp only [marksAt_leaf leaf, unmarked, Option.map_none]
      split
      next same => rw [same, unmarked]
      · rfl
    | some entry =>
      refine ⟨⟨leaf', small.imp_left fun fits => size ▸ fits⟩, fun x => ?_⟩
      simp only [marksAt_leaf leaf, marksAt_leaf leaf', marks]
  | branch children ih =>
    obtain ⟨above, each⟩ := placed
    obtain ⟨sound, marks⟩ := ih ((routeOf blake3 element).nibble g depth) (depth + 1) _ (each _)
    rw [removeElement, if_pos above]
    refine ⟨placed_update ⟨above, each⟩ _ sound, fun x => ?_⟩
    simp only [marksAt_branch above]
    by_cases leads : (routeOf blake3 x).nibble g depth = (routeOf blake3 element).nibble g depth
    · rw [leads, update_self, marks]
    · have apart : x ≠ element := fun same => leads (same ▸ rfl)
      rw [update_of_ne leads, if_neg apart]

/-! ### Element states -/

theorem elementStateOfEntry_ok (named : entry.element ≠ []) :
    ∃ state, elementStateOfEntry entry = .ok state := ⟨_, dif_neg named⟩

theorem scan_element (found : scanForCollisionTaggedEntry suffix element entries = some entry) :
    entry.element = element := by
  induction entries with
  | nil => cases found
  | cons first rest ih =>
    rw [scanForCollisionTaggedEntry] at found
    split at found
    · split at found
      next own =>
        cases found
        exact own
      · exact ih found
    · cases found

theorem find_element (t : Trie) (depth route) (found : t.find g route element depth = some entry) :
    entry.element = element := by
  induction t generalizing depth with
  | absent => cases found
  | leaf page =>
    simp only [find, findEntryInLeaf, findEntryNearSuffix] at found
    split at found
    · exact scan_element found
    · split at found
      · split at found
        next own =>
          cases found
          exact own
        · exact scan_element found
      · exact scan_element found
  | branch children ih =>
    rw [find] at found
    split at found
    · exact ih _ (depth + 1) found
    · cases found

theorem collect_ok_of_forall {yieldOf : TrieLeaf → Except Failure (List A)}
    (each : ∀ page ∈ pages, ∃ yielded, yieldOf page = .ok yielded) :
    ∃ all, collect yieldOf pages = .ok all := by
  induction pages with
  | nil => exact ⟨[], rfl⟩
  | cons page rest ih =>
    rw [forall_mem_cons] at each
    obtain ⟨yielded, first⟩ := each.1
    obtain ⟨later, others⟩ := ih each.2
    exact ⟨yielded ++ later, by rw [collect, first, ok_bind, others]; rfl⟩

theorem named_of_placed (t depth) (leadsHere) (placed : Placed g blake3 t depth leadsHere) :
    ∀ page ∈ t.leaves g, ∀ entry ∈ page.entries, entry.element ≠ [] := by
  induction t generalizing depth leadsHere with
  | absent => simp [leaves]
  | leaf page =>
    simp only [leaves, mem_singleton, forall_eq]
    exact fun entry mem => (placed.1.placed entry mem).named
  | branch children ih =>
    intro page mem
    obtain ⟨n, -, inside⟩ := mem_flatMap.mp mem
    exact ih n (depth + 1) _ (placed.2 n) page inside

end Trie

/-! ### Runs -/

/-- What the calls so far say of every element. -/
abbrev Contents := JsString → Option Marks

/-- What a call does to a plain map of marks. -/
def TrieAction.mark (contents : Contents) : TrieAction → Contents
  | .add element dot =>
    Function.update contents element (some (Marks.add dot.encode (contents element)))
  | .remove observedDots => fun x => (contents x).map (Marks.remove observedDots)
  | .removeElement element observedDots =>
    Function.update contents element ((contents element).map (Marks.remove observedDots))
  | _ => contents

def contentsOf (actions : List TrieAction) : Contents :=
  actions.foldl TrieAction.mark fun _ => none

namespace Trie

variable {S : Type} (env : TrieEnv S)

/-- An added element is admitted by its leaf, and every element is named. -/
def Permits (t : Trie) : TrieAction → Prop
  | .add element _ => element ≠ [] ∧ t.Admits env.geometry env.blake3 element 0
  | .removeElement element _ => element ≠ []
  | .contains element => element ≠ []
  | .getDots element => element ≠ []
  | .getElementState element => element ≠ []
  | .compact _ => False
  | _ => True

/-- Every call of the run is permitted by the tree that it meets. -/
def Permitted : Trie → List TrieAction → Prop
  | _, [] => True
  | t, action :: rest =>
    t.Permits env action ∧ ∀ t', t.perform env action = .ok t' → Permitted t' rest

/-- The tree is placed, and says of every element what the map does. -/
structure Says (t : Trie) (contents : Contents) : Prop where
  placed : Placed env.geometry env.blake3 t 0 fun _ => True
  marks : ∀ x, marksAt env.geometry env.blake3 t 0 x = contents x

variable {env}

/-- A permitted call goes through, and changes the marks as it should. -/
theorem perform_says (t : Trie) (contents) (says_ : t.Says env contents)
    (permits : t.Permits env action) :
    ∃ t', t.perform env action = .ok t' ∧ t'.Says env (action.mark contents) := by
  obtain ⟨placed, marks⟩ := says_
  cases action with
  | add element dot =>
    obtain ⟨named, admits⟩ := permits
    obtain ⟨t', added, placed', marks'⟩ := add_spec t placed named admits
    refine ⟨t', ?_, placed', fun x => ?_⟩
    · simp only [Trie.perform, validateElement, if_neg named, ok_bind]
      exact added
    · simp only [marks', marks, TrieAction.mark, update_apply]
  | remove observedDots =>
    obtain ⟨placed', marks'⟩ := remove_spec t 0 _ placed
    exact ⟨_, rfl, placed', fun x => by rw [marks', marks]; rfl⟩
  | removeElement element observedDots =>
    obtain ⟨placed', marks'⟩ := removeElement_spec t 0 _ placed
    refine ⟨_, ?_, placed', fun x => ?_⟩
    · simp only [Trie.perform, validateElement, if_neg permits, ok_bind]
      rfl
    · simp only [marks', marks, TrieAction.mark, update_apply]
  | compact includedVV => exact permits.elim
  | contains element | getDots element =>
    refine ⟨t, ?_, placed, marks⟩
    simp only [Trie.perform, validateElement, if_neg permits]
    rfl
  | getElementState element =>
    refine ⟨t, ?_, placed, marks⟩
    simp only [Trie.perform, validateElement, if_neg permits, ok_bind]
    cases found : t.entryOf env element with
    | none => rfl
    | some entry =>
      have own := find_element t 0 _ found
      obtain ⟨state, read⟩ := elementStateOfEntry_ok (own ▸ permits)
      rw [Option.mapM_some, read]
      rfl
  | scan =>
    refine ⟨t, ?_, placed, marks⟩
    simp only [Trie.perform, collect_ok]
    rfl
  | scanElementStates =>
    have named := named_of_placed t 0 _ placed
    obtain ⟨all, read⟩ := collect_ok_of_forall fun page mem => by
        obtain ⟨states, traversed, -⟩ := mapM_ok_of_forall elementStateOfEntry
          fun entry inside => elementStateOfEntry_ok (named page mem entry inside)
        exact ⟨states, traversed⟩
    refine ⟨t, ?_, placed, marks⟩
    simp only [Trie.perform, read]
    rfl
  | flush | checkpoint => exact ⟨t, rfl, placed, marks⟩

theorem run_says (t : Trie) (contents) (says_ : t.Says env contents)
    (permitted : t.Permitted env actions) :
    ∃ t', actions.foldlM (Trie.perform env) t = .ok t' ∧
      t'.Says env (actions.foldl TrieAction.mark contents) := by
  induction actions generalizing t contents with
  | nil => exact ⟨t, rfl, says_⟩
  | cons action rest ih =>
    obtain ⟨permits, later⟩ := permitted
    obtain ⟨middle, called, says'⟩ := perform_says t contents says_ permits
    obtain ⟨t', ran, says''⟩ := ih middle _ says' (later middle called)
    refine ⟨t', ?_, says''⟩
    rw [foldlM_cons, called, ok_bind, ran]

/-- A call that goes through was permitted, unless it compacts. -/
theorem permits_of_perform (t) (placed : Placed env.geometry env.blake3 t 0 fun _ => True)
    (keeps : ∀ includedVV, action ≠ .compact includedVV) (called : t.perform env action = .ok t') :
    t.Permits env action := by
  have validated : ∀ (element : JsString) (next : Except Failure Trie),
      (validateElement element >>= fun _ => next) = .ok t' → element ≠ [] ∧ next = .ok t' := by
    intro element next whole
    obtain ⟨unit, checked, rest⟩ := bind_eq_ok.mp whole
    refine ⟨fun nameless => ?_, rest⟩
    rw [validateElement, if_pos nameless] at checked
    cases checked
  cases action with
  | add element dot =>
    obtain ⟨named, added⟩ := validated element _ called
    exact ⟨named, (add_ok_iff t placed named).mp ⟨t', added⟩⟩
  | removeElement element observedDots | contains element | getDots element
  | getElementState element => exact (validated element _ called).1
  | compact includedVV => exact absurd rfl (keeps includedVV)
  | remove observedDots | scan | scanElementStates | flush | checkpoint => trivial

theorem permitted_of_run (t : Trie) (contents) (says_ : t.Says env contents)
    (keeps : ∀ action ∈ actions, ∀ vv, action ≠ .compact vv) (t')
    (ran : actions.foldlM (Trie.perform env) t = .ok t') : t.Permitted env actions := by
  induction actions generalizing t contents with
  | nil => trivial
  | cons action rest ih =>
    rw [forall_mem_cons] at keeps
    obtain ⟨middle, called, later⟩ := bind_eq_ok.mp ran
    have permits := permits_of_perform t says_.placed keeps.1 called
    refine ⟨permits, fun next again => ?_⟩
    obtain ⟨same, ok, says'⟩ := perform_says t contents says_ permits
    -- the call has one result only
    cases Except.ok.inj (called.symm.trans ok)
    cases Except.ok.inj (called.symm.trans again)
    exact ih middle _ says' keeps.2 later

end Trie

/-! ### Answers of a run -/

variable {S : Type}

/-- A run without compaction goes through, every element answers with its own dots, and
every entry lies under its element's suffix or keeps its tag, exactly when the additions
are all admitted. -/
theorem collisions_lossless (env : TrieEnv S) (lawful : env.Lawful) (s : S)
    (actions : List TrieAction) (keeps : ∀ action ∈ actions, ∀ vv, action ≠ .compact vv) :
    (∃ st, actions.foldlM TrieState.perform (TrieState.empty env s) = .ok st ∧
      (∀ element, element ≠ [] → answer (st.cursor.contains env st.store element) =
        .ok ((contentsOf actions element).any fun marks => decide (marks.dots.size ≠ 0))) ∧
      (∀ element, element ≠ [] → answer (st.cursor.getDots env st.store element) =
        .ok (((contentsOf actions element).map Marks.dots).getD .empty)) ∧
      ∃ t, st.Holds t ∧ t.Placed env.geometry env.blake3 0 fun _ => True) ↔
        Trie.Permitted env .absent actions := by
  have empty : Trie.absent.Says env fun _ => none := ⟨trivial, fun _ => rfl⟩
  constructor
  · rintro ⟨st, reached, -⟩
    obtain ⟨t, ran, -⟩ := (run_spec lawful).ok_left reached
    exact Trie.permitted_of_run .absent _ empty keeps t ran
  intro permitted
  obtain ⟨t, ran, placed, marks⟩ := Trie.run_says .absent (fun _ => none) empty permitted
  obtain ⟨st, reached, holds⟩ := (run_spec lawful).ok_right ran
  have held : ∀ x, (t.entryOf env x).map TrieLeafEntry.marks = contentsOf actions x := marks
  refine ⟨st, reached, fun element named => ?_, fun element named => ?_, t, holds, placed⟩
  · rw [contains_answer holds.shown, validateElement, if_neg named, ok_bind, ← held, Option.any_map]
    rfl
  · rw [getDots_answer holds.shown, validateElement, if_neg named, ok_bind, ← held, Option.map_map]
    rfl

/-! ### Colliding elements -/

namespace Trie

variable (g : TrieGeometry) (blake3 : Blake3)

instance decidableAdmits (element : JsString) :
    ∀ (t : Trie) (depth : Nat), Decidable (t.Admits g blake3 element depth)
  | absent, _ => inferInstanceAs (Decidable True)
  | leaf page, depth => decidableLeafAdmits g blake3 depth element page
  | branch children, depth =>
    decidableAdmits element (children ((routeOf blake3 element).nibble g depth)) (depth + 1)

variable (env : TrieEnv S)

instance decidablePermits (t : Trie) : ∀ action, Decidable (t.Permits env action)
  | .add element _ => inferInstanceAs (Decidable (element ≠ [] ∧ t.Admits _ _ element 0))
  | .removeElement element _ => inferInstanceAs (Decidable (element ≠ []))
  | .contains element => inferInstanceAs (Decidable (element ≠ []))
  | .getDots element => inferInstanceAs (Decidable (element ≠ []))
  | .getElementState element => inferInstanceAs (Decidable (element ≠ []))
  | .compact _ => inferInstanceAs (Decidable False)
  | .remove _ => inferInstanceAs (Decidable True)
  | .scan => inferInstanceAs (Decidable True)
  | .scanElementStates => inferInstanceAs (Decidable True)
  | .flush => inferInstanceAs (Decidable True)
  | .checkpoint => inferInstanceAs (Decidable True)

def permittedFrom (t : Trie) : List TrieAction → Bool
  | [] => true
  | action :: rest => decide (t.Permits env action) &&
    match t.perform env action with
    | .ok t' => permittedFrom t' rest
    | .error _ => true

theorem permitted_iff (t) : t.Permitted env actions ↔ permittedFrom env t actions = true := by
  induction actions generalizing t with
  | nil => simp [Permitted, permittedFrom]
  | cons action rest ih =>
    rw [Permitted, permittedFrom, Bool.and_eq_true, decide_eq_true_eq]
    cases t.perform env action with
    | error e => simp
    | ok t' => simp [ih]

instance decidablePermitted (t : Trie) (actions : List TrieAction) :
    Decidable (t.Permitted env actions) :=
  decidable_of_iff _ (permitted_iff env t).symm

end Trie

/-- The hash of the replacement character, which every lone surrogate is encoded as. -/
def surrogateBlake3 : Blake3 := fun bytes =>
  if bytes = [0xEF, 0xBF, 0xBD] then
    digest 0x5a4a50b1449c12d00cf8ab8c417a74375282d248c11349399e80b43e43f2432c
  else letterBlake3 bytes

def surrogateDot (counter : Nat) (positive : 0 < counter) : Dot := ⟨lit "w", counter, w_named, positive⟩

def twoSurrogates : List TrieAction :=
  [.add [0xD800] (surrogateDot 1 Nat.one_pos), .add [0xD902] (surrogateDot 2 Nat.two_pos),
    .removeElement [0xD800] (.ofList [lit "w:1"]), .add (lit "a") (surrogateDot 3 counter_three)]

theorem collisions_lossless_two_surrogates :
    ∃ st, twoSurrogates.foldlM TrieState.perform
        (TrieState.empty (memoryEnv .default16way surrogateBlake3) []) = .ok st ∧
      ∀ element, element ≠ [] → answer (st.cursor.contains (memoryEnv .default16way surrogateBlake3)
          st.store element) =
        .ok ((contentsOf twoSurrogates element).any fun marks => decide (marks.dots.size ≠ 0)) := by
  have keeps : ∀ action ∈ twoSurrogates, ∀ vv, action ≠ .compact vv := by simp [twoSurrogates]
  obtain ⟨st, reached, present, -⟩ := (collisions_lossless (memoryEnv .default16way surrogateBlake3)
    memoryEnv_lawful [] twoSurrogates keeps).mpr (by decide +kernel)
  exact ⟨st, reached, present⟩

/-- A run of additions in memory, and whether it goes through. -/
def surrogateRun (actions : List TrieAction) : Bool :=
  (actions.foldlM TrieState.perform
    (TrieState.empty (memoryEnv .default16way surrogateBlake3) [])).isOk

/-- Two elements have one route, and adding the second one again throws. -/
theorem second_of_colliding_throws :
    routeOf surrogateBlake3 [0xD800] = routeOf surrogateBlake3 [0xD902] ∧
      surrogateRun [.add [0xD800] (surrogateDot 1 Nat.one_pos),
        .add [0xD902] (surrogateDot 2 Nat.two_pos)] = true ∧
      surrogateRun [.add [0xD800] (surrogateDot 1 Nat.one_pos),
        .add [0xD902] (surrogateDot 2 Nat.two_pos), .add [0xD902] (surrogateDot 3 counter_three)] =
          false := by
  refine ⟨rfl, ?_, ?_⟩
  · decide +kernel
  · decide +kernel

end GitWarp
