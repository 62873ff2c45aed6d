import GitWarp.Trie.Tree

/-!
# What a leaf says of its elements

The entries of a leaf are read as the marks of elements: which dots are live and which
are tombstoned. An entry lies under the suffix of its element's route key, or under that
suffix with a tag behind it where another element has the same route.
-/
namespace GitWarp

open Js Lib List

/-! ### Marks -/

/-- The live and the tombstoned dots of an element. -/
structure Marks where
  dots : OrdSet JsString
  tombstonedDots : OrdSet JsString
  deriving DecidableEq

namespace Marks

/-- A tombstoned dot stays tombstoned. -/
def add (encodedDot : JsString) : Option Marks → Marks
  | none => ⟨.ofList [encodedDot], .empty⟩
  | some marks =>
    if marks.tombstonedDots.has encodedDot then marks
    else { marks with dots := marks.dots.add encodedDot }

def remove (observedDots : OrdSet JsString) (marks : Marks) : Marks where
  dots := marks.dots.filter fun dot => !observedDots.has dot
  tombstonedDots := marks.tombstonedDots.addAll (marks.dots.toList.filter observedDots.has)

end Marks

def TrieLeafEntry.marks (entry : TrieLeafEntry) : Marks := ⟨entry.dots, entry.tombstonedDots⟩

def TrieLeaf.marksOf (page : TrieLeaf) (element : JsString) : Option Marks :=
  (page.entries.find? fun entry => entry.element = element).map TrieLeafEntry.marks

/-- Every element has one entry. -/
def OneEntry (entries : List TrieLeafEntry) : Prop :=
  ∀ a ∈ entries, ∀ b ∈ entries, a.element = b.element → a = b

theorem OneEntry.find_iff (one : OneEntry entries) :
    (entries.find? fun entry => entry.element = element) = some entry ↔
      entry ∈ entries ∧ entry.element = element := by
  constructor
  · intro found
    exact ⟨List.mem_of_find?_eq_some found, by simpa using List.find?_some found⟩
  · rintro ⟨inside, named⟩
    cases found : entries.find? fun entry => entry.element = element with
    | none => exact absurd named (by simpa using List.find?_eq_none.mp found entry inside)
    | some other =>
      have same : other.element = element := by simpa using List.find?_some found
      rw [one other (List.mem_of_find?_eq_some found) entry inside (same.trans named.symm)]

variable {leadsHere : RouteKey → Prop} {page : TrieLeaf} {depth : Nat}

theorem TrieLeaf.marksOf_iff (one : OneEntry page.entries) (element marks) :
    page.marksOf element = some marks ↔
      ∃ entry ∈ page.entries, entry.element = element ∧ entry.marks = marks := by
  simp only [TrieLeaf.marksOf, Option.map_eq_some_iff, one.find_iff, and_assoc]

theorem TrieLeaf.marksOf_congr {next : TrieLeaf} (one : OneEntry page.entries)
    (one' : OneEntry next.entries) (element element')
    (same : ∀ marks, (∃ entry ∈ page.entries, entry.element = element ∧ entry.marks = marks) ↔
      ∃ entry ∈ next.entries, entry.element = element' ∧ entry.marks = marks) :
    page.marksOf element = next.marksOf element' := by
  apply Option.ext
  intro marks
  exact (marksOf_iff one element marks).trans ((same marks).trans (marksOf_iff one' element' marks).symm)

/-! ### Suffixes -/

theorem suffix_eq_iff (g) (route other depth) :
    suffixOfRouteKey g route depth = suffixOfRouteKey g other depth ↔
      ∀ i, depth ≤ i → i < g.maxDepth → route.nibble g i = other.nibble g i := by
  constructor
  · exact fun same i from_ inside => nibble_eq_of_suffix_eq g route same from_ inside
  · intro same
    refine foldl_ext _ _ _ fun out i mem => ?_
    have small := mem_range.mp mem
    rw [same (depth + i) (by omega) (by omega)]

theorem suffix_eq_of_next (g) (nibble : route.nibble g depth = other.nibble g depth)
    (next : suffixOfRouteKey g route (depth + 1) = suffixOfRouteKey g other (depth + 1)) :
    suffixOfRouteKey g route depth = suffixOfRouteKey g other depth := by
  rw [suffix_eq_iff] at next ⊢
  intro i from_ inside
  by_cases first : i = depth
  · exact first ▸ nibble
  · exact next i (by omega) inside

/-! ### Searching -/

theorem prefix_of_between (suffix x y) (low : ¬ compareBytes x suffix < 0)
    (high : ¬ compareBytes y x < 0) (continued : suffix <+: y) : suffix <+: x := by
  rw [compareBytes_neg_iff] at low high
  induction suffix generalizing x y with
  | nil => exact nil_prefix
  | cons a suffix ih =>
    obtain ⟨y', rfl⟩ : ∃ y', y = a :: y' := by
      obtain ⟨more, rfl⟩ := continued
      exact ⟨_, rfl⟩
    rw [cons_prefix_cons] at continued
    cases x with
    | nil => exact absurd (by simp [bytesKey]) low
    | cons b x =>
      simp only [bytesKey, map_cons, cons_lt_cons_iff, not_or, not_and] at low high
      have same : a = b := BitVec.eq_of_toNat_eq (by omega)
      subst same
      rw [cons_prefix_cons]
      exact ⟨rfl, ih x y' (low.2 rfl) (high.2 rfl) continued.2⟩

theorem not_below_of_start (suffix y : Bytes) (continued : suffix <+: y) :
    ¬ compareBytes y suffix < 0 := by
  rw [compareBytes_neg_iff]
  induction suffix generalizing y with
  | nil => simp [bytesKey]
  | cons a suffix ih =>
    obtain ⟨more, rfl⟩ := continued
    have later := ih (suffix ++ more) (prefix_append _ _)
    simpa [bytesKey, cons_lt_cons_iff] using later

variable (entries : List TrieLeafEntry) (suffix : Bytes)

theorem compareAt_getElem (inside) :
    TrieLeaf.compareAt entries suffix i = compareBytes (entries[i]).routeKeySuffix suffix := by
  simp [TrieLeaf.compareAt, inside]

theorem SortedEntries.getElem {entries} (sorted : SortedEntries entries) (before : i < j)
    (inside : j < entries.length) :
    compareBytes (entries[i]).routeKeySuffix (entries[j]).routeKeySuffix < 0 :=
  pairwise_iff_getElem.mp sorted i j (by omega) inside before

theorem findInsertIndex_spec (sorted : SortedEntries entries) (suffix) :
    (∀ entry ∈ entries.take (findInsertIndex entries suffix),
      compareBytes entry.routeKeySuffix suffix < 0) ∧
    (∀ entry ∈ entries.drop (findInsertIndex entries suffix),
      ¬ compareBytes entry.routeKeySuffix suffix < 0) ∧
    findInsertIndex entries suffix ≤ entries.length := by
  -- the entries before the insertion index are below the suffix, the others are not
  have spec := lowerBoundLoop_spec
    (fun i => decide (TrieLeaf.compareAt entries suffix i < 0))
    (by
      intro i j before inside below
      rw [decide_eq_true_eq, compareAt_getElem entries suffix inside] at below
      rw [decide_eq_true_eq, compareAt_getElem entries suffix (by omega)]
      have step := sorted.getElem before inside
      rw [compareBytes_neg_iff] at step below ⊢
      exact step.trans below)
    (entries.length + 1) 0 entries.length (by omega) (by omega) (le_refl _)
    (fun i small => absurd small (Nat.not_lt_zero i)) (fun i large small => by omega)
  obtain ⟨inside, left, right⟩ := spec
  refine ⟨?_, ?_, inside⟩
  · intro entry mem
    obtain ⟨i, small, rfl⟩ := mem_take_iff_getElem.mp mem
    have below := left i (by change i < findInsertIndex entries suffix; omega)
    rwa [decide_eq_true_eq, compareAt_getElem entries suffix (by omega)] at below
  · intro entry mem
    obtain ⟨i, small, rfl⟩ := mem_drop_iff_getElem.mp mem
    have above := right (findInsertIndex entries suffix + i)
      (by change findInsertIndex entries suffix ≤ _; omega) (by omega)
    rw [decide_eq_false_iff_not, compareAt_getElem entries suffix (by omega)] at above
    convert above using 3

theorem TrieLeaf.binarySearch_some (page : TrieLeaf) {suffix i}
    (found : page.binarySearch suffix = some i) :
    ∃ entry, page.entries[i]? = some entry ∧ entry.routeKeySuffix = suffix := by
  obtain ⟨hit, -, inside⟩ := searchLoop_some _ _ _ _ i found
  rw [compareAt_getElem page.entries suffix inside, compareBytes_eq_zero_iff] at hit
  exact ⟨page.entries[i], List.getElem?_eq_getElem inside, hit⟩

theorem TrieLeaf.binarySearch_none (page : TrieLeaf) {suffix}
    (missed : page.binarySearch suffix = none) :
    ∀ entry ∈ page.entries, entry.routeKeySuffix ≠ suffix := by
  intro entry mem
  obtain ⟨i, inside, rfl⟩ := mem_iff_getElem.mp mem
  have apart := searchLoop_none
    (by
      intro i j before within notAbove
      rw [compareAt_getElem page.entries suffix within] at notAbove
      rw [compareAt_getElem page.entries suffix (by omega), compareBytes_neg_iff]
      have step := page.sorted.getElem before within
      rw [compareBytes_neg_iff] at step
      rcases lt_or_eq_of_le notAbove with below | same
      · exact step.trans ((compareBytes_neg_iff _ _).mp below)
      · rwa [(compareBytes_eq_zero_iff _ _).mp same] at step)
    _ 0 page.entries.length (by omega) (le_refl _) missed i (Nat.zero_le i) inside
  rw [compareAt_getElem page.entries suffix inside, ne_eq, compareBytes_eq_zero_iff] at apart
  exact apart

/-! ### Lookup -/

variable (element : JsString)

theorem scanForCollisionTaggedEntry_spec (entries)
    (together : entries.Pairwise fun a b => suffix <+: b.routeKeySuffix →
      suffix <+: a.routeKeySuffix) :
    scanForCollisionTaggedEntry suffix element entries =
      entries.find? fun entry => decide (suffix <+: entry.routeKeySuffix ∧ entry.element = element) := by
  -- the scan stops at the first entry that does not continue the suffix
  induction entries with
  | nil => rfl
  | cons entry rest ih =>
    obtain ⟨first, others⟩ := pairwise_cons.mp together
    rw [scanForCollisionTaggedEntry]
    by_cases continued : suffix <+: entry.routeKeySuffix
    · rw [if_pos ( isPrefixOf_iff_prefix.mpr continued), ih others]
      by_cases named : entry.element = element
      · simp [named, continued]
      · simp [named]
    · have stops : ¬ suffix.isPrefixOf entry.routeKeySuffix = true := fun found =>
        continued ( isPrefixOf_iff_prefix.mp found)
      rw [if_neg stops]
      symm
      rw [List.find?_eq_none]
      intro other mem
      rcases mem_cons.mp mem with rfl | inside
      · simp [continued]
      · have apart : ¬ suffix <+: other.routeKeySuffix :=
          fun later => continued (first other inside later)
        simp [apart]

/-! ### Placement -/

variable (g : TrieGeometry) (blake3 : Blake3)

def routeOf (element : JsString) : RouteKey := blake3 (textEncode element)

/-- The suffix of the element's route, and the tagged one. -/
def suffixOf (element : JsString) (depth : Nat) : Bytes :=
  suffixOfRouteKey g (routeOf blake3 element) depth

def taggedSuffixOf (element : JsString) (depth : Nat) : Bytes :=
  appendCollisionTag (suffixOf g blake3 element depth) element

/-- An entry lies under its element's suffix, or under the tagged one while another element
holds the plain one. -/
structure EntryPlaced (depth : Nat) (entries : List TrieLeafEntry) (entry : TrieLeafEntry) : Prop where
  named : entry.element ≠ []
  suffix : entry.routeKeySuffix = suffixOf g blake3 entry.element depth ∨
    entry.routeKeySuffix = taggedSuffixOf g blake3 entry.element depth ∧
      ∃ holder ∈ entries, holder.routeKeySuffix = suffixOf g blake3 entry.element depth

/-- A page of placed entries, one for each element, whose routes lead to it. -/
structure LeafPlaced (depth : Nat) (leadsHere : RouteKey → Prop) (page : TrieLeaf) : Prop where
  placed : ∀ entry ∈ page.entries, EntryPlaced g blake3 depth page.entries entry
  here : ∀ entry ∈ page.entries, leadsHere (routeOf blake3 entry.element)
  one : OneEntry page.entries

variable {g blake3}

theorem suffix_prefix_tagged : suffix <+: appendCollisionTag suffix element := prefix_append _ _

theorem EntryPlaced.prefix_ {entries entry} (placed : EntryPlaced g blake3 depth entries entry) :
    suffixOf g blake3 entry.element depth <+: entry.routeKeySuffix := by
  rcases placed.suffix with plain | ⟨tagged, -⟩
  · exact plain ▸ prefix_refl _
  · rw [tagged]
    exact suffix_prefix_tagged _ _

theorem SortedEntries.together {entries} (sorted : SortedEntries entries) {suffix}
    (above : ∀ entry ∈ entries, ¬ compareBytes entry.routeKeySuffix suffix < 0) :
    entries.Pairwise fun a b => suffix <+: b.routeKeySuffix → suffix <+: a.routeKeySuffix := by
  rw [pairwise_iff_getElem]
  intro i j small inside before continued
  refine prefix_of_between suffix _ _ (above _ (getElem_mem small)) ?_ continued
  have step := sorted.getElem before inside
  rw [compareBytes_neg_iff] at step ⊢
  exact not_lt_of_gt step

/-- A lookup finds the entry of the element, wherever it was placed. -/
theorem LeafPlaced.find_eq (leaf : LeafPlaced g blake3 depth leadsHere page) (element) :
    findEntryInLeaf g page (routeOf blake3 element) depth element =
      page.entries.find? fun entry => entry.element = element := by
  have suffixed : suffixOfRouteKey g (routeOf blake3 element) depth = suffixOf g blake3 element depth :=
    rfl
  rw [findEntryInLeaf, suffixed]
  generalize held : suffixOf g blake3 element depth = suffix
  obtain ⟨left, right, inside⟩ := findInsertIndex_spec page.entries page.sorted suffix
  -- every entry of the element continues the suffix, so none is before the insertion index
  have continues : ∀ entry ∈ page.entries, entry.element = element →
      suffix <+: entry.routeKeySuffix := by
    intro entry mem named
    rw [← held, ← named]
    exact (leaf.placed entry mem).prefix_
  have scanned : scanForCollisionTaggedEntry suffix element
      (page.entries.drop (findInsertIndex page.entries suffix)) =
        page.entries.find? fun entry => entry.element = element := by
    have sorted : SortedEntries (page.entries.drop (findInsertIndex page.entries suffix)) :=
      page.sorted.sublist (drop_sublist _ _)
    rw [scanForCollisionTaggedEntry_spec _ _ _ (sorted.together right)]
    apply Option.ext
    intro entry
    rw [leaf.one.find_iff]
    constructor
    · intro found
      have mem := List.mem_of_find?_eq_some found
      have passed := List.find?_some found
      simp only [decide_eq_true_eq] at passed
      exact ⟨mem_of_mem_drop mem, passed.2⟩
    · rintro ⟨mem, named⟩
      have continued := continues entry mem named
      have later : entry ∈ page.entries.drop (findInsertIndex page.entries suffix) := by
        rw [← take_append_drop (findInsertIndex page.entries suffix) page.entries] at mem
        rcases mem_append.mp mem with before | after
        · exact absurd (left entry before) (not_below_of_start _ _ continued)
        · exact after
      cases found : (page.entries.drop (findInsertIndex page.entries suffix)).find? fun entry =>
          decide (suffix <+: entry.routeKeySuffix ∧ entry.element = element) with
      | none =>
        have missed := List.find?_eq_none.mp found entry later
        simp [continued, named] at missed
      | some other =>
        have passed := List.find?_some found
        simp only [decide_eq_true_eq] at passed
        have member' := mem_of_mem_drop (List.mem_of_find?_eq_some found)
        rw [leaf.one other member' entry mem (passed.2.trans named.symm)]
  unfold findEntryNearSuffix
  cases searched : page.binarySearch suffix with
  | none => exact scanned
  | some exact_ =>
    obtain ⟨hit, there, -⟩ := page.binarySearch_some searched
    dsimp only
    rw [there]
    dsimp only
    split
    next named =>
      symm
      exact leaf.one.find_iff.mpr ⟨mem_of_getElem? there, named⟩
    · exact scanned

/-! ### Adding -/

theorem SortedEntries.suffix_inj {entries} (sorted : SortedEntries entries) (left : a ∈ entries)
    (right : b ∈ entries) (same : a.routeKeySuffix = b.routeKeySuffix) : a = b := by
  obtain ⟨i, inside, rfl⟩ := mem_iff_getElem.mp left
  obtain ⟨j, within, rfl⟩ := mem_iff_getElem.mp right
  have self := (compareBytes_eq_zero_iff _ _).mpr same
  rcases lt_trichotomy i j with before | rfl | after
  · have step := sorted.getElem before within
    omega
  · rfl
  · have step := sorted.getElem after inside
    rw [(compareBytes_eq_zero_iff _ _).mpr same.symm] at step
    omega

theorem mem_insertEntry (sorted : SortedEntries entries) (entry x) :
    x ∈ insertEntry entries entry ↔ x = entry ∨ x ∈ entries :=
  mem_insertIdx (findInsertIndex_spec entries sorted entry.routeKeySuffix).2.2

theorem insertIdx_eq_append {A : Type} (items : List A) {a} (i) (inside : i ≤ items.length) :
    items.insertIdx i a = items.take i ++ a :: items.drop i := by
  induction i generalizing items with
  | zero => simp
  | succ i ih =>
    cases items with
    | nil => simp at inside
    | cons first rest => simpa using ih rest (Nat.le_of_succ_le_succ inside)

theorem sortedEntries_insertEntry (sorted : SortedEntries entries)
    (fresh : ∀ x ∈ entries, x.routeKeySuffix ≠ entry.routeKeySuffix) :
    SortedEntries (insertEntry entries entry) := by
  -- insertion keeps the order, unless the suffix is there already
  obtain ⟨left, right, inside⟩ := findInsertIndex_spec entries sorted entry.routeKeySuffix
  have shape : insertEntry entries entry =
      entries.take (findInsertIndex entries entry.routeKeySuffix) ++
        entry :: entries.drop (findInsertIndex entries entry.routeKeySuffix) :=
    insertIdx_eq_append entries _ inside
  have above : ∀ x ∈ entries.drop (findInsertIndex entries entry.routeKeySuffix),
      compareEntries entry x < 0 := by
    intro x mem
    have notBelow := right x mem
    have apart := fresh x (mem_of_mem_drop mem)
    rw [compareBytes_neg_iff] at notBelow
    rw [compareEntries, compareBytes_neg_iff]
    exact lt_of_le_of_ne (not_lt.mp notBelow) fun same => apart (bytesKey_injective same).symm
  rw [shape, SortedEntries, pairwise_append]
  refine ⟨sorted.sublist (take_sublist _ _), ?_, ?_⟩
  · exact pairwise_cons.mpr ⟨above, sorted.sublist (drop_sublist _ _)⟩
  · intro a before b mem
    have small := left a before
    rcases mem_cons.mp mem with rfl | later
    · exact small
    · exact compareEntries_trans small (above b later)

variable (g blake3) in
/-- Every entry lies under its element's own suffix. -/
def Untagged (depth : Nat) (page : TrieLeaf) : Prop :=
  ∀ entry ∈ page.entries, entry.routeKeySuffix = suffixOf g blake3 entry.element depth

variable (g) in
/-- One more entry does not split the leaf. -/
def Roomy (depth : Nat) (page : TrieLeaf) : Prop := page.size < g.leafCapacity ∨ depth = g.maxDepth

variable (g) in
/-- The leaf does not split. -/
def Small (depth : Nat) (page : TrieLeaf) : Prop := page.size ≤ g.leafCapacity ∨ depth = g.maxDepth

variable (g blake3) in
/-- What a leaf has to be for the addition of a dot to go through: a new element without
a namesake may split the leaf only if no entry in it is tagged, and one with a namesake
may not split it and needs its tag for itself. -/
def LeafAdmits (depth : Nat) (element : JsString) (page : TrieLeaf) : Prop :=
  match page.entries.find? fun entry => entry.routeKeySuffix = suffixOf g blake3 element depth with
  | none => Roomy g depth page ∨ Untagged g blake3 depth page
  | some holder => holder.element = element ∨ Roomy g depth page ∧
      ∀ entry ∈ page.entries, entry.routeKeySuffix ≠ taggedSuffixOf g blake3 element depth

variable (g blake3) in
instance decidableLeafAdmits (depth : Nat) (element : JsString) (page : TrieLeaf) :
    Decidable (LeafAdmits g blake3 depth element page) := by
  unfold LeafAdmits Roomy Untagged
  split <;> infer_instance

theorem EntryPlaced.mono {entries next entry} (placed : EntryPlaced g blake3 depth entries entry)
    (kept : ∀ holder ∈ entries, ∃ holder' ∈ next, holder'.routeKeySuffix = holder.routeKeySuffix) :
    EntryPlaced g blake3 depth next entry := by
  refine ⟨placed.named, placed.suffix.imp_right ?_⟩
  rintro ⟨tagged, holder, member, held⟩
  obtain ⟨holder', member', same⟩ := kept holder member
  exact ⟨tagged, holder', member', same.trans held⟩

/-- A new entry of an element that has none. -/
theorem LeafPlaced.insert (leaf : LeafPlaced g blake3 depth leadsHere page) (entry)
    (absent : ∀ x ∈ page.entries, x.element ≠ entry.element)
    (fresh : ∀ x ∈ page.entries, x.routeKeySuffix ≠ entry.routeKeySuffix)
    (here : leadsHere (routeOf blake3 entry.element))
    (placed : EntryPlaced g blake3 depth (insertEntry page.entries entry) entry) :
    ∃ next, TrieLeaf.new (insertEntry page.entries entry) = .ok next ∧
      LeafPlaced g blake3 depth leadsHere next ∧ next.size = page.size + 1 ∧
      (∀ x, x ∈ next.entries ↔ x = entry ∨ x ∈ page.entries) ∧
      ∀ x, next.marksOf x = if x = entry.element then some entry.marks else page.marksOf x := by
  have members := mem_insertEntry page.entries page.sorted entry
  have sorted := sortedEntries_insertEntry page.entries page.sorted fresh
  have one : OneEntry (insertEntry page.entries entry) := by
    intro a left b right same
    rcases (members a).mp left with rfl | old
    · rcases (members b).mp right with rfl | older
      · rfl
      · exact absurd same.symm (absent b older)
    · rcases (members b).mp right with rfl | older
      · exact absurd same (absent a old)
      · exact leaf.one a old b older same
  refine ⟨⟨insertEntry page.entries entry, sorted⟩, TrieLeaf.new_of_sorted sorted, ⟨?_, ?_, one⟩,
    ?_, members, ?_⟩
  · intro x mem
    rcases (members x).mp mem with rfl | old
    · exact placed
    · apply (leaf.placed x old).mono
      exact fun holder inside => ⟨holder, (members holder).mpr (Or.inr inside), rfl⟩
  · intro x mem
    rcases (members x).mp mem with rfl | old
    · exact here
    · exact leaf.here x old
  · exact length_insertIdx_of_le_length
      (findInsertIndex_spec page.entries page.sorted entry.routeKeySuffix).2.2 entry
  · intro x
    by_cases own : x = entry.element
    · rw [if_pos own, TrieLeaf.marksOf_iff one]
      exact ⟨entry, (members entry).mpr (Or.inl rfl), own.symm, rfl⟩
    · rw [if_neg own]
      apply TrieLeaf.marksOf_congr one leaf.one
      intro marks
      apply exists_congr
      intro y
      constructor
      · rintro ⟨mem, named, held⟩
        rcases (members y).mp mem with rfl | old
        · exact absurd named.symm own
        · exact ⟨old, named, held⟩
      · rintro ⟨mem, named, held⟩
        exact ⟨(members y).mpr (Or.inr mem), named, held⟩

/-- Entries that keep their suffix and their element stay placed. -/
theorem LeafPlaced.rewrite (leaf : LeafPlaced g blake3 depth leadsHere page) (next) (f)
    (suffix : ∀ x, (f x).routeKeySuffix = x.routeKeySuffix)
    (element : ∀ x, (f x).element = x.element) (entries : next.entries = page.entries.map f) :
    LeafPlaced g blake3 depth leadsHere next ∧ next.size = page.size ∧ ∀ x, next.marksOf x =
        (page.entries.find? fun entry => entry.element = x).map fun entry => (f entry).marks := by
  refine ⟨⟨?_, ?_, ?_⟩, ?_, ?_⟩
  · intro x mem
    rw [entries] at mem ⊢
    obtain ⟨old, inside, rfl⟩ := mem_map.mp mem
    have placed : EntryPlaced g blake3 depth (page.entries.map f) old :=
      (leaf.placed old inside).mono fun holder held => ⟨f holder, mem_map_of_mem held, suffix holder⟩
    exact ⟨element old ▸ placed.named, by rw [suffix, element]; exact placed.suffix⟩
  · intro x mem
    rw [entries] at mem
    obtain ⟨old, inside, rfl⟩ := mem_map.mp mem
    rw [element]
    exact leaf.here old inside
  · intro a left b right same
    rw [entries] at left right
    obtain ⟨a', first, rfl⟩ := mem_map.mp left
    obtain ⟨b', second, rfl⟩ := mem_map.mp right
    rw [element, element] at same
    rw [leaf.one a' first b' second same]
  · rw [TrieLeaf.size, entries, length_map]
    rfl
  · intro x
    have kept : ((fun entry : TrieLeafEntry => decide (entry.element = x)) ∘ f) =
        fun entry => decide (entry.element = x) := by
      funext entry
      simp only [Function.comp_apply, element]
    rw [TrieLeaf.marksOf, entries, List.find?_map, kept, Option.map_map]
    rfl

theorem set_eq_map (distinct : entries.Nodup) (i) (there : entries[i]? = some old) (f)
    (others : ∀ x ∈ entries, x ≠ old → f x = x) : entries.set i (f old) = entries.map f := by
  obtain ⟨inside, at_⟩ := List.getElem?_eq_some_iff.mp there
  apply ext_getElem
  · simp
  · intro j first second
    rw [getElem_set, getElem_map]
    split
    next same =>
      subst same
      rw [at_]
    next apart =>
      have within : j < entries.length := by simpa using first
      rw [others _ (getElem_mem within)]
      intro same
      have equal := at_.trans same.symm
      exact apart (distinct.getElem_inj_iff.mp equal)

theorem SortedEntries.nodup {entries} (sorted : SortedEntries entries) : entries.Nodup := by
  apply List.Pairwise.imp _ sorted
  intro a b below same
  rw [same, compareEntries, (compareBytes_eq_zero_iff _ _).mpr rfl] at below
  exact absurd below (lt_irrefl _)

variable (g blake3) in
/-- What an addition leaves: the leaf does not split, or no entry in it is tagged. -/
def LeafReady (depth : Nat) (page : TrieLeaf) : Prop :=
  Small g depth page ∨ Untagged g blake3 depth page

theorem TrieLeaf.marksOf_of_absent {element} (absent : ∀ x ∈ page.entries, x.element ≠ element) :
    page.marksOf element = none := by
  rw [TrieLeaf.marksOf, Option.map_eq_none_iff, List.find?_eq_none]
  exact fun x mem => by simpa using absent x mem

theorem TrieLeaf.search_cases (page : TrieLeaf) (suffix) :
    (page.binarySearch suffix = none ∧
      (page.entries.find? fun entry => entry.routeKeySuffix = suffix) = none ∧
        ∀ entry ∈ page.entries, entry.routeKeySuffix ≠ suffix) ∨
      ∃ i holder, page.binarySearch suffix = some i ∧ page.entries[i]? = some holder ∧
        (page.entries.find? fun entry => entry.routeKeySuffix = suffix) = some holder ∧
          holder.routeKeySuffix = suffix := by
  cases searched : page.binarySearch suffix with
  | none =>
    have fresh := page.binarySearch_none searched
    exact Or.inl ⟨rfl, List.find?_eq_none.mpr fun x mem => by simpa using fresh x mem, fresh⟩
  | some i =>
    obtain ⟨holder, there, held⟩ := page.binarySearch_some searched
    have mem := mem_of_getElem? there
    refine Or.inr ⟨i, holder, rfl, there, ?_, held⟩
    cases hit : page.entries.find? fun entry => entry.routeKeySuffix = suffix with
    | none => exact absurd held (by simpa using List.find?_eq_none.mp hit holder mem)
    | some other =>
      have same : other.routeKeySuffix = suffix := by simpa using List.find?_some hit
      rw [page.sorted.suffix_inj (List.mem_of_find?_eq_some hit) mem (same.trans held.symm)]

section

variable (leaf : LeafPlaced g blake3 depth leadsHere page)
include leaf

theorem LeafPlaced.absent {element}
    (fresh : ∀ x ∈ page.entries, x.routeKeySuffix ≠ suffixOf g blake3 element depth) :
    ∀ x ∈ page.entries, x.element ≠ element := by
  intro x mem same
  rcases (leaf.placed x mem).suffix with plain | ⟨-, holder, inside, held⟩
  · exact fresh x mem (same ▸ plain)
  · exact fresh holder inside (same ▸ held)

theorem LeafPlaced.absent_beside {element holder} (mem : holder ∈ page.entries)
    (held : holder.routeKeySuffix = suffixOf g blake3 element depth)
    (other : holder.element ≠ element)
    (untaken : ∀ x ∈ page.entries, x.routeKeySuffix ≠ taggedSuffixOf g blake3 element depth) :
    ∀ x ∈ page.entries, x.element ≠ element := by
  intro x inside same
  rcases (leaf.placed x inside).suffix with plain | ⟨tagged, -⟩
  · -- the plain suffix is held by another element
    have sameEntry := page.sorted.suffix_inj inside mem (plain.trans (same ▸ held.symm))
    exact other (sameEntry ▸ same)
  · exact untaken x inside (same ▸ tagged)

/-- An addition that the leaf admits gives the element its dot and changes no other. -/
theorem upsertIntoLeaf_spec (small : Small g depth page) {element encodedDot : JsString}
    (named : element ≠ []) (here : leadsHere (routeOf blake3 element))
    (admits : LeafAdmits g blake3 depth element page) :
    ∃ next, upsertIntoLeaf g page (routeOf blake3 element) depth element encodedDot = .ok next ∧
      LeafPlaced g blake3 depth leadsHere next ∧ LeafReady g blake3 depth next ∧
      ∀ x, next.marksOf x =
        if x = element then some (Marks.add encodedDot (page.marksOf element)) else page.marksOf x := by
  have suffixed : suffixOfRouteKey g (routeOf blake3 element) depth = suffixOf g blake3 element depth :=
    rfl
  rw [upsertIntoLeaf, suffixed]
  unfold LeafAdmits at admits
  rcases page.search_cases (suffixOf g blake3 element depth) with
    ⟨searched, missed, fresh⟩ | ⟨i, existing, searched, there, found, held⟩
  · -- no entry is under the suffix, so the element has none
    have absent := leaf.absent fresh
    rw [searched]
    rw [missed] at admits
    obtain ⟨next, made, placed, size, members, marks⟩ := leaf.insert
      (makeEntry (suffixOf g blake3 element depth) element encodedDot) absent fresh here
      ⟨named, Or.inl rfl⟩
    refine ⟨next, made, placed, ?_, ?_⟩
    · rcases admits with roomy | untagged
      · exact Or.inl (roomy.imp_left fun room => by omega)
      · right
        intro x member
        rcases (members x).mp member with rfl | old
        · rfl
        · exact untagged x old
    · intro x
      rw [marks, TrieLeaf.marksOf_of_absent absent]
      rfl
  · have member := mem_of_getElem? there
    rw [found] at admits
    rw [searched]
    dsimp only
    rw [there]
    dsimp only
    unfold upsertAtExistingIndex
    by_cases own : existing.element = element
    · have marked : page.marksOf element = some existing.marks :=
        (TrieLeaf.marksOf_iff leaf.one element _).mpr ⟨existing, member, own, rfl⟩
      rw [if_neg (not_not.mpr own), marked]
      by_cases dead : existing.tombstonedDots.has encodedDot = true
      · refine ⟨page, if_pos dead, leaf, Or.inl small, ?_⟩
        intro x
        have same : Marks.add encodedDot (some existing.marks) = existing.marks := if_pos dead
        rw [same]
        split
        next same => rw [same, marked]
        · rfl
      · rw [if_neg dead]
        -- the entry is changed in its place
        let f : TrieLeafEntry → TrieLeafEntry := fun x =>
          if x.element = element then { x with dots := x.dots.add encodedDot } else x
        have changed : f existing = { existing with dots := existing.dots.add encodedDot } := if_pos own
        have placedAt := set_eq_map page.entries page.sorted.nodup i there f fun x inside
            apart => if_neg fun same => apart (leaf.one x inside existing member (same.trans own.symm))
        rw [changed] at placedAt
        rw [placedAt]
        have suffix : ∀ x, (f x).routeKeySuffix = x.routeKeySuffix := by
          intro x
          dsimp only [f]
          split <;> rfl
        have element_ : ∀ x, (f x).element = x.element := by
          intro x
          dsimp only [f]
          split <;> rfl
        have sorted : SortedEntries (page.entries.map f) := by
          apply sortedEntries_of_suffixes page.sorted
          rw [map_map]
          exact map_congr_left fun x _ => suffix x
        obtain ⟨placed, size, marks⟩ := leaf.rewrite ⟨page.entries.map f, sorted⟩ f suffix
          element_ rfl
        refine ⟨_, TrieLeaf.new_of_sorted sorted, placed, Or.inl ?_, ?_⟩
        · exact small.imp_left fun fits => size ▸ fits
        · intro x
          rw [marks]
          by_cases same : x = element
          · subst same
            rw [if_pos rfl, leaf.one.find_iff.mpr ⟨member, own⟩, Option.map_some, changed]
            exact congrArg some (if_neg dead).symm
          · rw [if_neg same, TrieLeaf.marksOf]
            apply Option.map_congr
            intro entry hit
            have other : entry.element = x := by simpa using List.find?_some hit
            rw [show f entry = entry from if_neg fun equal => same (other.symm.trans equal)]
    · rw [if_pos own]
      obtain ⟨roomy, untaken⟩ := admits.resolve_left own
      have absent := leaf.absent_beside member held own untaken
      obtain ⟨next, made, placed, size, members, marks⟩ := leaf.insert
        (makeEntry (taggedSuffixOf g blake3 element depth) element encodedDot) absent untaken here
        ⟨named, Or.inr ⟨rfl, existing,
          (mem_insertEntry _ page.sorted _ _).mpr (Or.inr member), held⟩⟩
      refine ⟨next, made, placed, Or.inl (roomy.imp_left fun room => by omega), ?_⟩
      intro x
      rw [marks, TrieLeaf.marksOf_of_absent absent]
      rfl

end

/-! ### Removing -/

theorem tombstoneEntry_unobserved (entry observedDots)
    (unobserved : (tombstoneEntry entry observedDots).2 = false) :
    (tombstoneEntry entry observedDots).1 = entry := by
  simp only [tombstoneEntry, any_eq_false] at unobserved
  have live : (entry.dots.filter fun dot => !observedDots.has dot) = entry.dots := by
    apply OrdSet.ext_toList
    change entry.dots.toList.filter _ = _
    rw [filter_eq_self]
    intro dot mem
    simpa using unobserved dot mem
  have moved : entry.dots.toList.filter observedDots.has = [] := by
    rw [filter_eq_nil_iff]
    exact fun dot mem => unobserved dot mem
  obtain ⟨routeKeySuffix, element, dots, tombstonedDots⟩ := entry
  simp only [tombstoneEntry] at live moved ⊢
  rw [live, moved]
  rfl

theorem tombstone_entries :
    (page.tombstone observedDots).entries =
      page.entries.map fun entry => (tombstoneEntry entry observedDots).1 := by
  unfold TrieLeaf.tombstone
  split
  next unchanged =>
    simp only [rewriteLeafWithTombstones] at unchanged
    split at unchanged
    · cases unchanged
    next none_ =>
      symm
      conv_rhs => rw [← map_id page.entries]
      apply map_congr_left
      intro entry mem
      apply tombstoneEntry_unobserved
      simpa using (any_eq_false.mp (Bool.not_eq_true _ ▸ none_)) _ (mem_map_of_mem mem)
  next next_ changed =>
    simp only [rewriteLeafWithTombstones] at changed
    split at changed
    · cases changed
      simp [map_map, Function.comp_def]
    · cases changed

/-- The entry of one element with its observed dots tombstoned. -/
def tombstoneFor (element : JsString) (observedDots : OrdSet JsString) (entry : TrieLeafEntry) :
    TrieLeafEntry :=
  if entry.element = element then (tombstoneEntry entry observedDots).1 else entry

theorem tombstoneElement_entries {element observedDots} :
    (page.tombstoneElement element observedDots).entries =
      page.entries.map (tombstoneFor element observedDots) := by
  unfold TrieLeaf.tombstoneElement
  split
  next unchanged =>
    simp only [rewriteElementWithTombstones] at unchanged
    split at unchanged
    · cases unchanged
    next none_ =>
      symm
      conv_rhs => rw [← map_id page.entries]
      apply map_congr_left
      intro entry mem
      have passed := (any_eq_false.mp (Bool.not_eq_true _ ▸ none_)) _
        (mem_map_of_mem mem)
      unfold tombstoneFor
      split
      next own =>
        apply tombstoneEntry_unobserved
        simpa [own] using passed
      · rfl
  next next_ changed =>
    simp only [rewriteElementWithTombstones] at changed
    split at changed
    · cases changed
      change List.map Prod.fst _ = _
      rw [map_map]
      apply map_congr_left
      intro entry _
      simp only [Function.comp_apply, tombstoneFor]
      split <;> rfl
    · cases changed

theorem LeafPlaced.tombstone (leaf : LeafPlaced g blake3 depth leadsHere page) :
    LeafPlaced g blake3 depth leadsHere (page.tombstone observedDots) ∧
      (page.tombstone observedDots).size = page.size ∧
      ∀ x, (page.tombstone observedDots).marksOf x = (page.marksOf x).map (Marks.remove observedDots) := by
  obtain ⟨placed, size, marks⟩ := leaf.rewrite (page.tombstone observedDots)
    (fun entry => (tombstoneEntry entry observedDots).1) (fun _ => rfl) (fun _ => rfl)
    (tombstone_entries)
  refine ⟨placed, size, fun x => ?_⟩
  rw [marks, TrieLeaf.marksOf, Option.map_map]
  rfl

theorem LeafPlaced.tombstoneElement (leaf : LeafPlaced g blake3 depth leadsHere page)
    {element observedDots} :
    LeafPlaced g blake3 depth leadsHere (page.tombstoneElement element observedDots) ∧
      (page.tombstoneElement element observedDots).size = page.size ∧
      ∀ x, (page.tombstoneElement element observedDots).marksOf x =
        if x = element then (page.marksOf element).map (Marks.remove observedDots) else page.marksOf x := by
  obtain ⟨placed, size, marks⟩ := leaf.rewrite (page.tombstoneElement element observedDots)
    (tombstoneFor element observedDots)
    (fun entry => by unfold tombstoneFor; split <;> rfl)
    (fun entry => by unfold tombstoneFor; split <;> rfl)
    (tombstoneElement_entries)
  refine ⟨placed, size, fun x => ?_⟩
  rw [marks]
  by_cases same : x = element
  · subst same
    rw [if_pos rfl, TrieLeaf.marksOf, Option.map_map]
    apply Option.map_congr
    intro entry hit
    have own : entry.element = x := by simpa using List.find?_some hit
    rw [tombstoneFor, if_pos own]
    rfl
  · rw [if_neg same, TrieLeaf.marksOf]
    apply Option.map_congr
    intro entry hit
    have own : entry.element = x := by simpa using List.find?_some hit
    rw [tombstoneFor, if_neg fun equal => same (own.symm.trans equal)]

/-! ### Splitting -/

/-- The entries of a bucket, in order. -/
def bucket (g : TrieGeometry) (page : TrieLeaf) (nibble : Nat) : List TrieLeafEntry :=
  page.entries.filter fun entry => firstNibbleOfSuffix g entry.routeKeySuffix = nibble

theorem get_pushAll (g) (entries : List TrieLeafEntry) (buckets) (nibble) :
    (entries.foldl (fun buckets entry =>
      pushIntoBucket buckets (firstNibbleOfSuffix g entry.routeKeySuffix) entry) buckets).get nibble =
      match entries.filter fun entry => firstNibbleOfSuffix g entry.routeKeySuffix = nibble with
      | [] => buckets.get nibble
      | more => some ((buckets.get nibble).getD [] ++ more) := by
  induction entries generalizing buckets with
  | nil => rfl
  | cons entry rest ih =>
    rw [foldl_cons, ih, pushIntoBucket, OrdMap.get_set]
    by_cases same : firstNibbleOfSuffix g entry.routeKeySuffix = nibble
    · rw [if_pos same, filter_cons_of_pos (by simpa using same), same]
      cases rest.filter fun entry => firstNibbleOfSuffix g entry.routeKeySuffix = nibble with
      | nil => rfl
      | cons first more => simp
    · rw [if_neg same, filter_cons_of_neg (by simpa using same)]

theorem get_partition (g) (page nibble) :
    (partitionEntriesByNextNibble g page).get nibble =
      if bucket g page nibble = [] then none else some (bucket g page nibble) := by
  rw [partitionEntriesByNextNibble, get_pushAll]
  change (match bucket g page nibble with
    | [] => OrdMap.empty.get nibble
    | more => some ((OrdMap.empty.get nibble).getD [] ++ more)) = _
  cases bucket g page nibble with
  | nil | cons first more => rfl

theorem compareEntries_le_iff (a b) :
    compareEntries a b ≤ 0 ↔ bytesKey a.routeKeySuffix ≤ bytesKey b.routeKeySuffix := by
  rw [le_iff_lt_or_eq, compareEntries, compareBytes_neg_iff, compareBytes_eq_zero_iff, le_iff_lt_or_eq]
  exact or_congr_right bytesKey_injective.eq_iff.symm

theorem sortedEntries_sortEntries (distinct : (entries.map TrieLeafEntry.routeKeySuffix).Nodup) :
    SortedEntries (sortEntries entries) := by
  have total : Std.Total fun a b : TrieLeafEntry => compareEntries a b ≤ 0 := by
    constructor
    intro a b
    rw [compareEntries_le_iff, compareEntries_le_iff]
    exact le_total _ _
  have transitive : IsTrans TrieLeafEntry fun a b => compareEntries a b ≤ 0 := by
    constructor
    intro a b c first second
    rw [compareEntries_le_iff] at first second ⊢
    exact first.trans second
  have ordered := pairwise_insertionSort (fun a b : TrieLeafEntry => compareEntries a b ≤ 0) entries
  have apart : (sortEntries entries).Pairwise fun a b => a.routeKeySuffix ≠ b.routeKeySuffix := by
    have perm := (perm_insertionSort (fun a b : TrieLeafEntry => compareEntries a b ≤ 0) entries).map
      TrieLeafEntry.routeKeySuffix
    exact pairwise_map.mp (perm.nodup_iff.mpr distinct)
  apply (ordered.and apart).imp
  rintro a b ⟨below, differs⟩
  apply lt_of_le_of_ne below
  exact fun same => differs ((compareBytes_eq_zero_iff _ _).mp same)

theorem mem_shortenEntries (g) {entries suffixNibbles x} :
    x ∈ shortenEntries g entries suffixNibbles ↔ ∃ entry ∈ entries,
      { entry with
        routeKeySuffix := shiftSuffixLeftByOneNibble g entry.routeKeySuffix suffixNibbles } = x := by
  rw [shortenEntries, sortEntries, mem_insertionSort, mem_map]

/-- A bucket of a leaf without tags is a leaf without tags, one level further down. -/
theorem LeafPlaced.bucket (leaf : LeafPlaced g blake3 depth leadsHere page)
    (untagged : Untagged g blake3 depth page) (inside : depth < g.maxDepth) (nibble) :
    ∃ part, TrieLeaf.new (shortenEntries g (bucket g page nibble) (g.maxDepth - depth)) = .ok part ∧
      LeafPlaced g blake3 (depth + 1) (fun route => leadsHere route ∧ route.nibble g depth = nibble) part ∧
      Untagged g blake3 (depth + 1) part ∧
      ∀ x, (routeOf blake3 x).nibble g depth = nibble → part.marksOf x = page.marksOf x := by
  have plain : ∀ entry ∈ page.entries,
      shiftSuffixLeftByOneNibble g entry.routeKeySuffix (g.maxDepth - depth) =
        suffixOf g blake3 entry.element (depth + 1) := by
    intro entry member
    rw [untagged entry member]
    exact shiftSuffix_suffix g (routeOf blake3 entry.element) depth inside
  have first : ∀ entry ∈ page.entries, firstNibbleOfSuffix g entry.routeKeySuffix =
      (routeOf blake3 entry.element).nibble g depth := by
    intro entry member
    rw [untagged entry member]
    exact firstNibble_suffix g (routeOf blake3 entry.element) depth inside
  have inBucket : ∀ entry, entry ∈ GitWarp.bucket g page nibble ↔
      entry ∈ page.entries ∧ (routeOf blake3 entry.element).nibble g depth = nibble := by
    intro entry
    rw [GitWarp.bucket, mem_filter, decide_eq_true_eq]
    exact and_congr_right fun member => by rw [first entry member]
  -- entries of one bucket that differ have different suffixes below it
  have distinct : (((GitWarp.bucket g page nibble).map fun entry => { entry with
      routeKeySuffix := shiftSuffixLeftByOneNibble g entry.routeKeySuffix (g.maxDepth - depth) }).map
        TrieLeafEntry.routeKeySuffix).Nodup := by
    rw [map_map]
    apply (page.sorted.nodup.filter _).map_on
    intro a left b right same
    obtain ⟨memberA, nibbleA⟩ := (inBucket a).mp left
    obtain ⟨memberB, nibbleB⟩ := (inBucket b).mp right
    simp only [Function.comp_apply] at same
    rw [plain a memberA, plain b memberB] at same
    apply page.sorted.suffix_inj memberA memberB
    rw [untagged a memberA, untagged b memberB]
    exact suffix_eq_of_next g (nibbleA.trans nibbleB.symm) same
  have sorted := sortedEntries_sortEntries _ distinct
  have members : ∀ x, x ∈ shortenEntries g (GitWarp.bucket g page nibble) (g.maxDepth - depth) ↔
      ∃ entry ∈ page.entries, (routeOf blake3 entry.element).nibble g depth = nibble ∧
        { entry with routeKeySuffix := suffixOf g blake3 entry.element (depth + 1) } = x := by
    intro x
    rw [mem_shortenEntries]
    apply exists_congr
    intro entry
    rw [inBucket, and_assoc]
    exact and_congr_right fun member => by rw [plain entry member]
  have one : OneEntry (shortenEntries g (GitWarp.bucket g page nibble) (g.maxDepth - depth)) := by
    intro a left b right same
    obtain ⟨a', memberA, -, rfl⟩ := (members a).mp left
    obtain ⟨b', memberB, -, rfl⟩ := (members b).mp right
    rw [leaf.one a' memberA b' memberB same]
  have tagless : Untagged g blake3 (depth + 1)
      ⟨shortenEntries g (GitWarp.bucket g page nibble) (g.maxDepth - depth), sorted⟩ := by
    intro x member
    obtain ⟨entry, -, -, rfl⟩ := (members x).mp member
    rfl
  refine ⟨⟨_, sorted⟩, TrieLeaf.new_of_sorted sorted, ⟨?_, ?_, one⟩, tagless, ?_⟩
  · intro x member
    refine ⟨?_, Or.inl (tagless x member)⟩
    obtain ⟨entry, old, -, rfl⟩ := (members x).mp member
    exact (leaf.placed entry old).named
  · intro x member
    obtain ⟨entry, old, leads, rfl⟩ := (members x).mp member
    exact ⟨leaf.here entry old, leads⟩
  · intro x leads
    apply TrieLeaf.marksOf_congr one leaf.one
    intro marks
    constructor
    · rintro ⟨y, member, named, held⟩
      obtain ⟨entry, old, -, rfl⟩ := (members y).mp member
      exact ⟨entry, old, named, held⟩
    · rintro ⟨entry, old, named, held⟩
      exact ⟨_, (members _).mpr ⟨entry, old, named ▸ leads, rfl⟩, named, held⟩

/-! ### What a leaf refuses -/

theorem suffixes_nodup_of_new (made : TrieLeaf.new entries = .ok page) :
    (entries.map TrieLeafEntry.routeKeySuffix).Nodup := by
  have sorted : SortedEntries entries := TrieLeaf.entries_of_new page made ▸ page.sorted
  apply pairwise_map.mpr
  apply List.Pairwise.imp _ sorted
  intro a b below same
  rw [compareEntries, (compareBytes_eq_zero_iff _ _).mpr same] at below
  exact absurd below (lt_irrefl _)

theorem fresh_of_insert {next} (entry)
    (made : TrieLeaf.new (insertEntry page.entries entry) = .ok next) :
    ∀ x ∈ page.entries, x.routeKeySuffix ≠ entry.routeKeySuffix := by
  have distinct := suffixes_nodup_of_new _ made
  have perm := (perm_insertIdx entry page.entries
    (findInsertIndex_spec page.entries page.sorted entry.routeKeySuffix).2.2).map
      TrieLeafEntry.routeKeySuffix
  rw [insertEntry, perm.nodup_iff, map_cons, nodup_cons] at distinct
  intro x mem same
  exact distinct.1 (same ▸ mem_map_of_mem mem)

theorem readBit_append (k) (inside : k < 8 * bytes.length) :
    readBitMsbFirst (bytes ++ more) k = readBitMsbFirst bytes k := by
  simp only [readBitMsbFirst]
  rw [getD_append _ _ _ _ (by omega)]

theorem shiftSuffix_tagged (g) (route element) (inside : depth < g.maxDepth) :
    shiftSuffixLeftByOneNibble g (appendCollisionTag (suffixOfRouteKey g route depth) element)
        (g.maxDepth - depth) = suffixOfRouteKey g route (depth + 1) := by
  rw [← shiftSuffix_suffix g route depth inside]
  have size := (isBits_suffixOfRouteKey g route depth).size
  have longer : (g.maxDepth - depth) * g.nibbleBits =
      (g.maxDepth - depth - 1) * g.nibbleBits + g.nibbleBits := by
    rw [← Nat.succ_mul]
    congr 1
    omega
  unfold shiftSuffixLeftByOneNibble appendCollisionTag
  apply foldl_ext
  intro out i mem
  have small := mem_range.mp mem
  rw [readBit_append _ (by omega)]

theorem firstNibble_tagged (g) (route element) (inside : depth < g.maxDepth) :
    firstNibbleOfSuffix g (appendCollisionTag (suffixOfRouteKey g route depth) element) =
      route.nibble g depth := by
  rw [← firstNibble_suffix g route depth inside]
  have size := (isBits_suffixOfRouteKey g route depth).size
  have positive : 0 < (g.maxDepth - depth) * g.nibbleBits :=
    Nat.mul_pos (by omega) g.nibbleBits_pos
  unfold firstNibbleOfSuffix appendCollisionTag
  rw [getD_append _ _ _ _ (by omega)]

theorem tagged_ne_suffix : appendCollisionTag suffix element ≠ suffix := by
  intro same
  have longer := congrArg List.length same
  simp [appendCollisionTag] at longer

/-- A leaf whose buckets are leaves again has no tagged entry: the entry that holds the
plain suffix would have the same suffix one level further down. -/
theorem LeafPlaced.untagged_of_buckets (leaf : LeafPlaced g blake3 depth leadsHere page)
    (inside : depth < g.maxDepth) (each : ∀ nibble, GitWarp.bucket g page nibble ≠ [] → ∃ part,
      TrieLeaf.new (shortenEntries g (GitWarp.bucket g page nibble) (g.maxDepth - depth)) = .ok part) :
    Untagged g blake3 depth page := by
  intro entry mem
  rcases (leaf.placed entry mem).suffix with plain | ⟨tagged, holder, inside_, held⟩
  · exact plain
  exfalso
  have first : firstNibbleOfSuffix g entry.routeKeySuffix =
      firstNibbleOfSuffix g holder.routeKeySuffix := by
    rw [tagged, held, taggedSuffixOf, suffixOf, firstNibble_tagged g _ _ inside,
      firstNibble_suffix g _ depth inside]
  have shifted : shiftSuffixLeftByOneNibble g entry.routeKeySuffix (g.maxDepth - depth) =
      shiftSuffixLeftByOneNibble g holder.routeKeySuffix (g.maxDepth - depth) := by
    rw [tagged, held, taggedSuffixOf, suffixOf, shiftSuffix_tagged g _ _ inside,
      shiftSuffix_suffix g _ depth inside]
  have left : entry ∈ GitWarp.bucket g page (firstNibbleOfSuffix g entry.routeKeySuffix) :=
    mem_filter.mpr ⟨mem, by simp⟩
  have right : holder ∈ GitWarp.bucket g page (firstNibbleOfSuffix g entry.routeKeySuffix) :=
    mem_filter.mpr ⟨inside_, by simp [first]⟩
  obtain ⟨part, made⟩ := each _ (ne_nil_of_mem left)
  have distinct := suffixes_nodup_of_new _ made
  rw [shortenEntries, sortEntries, ((perm_insertionSort _ _).map _).nodup_iff, map_map] at distinct
  have same : entry = holder := inj_on_of_nodup_map distinct left right shifted
  subst same
  exact tagged_ne_suffix _ _ (tagged.symm.trans held)

end GitWarp
