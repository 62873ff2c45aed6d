import Mathlib.Data.List.Sort
import GitWarp.Crdt.VersionVector
import GitWarp.Lib.Search
import GitWarp.Trie.RouteKey

/-!
# Trie pages

Leaves with their sorted entries, branches with their child identifiers, and the
pure transformations that the cursor and the compactor apply to them. Both pages
carry what their constructors check.
-/
namespace GitWarp

open Js Lib List

/-- The identifier of a stored page, or a placeholder for one. -/
abbrev Oid := JsString

/-! ### Leaves -/

structure TrieLeafEntry where
  routeKeySuffix : Bytes
  element : JsString
  dots : OrdSet JsString
  tombstonedDots : OrdSet JsString
  deriving DecidableEq

def compareEntries (a b : TrieLeafEntry) : Int := compareBytes a.routeKeySuffix b.routeKeySuffix

/-- Strictly increasing suffixes. -/
def SortedEntries (entries : List TrieLeafEntry) : Prop :=
  entries.Pairwise fun a b => compareEntries a b < 0

/-- The check of the leaf constructor from index `i` on, after the entry `prev`. -/
def validateEntriesFrom (prev : TrieLeafEntry) (i : Nat) : List TrieLeafEntry → Except Failure Unit
  | [] => .ok ()
  | curr :: rest =>
    if 0 ≤ compareEntries prev curr then
      .error ⟨.trieLeafError, lit "E_TRIE_LEAF_UNSORTED",
        lit "TrieLeaf entries must be strictly sorted by routeKeySuffix; violation at index " ++
          numberText i⟩
    else validateEntriesFrom curr (i + 1) rest

def validateEntriesSorted : List TrieLeafEntry → Except Failure Unit
  | [] => .ok ()
  | first :: rest => validateEntriesFrom first 1 rest

theorem compareEntries_trans (left : compareEntries a b < 0) (right : compareEntries b c < 0) :
    compareEntries a c < 0 := by
  simp only [compareEntries, compareBytes_neg_iff] at *
  exact lt_trans left right

theorem validateEntriesFrom_ok_iff (prev) (i) :
    validateEntriesFrom prev i rest = .ok () ↔ SortedEntries (prev :: rest) := by
  induction rest generalizing prev i with
  | nil => simp [validateEntriesFrom, SortedEntries]
  | cons curr rest ih =>
    simp only [validateEntriesFrom]
    split
    next unsorted =>
      refine ⟨fun impossible => (nomatch impossible), fun sorted => ?_⟩
      have first := (pairwise_cons.mp sorted).1 curr mem_cons_self
      omega
    next sorted =>
      rw [ih]
      refine ⟨fun tail => ?_, fun whole => (pairwise_cons.mp whole).2⟩
      have first : compareEntries prev curr < 0 := by omega
      refine pairwise_cons.mpr ⟨fun entry mem => ?_, tail⟩
      rcases mem_cons.mp mem with rfl | later
      · exact first
      · exact compareEntries_trans first ((pairwise_cons.mp tail).1 entry later)

theorem validateEntriesSorted_ok_iff {entries} :
    validateEntriesSorted entries = .ok () ↔ SortedEntries entries := by
  cases entries with
  | nil => simp [validateEntriesSorted, SortedEntries]
  | cons first rest => exact validateEntriesFrom_ok_iff first 1

structure TrieLeaf where
  entries : List TrieLeafEntry
  sorted : SortedEntries entries

namespace TrieLeaf

def new (entries : List TrieLeafEntry) : Except Failure TrieLeaf :=
  match valid : validateEntriesSorted entries with
  | .error e => .error e
  | .ok () => .ok ⟨entries, validateEntriesSorted_ok_iff.mp valid⟩

theorem new_of_sorted {entries} (sorted) : new entries = .ok ⟨entries, sorted⟩ := by
  have valid := validateEntriesSorted_ok_iff.mpr sorted
  unfold new
  split
  next e failed => simp [failed] at valid
  · rfl

theorem entries_of_new {entries} (leaf) (made : new entries = .ok leaf) :
    leaf.entries = entries := by
  unfold new at made
  split at made
  · cases made
  · cases made
    rfl

def size (leaf : TrieLeaf) : Nat := leaf.entries.length

/-- The comparison of the entry at a position with a suffix. -/
def compareAt (entries : List TrieLeafEntry) (suffix : Bytes) (i : Nat) : Int :=
  match entries[i]? with
  | some entry => compareBytes entry.routeKeySuffix suffix
  | none => 0

def binarySearch (leaf : TrieLeaf) (suffix : Bytes) : Option Nat :=
  searchLoop (compareAt leaf.entries suffix) (leaf.entries.length + 1) 0 leaf.entries.length

def requiresSplit (g : TrieGeometry) (leaf : TrieLeaf) : Bool := g.splitRequired leaf.size

def requiresMerge (g : TrieGeometry) (leaf : TrieLeaf) : Bool := g.mergeRequired leaf.size

end TrieLeaf

/-! ### Branches -/

/-- The check of one child slot. Nibbles are natural numbers here. -/
def validateChild (g : TrieGeometry) (nibble : Nat) (oid : Oid) : Except Failure Unit :=
  if g.fanout ≤ nibble then
    .error ⟨.trieBranchError, lit "E_TRIE_BRANCH_NIBBLE_RANGE",
      lit "TrieBranch nibble index " ++ numberText nibble ++ lit " is out of range for fanout=" ++
        numberText g.fanout⟩
  else if oid = [] then
    .error ⟨.trieBranchError, lit "E_TRIE_BRANCH_CHILD_OID",
      lit "TrieBranch child OID must be a non-empty string; received " ++ oid⟩
  else .ok ()

def validateChildren (g : TrieGeometry) : List (Nat × Oid) → Except Failure Unit
  | [] => .ok ()
  | (nibble, oid) :: rest => do
    validateChild g nibble oid
    validateChildren g rest

theorem validateChildren_ok_iff {children} :
    validateChildren g children = .ok () ↔ ∀ child ∈ children, child.1 < g.fanout ∧ child.2 ≠ [] := by
  induction children with
  | nil => simp [validateChildren]
  | cons child rest ih =>
    have one : validateChild g child.1 child.2 = .ok () ↔ child.1 < g.fanout ∧ child.2 ≠ [] := by
      unfold validateChild
      split
      next large => simp [Nat.not_lt.mpr large]
      next small => split <;> simp_all
    simp only [validateChildren, check_then_eq_ok, one, ih, mem_cons, forall_eq_or_imp]

structure TrieBranch (g : TrieGeometry) where
  children : OrdMap Nat Oid
  valid : ∀ child ∈ children.entries, child.1 < g.fanout ∧ child.2 ≠ []

namespace TrieBranch

variable {g : TrieGeometry}

def new (g : TrieGeometry) (children : OrdMap Nat Oid) : Except Failure (TrieBranch g) :=
  match valid : validateChildren g children.entries with
  | .error e => .error e
  | .ok () => .ok ⟨children, validateChildren_ok_iff.mp valid⟩

theorem new_of_valid {children : OrdMap Nat Oid} (valid) :
    new g children = .ok ⟨children, valid⟩ := by
  have checked := validateChildren_ok_iff.mpr valid
  unfold new
  split
  next e failed => simp [failed] at checked
  · rfl

def get (b : TrieBranch g) (nibble : Nat) : Option Oid := b.children.get nibble

theorem get_valid (b : TrieBranch g) (found : b.get nibble = some oid) :
    nibble < g.fanout ∧ oid ≠ [] :=
  b.valid (nibble, oid) ((b.children.mem_entries_iff nibble).mpr found)

def empty : TrieBranch g := ⟨.empty, by simp [OrdMap.empty]⟩

end TrieBranch

/-! ### Element states -/

structure ORSetElementState where
  element : JsString
  dots : OrdSet JsString
  tombstonedDots : OrdSet JsString
  named : element ≠ []

def elementStateOfEntry (entry : TrieLeafEntry) : Except Failure ORSetElementState :=
  if named : entry.element = [] then
    .error ⟨.orSetElementStateError, lit "E_ORSET_ELEMENT_STATE_INPUT",
      lit "ORSetElementState requires a non-empty element string; received " ++ entry.element⟩
  else .ok ⟨entry.element, entry.dots, entry.tombstonedDots, named⟩

/-! ### Lookup in a leaf -/

/-- `findInsertIndex`, which is also `lowerBoundOnSuffix`. -/
def findInsertIndex (entries : List TrieLeafEntry) (suffix : Bytes) : Nat :=
  lowerBoundLoop (fun i => decide (TrieLeaf.compareAt entries suffix i < 0)) (entries.length + 1) 0
    entries.length

/-- Scans entries that start with the suffix for one of the element. -/
def scanForCollisionTaggedEntry (suffix : Bytes) (element : JsString) :
    List TrieLeafEntry → Option TrieLeafEntry
  | [] => none
  | entry :: rest =>
    if suffix.isPrefixOf entry.routeKeySuffix then
      if entry.element = element then some entry
      else scanForCollisionTaggedEntry suffix element rest
    else none

/-- `findEntryByElementNearSuffix`. -/
def findEntryNearSuffix (leaf : TrieLeaf) (suffix : Bytes) (element : JsString) :
    Option TrieLeafEntry :=
  let scanned := scanForCollisionTaggedEntry suffix element
    (leaf.entries.drop (findInsertIndex leaf.entries suffix))
  match leaf.binarySearch suffix with
  | none => scanned
  | some exact_ =>
    match leaf.entries[exact_]? with
    | some hit => if hit.element = element then some hit else scanned
    | none => scanned

def findEntryInLeaf (g : TrieGeometry) (leaf : TrieLeaf) (route : RouteKey) (depth : Nat)
    (element : JsString) : Option TrieLeafEntry :=
  findEntryNearSuffix leaf (suffixOfRouteKey g route depth) element

/-! ### Adding to a leaf -/

def makeEntry (routeKeySuffix : Bytes) (element : JsString) (encodedDot : JsString) : TrieLeafEntry :=
  ⟨routeKeySuffix, element, .ofList [encodedDot], .empty⟩

/-- The last code unit's low byte, never zero. -/
def appendCollisionTag (suffix : Bytes) (element : JsString) : Bytes :=
  let tag := (element.getLastD 0).val % 256
  suffix ++ [byteOf (if tag = 0 then 1 else tag)]

def insertEntry (entries : List TrieLeafEntry) (entry : TrieLeafEntry) : List TrieLeafEntry :=
  entries.insertIdx (findInsertIndex entries entry.routeKeySuffix) entry

/-- `upsertAtExistingIndex`. -/
def upsertAtExistingIndex (leaf : TrieLeaf) (index : Nat) (existing : TrieLeafEntry) (suffix : Bytes)
    (element encodedDot : JsString) : Except Failure TrieLeaf :=
  if existing.element ≠ element then
    TrieLeaf.new (insertEntry leaf.entries
      (makeEntry (appendCollisionTag suffix element) element encodedDot))
  else if existing.tombstonedDots.has encodedDot then .ok leaf
  else
    TrieLeaf.new (leaf.entries.set index { existing with dots := existing.dots.add encodedDot })

def upsertIntoLeaf (g : TrieGeometry) (leaf : TrieLeaf) (route : RouteKey) (leafDepth : Nat)
    (element encodedDot : JsString) : Except Failure TrieLeaf :=
  let suffix := suffixOfRouteKey g route leafDepth
  match leaf.binarySearch suffix with
  | none => TrieLeaf.new (insertEntry leaf.entries (makeEntry suffix element encodedDot))
  | some index =>
    match leaf.entries[index]? with
    | none => .ok leaf
    | some existing => upsertAtExistingIndex leaf index existing suffix element encodedDot

/-! ### Splitting a leaf -/

def pushIntoBucket (buckets : OrdMap Nat (List TrieLeafEntry)) (nibble : Nat) (entry : TrieLeafEntry) :
    OrdMap Nat (List TrieLeafEntry) :=
  buckets.set nibble ((buckets.get nibble).getD [] ++ [entry])

def partitionEntriesByNextNibble (g : TrieGeometry) (leaf : TrieLeaf) :
    OrdMap Nat (List TrieLeafEntry) :=
  leaf.entries.foldl
    (fun buckets entry =>
      pushIntoBucket buckets (firstNibbleOfSuffix g entry.routeKeySuffix) entry) .empty

def sortEntries (entries : List TrieLeafEntry) : List TrieLeafEntry :=
  entries.insertionSort fun a b => compareEntries a b ≤ 0

def shortenEntries (g : TrieGeometry) (entries : List TrieLeafEntry) (suffixNibbles : Nat) :
    List TrieLeafEntry :=
  sortEntries (entries.map fun entry =>
    { entry with
      routeKeySuffix := shiftSuffixLeftByOneNibble g entry.routeKeySuffix suffixNibbles })

/-! ### Tombstones -/

/-- Moves the observed dots from the live to the tombstoned ones. -/
def tombstoneEntry (entry : TrieLeafEntry) (observedDots : OrdSet JsString) : TrieLeafEntry × Bool :=
  ({ entry with
      dots := entry.dots.filter fun dot => !observedDots.has dot
      tombstonedDots := entry.tombstonedDots.addAll (entry.dots.toList.filter observedDots.has) },
    entry.dots.toList.any observedDots.has)

/-- `rewriteLeafWithTombstones`; `none` where no entry changes. -/
def rewriteLeafWithTombstones (leaf : TrieLeaf) (observedDots : OrdSet JsString) :
    Option (List TrieLeafEntry) :=
  let results := leaf.entries.map fun entry => tombstoneEntry entry observedDots
  if results.any Prod.snd then some (results.map Prod.fst) else none

/-- `rewriteElementWithTombstones`: only the entries of one element. -/
def rewriteElementWithTombstones (leaf : TrieLeaf) (element : JsString)
    (observedDots : OrdSet JsString) : Option (List TrieLeafEntry) :=
  let results := leaf.entries.map fun entry =>
    if entry.element = element then tombstoneEntry entry observedDots else (entry, false)
  if results.any Prod.snd then some (results.map Prod.fst) else none

def liveElementsOf (leaf : TrieLeaf) : List JsString :=
  (leaf.entries.filter fun entry => entry.dots.size ≠ 0).map TrieLeafEntry.element

/-! ### Compacting, merging and collapsing leaves -/

/-- The dots that are not both tombstoned and included, in order. -/
def compactLiveDots (tombstonedDots : OrdSet JsString) (includedVV : VersionVector) :
    List JsString → Except Failure (List JsString)
  | [] => .ok []
  | dot :: rest => do
    let dropped ← if tombstonedDots.has dot then
        (fun decoded => includedVV.contains decoded) <$> Dot.decode dot
      else pure false
    let kept ← compactLiveDots tombstonedDots includedVV rest
    pure (if dropped then kept else dot :: kept)

/-- The tombstones that are not included, in order. -/
def compactTombstones (includedVV : VersionVector) : List JsString → Except Failure (List JsString)
  | [] => .ok []
  | dot :: rest => do
    let dropped := includedVV.contains (← Dot.decode dot)
    let kept ← compactTombstones includedVV rest
    pure (if dropped then kept else dot :: kept)

/-- The compacted entry, `none` if nothing is left of it, and whether it changed. -/
def compactEntry (includedVV : VersionVector) (entry : TrieLeafEntry) :
    Except Failure (Option TrieLeafEntry × Bool) := do
  let live ← compactLiveDots entry.tombstonedDots includedVV entry.dots.toList
  let tombstoned ← compactTombstones includedVV entry.tombstonedDots.toList
  if live = [] ∧ tombstoned = [] then pure (none, true)
  else
    let next := { entry with dots := .ofList live, tombstonedDots := .ofList tombstoned }
    pure (some next, decide (live.length ≠ entry.dots.size ∨ tombstoned.length ≠ entry.tombstonedDots.size))

def compactLeafEntries (includedVV : VersionVector) :
    List TrieLeafEntry → Except Failure (Bool × List TrieLeafEntry)
  | [] => .ok (false, [])
  | entry :: rest => do
    let (next, entryChanged) ← compactEntry includedVV entry
    let (changed, compacted) ← compactLeafEntries includedVV rest
    pure (entryChanged || changed, next.toList ++ compacted)

def mergeLeaves (left right : TrieLeaf) : Except Failure TrieLeaf :=
  TrieLeaf.new (sortEntries (left.entries ++ right.entries))

def collapseLeafUp (g : TrieGeometry) (leaf : TrieLeaf) (childNibble childDepth : Nat) :
    Except Failure TrieLeaf :=
  TrieLeaf.new (sortEntries (leaf.entries.map fun entry =>
    { entry with
      routeKeySuffix := prependNibbleToSuffix g entry.routeKeySuffix childNibble childDepth }))

end GitWarp
