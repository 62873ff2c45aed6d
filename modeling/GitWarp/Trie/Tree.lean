import GitWarp.Trie.Compactor

/-!
# Tries without pages

What a cursor shows, apart from which pages it has loaded or changed: a tree of
leaves and branches. Each operation of the cursor has its counterpart here, on the
same leaves with the same leaf transformations; the paging theorems relate the two.
-/
namespace GitWarp

open Js Lib TrieCursor List

inductive Trie
  | absent
  | leaf (leaf : TrieLeaf)
  | branch (children : Nat → Trie)

namespace Trie

/-- A branch without children. -/
def bare : Trie := .branch fun _ => .absent

def isAbsent : Trie → Bool
  | absent => true
  | _ => false

def leaf? : Trie → Option TrieLeaf
  | leaf page => some page
  | _ => none

variable (g : TrieGeometry)

/-! ### Reading -/

/-- The entry that a lookup along the route finds. -/
def find (route : RouteKey) (element : JsString) : Trie → Nat → Option TrieLeafEntry
  | absent, _ => none
  | leaf page, depth => findEntryInLeaf g page route depth element
  | branch children, depth =>
    if depth < g.maxDepth then find route element (children (route.nibble g depth)) (depth + 1)
    else none

/-- All leaves, in the order of the nibbles. -/
def leaves : Trie → List TrieLeaf
  | absent => []
  | leaf page => [page]
  | branch children => (List.range g.fanout).flatMap fun n => leaves (children n)

/-! ### Adding -/

/-- Splits a leaf with `remaining` levels below it, and again where a part is too large. -/
def split : Nat → TrieLeaf → Except Failure Trie
  | 0, page => .ok (leaf page)
  | remaining + 1, page => do
    let parts ← (partitionEntriesByNextNibble g page).entries.mapM fun part => do
      let partLeaf ← TrieLeaf.new (shortenEntries g part.2 (remaining + 1))
      pure (part.1, partLeaf)
    let children ← parts.foldlM (fun children part => do
      let child ← if part.2.requiresSplit g then split remaining part.2 else pure (leaf part.2)
      pure (Function.update children part.1 child)) fun _ => absent
    pure (branch children)

def insert (ctx : InsertContext) : Trie → Nat → Except Failure Trie
  | absent, depth => do
    let page ← TrieLeaf.new [makeEntry (suffixOfRouteKey g ctx.route depth) ctx.element ctx.encodedDot]
    pure (leaf page)
  | leaf page, depth => do
    let next ← upsertIntoLeaf g page ctx.route depth ctx.element ctx.encodedDot
    if next.requiresSplit g then split g (g.maxDepth - depth) next else pure (leaf next)
  | branch children, depth => do
    let nibble ← ctx.route.nibbleAt g depth
    let child ← insert ctx (children nibble) (depth + 1)
    pure (branch (Function.update children nibble child))

/-- `add`: the root of a new trie is a branch. -/
def add (ctx : InsertContext) : Trie → Except Failure Trie
  | absent => insert g ctx bare 0
  | t => insert g ctx t 0

end Trie

/-! ### Removing -/

theorem sortedEntries_of_suffixes {next} (sorted : SortedEntries entries)
    (same : next.map TrieLeafEntry.routeKeySuffix = entries.map TrieLeafEntry.routeKeySuffix) :
    SortedEntries next := by
  have suffixes : ∀ entries : List TrieLeafEntry, SortedEntries entries ↔
      (entries.map TrieLeafEntry.routeKeySuffix).Pairwise fun a b => compareBytes a b < 0 := by
    intro entries
    rw [pairwise_map]
    rfl
  rw [suffixes, same, ← suffixes]
  exact sorted

theorem rewriteLeaf_suffixes {next} {leaf}
    (changed : rewriteLeafWithTombstones leaf observedDots = some next) :
    next.map TrieLeafEntry.routeKeySuffix = leaf.entries.map TrieLeafEntry.routeKeySuffix := by
  simp only [rewriteLeafWithTombstones] at changed
  split at changed
  · cases changed
    simp only [map_map]
    exact map_congr_left fun entry _ => rfl
  · cases changed

theorem rewriteElement_suffixes {next} {leaf}
    (changed : rewriteElementWithTombstones leaf element observedDots = some next) :
    next.map TrieLeafEntry.routeKeySuffix = leaf.entries.map TrieLeafEntry.routeKeySuffix := by
  simp only [rewriteElementWithTombstones] at changed
  split at changed
  · cases changed
    simp only [map_map]
    refine map_congr_left fun entry _ => ?_
    simp only [Function.comp_apply]
    split <;> rfl
  · cases changed

/-- The leaf after a tombstone walk has passed it. -/
def TrieLeaf.tombstone (leaf : TrieLeaf) (observedDots : OrdSet JsString) : TrieLeaf :=
  match changed : rewriteLeafWithTombstones leaf observedDots with
  | none => leaf
  | some next => ⟨next, sortedEntries_of_suffixes leaf.sorted (rewriteLeaf_suffixes changed)⟩

def TrieLeaf.tombstoneElement (leaf : TrieLeaf) (element : JsString)
    (observedDots : OrdSet JsString) : TrieLeaf :=
  match changed : rewriteElementWithTombstones leaf element observedDots with
  | none => leaf
  | some next => ⟨next, sortedEntries_of_suffixes leaf.sorted (rewriteElement_suffixes changed)⟩

namespace Trie

variable (g : TrieGeometry)

def remove (observedDots : OrdSet JsString) : Trie → Trie
  | absent => absent
  | leaf page => leaf (page.tombstone observedDots)
  | branch children => branch fun n => remove observedDots (children n)

/-- Only the leaf on the element's route changes, and only if it has the element. -/
def removeElement (route : RouteKey) (element : JsString) (observedDots : OrdSet JsString) :
    Trie → Nat → Trie
  | absent, _ => absent
  | leaf page, depth =>
    match findEntryInLeaf g page route depth element with
    | none => leaf page
    | some _ => leaf (page.tombstoneElement element observedDots)
  | branch children, depth =>
    if depth < g.maxDepth then
      branch (Function.update children (route.nibble g depth)
        (removeElement route element observedDots (children (route.nibble g depth)) (depth + 1)))
    else branch children

/-! ### Compacting -/

def compactLeaf (includedVV : VersionVector) (page : TrieLeaf) : Except Failure Trie := do
  let (changed, entries) ← compactLeafEntries includedVV page.entries
  if !changed then pure (leaf page)
  else if entries = [] then pure absent
  else
    let next ← TrieLeaf.new entries
    pure (leaf next)

/-- Every child of a branch, in the order of the nibbles. -/
def traverse (f : Nat → Except Failure Trie) : Except Failure (Nat → Trie) :=
  (List.range g.fanout).foldlM (fun children n => do
    let child ← f n
    pure (Function.update children n child)) fun _ => absent

def mergeSiblings : Nat → (Nat → Trie) → Except Failure (Nat → Trie)
  | 0, children => .ok children
  | rounds + 1, children =>
    let leafOf := fun n => (children n).leaf?
    match findMergePair g leafOf (List.range g.fanout) with
    | none => .ok children
    | some (keep, drop_) =>
      match leafOf keep, leafOf drop_ with
      | some left, some right => do
        let merged ← mergeLeaves left right
        mergeSiblings rounds
          (Function.update (Function.update children keep (leaf merged)) drop_ absent)
      | _, _ => .ok children

/-- What is left of a branch at a depth: nothing, its only leaf pulled up, or a branch. -/
def rewrite (children : Nat → Trie) (depth : Nat) : Except Failure Trie :=
  match (List.range g.fanout).filter fun n => !(children n).isAbsent with
  | [] => if depth = 0 then .ok bare else .ok absent
  | [only] =>
    match (children only).leaf? with
    | some page =>
      if depth = 0 then .ok (branch children)
      else do
        let collapsed ← collapseLeafUp g page only (depth + 1)
        pure (leaf collapsed)
    | none => .ok (branch children)
  | _ => .ok (branch children)

def compact (includedVV : VersionVector) : Trie → Nat → Except Failure Trie
  | absent, _ => .ok absent
  | leaf page, _ => compactLeaf includedVV page
  | branch children, depth => do
    let compacted ← traverse g fun n => compact includedVV (children n) (depth + 1)
    let merged ← mergeSiblings g g.fanout compacted
    rewrite g merged depth

/-! ### Subtrees -/

def sub : Trie → Path → Trie
  | t, [] => t
  | branch children, n :: rest => sub (children n) rest
  | _, _ :: _ => absent

def setAt : Trie → Path → Trie → Trie
  | _, [], u => u
  | branch children, n :: rest, u => branch (Function.update children n (setAt (children n) rest u))
  | t, _ :: _, _ => t

/-! ### Depth -/

/-- No page lies more than `levels` levels below the root of the tree. -/
def Fits : Trie → Nat → Prop
  | absent, _ => True
  | leaf _, levels => 0 < levels
  | branch children, levels => 0 < levels ∧ ∀ n, Fits (children n) (levels - 1)

/-- Children sit under nibbles of the geometry only. -/
def Bounded : Trie → Prop
  | absent => True
  | leaf _ => True
  | branch children => (∀ n, g.fanout ≤ n → children n = absent) ∧ ∀ n, Bounded (children n)

theorem not_fits_zero {t : Trie} (there : t ≠ absent) : ¬ t.Fits 0 := by
  cases t <;> simp_all [Fits]

variable {g} {page : TrieBranch g}

theorem branch_bounded (page : TrieBranch g) {children : Nat → Trie}
    (bare : ∀ n, page.get n = none → children n = absent)
    (inside : ∀ n child, page.get n = some child → (children n).Bounded g) :
    (branch children).Bounded g := by
  constructor
  · intro n outside
    cases taken : page.get n with
    | none => exact bare n taken
    | some child => exact absurd (page.get_valid taken).1 (Nat.not_lt_of_le outside)
  · intro n
    cases taken : page.get n with
    | none =>
      rw [bare n taken]
      trivial
    | some child => exact inside n child taken

theorem fresh_of_entries {child done} (whole : page.children.entries = done ++ (n, child) :: rest) :
    page.get n = some child ∧ n ∉ done.map Prod.fst := by
  refine ⟨(OrdMap.mem_entries_iff _ _).mp (by rw [whole]; simp), ?_⟩
  have nodup := page.children.nodup
  rw [whole, map_append, nodup_append] at nodup
  exact fun again => nodup.2.2 n again n (by simp) rfl

end Trie
end GitWarp
