import GitWarp.Trie.Cursor

/-!
# The trie compactor

Compaction walks the whole trie bottom up. It drops the dots that `ORSet.compact`
drops, removes pages that become empty, merges sibling leaves that fell below the
floor, and pulls a leaf that is the only child of a branch up into its place.
-/
namespace GitWarp

open Js Lib

variable {S : Type} {g : TrieGeometry}

/-- What a subtree has become, and whether it changed. -/
inductive NodeState (g : TrieGeometry)
  | absent (changed : Bool)
  | leaf (changed : Bool) (leaf : TrieLeaf)
  | branch (changed : Bool) (branch : TrieBranch g)

namespace NodeState

def changed : NodeState g → Bool
  | absent changed => changed
  | leaf changed _ => changed
  | branch changed _ => changed

def isAbsent : NodeState g → Bool
  | absent _ => true
  | _ => false

def leaf? : NodeState g → Option TrieLeaf
  | leaf _ page => some page
  | _ => none

end NodeState

abbrev ChildStates (g : TrieGeometry) := OrdMap Nat (NodeState g)

/-- The leaf among the states at a nibble. -/
def ChildStates.leafOf (childStates : ChildStates g) (nibble : Nat) : Option TrieLeaf :=
  (childStates.get nibble).bind NodeState.leaf?

/-- Two sibling leaves may merge when the first is below the floor and both fit one leaf. -/
def mergeable (g : TrieGeometry) (leafOf : Nat → Option TrieLeaf) (nibble sibling : Nat) : Bool :=
  match leafOf nibble, leafOf sibling with
  | some leaf, some other =>
    leaf.requiresMerge g && decide (sibling ≠ nibble) &&
      decide (leaf.size + other.size ≤ g.leafCapacity)
  | _, _ => false

/-- The first mergeable pair in the order of the nibbles, smaller nibble first. -/
def findMergePair (g : TrieGeometry) (leafOf : Nat → Option TrieLeaf) (nibbles : List Nat) :
    Option (Nat × Nat) :=
  nibbles.findSome? fun nibble =>
    (nibbles.find? (mergeable g leafOf nibble)).map fun sibling =>
      (min nibble sibling, max nibble sibling)

structure MergeCandidate where
  keepNibble : Nat
  dropNibble : Nat
  mergedLeaf : TrieLeaf

def findMergeCandidate (childStates : ChildStates g) : Except Failure (Option MergeCandidate) :=
  match findMergePair g (ChildStates.leafOf childStates) (TrieCursor.sortNibbles childStates.keys) with
  | none => .ok none
  | some (keep, drop_) =>
    match ChildStates.leafOf childStates keep, ChildStates.leafOf childStates drop_ with
    | some left, some right => do
      let merged ← mergeLeaves left right
      pure (some ⟨keep, drop_, merged⟩)
    | _, _ => .ok none

namespace TrieCursor

/-- `#mergeSiblingLeaves`: every round removes one of at most `fanout` children, so that
many rounds are enough. -/
def mergeSiblingLeaves (path : Path) : Nat → TrieCursor g → ChildStates g → Bool →
    Except Failure (TrieCursor g × ChildStates g × Bool)
  | 0, c, childStates, merged => .ok (c, childStates, merged)
  | rounds + 1, c, childStates, merged => do
    match ← findMergeCandidate childStates with
    | none => pure (c, childStates, merged)
    | some candidate =>
      let next := (c.markLeafDirty (path ++ [candidate.keepNibble]) candidate.mergedLeaf).clearLeafAt
        (path ++ [candidate.dropNibble])
      mergeSiblingLeaves path rounds next
        ((childStates.set candidate.keepNibble (.leaf true candidate.mergedLeaf)).delete
          candidate.dropNibble) true

/-- The children that `#rewriteBranch` keeps, with a placeholder where one changed. -/
def nextChildren (path : Path) (childStates : ChildStates g) (entries : List (Nat × Oid)) :
    OrdMap Nat Oid :=
  entries.foldl (fun next child =>
    match childStates.get child.1 with
    | none => next
    | some state =>
      if state.isAbsent then next
      else next.set child.1 (if state.changed then pendingChildOid path child.1 else child.2)) .empty

/-- Some child of the branch is gone or changed. -/
def someChildChanged (childStates : ChildStates g) (entries : List (Nat × Oid)) : Bool :=
  entries.any fun child =>
    match childStates.get child.1 with
    | none => true
    | some state => state.isAbsent || state.changed

def rewriteBranch (c : TrieCursor g) (path : Path) (branch : TrieBranch g)
    (childStates : ChildStates g) (childChanged : Bool) :
    Except Failure (NodeState g × TrieCursor g) :=
  let next := nextChildren path childStates branch.children.entries
  let changed := childChanged || someChildChanged childStates branch.children.entries
  match next.entries with
  | [] =>
    if path = [] then .ok (.branch true .empty, c.markBranchDirty [] .empty)
    else .ok (.absent true, c.clearBranchAt path)
  | children =>
    match (if path = [] then none else
        match children with
        | [(onlyNibble, _)] => (ChildStates.leafOf childStates onlyNibble).map fun l => (onlyNibble, l)
        | _ => none) with
    | some (onlyNibble, leaf) => do
      let collapsedLeaf ← collapseLeafUp g leaf onlyNibble (path.length + 1)
      pure (.leaf true collapsedLeaf,
        (((c.clearLeafAt (path ++ [onlyNibble])).clearBranchAt path).markLeafDirty path collapsedLeaf))
    | none =>
      if changed then do
        let nextBranch ← TrieBranch.new g next
        pure (.branch true nextBranch, c.markBranchDirty path nextBranch)
      else .ok (.branch false branch, c)

def compactLeaf (c : TrieCursor g) (path : Path) (leaf : TrieLeaf) (includedVV : VersionVector) :
    Except Failure (NodeState g × TrieCursor g) := do
  let (changed, entries) ← compactLeafEntries includedVV leaf.entries
  if !changed then pure (.leaf false leaf, c)
  else if entries = [] then pure (.absent true, c.clearLeafAt path)
  else
    let nextLeaf ← TrieLeaf.new entries
    pure (.leaf true nextLeaf, c.markLeafDirty path nextLeaf)

variable (env : TrieEnv S) (s : S)

/-- `#compactBelow` and `#compactBranch`. -/
def compactBelow (includedVV : VersionVector) :
    Nat → TrieCursor env.geometry → Path →
      Except Failure (NodeState env.geometry × TrieCursor env.geometry)
  | 0, _, path => .error (walkTooDeep path)
  | levels + 1, c, path =>
    match c.leafAt path with
    | some leaf => c.compactLeaf path leaf includedVV
    | none =>
      match c.branchAt path with
      | none => .ok (.absent false, c)
      | some branch => do
        let (c, childStates) ← branch.children.entries.foldlM (fun acc child => do
          let (_, loaded) ← acc.1.ensureChildLoaded env s path child.1 child.2
          let (state, next) ← compactBelow includedVV levels loaded (path ++ [child.1])
          pure (next, acc.2.set child.1 state)) (c, (.empty : ChildStates env.geometry))
        let changed := childStates.values.any fun state => state.changed || state.isAbsent
        let (c, childStates, merged) ← mergeSiblingLeaves path env.geometry.fanout c childStates
          false
        c.rewriteBranch path branch childStates (changed || merged)

def compact (c : TrieCursor env.geometry) (includedVV : VersionVector) :
    Except Failure (TrieCursor env.geometry) := do
  let c ← c.loadRootIfNeeded env s
  if c.hasRoot then
    let (_, c) ← compactBelow env s includedVV (env.geometry.maxDepth + 1) c []
    pure c
  else pure c

end TrieCursor
end GitWarp
