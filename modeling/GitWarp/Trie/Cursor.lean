import GitWarp.Trie.Pages

/-!
# The trie cursor

A cursor loads pages from a store as it descends, keeps them by path, and marks
the ones it changed. A branch refers to a changed child by a placeholder, which
the flush replaces. The store, the page codec and the hash are parameters. The walks over
a subtree take a bound on its depth; no page lies deeper than the route key has nibbles.
-/
namespace GitWarp

open Js Lib

abbrev Path := List Nat

/-! ### Collaborators -/

structure LeafWireFormat where
  version : Nat
  entries : List (Bytes × JsString × List JsString × List JsString)

/-- `CodecPort`, restricted to leaf pages: `none` where the bytes do not have the shape
of the envelope. -/
structure CodecPort where
  encode : LeafWireFormat → Except Failure Bytes
  decode : Bytes → Option LeafWireFormat

structure TrieStorePort (S : Type) where
  readLeaf : S → Oid → Except Failure Bytes
  readBranch : S → Oid → Except Failure (OrdMap Nat Oid)
  writeLeaf : S → Bytes → Except Failure (Oid × S)
  writeBranch : S → OrdMap Nat Oid → Except Failure (Oid × S)

/-- What a cursor and its flusher are constructed with. -/
structure TrieEnv (S : Type) where
  geometry : TrieGeometry
  store : TrieStorePort S
  codec : CodecPort
  blake3 : Blake3

/-! ### Leaf envelopes -/

def trieLeafWireVersion : Nat := 1

def TrieLeaf.serialize (codec : CodecPort) (leaf : TrieLeaf) : Except Failure Bytes :=
  codec.encode ⟨trieLeafWireVersion, leaf.entries.map fun entry =>
    (entry.routeKeySuffix, entry.element, entry.dots.toList, entry.tombstonedDots.toList)⟩

def entryFromWire (raw : Bytes × JsString × List JsString × List JsString) : TrieLeafEntry :=
  ⟨raw.1, raw.2.1, .ofList raw.2.2.1, .ofList raw.2.2.2⟩

def TrieLeaf.deserialize (codec : CodecPort) (bytes : Bytes) : Except Failure TrieLeaf :=
  match codec.decode bytes with
  | none => .error ⟨.trieLeafError, lit "E_TRIE_LEAF_WIRE_SHAPE",
      lit "TrieLeaf.deserialize received bytes that do not match the leaf envelope shape"⟩
  | some decoded =>
    if decoded.version ≠ trieLeafWireVersion then
      .error ⟨.trieLeafError, lit "E_TRIE_LEAF_VERSION",
        lit "TrieLeaf.deserialize saw unrecognized wire version " ++ numberText decoded.version ++
          lit "; expected " ++ numberText trieLeafWireVersion⟩
    else TrieLeaf.new (decoded.entries.map entryFromWire)

/-! ### Paths -/

def hexText (n : Nat) : JsString := (Nat.toDigits 16 n).map digitUnit

def encodeDirtyPath : Path → JsString
  | [] => []
  | [nibble] => hexText nibble
  | nibble :: rest => hexText nibble ++ lit "/" ++ encodeDirtyPath rest

def pendingOidText : JsString := lit "pending:"

def pendingChildOid (parentPath : Path) (childNibble : Nat) : Oid :=
  pendingOidText ++ encodeDirtyPath (parentPath ++ [childNibble])

def isPendingOid (oid : Oid) : Bool := pendingOidText.isPrefixOf oid

/-! ### Errors -/

def trieCursorError (code : String) (message : JsString) : Failure :=
  ⟨.trieCursorError, lit code, message⟩

def isMissingStoreError (raw : Failure) : Bool :=
  raw.kind = .trieStoreError ∧ raw.code = lit "E_TRIE_STORE_MISSING"

/-- `wrapStoreError` and `wrapDecodeError`, which differ in a word and the code. -/
def wrapCursorError (code word : String) (raw : Failure) (op : String) (path : Path) (oid : Oid) :
    Failure :=
  if raw.kind = .trieCursorError then raw
  else trieCursorError code (lit "TrieCursor " ++ lit op ++ lit word ++ lit " failed at path=" ++
    encodeDirtyPath path ++ lit " oid=" ++ oid ++ lit ": " ++ raw.message)

def wrapStoreError : Failure → String → Path → Oid → Failure :=
  wrapCursorError "E_TRIE_CURSOR_STORE" ""

def wrapDecodeError : Failure → String → Path → Oid → Failure :=
  wrapCursorError "E_TRIE_CURSOR_DECODE" " decode"

def validateElement (element : JsString) : Except Failure Unit :=
  if element = [] then
    .error (trieCursorError "E_TRIE_CURSOR_INPUT"
      (lit "TrieCursor element must be a non-empty string"))
  else .ok ()

/-! ### Reading pages -/

variable {S : Type}

namespace TrieEnv

/-- `#tryReadLeaf`: `none` where the identifier may name a branch. -/
def tryReadLeaf (env : TrieEnv S) (s : S) (oid : Oid) (path : Path) :
    Except Failure (Option TrieLeaf) :=
  match env.store.readLeaf s oid with
  | .error raw => if isMissingStoreError raw then .ok none else .error (wrapStoreError raw "readLeaf" path oid)
  | .ok bytes =>
    if bytes = [] then .ok none
    else
      match TrieLeaf.deserialize env.codec bytes with
      | .ok leaf => .ok (some leaf)
      | .error _ => .ok none

def readBranchStrict (env : TrieEnv S) (s : S) (oid : Oid) (path : Path) :
    Except Failure (TrieBranch env.geometry) :=
  match env.store.readBranch s oid with
  | .error raw => .error (wrapStoreError raw "readBranch" path oid)
  | .ok entries =>
    match TrieBranch.new env.geometry entries with
    | .error raw => .error (wrapDecodeError raw "readBranch" path oid)
    | .ok branch => .ok branch

end TrieEnv

/-! ### The cursor's pages -/

/-- The maps of the source are keyed by the text of a path; here by the path itself. -/
structure TrieCursor (g : TrieGeometry) where
  initialRootOid : Option Oid
  dirtyLeaves : OrdMap Path TrieLeaf
  dirtyBranches : OrdMap Path (TrieBranch g)
  cleanChildren : OrdMap Path Oid
  workingLeaves : OrdMap Path TrieLeaf
  workingBranches : OrdMap Path (TrieBranch g)
  rootLoaded : Bool

namespace TrieCursor

variable {g : TrieGeometry}

/-- A cursor on a stored root. `rebase` resets a cursor to this. -/
def opened (rootOid : Option Oid) : TrieCursor g where
  initialRootOid := rootOid
  dirtyLeaves := .empty
  dirtyBranches := .empty
  cleanChildren := .empty
  workingLeaves := .empty
  workingBranches := .empty
  rootLoaded := false

def rebase (_ : TrieCursor g) (rootOid : Option Oid) : Except Failure (TrieCursor g) :=
  if rootOid = some [] then
    .error (trieCursorError "E_TRIE_CURSOR_STRUCTURE"
      (lit "TrieCursor rebase root must be null or a non-empty string; received "))
  else .ok (opened rootOid)

def dirtyPageCount (c : TrieCursor g) : Nat := c.dirtyLeaves.size + c.dirtyBranches.size

def hasRoot (c : TrieCursor g) : Bool := c.workingBranches.has [] || c.dirtyBranches.has []

def branchAt (c : TrieCursor g) (path : Path) : Option (TrieBranch g) :=
  (c.dirtyBranches.get path).or (c.workingBranches.get path)

def leafAt (c : TrieCursor g) (path : Path) : Option TrieLeaf :=
  (c.dirtyLeaves.get path).or (c.workingLeaves.get path)

def markBranchDirty (c : TrieCursor g) (path : Path) (branch : TrieBranch g) : TrieCursor g :=
  { c with
    workingBranches := c.workingBranches.set path branch
    dirtyBranches := c.dirtyBranches.set path branch }

def markLeafDirty (c : TrieCursor g) (path : Path) (leaf : TrieLeaf) : TrieCursor g :=
  { c with
    workingLeaves := c.workingLeaves.set path leaf
    dirtyLeaves := c.dirtyLeaves.set path leaf }

def clearLeafAt (c : TrieCursor g) (path : Path) : TrieCursor g :=
  { c with
    dirtyLeaves := c.dirtyLeaves.delete path
    workingLeaves := c.workingLeaves.delete path }

def clearBranchAt (c : TrieCursor g) (path : Path) : TrieCursor g :=
  { c with
    dirtyBranches := c.dirtyBranches.delete path
    workingBranches := c.workingBranches.delete path }

def buildBranchWithPendingChild (c : TrieCursor g) (path : Path) (mutatedNibble : Nat) :
    Except Failure (TrieBranch g) :=
  let entries := ((c.branchAt path).map TrieBranch.children).getD .empty
  TrieBranch.new g (entries.set mutatedNibble (pendingChildOid path mutatedNibble))

def rebindParentBranch (c : TrieCursor g) (parentPath : Path) (nibble : Nat) :
    Except Failure (TrieCursor g) := do
  let branch ← c.buildBranchWithPendingChild parentPath nibble
  pure (c.markBranchDirty parentPath branch)

/-- The loop of `#markLoadedLeafMutation`: rebinds the parent of each path, deepest
first. The path comes reversed. -/
def rebindAncestors (c : TrieCursor g) : Path → Except Failure (TrieCursor g)
  | [] => .ok c
  | nibble :: above => do
    let next ← c.rebindParentBranch above.reverse nibble
    next.rebindAncestors above

def markLoadedLeafMutation (c : TrieCursor g) (path : Path) (leaf : TrieLeaf) :
    Except Failure (TrieCursor g) :=
  (c.markLeafDirty path leaf).rebindAncestors path.reverse

end TrieCursor

/-! ### Loading -/

inductive ChildKind
  | leaf | branch
  deriving DecidableEq

variable (env : TrieEnv S) (s : S)

namespace TrieCursor

def loadRootIfNeeded (c : TrieCursor env.geometry) : Except Failure (TrieCursor env.geometry) :=
  if c.rootLoaded then .ok c
  else
    match c.initialRootOid with
    | none => .ok { c with rootLoaded := true }
    | some oid => do
      let rootBranch ← env.readBranchStrict s oid []
      pure { c with rootLoaded := true, workingBranches := c.workingBranches.set [] rootBranch }

def loadChildFromStore (c : TrieCursor env.geometry) (childPath : Path) (childOid : Oid) :
    Except Failure (ChildKind × TrieCursor env.geometry) := do
  match ← env.tryReadLeaf s childOid childPath with
  | some leaf =>
    pure (.leaf, { c with
      workingLeaves := c.workingLeaves.set childPath leaf
      cleanChildren := c.cleanChildren.set childPath childOid })
  | none =>
    let branch ← env.readBranchStrict s childOid childPath
    pure (.branch, { c with
      workingBranches := c.workingBranches.set childPath branch
      cleanChildren := c.cleanChildren.set childPath childOid })

def ensureChildLoaded (c : TrieCursor env.geometry) (parentPath : Path) (nibble : Nat)
    (childOid : Oid) : Except Failure (ChildKind × TrieCursor env.geometry) :=
  let childPath := parentPath ++ [nibble]
  if (c.leafAt childPath).isSome then .ok (.leaf, c)
  else if (c.branchAt childPath).isSome then .ok (.branch, c)
  else c.loadChildFromStore env s childPath childOid

/-! ### Lookup -/

structure LocatedEntry where
  entry : TrieLeafEntry
  leaf : TrieLeaf
  path : Path

def locateEntryInLeaf (route : RouteKey) (element : JsString) (leaf : TrieLeaf) (path : Path)
    (depth : Nat) : Option LocatedEntry :=
  (findEntryInLeaf env.geometry leaf route depth element).map fun entry => ⟨entry, leaf, path⟩

/-- `#descendForLookup` with `remaining` levels to go; a leaf below the last of them is
the terminal one. -/
def descendForLookup (route : RouteKey) (element : JsString) :
    Nat → TrieCursor env.geometry → Path → Nat →
      Except Failure (Option LocatedEntry × TrieCursor env.geometry)
  | 0, c, path, depth =>
    .ok ((c.leafAt path).bind fun leaf => locateEntryInLeaf env route element leaf path depth, c)
  | remaining + 1, c, path, depth =>
    match c.branchAt path with
    | none => .ok (none, c)
    | some branch => do
      let nibble ← route.nibbleAt env.geometry depth
      match branch.get nibble with
      | none => pure (none, c)
      | some childOid =>
        let (kind, loaded) ← c.ensureChildLoaded env s path nibble childOid
        let nextPath := path ++ [nibble]
        match kind with
        | .leaf =>
          pure ((loaded.leafAt nextPath).bind fun leaf =>
            locateEntryInLeaf env route element leaf nextPath (depth + 1), loaded)
        | .branch => descendForLookup route element remaining loaded nextPath (depth + 1)

def locateEntry (c : TrieCursor env.geometry) (element : JsString) :
    Except Failure (Option LocatedEntry × TrieCursor env.geometry) := do
  let c ← c.loadRootIfNeeded env s
  if c.hasRoot then
    let route ← RouteKey.fromElement env.blake3 element
    descendForLookup env s route element env.geometry.maxDepth c [] 0
  else pure (none, c)

def lookupEntry (c : TrieCursor env.geometry) (element : JsString) :
    Except Failure (Option TrieLeafEntry × TrieCursor env.geometry) := do
  let (located, c) ← c.locateEntry env s element
  pure (located.map LocatedEntry.entry, c)

def contains (c : TrieCursor env.geometry) (element : JsString) :
    Except Failure (Bool × TrieCursor env.geometry) := do
  validateElement element
  let (entry, c) ← c.lookupEntry env s element
  pure (entry.any fun entry => decide (entry.dots.size ≠ 0), c)

def getDots (c : TrieCursor env.geometry) (element : JsString) :
    Except Failure (OrdSet JsString × TrieCursor env.geometry) := do
  validateElement element
  let (entry, c) ← c.lookupEntry env s element
  pure ((entry.map TrieLeafEntry.dots).getD .empty, c)

def getElementState (c : TrieCursor env.geometry) (element : JsString) :
    Except Failure (Option ORSetElementState × TrieCursor env.geometry) := do
  validateElement element
  let (entry, c) ← c.lookupEntry env s element
  match entry with
  | none => pure (none, c)
  | some entry =>
    let state ← elementStateOfEntry entry
    pure (some state, c)

/-! ### Adding -/

structure InsertContext where
  route : RouteKey
  element : JsString
  encodedDot : JsString

def requireBranchAt (c : TrieCursor env.geometry) (path : Path) :
    Except Failure (TrieBranch env.geometry) :=
  match c.branchAt path with
  | none => .error (trieCursorError "E_TRIE_CURSOR_STRUCTURE"
      (lit "TrieCursor expected branch at path=" ++ encodeDirtyPath path))
  | some branch => .ok branch

def requireLeafAt (c : TrieCursor env.geometry) (path : Path) : Except Failure TrieLeaf :=
  match c.leafAt path with
  | none => .error (trieCursorError "E_TRIE_CURSOR_STRUCTURE"
      (lit "TrieCursor expected leaf at path=" ++ encodeDirtyPath path))
  | some leaf => .ok leaf

/-- A new leaf with one entry under a branch. `#createFirstRoot` is this at the root,
where no branch exists yet. -/
def insertFreshLeafChild (c : TrieCursor env.geometry) (ctx : InsertContext) (parentPath : Path)
    (nibble leafDepth : Nat) : Except Failure (TrieCursor env.geometry) := do
  let suffix := suffixOfRouteKey env.geometry ctx.route leafDepth
  let leaf ← TrieLeaf.new [makeEntry suffix ctx.element ctx.encodedDot]
  (c.markLeafDirty (parentPath ++ [nibble]) leaf).rebindParentBranch parentPath nibble

/-- `#installPartitionedLeaves`: one dirty leaf for each nibble. -/
def installPartitionedLeaves (leafPath : Path) (suffixNibbles : Nat) :
    List (Nat × List TrieLeafEntry) → TrieCursor env.geometry → OrdMap Nat Oid →
      Except Failure (TrieCursor env.geometry × OrdMap Nat Oid)
  | [], c, childEntries => .ok (c, childEntries)
  | (childNibble, entries) :: rest, c, childEntries => do
    let childLeaf ← TrieLeaf.new (shortenEntries env.geometry entries suffixNibbles)
    installPartitionedLeaves leafPath suffixNibbles rest
      (c.markLeafDirty (leafPath ++ [childNibble]) childLeaf)
      (childEntries.set childNibble (pendingChildOid leafPath childNibble))

/-- `#splitLeaf` with `remaining` levels below the leaf, and the cascade into the new
leaves that are still too large. -/
def splitLeaf : Nat → TrieCursor env.geometry → (parentPath leafPath : Path) →
    (nibbleInParent : Nat) → Except Failure (TrieCursor env.geometry)
  | 0, c, _, _, _ => .ok c
  | remaining + 1, c, parentPath, leafPath, nibbleInParent =>
    match c.leafAt leafPath with
    | none => .ok c
    | some leaf => do
      let partitions := partitionEntriesByNextNibble env.geometry leaf
      let (installed, childEntries) ← installPartitionedLeaves env leafPath (remaining + 1)
        partitions.entries (c.clearLeafAt leafPath) .empty
      let newBranch ← TrieBranch.new env.geometry childEntries
      let rebound ← (installed.markBranchDirty leafPath newBranch).rebindParentBranch parentPath
        nibbleInParent
      newBranch.children.keys.foldlM (fun c childNibble =>
        match c.leafAt (leafPath ++ [childNibble]) with
        | none => pure c
        | some childLeaf =>
          if childLeaf.requiresSplit env.geometry then
            splitLeaf remaining c leafPath (leafPath ++ [childNibble]) childNibble
          else pure c) rebound

def insertIntoLeafAtPath (c : TrieCursor env.geometry) (ctx : InsertContext) (parentPath : Path)
    (nibble leafDepth : Nat) : Except Failure (TrieCursor env.geometry) := do
  let childPath := parentPath ++ [nibble]
  let leaf ← c.requireLeafAt env childPath
  let nextLeaf ← upsertIntoLeaf env.geometry leaf ctx.route leafDepth ctx.element ctx.encodedDot
  let rebound ← (c.markLeafDirty childPath nextLeaf).rebindParentBranch parentPath nibble
  if nextLeaf.requiresSplit env.geometry then
    splitLeaf env (env.geometry.maxDepth - leafDepth) rebound parentPath childPath nibble
  else pure rebound

/-- `#insertBelowBranch` with `remaining` levels to go. There is no nibble at the depth
where none remain, and asking for one throws. -/
def insertBelowBranch (ctx : InsertContext) :
    Nat → TrieCursor env.geometry → Path → Nat → Except Failure (TrieCursor env.geometry)
  | 0, c, parentPath, depth => do
    let _ ← c.requireBranchAt env parentPath
    let _ ← ctx.route.nibbleAt env.geometry depth
    pure c
  | remaining + 1, c, parentPath, depth => do
    let branch ← c.requireBranchAt env parentPath
    let nibble ← ctx.route.nibbleAt env.geometry depth
    match branch.get nibble with
    | none => c.insertFreshLeafChild env ctx parentPath nibble (depth + 1)
    | some childOid =>
      let (kind, loaded) ← c.ensureChildLoaded env s parentPath nibble childOid
      match kind with
      | .leaf => loaded.insertIntoLeafAtPath env ctx parentPath nibble (depth + 1)
      | .branch =>
        let below ← insertBelowBranch ctx remaining loaded (parentPath ++ [nibble]) (depth + 1)
        below.rebindParentBranch parentPath nibble

def add (c : TrieCursor env.geometry) (element : JsString) (dot : Dot) :
    Except Failure (TrieCursor env.geometry) := do
  validateElement element
  let route ← RouteKey.fromElement env.blake3 element
  let ctx : InsertContext := ⟨route, element, dot.encode⟩
  let c ← c.loadRootIfNeeded env s
  if c.hasRoot then insertBelowBranch env s ctx env.geometry.maxDepth c [] 0
  else
    let rootNibble ← route.nibbleAt env.geometry 0
    c.insertFreshLeafChild env ctx [] rootNibble 1

/-! ### Removing -/

def walkTooDeep (path : Path) : Failure :=
  trieCursorError "E_TRIE_CURSOR_STRUCTURE"
    (lit "TrieCursor walk exceeds the depth of a route key at path=" ++ encodeDirtyPath path)

def tombstoneInLeaf (observedDots : OrdSet JsString) (c : TrieCursor env.geometry) (leafPath : Path)
    (leaf : TrieLeaf) : Except Failure (TrieCursor env.geometry) :=
  match rewriteLeafWithTombstones leaf observedDots with
  | none => .ok c
  | some next => do
    let nextLeaf ← TrieLeaf.new next
    c.markLoadedLeafMutation leafPath nextLeaf

/-- `#tombstoneBelow` and `#descendTombstone`. -/
def tombstoneBelow (observedDots : OrdSet JsString) :
    Nat → TrieCursor env.geometry → Path → Except Failure (TrieCursor env.geometry)
  | 0, _, path => .error (walkTooDeep path)
  | levels + 1, c, path =>
    match c.leafAt path with
    | some leaf => tombstoneInLeaf env observedDots c path leaf
    | none =>
      match c.branchAt path with
      | none => .ok c
      | some branch =>
        branch.children.entries.foldlM (fun c child => do
          let (_, loaded) ← c.ensureChildLoaded env s path child.1 child.2
          tombstoneBelow observedDots levels loaded (path ++ [child.1])) c

def remove (c : TrieCursor env.geometry) (observedDots : OrdSet JsString) :
    Except Failure (TrieCursor env.geometry) :=
  if observedDots.size = 0 then .ok c
  else do
    let c ← c.loadRootIfNeeded env s
    if c.hasRoot then tombstoneBelow env s observedDots (env.geometry.maxDepth + 1) c []
    else pure c

def removeElement (c : TrieCursor env.geometry) (element : JsString) (observedDots : OrdSet JsString) :
    Except Failure (TrieCursor env.geometry) := do
  validateElement element
  if observedDots.size = 0 then pure c
  else
    let (located, c) ← c.locateEntry env s element
    match located with
    | none => pure c
    | some located =>
      match rewriteElementWithTombstones located.leaf element observedDots with
      | none => pure c
      | some next =>
        let nextLeaf ← TrieLeaf.new next
        c.markLoadedLeafMutation located.path nextLeaf

/-! ### Scanning -/

/-- Nibbles in ascending order. -/
def sortNibbles (nibbles : List Nat) : List Nat := nibbles.insertionSort (· ≤ ·)

/-- `#scanBelow` and `#scanElementStatesBelow`, which differ in what they yield of a leaf. -/
def scanBelow {A : Type} (yieldOf : TrieLeaf → Except Failure (List A)) :
    Nat → TrieCursor env.geometry → Path → Except Failure (List A × TrieCursor env.geometry)
  | 0, _, path => .error (walkTooDeep path)
  | levels + 1, c, path =>
    match c.leafAt path with
    | some leaf => do
      let yielded ← yieldOf leaf
      pure (yielded, c)
    | none =>
      match c.branchAt path with
      | none => .ok ([], c)
      | some branch =>
        (sortNibbles branch.children.keys).foldlM (fun acc nibble =>
          match branch.get nibble with
          | none => pure acc
          | some childOid => do
            let (_, loaded) ← acc.2.ensureChildLoaded env s path nibble childOid
            let (yielded, next) ← scanBelow yieldOf levels loaded (path ++ [nibble])
            pure (acc.1 ++ yielded, next)) ([], c)

def scanWith {A : Type} (yieldOf : TrieLeaf → Except Failure (List A)) (c : TrieCursor env.geometry) :
    Except Failure (List A × TrieCursor env.geometry) := do
  let c ← c.loadRootIfNeeded env s
  if c.hasRoot then scanBelow env s yieldOf (env.geometry.maxDepth + 1) c [] else pure ([], c)

def scan (c : TrieCursor env.geometry) : Except Failure (List JsString × TrieCursor env.geometry) :=
  c.scanWith env s fun leaf => .ok (liveElementsOf leaf)

def scanElementStates (c : TrieCursor env.geometry) :
    Except Failure (List ORSetElementState × TrieCursor env.geometry) :=
  c.scanWith env s fun leaf => leaf.entries.mapM elementStateOfEntry

end TrieCursor
end GitWarp
