import GitWarp.Trie.Cursor

/-!
# Dirty pages and the flusher

A snapshot of the cursor's dirty pages is written bottom up: deepest paths first,
so that the identifier of every dirty child is known when its parent is written.
The flush state of the model also keeps the calls made to the store, in order.
-/
namespace GitWarp

open Js Lib

variable {S : Type}

inductive TriePage (g : TrieGeometry)
  | leaf (leaf : TrieLeaf)
  | branch (branch : TrieBranch g)

structure DirtyPageSet (g : TrieGeometry) where
  rootOid : Option Oid
  dirtyLeaves : OrdMap Path TrieLeaf
  dirtyBranches : OrdMap Path (TrieBranch g)
  cleanChildren : OrdMap Path Oid
  apart : ∀ path ∈ dirtyLeaves.keys, dirtyBranches.has path = false

abbrev DirtyPageEntry (g : TrieGeometry) := Path × TriePage g

namespace DirtyPageSet

variable {g : TrieGeometry}

def overlapError (path : Path) : Failure :=
  trieCursorError "E_TRIE_CURSOR_STRUCTURE"
    (lit "DirtyPageSet path " ++ encodeDirtyPath path ++
      lit " is both a dirty leaf and a dirty branch")

/-- `snapshot`, with the check of the set's constructor. -/
def ofCursor (c : TrieCursor g) : Except Failure (DirtyPageSet g) :=
  match overlap : c.dirtyLeaves.keys.find? c.dirtyBranches.has with
  | some path => .error (overlapError path)
  | none => .ok ⟨c.initialRootOid, c.dirtyLeaves, c.dirtyBranches, c.cleanChildren,
      fun path member => by simpa using List.find?_eq_none.mp overlap path member⟩

def isEmpty (d : DirtyPageSet g) : Bool := d.dirtyLeaves.size = 0 ∧ d.dirtyBranches.size = 0

/-- Deeper paths first, then by nibbles. -/
def bottomUp (left right : DirtyPageEntry g) : Prop :=
  right.1.length < left.1.length ∨ right.1.length = left.1.length ∧ left.1 ≤ right.1

instance (left right : DirtyPageEntry g) : Decidable (bottomUp left right) :=
  inferInstanceAs (Decidable (_ ∨ _))

def collectAllEntries (d : DirtyPageSet g) : List (DirtyPageEntry g) :=
  d.dirtyLeaves.entries.map (fun entry => (entry.1, .leaf entry.2)) ++
    d.dirtyBranches.entries.map fun entry => (entry.1, .branch entry.2)

def enumerateBottomUp (d : DirtyPageSet g) : List (DirtyPageEntry g) :=
  d.collectAllEntries.insertionSort bottomUp

end DirtyPageSet

/-! ### Flushing -/

inductive StoreWrite
  | leaf (bytes : Bytes)
  | branch (entries : OrdMap Nat Oid)
  deriving DecidableEq

structure FlushResult where
  rootOid : Option Oid
  blobsWritten : Nat
  treesWritten : Nat
  bytesWritten : Nat

def FlushResult.create (rootOid : Option Oid) (blobsWritten treesWritten bytesWritten : Nat) :
    Except Failure FlushResult :=
  if rootOid = some [] then
    .error ⟨.trieFlushError, lit "E_TRIE_FLUSH_STRUCTURE",
      lit "FlushResult rootOid must be null or a non-empty string; received "⟩
  else .ok ⟨rootOid, blobsWritten, treesWritten, bytesWritten⟩

def FlushResult.isClean (result : FlushResult) : Bool :=
  result.blobsWritten = 0 ∧ result.treesWritten = 0

structure FlushState (S : Type) where
  store : S
  rootOid : Option Oid
  blobsWritten : Nat
  treesWritten : Nat
  bytesWritten : Nat
  newOidByPath : OrdMap Path Oid
  /-- The calls made to the store, with the path of the page. -/
  writes : List (Path × StoreWrite)

def createFlushState (s : S) : FlushState S := ⟨s, none, 0, 0, 0, .empty, []⟩

def wrapFlushError (raw : Failure) (op : String) (path : Path) (code : String) : Failure :=
  if raw.kind = .trieFlushError then raw
  else ⟨.trieFlushError, lit code, lit "TrieFlusher " ++ lit op ++ lit " failed at path=" ++
    encodeDirtyPath path ++ lit ": " ++ raw.message⟩

def flushUnresolved (path : Path) : Failure :=
  ⟨.trieFlushError, lit "E_TRIE_FLUSH_UNRESOLVED",
    lit "TrieFlusher could not resolve pending child OID at path=" ++ encodeDirtyPath path⟩

/-- A page written in this flush, else the clean child, else the identifier in the branch. -/
def resolveChildOid (originalOid : Oid) (childPath : Path) (cleanChildren : OrdMap Path Oid)
    (newOidByPath : OrdMap Path Oid) : Except Failure Oid :=
  match newOidByPath.get childPath with
  | some freshlyWritten => .ok freshlyWritten
  | none =>
    match cleanChildren.get childPath with
    | some cleanChild => .ok cleanChild
    | none => if isPendingOid originalOid then .error (flushUnresolved childPath) else .ok originalOid

def resolveBranchChildren (path : Path) (cleanChildren : OrdMap Path Oid)
    (newOidByPath : OrdMap Path Oid) : List (Nat × Oid) → OrdMap Nat Oid →
      Except Failure (OrdMap Nat Oid)
  | [], out => .ok out
  | (nibble, originalOid) :: rest, out => do
    let resolved ← resolveChildOid originalOid (path ++ [nibble]) cleanChildren newOidByPath
    resolveBranchChildren path cleanChildren newOidByPath rest (out.set nibble resolved)

variable (env : TrieEnv S)

/-- Records the identifier of a written page; the page at the empty path is the root. -/
def FlushState.record (state : FlushState S) (path : Path) (oid : Oid) (store : S)
    (write : StoreWrite) : FlushState S :=
  { state with
    store := store
    newOidByPath := state.newOidByPath.set path oid
    rootOid := if path = [] then some oid else state.rootOid
    writes := state.writes ++ [(path, write)] }

def processLeaf (path : Path) (leaf : TrieLeaf) (state : FlushState S) :
    Except Failure (FlushState S) :=
  match leaf.serialize env.codec with
  | .error raw => .error (wrapFlushError raw "serializeLeaf" path "E_TRIE_FLUSH_ENCODE")
  | .ok bytes =>
    match env.store.writeLeaf state.store bytes with
    | .error raw => .error (wrapFlushError raw "writeLeaf" path "E_TRIE_FLUSH_STORE")
    | .ok (oid, store) =>
      let recorded := state.record path oid store (.leaf bytes)
      .ok { recorded with
        blobsWritten := state.blobsWritten + 1
        bytesWritten := state.bytesWritten + bytes.length }

def processBranch (path : Path) (branch : TrieBranch env.geometry)
    (dirty : DirtyPageSet env.geometry) (state : FlushState S) : Except Failure (FlushState S) := do
  let resolved ← resolveBranchChildren path dirty.cleanChildren state.newOidByPath
    branch.children.entries .empty
  match env.store.writeBranch state.store resolved with
  | .error raw => .error (wrapFlushError raw "writeBranch" path "E_TRIE_FLUSH_STORE")
  | .ok (oid, store) =>
    pure { state.record path oid store (.branch resolved) with
      treesWritten := state.treesWritten + 1 }

def processEntry (dirty : DirtyPageSet env.geometry) (state : FlushState S)
    (entry : DirtyPageEntry env.geometry) : Except Failure (FlushState S) :=
  match entry.2 with
  | .leaf leaf => processLeaf env entry.1 leaf state
  | .branch branch => processBranch env entry.1 branch dirty state

/-- `flush`, with the store after it and the calls made to it. -/
def TrieFlusher.flush (dirty : DirtyPageSet env.geometry) (s : S) :
    Except Failure (FlushResult × S × List (Path × StoreWrite)) :=
  if dirty.isEmpty then do
    let result ← FlushResult.create dirty.rootOid 0 0 0
    pure (result, s, [])
  else do
    let state ← dirty.enumerateBottomUp.foldlM (processEntry env dirty) (createFlushState s)
    let result ← FlushResult.create state.rootOid state.blobsWritten state.treesWritten
      state.bytesWritten
    pure (result, state.store, state.writes)

end GitWarp
