import GitWarp.Lib.Interruptible
import GitWarp.Trie.Reachable

/-!
# Calls of a cursor over a store whose reads may fail

The operations of a cursor once more, with the cursor that a failed page read
leaves behind. `fails` says which page reads fail during the call, by the path of
the page; a read of the store itself that fails counts as well. As long as every
read succeeds a call is the plain one.
-/
namespace GitWarp

open Js Lib

variable {S : Type}

/-- A call over a cursor, with the cursor left by a failed read. -/
abbrev CursorCall (env : TrieEnv S) (A : Type) : Type :=
  Interruptible Failure (TrieCursor env.geometry) A

/-- A read that fails where it is made to. -/
def readUnless {A : Type} (fault : Option Failure) (read : Except Failure A) : Except Failure A :=
  match fault with
  | some e => .error e
  | none => read

/-! ### Answers -/

inductive TrieAnswer
  | nothing
  | found (there : Bool)
  | dots (dots : OrdSet JsString)
  | state (state : Option ORSetElementState)
  | elements (elements : List JsString)
  | states (states : List ORSetElementState)

def containsEntry (entry : Option TrieLeafEntry) : Bool :=
  entry.any fun entry => decide (entry.dots.size ≠ 0)

def dotsOfEntry (entry : Option TrieLeafEntry) : OrdSet JsString :=
  (entry.map TrieLeafEntry.dots).getD .empty

/-- A call with its answer. -/
def TrieState.call {env : TrieEnv S} (st : TrieState env) :
    TrieAction → Except Failure (TrieAnswer × TrieState env)
  | .add element dot => (st.cursor.add env st.store element dot).map fun c =>
    (.nothing, ⟨c, st.store⟩)
  | .remove observedDots => (st.cursor.remove env st.store observedDots).map fun c =>
    (.nothing, ⟨c, st.store⟩)
  | .removeElement element observedDots =>
    (st.cursor.removeElement env st.store element observedDots).map fun c =>
      (.nothing, ⟨c, st.store⟩)
  | .compact includedVV => (st.cursor.compact env st.store includedVV).map fun c =>
    (.nothing, ⟨c, st.store⟩)
  | .contains element => (st.cursor.contains env st.store element).map fun result =>
    (.found result.1, ⟨result.2, st.store⟩)
  | .getDots element => (st.cursor.getDots env st.store element).map fun result =>
    (.dots result.1, ⟨result.2, st.store⟩)
  | .getElementState element => (st.cursor.getElementState env st.store element).map fun result =>
    (.state result.1, ⟨result.2, st.store⟩)
  | .scan => (st.cursor.scan env st.store).map fun result =>
    (.elements result.1, ⟨result.2, st.store⟩)
  | .scanElementStates => (st.cursor.scanElementStates env st.store).map fun result =>
    (.states result.1, ⟨result.2, st.store⟩)
  | .flush => (st.perform .flush).map fun st' => (.nothing, st')
  | .checkpoint => (st.perform .checkpoint).map fun st' => (.nothing, st')

theorem TrieState.call_perform {env : TrieEnv S} (st : TrieState env) (action) :
    (st.call action).map Prod.snd = st.perform action := by
  cases action with
  | add element dot =>
    simp only [TrieState.call, TrieState.perform]
    cases st.cursor.add env st.store element dot <;> rfl
  | remove observedDots =>
    simp only [TrieState.call, TrieState.perform]
    cases st.cursor.remove env st.store observedDots <;> rfl
  | removeElement element observedDots =>
    simp only [TrieState.call, TrieState.perform]
    cases st.cursor.removeElement env st.store element observedDots <;> rfl
  | compact includedVV =>
    simp only [TrieState.call, TrieState.perform]
    cases st.cursor.compact env st.store includedVV <;> rfl
  | contains element =>
    simp only [TrieState.call, TrieState.perform]
    cases st.cursor.contains env st.store element <;> rfl
  | getDots element =>
    simp only [TrieState.call, TrieState.perform]
    cases st.cursor.getDots env st.store element <;> rfl
  | getElementState element =>
    simp only [TrieState.call, TrieState.perform]
    cases st.cursor.getElementState env st.store element <;> rfl
  | scan =>
    simp only [TrieState.call, TrieState.perform]
    cases st.cursor.scan env st.store <;> rfl
  | scanElementStates =>
    simp only [TrieState.call, TrieState.perform]
    cases st.cursor.scanElementStates env st.store <;> rfl
  | flush =>
    simp only [TrieState.call]
    cases st.perform .flush <;> rfl
  | checkpoint =>
    simp only [TrieState.call]
    cases st.perform .checkpoint <;> rfl

namespace TrieCursor

variable (env : TrieEnv S) (s : S) (fails : Path → Option Failure)

namespace Interrupted

/-! ### Loading -/

/-- The flag is set before the root is read, and stays when the read fails. -/
def loadRootIfNeeded (c : TrieCursor env.geometry) : CursorCall env Unit :=
  if c.rootLoaded then .done () c
  else
    match c.initialRootOid with
    | none => .done () { c with rootLoaded := true }
    | some oid =>
      match readUnless (fails []) (env.readBranchStrict s oid []) with
      | .error e => .readFailed e { c with rootLoaded := true }
      | .ok rootBranch => .done ()
        { c with rootLoaded := true, workingBranches := c.workingBranches.set [] rootBranch }

/-- A child is read as a leaf first and then as a branch; nothing is kept unless one of the two
reads gave a page. -/
def loadChildFromStore (c : TrieCursor env.geometry) (childPath : Path) (childOid : Oid) :
    CursorCall env ChildKind :=
  match readUnless (fails childPath) (env.tryReadLeaf s childOid childPath) with
  | .error e => .readFailed e c
  | .ok (some leaf) => .done .leaf
    { c with
      workingLeaves := c.workingLeaves.set childPath leaf
      cleanChildren := c.cleanChildren.set childPath childOid }
  | .ok none =>
    match env.readBranchStrict s childOid childPath with
    | .error e => .readFailed e c
    | .ok branch => .done .branch
      { c with
        workingBranches := c.workingBranches.set childPath branch
        cleanChildren := c.cleanChildren.set childPath childOid }

def ensureChildLoaded (c : TrieCursor env.geometry) (parentPath : Path) (nibble : Nat)
    (childOid : Oid) : CursorCall env ChildKind :=
  let childPath := parentPath ++ [nibble]
  if (c.leafAt childPath).isSome then .done .leaf c
  else if (c.branchAt childPath).isSome then .done .branch c
  else loadChildFromStore env s fails c childPath childOid

/-! ### Lookup -/

def descendForLookup (route : RouteKey) (element : JsString) :
    Nat → TrieCursor env.geometry → Path → Nat → CursorCall env (Option LocatedEntry)
  | 0, c, path, depth =>
    .done ((c.leafAt path).bind fun leaf => locateEntryInLeaf env route element leaf path depth) c
  | remaining + 1, c, path, depth =>
    match c.branchAt path with
    | none => .done none c
    | some branch =>
      Interruptible.given (route.nibbleAt env.geometry depth) fun nibble =>
        match branch.get nibble with
        | none => .done none c
        | some childOid =>
          (ensureChildLoaded env s fails c path nibble childOid).bind fun kind loaded =>
            let nextPath := path ++ [nibble]
            match kind with
            | .leaf => .done ((loaded.leafAt nextPath).bind fun leaf =>
                locateEntryInLeaf env route element leaf nextPath (depth + 1)) loaded
            | .branch => descendForLookup route element remaining loaded nextPath (depth + 1)

def locateEntry (c : TrieCursor env.geometry) (element : JsString) :
    CursorCall env (Option LocatedEntry) :=
  (loadRootIfNeeded env s fails c).bind fun _ c =>
    if c.hasRoot then
      Interruptible.given (RouteKey.fromElement env.blake3 element) fun route =>
        descendForLookup env s fails route element env.geometry.maxDepth c [] 0
    else .done none c

/-- `contains`, `getDots` and `getElementState`, which differ in what they make of the entry. -/
def lookup {A : Type} (answerOf : Option TrieLeafEntry → Except Failure A)
    (c : TrieCursor env.geometry) (element : JsString) : CursorCall env A :=
  Interruptible.given (validateElement element) fun _ =>
    (locateEntry env s fails c element).bind fun located c =>
      Interruptible.given (answerOf (located.map LocatedEntry.entry)) fun a => .done a c

/-! ### Adding -/

def insertBelowBranch (ctx : InsertContext) :
    Nat → TrieCursor env.geometry → Path → Nat → CursorCall env Unit
  | 0, c, parentPath, depth =>
    Interruptible.given (c.requireBranchAt env parentPath) fun _ =>
      Interruptible.given (ctx.route.nibbleAt env.geometry depth) fun _ => .done () c
  | remaining + 1, c, parentPath, depth =>
    Interruptible.given (c.requireBranchAt env parentPath) fun branch =>
      Interruptible.given (ctx.route.nibbleAt env.geometry depth) fun nibble =>
        match branch.get nibble with
        | none => .step (c.insertFreshLeafChild env ctx parentPath nibble (depth + 1))
        | some childOid =>
          (ensureChildLoaded env s fails c parentPath nibble childOid).bind fun kind loaded =>
            match kind with
            | .leaf => .step (loaded.insertIntoLeafAtPath env ctx parentPath nibble (depth + 1))
            | .branch =>
              (insertBelowBranch ctx remaining loaded (parentPath ++ [nibble]) (depth + 1)).bind
                fun _ below => .step (below.rebindParentBranch parentPath nibble)

def add (c : TrieCursor env.geometry) (element : JsString) (dot : Dot) : CursorCall env Unit :=
  Interruptible.given (validateElement element) fun _ =>
    Interruptible.given (RouteKey.fromElement env.blake3 element) fun route =>
      let ctx : InsertContext := ⟨route, element, dot.encode⟩
      (loadRootIfNeeded env s fails c).bind fun _ c =>
        if c.hasRoot then insertBelowBranch env s fails ctx env.geometry.maxDepth c [] 0
        else
          Interruptible.given (route.nibbleAt env.geometry 0) fun rootNibble =>
            .step (c.insertFreshLeafChild env ctx [] rootNibble 1)

/-! ### Removing -/

def tombstoneBelow (observedDots : OrdSet JsString) :
    Nat → TrieCursor env.geometry → Path → CursorCall env Unit
  | 0, _, path => .threw (walkTooDeep path)
  | levels + 1, c, path =>
    match c.leafAt path with
    | some leaf => .step (tombstoneInLeaf env observedDots c path leaf)
    | none =>
      match c.branchAt path with
      | none => .done () c
      | some branch =>
        Interruptible.fold (fun _ child c =>
          (ensureChildLoaded env s fails c path child.1 child.2).bind fun _ loaded =>
            tombstoneBelow observedDots levels loaded (path ++ [child.1]))
          () branch.children.entries c

def remove (c : TrieCursor env.geometry) (observedDots : OrdSet JsString) : CursorCall env Unit :=
  if observedDots.size = 0 then .done () c
  else
    (loadRootIfNeeded env s fails c).bind fun _ c =>
      if c.hasRoot then
        tombstoneBelow env s fails observedDots (env.geometry.maxDepth + 1) c []
      else .done () c

def removeElement (c : TrieCursor env.geometry) (element : JsString)
    (observedDots : OrdSet JsString) : CursorCall env Unit :=
  Interruptible.given (validateElement element) fun _ =>
    if observedDots.size = 0 then .done () c
    else
      (locateEntry env s fails c element).bind fun located c =>
        match located with
        | none => .done () c
        | some located =>
          match rewriteElementWithTombstones located.leaf element observedDots with
          | none => .done () c
          | some next => .step (do
            let nextLeaf ← TrieLeaf.new next
            c.markLoadedLeafMutation located.path nextLeaf)

/-! ### Scanning -/

def scanBelow {A : Type} (yieldOf : TrieLeaf → Except Failure (List A)) :
    Nat → TrieCursor env.geometry → Path → CursorCall env (List A)
  | 0, _, path => .threw (walkTooDeep path)
  | levels + 1, c, path =>
    match c.leafAt path with
    | some leaf => Interruptible.given (yieldOf leaf) fun yielded => .done yielded c
    | none =>
      match c.branchAt path with
      | none => .done [] c
      | some branch =>
        Interruptible.fold (fun acc nibble c =>
          match branch.get nibble with
          | none => .done acc c
          | some childOid =>
            (ensureChildLoaded env s fails c path nibble childOid).bind fun _ loaded =>
              (scanBelow yieldOf levels loaded (path ++ [nibble])).bind fun yielded next =>
                .done (acc ++ yielded) next)
          [] (sortNibbles branch.children.keys) c

def scanWith {A : Type} (yieldOf : TrieLeaf → Except Failure (List A))
    (c : TrieCursor env.geometry) : CursorCall env (List A) :=
  (loadRootIfNeeded env s fails c).bind fun _ c =>
    if c.hasRoot then scanBelow env s fails yieldOf (env.geometry.maxDepth + 1) c []
    else .done [] c

/-! ### Compacting -/

def compactBelow (includedVV : VersionVector) :
    Nat → TrieCursor env.geometry → Path → CursorCall env (NodeState env.geometry)
  | 0, _, path => .threw (walkTooDeep path)
  | levels + 1, c, path =>
    match c.leafAt path with
    | some leaf => .stepWith (c.compactLeaf path leaf includedVV)
    | none =>
      match c.branchAt path with
      | none => .done (.absent false) c
      | some branch =>
        (Interruptible.fold (fun states child c =>
          (ensureChildLoaded env s fails c path child.1 child.2).bind fun _ loaded =>
            (compactBelow includedVV levels loaded (path ++ [child.1])).bind fun state next =>
              .done (states.set child.1 state) next)
          (.empty : ChildStates env.geometry) branch.children.entries c).bind fun states c =>
            let changed := states.values.any fun state => state.changed || state.isAbsent
            .stepWith (do
              let (c, states, merged) ← mergeSiblingLeaves path env.geometry.fanout c states false
              c.rewriteBranch path branch states (changed || merged))

def compact (c : TrieCursor env.geometry) (includedVV : VersionVector) : CursorCall env Unit :=
  (loadRootIfNeeded env s fails c).bind fun _ c =>
    if c.hasRoot then
      (compactBelow env s fails includedVV (env.geometry.maxDepth + 1) c []).bind fun _ c =>
        .done () c
    else .done () c

/-! ### Without a failed read -/

/-- No read is made to fail. -/
def Quiet (fails : Path → Option Failure) : Prop := ∀ path, fails path = none

variable {env s fails}

theorem loadRootIfNeeded_follows (c) :
    (loadRootIfNeeded env s fails c).Follows (Quiet fails) (fun _ c => c)
      (c.loadRootIfNeeded env s) := by
  unfold loadRootIfNeeded TrieCursor.loadRootIfNeeded
  split
  · rfl
  · cases c.initialRootOid with
    | none => rfl
    | some oid =>
      cases fault : fails [] with
      | some e =>
        intro quiet
        rw [quiet []] at fault
        cases fault
      | none =>
        dsimp only [readUnless]
        cases env.readBranchStrict s oid [] with
        | error e => exact fun _ => rfl
        | ok rootBranch => rfl

theorem ensureChildLoaded_follows :
    (ensureChildLoaded env s fails c parentPath nibble childOid).Follows (Quiet fails) Prod.mk
      (c.ensureChildLoaded env s parentPath nibble childOid) := by
  unfold ensureChildLoaded TrieCursor.ensureChildLoaded
  dsimp only
  split
  · rfl
  · split
    · rfl
    · unfold loadChildFromStore TrieCursor.loadChildFromStore
      cases fault : fails (parentPath ++ [nibble]) with
      | some e =>
        intro quiet
        rw [quiet] at fault
        cases fault
      | none =>
        cases env.tryReadLeaf s childOid (parentPath ++ [nibble]) with
        | error e => exact fun _ => rfl
        | ok found =>
          cases found with
          | some leaf => rfl
          | none =>
            cases env.readBranchStrict s childOid (parentPath ++ [nibble]) with
            | error e => exact fun _ => rfl
            | ok branch => rfl

theorem tombstoneBelow_follows (c) (path) :
    (tombstoneBelow env s fails observedDots levels c path).Follows (Quiet fails) (fun _ c => c)
      (TrieCursor.tombstoneBelow env s observedDots levels c path) := by
  induction levels generalizing c path with
  | zero => rfl
  | succ levels ih =>
    unfold tombstoneBelow TrieCursor.tombstoneBelow
    cases c.leafAt path with
    | some leaf => exact Interruptible.Follows.step _
    | none =>
      cases c.branchAt path with
      | none => rfl
      | some branch =>
        apply Interruptible.Follows.fold
        intro _ child c
        apply ensureChildLoaded_follows.bind
        intro _ loaded _
        exact ih loaded (path ++ [child.1])

/-! ### Calls -/

/-- A call with its answer, or the state that a failed read leaves. Writing pages reads none. -/
def call (fails : Path → Option Failure) (st : TrieState env) :
    TrieAction → Interruptible Failure (TrieState env) TrieAnswer
  | .add element dot => (add env st.store fails st.cursor element dot).onto
    (fun _ => .nothing) fun c => ⟨c, st.store⟩
  | .remove observedDots => (remove env st.store fails st.cursor observedDots).onto
    (fun _ => .nothing) fun c => ⟨c, st.store⟩
  | .removeElement element observedDots =>
    (removeElement env st.store fails st.cursor element observedDots).onto
      (fun _ => .nothing) fun c => ⟨c, st.store⟩
  | .compact includedVV => (compact env st.store fails st.cursor includedVV).onto
    (fun _ => .nothing) fun c => ⟨c, st.store⟩
  | .contains element =>
    (lookup env st.store fails (fun entry => .ok (containsEntry entry)) st.cursor element).onto
      .found fun c => ⟨c, st.store⟩
  | .getDots element =>
    (lookup env st.store fails (fun entry => .ok (dotsOfEntry entry)) st.cursor element).onto
      .dots fun c => ⟨c, st.store⟩
  | .getElementState element =>
    (lookup env st.store fails (fun entry => entry.mapM elementStateOfEntry) st.cursor
      element).onto .state fun c => ⟨c, st.store⟩
  | .scan => (scanWith env st.store fails (fun leaf => .ok (liveElementsOf leaf)) st.cursor).onto
    .elements fun c => ⟨c, st.store⟩
  | .scanElementStates =>
    (scanWith env st.store fails (fun leaf => leaf.entries.mapM elementStateOfEntry)
      st.cursor).onto .states fun c => ⟨c, st.store⟩
  | .flush => .stepWith (st.call .flush)
  | .checkpoint => .stepWith (st.call .checkpoint)

end Interrupted
end TrieCursor
end GitWarp
