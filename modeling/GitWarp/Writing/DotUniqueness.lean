import GitWarp.Writing.PatchHost

/-!
# Dots along a writer's chain

A builder numbers its adds from the counter of the vector that it cloned, so its dots are
new exactly as far as that counter was not behind the chain. Every open builder knows a
part of the chain that ends at its expected parent and whose dots all lie at or below its
base counter.
-/
namespace GitWarp

open Js Lib List

variable {V : Type}

/-! ### When a builder starts behind its chain -/

/-- The vector at an address contains every dot that the writer's chain carries. -/
def System.vectorCovers (s : System V) (writerId : JsString) (address : Nat) : Bool :=
  (chainDots (s.chain writerId)).all (s.vector address).contains

/-- A builder is only started from a vector that contains every dot of its chain. -/
def StartsCovered (s : System V) : Action → Prop
  | .createPatch h =>
    ∀ host ∈ s.hosts[h]?, s.vectorCovers host.writerId host.versionVector = true
  | .beginPatch w =>
    ∀ writer ∈ s.writers[w]?, s.vectorCovers writer.writerId writer.versionVector = true
  | _ => True

instance (s : System V) : (action : Action) → Decidable (StartsCovered s action)
  | .createPatch h => inferInstanceAs (Decidable (∀ host ∈ s.hosts[h]?, _))
  | .beginPatch w => inferInstanceAs (Decidable (∀ writer ∈ s.writers[w]?, _))
  | .openHost _ | .materialize _ _ | .writer _ _ | .addNode _ _ | .addEdge _ _ _ _
  | .commit _ _ => isTrue trivial

/-- The store gives a new commit a sha that no commit of a chain has. -/
def CommitsFresh (s : System V) : Action → Prop
  | .commit _ sha => ∀ chain ∈ s.chains.values, sha ∉ chain.map PatchEntry.sha
  | _ => True

instance (s : System V) : (action : Action) → Decidable (CommitsFresh s action)
  | .commit _ sha =>
    inferInstanceAs (Decidable (∀ chain ∈ s.chains.values, sha ∉ chain.map PatchEntry.sha))
  | .openHost _ | .materialize _ _ | .createPatch _ | .writer _ _ | .beginPatch _ | .addNode _ _
  | .addEdge _ _ _ _ => isTrue trivial

/-! ### The invariant -/

def PatchBuilder.addDots (b : PatchBuilder V) : List Dot :=
  b.ops.filterMap fun canonical => canonical.op.addDot?

/-- The builder's dots are its own, distinct, and lie between a base and its vector; the
dots of the part of the chain that it saw lie at or below the base. -/
structure PatchBuilder.Sound (b : PatchBuilder V) (chain : List (PatchEntry V)) (base : Nat)
    (seen : List (PatchEntry V)) : Prop where
  past : seen <+: chain
  parent : seen.getLast?.map PatchEntry.sha = b.expectedParentSha
  below : ∀ dot ∈ chainDots seen, dot.counter ≤ base
  above : ∀ dot ∈ b.addDots, base < dot.counter
  within : ∀ dot ∈ b.addDots, dot.counter ≤ b.vv.counter b.writerId
  reached : base ≤ b.vv.counter b.writerId
  own : ∀ dot ∈ b.addDots, dot.writerId = b.writerId
  nodup : b.addDots.Nodup

structure System.Inv (s : System V) : Prop where
  builders : ∀ b ∈ s.builders, ∃ base seen, b.Sound (s.chain b.writerId) base seen
  own : ∀ writerId, ∀ dot ∈ chainDots (s.chain writerId), dot.writerId = writerId
  unique : s.DotsUnique
  shas : ∀ writerId, ((s.chain writerId).map PatchEntry.sha).Nodup

theorem System.inv_empty : (System.empty : System V).Inv where
  builders := by simp [System.empty]
  own := by simp [System.chain, System.empty, chainDots]
  unique := by simp [System.DotsUnique, System.chain, System.empty, chainDots]
  shas := by simp [System.chain, System.empty]

/-! ### Chains -/

theorem chainDots_append (left right : List (PatchEntry V)) :
    chainDots (left ++ right) = chainDots left ++ chainDots right := by
  simp [chainDots]

theorem eq_of_prefix_of_tip {seen chain : List (PatchEntry V)} (past : seen <+: chain)
    (shas : (chain.map PatchEntry.sha).Nodup)
    (tip : seen.getLast?.map PatchEntry.sha = chain.getLast?.map PatchEntry.sha) :
    seen = chain := by
  obtain ⟨rest, rfl⟩ := past
  cases rest using List.reverseRecOn with
  | nil => simp
  | append_singleton rest last =>
    rw [← append_assoc] at shas tip
    rw [List.getLast?_concat, Option.map_some] at tip
    obtain ⟨entry, found, same⟩ := Option.map_eq_some_iff.mp tip
    have twice : entry.sha ∈ (seen ++ rest).map PatchEntry.sha :=
      mem_map_of_mem (mem_append_left _ (mem_of_getLast? found))
    rw [map_append, nodup_append] at shas
    exact absurd same (shas.2.2 _ twice _ (by simp))

/-! ### Steps that leave the chains alone -/

theorem System.Inv.of_same_chains {s t : System V} (inv : s.Inv) (same : t.chains = s.chains)
    (builders : ∀ b ∈ t.builders, ∃ base seen, b.Sound (s.chain b.writerId) base seen) :
    t.Inv where
  builders := by
    intro b mem
    simpa only [System.chain, same] using builders b mem
  own := by
    intro writerId
    simpa only [System.chain, same] using inv.own writerId
  unique := by
    intro writerId
    simpa only [System.chain, same] using inv.unique writerId
  shas := by
    intro writerId
    simpa only [System.chain, same] using inv.shas writerId

variable {b : PatchBuilder V} {s : System V} {base : Nat}

theorem System.Inv.of_same {t : System V} (inv : s.Inv) (chains : t.chains = s.chains)
    (builders : t.builders = s.builders) : t.Inv :=
  inv.of_same_chains chains (by rw [builders]; exact inv.builders)

theorem onPatchCommitted_frame :
    (s.onPatchCommitted h writerId entry).chains = s.chains ∧
      (s.onPatchCommitted h writerId entry).builders = s.builders := by
  unfold System.onPatchCommitted
  split
  · exact ⟨rfl, rfl⟩
  · dsimp only
    split
    · split <;> exact ⟨rfl, rfl⟩
    · exact ⟨rfl, rfl⟩

theorem materialize_frame :
    (s.materialize h ceiling).chains = s.chains ∧
      (s.materialize h ceiling).builders = s.builders := by
  unfold System.materialize
  split <;> exact ⟨rfl, rfl⟩

/-! ### Starting a builder -/

theorem sound_of_covered (s : System V) (inv : s.Inv) (b : PatchBuilder V)
    (cloned : b.vv = s.vector address) (parent : b.expectedParentSha = s.readRef b.writerId)
    (fresh : b.ops = []) (covered : s.vectorCovers b.writerId address = true) :
    b.Sound (s.chain b.writerId) (b.vv.counter b.writerId) (s.chain b.writerId) where
  past := prefix_rfl
  parent := parent.symm
  below := by
    intro dot mem
    have contained := all_eq_true.mp covered dot mem
    rw [VersionVector.contains, decide_eq_true_eq, inv.own _ dot mem] at contained
    exact cloned ▸ contained
  above := by simp [PatchBuilder.addDots, fresh]
  within := by simp [PatchBuilder.addDots, fresh]
  reached := le_refl _
  own := by simp [PatchBuilder.addDots, fresh]
  nodup := by simp [PatchBuilder.addDots, fresh]

theorem System.Inv.start (inv : s.Inv) (cloned : b.vv = s.vector address)
    (parent : b.expectedParentSha = s.readRef b.writerId) (fresh : b.ops = [])
    (covered : s.vectorCovers b.writerId address = true) :
    ({ s with builders := s.builders ++ [b] } : System V).Inv := by
  refine inv.of_same_chains rfl fun other mem => ?_
  rcases mem_append.mp mem with old | new
  · exact inv.builders other old
  · cases mem_singleton.mp new
    exact ⟨_, _, sound_of_covered s inv b cloned parent fresh covered⟩

theorem System.Inv.createPatch (inv : s.Inv) (h) (covered : StartsCovered s (.createPatch h)) :
    (s.createPatch h).Inv := by
  unfold System.createPatch
  cases found : s.hosts[h]? with
  | none => exact inv
  | some host => exact inv.start rfl rfl rfl (covered host found)

theorem System.Inv.beginPatch (inv : s.Inv) (w) (covered : StartsCovered s (.beginPatch w)) :
    (s.beginPatch w).Inv := by
  unfold System.beginPatch
  cases found : s.writers[w]? with
  | none => exact inv
  | some writer => exact inv.start rfl rfl rfl (covered writer found)

/-! ### Adding to a builder -/

theorem PatchBuilder.Sound.spend (sound : b.Sound chain base seen) {ops}
    (pushed : ops.filterMap (fun canonical => canonical.op.addDot?) = b.addDots ∨
      ops.filterMap (fun canonical => canonical.op.addDot?) = b.addDots ++ [b.nextDot.1]) :
    PatchBuilder.Sound { b with vv := b.nextDot.2, ops := ops } chain base seen := by
  -- spending the next dot keeps a builder sound, with or without an operation for it
  have advanced : b.nextDot.2.counter b.writerId = b.vv.counter b.writerId + 1 := by
    simp [PatchBuilder.nextDot]
  have next : b.nextDot.1.counter = b.vv.counter b.writerId + 1 := rfl
  have reached := sound.reached
  have dots : ∀ dot ∈ ops.filterMap (fun canonical => canonical.op.addDot?),
      dot ∈ b.addDots ∨ dot = b.nextDot.1 := by
    intro dot mem
    rcases pushed with same | more
    · exact Or.inl (same ▸ mem)
    · rw [more] at mem
      simpa using mem
  refine ⟨sound.past, sound.parent, sound.below, ?_, ?_, ?_, ?_, ?_⟩
  · intro dot mem
    rcases dots dot mem with old | rfl
    · exact sound.above dot old
    · omega
  · intro dot mem
    change dot.counter ≤ b.nextDot.2.counter b.writerId
    rcases dots dot mem with old | rfl
    · have := sound.within dot old
      omega
    · omega
  · change base ≤ b.nextDot.2.counter b.writerId
    omega
  · intro dot mem
    rcases dots dot mem with old | rfl
    · exact sound.own dot old
    · rfl
  · change (ops.filterMap fun canonical => canonical.op.addDot?).Nodup
    rcases pushed with same | more
    · exact same ▸ sound.nodup
    · rw [more, nodup_append]
      refine ⟨sound.nodup, nodup_singleton _, ?_⟩
      rintro dot old other only rfl
      cases mem_singleton.mp only
      have := sound.within _ old
      omega

theorem PatchBuilder.Sound.pushAdd (sound : b.Sound chain base seen)
    (carries : ∀ dot, (op dot).addDot? = some dot) : (b.pushAdd op).2.Sound chain base seen := by
  unfold PatchBuilder.pushAdd
  split
  next created accepted =>
    have kept : created.op = op b.nextDot.1 := by
      unfold Op.create at accepted
      split at accepted
      · cases accepted
      · cases accepted
        rfl
    refine sound.spend (Or.inr ?_)
    simp [PatchBuilder.addDots, kept, carries]
  next rejected => exact sound.spend (Or.inl rfl)

theorem PatchBuilder.Sound.addNode (sound : b.Sound chain base seen) :
    (b.addNode nodeId).2.Sound chain base seen := by
  unfold PatchBuilder.addNode
  dsimp only
  split
  · exact sound
  · exact sound.pushAdd fun _ => rfl

theorem PatchBuilder.Sound.addEdge (sound : b.Sound chain base seen) :
    (b.addEdge src dst label).2.Sound chain base seen := by
  unfold PatchBuilder.addEdge
  dsimp only
  split
  · exact sound
  · exact sound.pushAdd fun _ => rfl

theorem pushAdd_writerId : (b.pushAdd op).2.writerId = b.writerId := by
  unfold PatchBuilder.pushAdd
  split <;> rfl

theorem addNode_writerId (b : PatchBuilder V) : (b.addNode nodeId).2.writerId = b.writerId := by
  unfold PatchBuilder.addNode
  dsimp only
  split
  · rfl
  · exact pushAdd_writerId

theorem addEdge_writerId (b : PatchBuilder V) :
    (b.addEdge src dst label).2.writerId = b.writerId := by
  unfold PatchBuilder.addEdge
  dsimp only
  split
  · rfl
  · exact pushAdd_writerId

theorem System.Inv.updateBuilder (inv : s.Inv) (writer : ∀ b, (call b).2.writerId = b.writerId)
    (keeps : ∀ b chain base seen, PatchBuilder.Sound b chain base seen →
      (call b).2.Sound chain base seen) : (s.updateBuilder i call).Inv := by
  unfold System.updateBuilder
  split
  · exact inv
  next b found =>
    refine inv.of_same_chains rfl fun other mem => ?_
    rcases mem_or_eq_of_mem_set mem with old | rfl
    · exact inv.builders other old
    · obtain ⟨base, seen, sound⟩ := inv.builders b (mem_of_getElem? found)
      exact ⟨base, seen, by rw [writer]; exact keeps b _ base seen sound⟩

/-! ### Committing -/

theorem commitEntry_addDots (s : System V) (b) (sha) :
    (s.commitEntry b sha).addDots = b.addDots := by
  simp only [PatchEntry.addDots, System.commitEntry, PatchBuilder.addDots, filterMap_map]
  rfl

theorem PatchBuilder.Sound.extend (sound : b.Sound chain base seen) (extends_ : chain <+: longer) :
    b.Sound longer base seen :=
  { sound with past := sound.past.trans extends_ }

/-- Publishing the dots of a builder that saw the whole chain. -/
theorem System.Inv.publish {t : System V} (inv : s.Inv) (b) (mem : b ∈ s.builders)
    (head : s.readRef b.writerId = b.expectedParentSha)
    (fresh : ∀ chain ∈ s.chains.values, sha ∉ chain.map PatchEntry.sha)
    (chains : t.chains = s.chains.set b.writerId (s.chain b.writerId ++ [s.commitEntry b sha]))
    (builders : ∀ other ∈ t.builders, ∃ old ∈ s.builders, other.writerId = old.writerId ∧
      ∀ chain base seen, old.Sound chain base seen → other.Sound chain base seen) : t.Inv := by
  obtain ⟨base, seen, sound⟩ := inv.builders b mem
  have whole : seen = s.chain b.writerId :=
    eq_of_prefix_of_tip sound.past (inv.shas _) (sound.parent.trans head.symm)
  have grown : ∀ writerId, t.chain writerId =
      if (b.writerId : JsString) = writerId then s.chain writerId ++ [s.commitEntry b sha]
      else s.chain writerId := by
    intro writerId
    simp only [System.chain, chains, OrdMap.get_set]
    split
    next same => simp [same]
    · rfl
  have newDots : chainDots [s.commitEntry b sha] = b.addDots := by
    simp [chainDots, commitEntry_addDots]
  constructor
  · intro other present
    obtain ⟨old, kept, sameWriter, keeps⟩ := builders other present
    obtain ⟨base', seen', sound'⟩ := inv.builders old kept
    refine ⟨base', seen', keeps _ _ _ (sound'.extend ?_)⟩
    rw [sameWriter, grown]
    split
    · exact prefix_append _ _
    · exact prefix_rfl
  · intro writerId dot listed
    rw [grown] at listed
    split at listed
    next same =>
      rw [chainDots_append, newDots, mem_append] at listed
      rcases listed with old | new
      · exact inv.own writerId dot old
      · exact (sound.own dot new).trans same
    · exact inv.own writerId dot listed
  · intro writerId
    rw [grown]
    split
    next same =>
      rw [chainDots_append, newDots, nodup_append]
      refine ⟨inv.unique writerId, sound.nodup, ?_⟩
      rintro dot old other new rfl
      have high := sound.above dot new
      have low := sound.below dot (whole ▸ same ▸ old)
      omega
    · exact inv.unique writerId
  · intro writerId
    rw [grown]
    split
    · rw [map_append, nodup_append]
      refine ⟨inv.shas writerId, by simp, ?_⟩
      rintro old present new only rfl
      have same : old = sha := by simpa [System.commitEntry] using only
      cases found : s.chains.get writerId with
      | none => simp [System.chain, found] at present
      | some chain =>
        simp only [System.chain, found, Option.getD_some] at present
        have listed := (s.chains.mem_entries_iff writerId).mpr found
        exact fresh chain (mem_map_of_mem listed) (same ▸ present)
    · exact inv.shas writerId

theorem System.Inv.commit (inv : s.Inv) (i) (fresh : CommitsFresh s (.commit i sha)) :
    (s.commit i sha).Inv := by
  unfold System.commit
  split
  · exact inv
  next b found =>
    split
    · exact inv
    · split
      · exact inv
      next head =>
        obtain ⟨chains, builders⟩ := onPatchCommitted_frame
        have member := mem_of_getElem? found
        refine inv.publish b member (not_not.mp head) fresh chains fun other listed => ?_
        rw [builders] at listed
        rcases mem_or_eq_of_mem_set listed with old | rfl
        · exact ⟨other, old, rfl, fun _ _ _ sound => sound⟩
        · exact ⟨b, member, rfl, fun _ _ _ sound => { sound with }⟩

/-! ### Runs -/

theorem System.Inv.perform (inv : s.Inv) (action)
    (admitted : StartsCovered s action ∧ CommitsFresh s action) : (perform s action).Inv := by
  obtain ⟨covered, fresh⟩ := admitted
  cases action with
  | openHost writerId => exact inv.of_same rfl rfl
  | materialize h ceiling =>
    exact inv.of_same materialize_frame.1 materialize_frame.2
  | createPatch h => exact inv.createPatch h covered
  | writer h writerId =>
    simp only [GitWarp.perform, System.writer]
    split
    · exact inv
    · exact inv.of_same rfl rfl
  | beginPatch w => exact inv.beginPatch w covered
  | addNode i nodeId =>
    exact inv.updateBuilder (fun b => addNode_writerId b)
      fun b _ _ _ sound => sound.addNode
  | addEdge i src dst label =>
    exact inv.updateBuilder (fun b => addEdge_writerId b)
      fun b _ _ _ sound => sound.addEdge
  | commit i sha => exact inv.commit i fresh

/-- In every run that starts its builders from vectors that contain the dots of their
chains, no chain of any state reached carries a dot twice. -/
theorem chain_dots_unique (actions : List Action)
    (covered : Along (perform (V := V)) StartsCovered .empty actions)
    (fresh : Along (perform (V := V)) CommitsFresh .empty actions) (k : Nat) :
    (run (perform (V := V)) .empty (actions.take k)).DotsUnique :=
  ((covered.and _ fresh).invariant _ (fun _ action inv admitted => inv.perform action admitted)
    System.inv_empty k).unique

/-! ### Samples -/

def sampleWriter : WriterId := ⟨lit "a", a_named⟩

/-- Two adds, a commit, and one more add, with other calls between the two patches. -/
def twoPatches (between : List Action) : List Action :=
  [.openHost sampleWriter, .createPatch 0, .addNode 0 (lit "n"), .addNode 0 (lit "m"),
    .commit 0 (lit "aaaa")] ++ between ++
  [.createPatch 0, .addNode 1 (lit "k"), .commit 1 (lit "bbbb")]

/-- The hook counts the first commit once although it carries two dots, so the second
patch takes its second dot again. -/
theorem second_patch_reuses_dot :
    Along (perform (V := Unit)) CommitsFresh .empty (twoPatches []) ∧
      ¬ (run (perform (V := Unit)) .empty (twoPatches [])).DotsUnique := by
  refine ⟨by decide, fun unique => ?_⟩
  have chain := unique (lit "a")
  revert chain
  decide

theorem chain_dots_unique_materialized :
    (run (perform (V := Unit)) .empty
      ((twoPatches [.materialize 0 none]).take (twoPatches [.materialize 0 none]).length)).DotsUnique :=
  chain_dots_unique (twoPatches [.materialize 0 none]) (by decide) (by decide) _

end GitWarp
