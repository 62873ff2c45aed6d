import GitWarp.Runtime.RuntimeHost

/-!
# What a repository's states say

A state reads a coordinate when it holds what the patches of the coordinate say.
Every accepted base leads to a state that reads the target: of a base with a
ceiling this asks that nothing between the two filters is lost.
-/
namespace GitWarp

open Js Lib List

variable {V : Type}

/-! ### A store that grows -/

variable {commit : Commit V} {s : WarpState V} {r r' : Repository V} {sha : JsString} {a : Append V}

namespace CommitStore

theorem append_spec {store next : CommitStore V} (appended : store.append sha commit = some next) :
    next.commits = (sha, commit) :: store.commits ∧ store.has sha = false ∧
      ∀ parent, commit.parent = some parent → store.has parent = true := by
  unfold append at appended
  split at appended
  next accepted =>
    cases appended
    refine ⟨rfl, by simpa [has] using accepted.1, fun parent isParent => ?_⟩
    have stored := accepted.2
    rw [isParent] at stored
    exact stored
  next => cases appended

theorem chain_append {store next : CommitStore V} (appended : store.append sha commit = some next)
    (stored : store.has tip = true) : next.chain tip = store.chain tip := by
  obtain ⟨commits, fresh, -⟩ := append_spec appended
  have apart : sha ≠ tip := by
    rintro rfl
    rw [fresh] at stored
    cases stored
  simp only [chain, loadPatchChainFromSha, commits, walkBack, reduceCtorEq, if_false, apart]

theorem chain_appended {store next : CommitStore V} (appended : store.append sha commit = some next)
    (named : sha ≠ []) (parents : ∀ parent, commit.parent = some parent → parent ≠ []) :
    next.chain sha = (match commit.parent with
      | none => []
      | some parent => store.chain parent) ++ [⟨commit.patch, sha⟩] := by
  obtain ⟨commits, -, -⟩ := append_spec appended
  unfold chain loadPatchChainFromSha
  rw [if_neg named, commits, walkBack, if_neg (by simp), if_pos rfl]
  cases parent : commit.parent with
  | none => rfl
  | some p => simp [parents p parent]

theorem Valid.append {store next : CommitStore V} (valid : store.Valid)
    (appended : store.append sha commit = some next)
    (good : (⟨commit.patch, sha⟩ : PatchEntry V).WellFormed) : next.Valid := by
  obtain ⟨commits, -, -⟩ := append_spec appended
  intro c mem
  rw [commits] at mem
  rcases mem_cons.mp mem with rfl | old
  · exact good
  · exact valid c old

end CommitStore

/-! ### Coordinates of a repository -/

namespace Repository

/-- Every tip of the frontier is a stored commit. -/
def Stored (r : Repository V) (frontier : Frontier) : Prop :=
  ∀ w tip, frontier.get w = some tip → tip ≠ [] ∧ r.store.has tip = true

/-- The state holds what the patches of the coordinate say. -/
def Reads (r : Repository V) (c : Coordinate) (s : WarpState V) : Prop :=
  Represents s (historyFacts (r.store.streamForFrontier c))

/-- The state is the reduction of the patches of the coordinate. -/
def ReducesTo (r : Repository V) (c : Coordinate) (s : WarpState V) : Prop :=
  ∃ reduced, reducePatches (r.store.streamForFrontier c) .empty = .ok reduced ∧ s.Equiv reduced

theorem Reads.reducesTo (reads : r.Reads c s) (valid : r.store.Valid) : r.ReducesTo c s := by
  obtain ⟨reduced, ok, knows⟩ := reduces_history valid.stream
  exact ⟨reduced, ok, Represents.equiv (r.store.consistent_streams c).oneWritePerEvent reads knows⟩

theorem ReducesTo.node (reduces : r.ReducesTo c s) :
    (reducePatches (r.store.streamForFrontier c) .empty).toOption.map (visibleNode · x) =
      some (visibleNode s x) := by
  obtain ⟨reduced, ok, same⟩ := reduces
  rw [ok]
  exact congrArg some (same.nodeAlive.contains_eq x).symm

theorem Reads.congr (reads : r.Reads c s)
    (same : ∀ e, e ∈ r.store.streamForFrontier c ↔ e ∈ r'.store.streamForFrontier c') :
    r'.Reads c' s := by
  unfold Reads at *
  rwa [← historyFacts_congr _ _ same]

theorem reads_empty (r : Repository V) (c) (nothing : r.store.streamForFrontier c = []) :
    r.Reads c .empty := by
  unfold Reads
  rw [nothing]
  have none_ : historyFacts ([] : List (PatchEntry V)) = ∅ := by
    ext f
    simp [historyFacts]
  rw [none_]
  exact represents_empty

structure Sound (r : Repository V) : Prop where
  valid : r.store.Valid
  refs : r.Stored r.refs
  retained : ∀ c s, (c, s) ∈ r.retained → r.Stored c.frontier ∧ r.Reads c s
  checkpoints : ∀ f s, (f, s) ∈ r.checkpoints → r.Stored f ∧ r.Reads ⟨f, none⟩ s

/-- A repository without commits. -/
def blank : Repository V := ⟨⟨[], List.nodup_nil, trivial⟩, .empty, [], []⟩

theorem sound_blank : (blank : Repository V).Sound where
  valid := fun commit mem => by cases mem
  refs := fun w tip found => by cases found
  retained := fun c s mem => by cases mem
  checkpoints := fun f s mem => by cases mem

/-! ### Commits -/

theorem appendPatch_spec (appended : r.appendPatch a = some r') :
    ∃ store, r.refs.get a.writer = a.expectedHead ∧
      r.store.append a.sha ⟨a.expectedHead, a.patch⟩ = some store ∧
      r' = { r with store := store, refs := r.refs.set a.writer a.sha } := by
  unfold appendPatch at appended
  split at appended
  next expected =>
    obtain ⟨store, ok, rfl⟩ := Option.map_eq_some_iff.mp appended
    exact ⟨store, expected, ok, rfl⟩
  next => cases appended

/-- A commit changes nothing behind the tips that were stored before it. -/
structure Grows (r r' : Repository V) : Prop where
  stored : ∀ frontier, r.Stored frontier → r'.Stored frontier
  stream : ∀ c : Coordinate, r.Stored c.frontier →
    ∀ e, e ∈ r'.store.streamForFrontier c ↔ e ∈ r.store.streamForFrontier c
  retained : r'.retained = r.retained
  checkpoints : r'.checkpoints = r.checkpoints

theorem Grows.refl (r : Repository V) : r.Grows r :=
  ⟨fun _ stored => stored, fun _ _ _ => Iff.rfl, rfl, rfl⟩

theorem Grows.trans (first : r.Grows r') (later : r'.Grows r'') :
    r.Grows r'' where
  stored := fun frontier stored => later.stored frontier (first.stored frontier stored)
  stream := fun c stored e =>
    (later.stream c (first.stored c.frontier stored) e).trans (first.stream c stored e)
  retained := later.retained.trans first.retained
  checkpoints := later.checkpoints.trans first.checkpoints

theorem Reads.grows (reads : r.Reads c s) (grows : r.Grows r') (stored : r.Stored c.frontier) :
    r'.Reads c s :=
  reads.congr fun e => (grows.stream c stored e).symm

theorem appendPatch_grows (appended : r.appendPatch a = some r') : r.Grows r' := by
  obtain ⟨store, -, ok, rfl⟩ := appendPatch_spec appended
  obtain ⟨commits, -, -⟩ := CommitStore.append_spec ok
  refine ⟨fun frontier stored w tip found => ?_, fun c stored e => ?_, rfl, rfl⟩
  · obtain ⟨named, has⟩ := stored w tip found
    refine ⟨named, ?_⟩
    simp only [CommitStore.has, decide_eq_true_eq] at has ⊢
    rw [commits, map_cons]
    exact mem_cons_of_mem _ has
  · simp only [CommitStore.mem_streamForFrontier]
    apply and_congr_left
    intro _
    constructor
    · rintro ⟨w, tip, found, mem⟩
      exact ⟨w, tip, found, CommitStore.chain_append ok (stored w tip found).2 ▸ mem⟩
    · rintro ⟨w, tip, found, mem⟩
      exact ⟨w, tip, found, (CommitStore.chain_append ok (stored w tip found).2).symm ▸ mem⟩

theorem Sound.appendPatch (sound : r.Sound) (appended : r.appendPatch a = some r')
    (good : a.entry.WellFormed) : r'.Sound := by
  have grows := appendPatch_grows appended
  obtain ⟨store, -, ok, rfl⟩ := appendPatch_spec appended
  obtain ⟨commits, -, -⟩ := CommitStore.append_spec ok
  refine ⟨sound.valid.append ok good, OrdMap.forall_set ⟨good.sha_ne_nil, ?_⟩
    (grows.stored r.refs sound.refs), fun c s mem => ?_, fun f s mem => ?_⟩
  · simp [CommitStore.has, commits]
  · obtain ⟨stored, reads⟩ := sound.retained c s mem
    exact ⟨grows.stored _ stored, reads.grows grows stored⟩
  · obtain ⟨stored, reads⟩ := sound.checkpoints f s mem
    exact ⟨grows.stored _ stored, reads.grows grows stored⟩

theorem Sound.appendAll (sound : r.Sound) (good : ∀ a ∈ appends, a.entry.WellFormed) :
    (r.appendAll appends).Sound ∧ r.Grows (r.appendAll appends) := by
  induction appends generalizing r with
  | nil => exact ⟨sound, .refl r⟩
  | cons a rest ih =>
    have goodRest := fun b mem => good b (mem_cons_of_mem a mem)
    rw [Repository.appendAll, foldl_cons]
    cases appended : r.appendPatch a with
    | none => exact ih sound goodRest
    | some r' =>
      obtain ⟨after, grows⟩ := ih (sound.appendPatch appended (good a mem_cons_self)) goodRest
      exact ⟨after, (appendPatch_grows appended).trans grows⟩

/-- A frontier whose tip of the writer is the expected head, moved to the new commit, has one
more patch. -/
theorem mem_stream_appended (sound : r.Sound) (appended : r.appendPatch a = some r')
    (good : a.entry.WellFormed) (f) (stored : r.Stored f) (head : f.get a.writer = a.expectedHead)
    (e) :
    e ∈ r'.store.streamForFrontier ⟨f.set a.writer a.sha, none⟩ ↔
      e ∈ r.store.streamForFrontier ⟨f, none⟩ ∨ e = a.entry := by
  obtain ⟨store, expected, ok, rfl⟩ := appendPatch_spec appended
  have named : a.sha ≠ [] := good.sha_ne_nil
  have chain := CommitStore.chain_appended ok named fun parent isParent =>
    (sound.refs a.writer parent (expected.trans isParent)).1
  have mine : e ∈ store.chain a.sha ↔
      (∃ tip, f.get a.writer = some tip ∧ e ∈ r.store.chain tip) ∨ e = a.entry := by
    rw [chain, mem_append, mem_singleton, head]
    cases parent : a.expectedHead with
    | none | some p => simp [Append.entry]
  simp only [CommitStore.mem_streamForFrontier, patchWithinCeiling, and_true]
  constructor
  · rintro ⟨w, tip, found, mem⟩
    rw [OrdMap.get_set] at found
    split at found
    next same =>
      cases found
      rcases mine.mp mem with ⟨tip, old, behind⟩ | here
      · exact Or.inl ⟨a.writer, tip, old, behind⟩
      · exact Or.inr here
    next other =>
      exact Or.inl ⟨w, tip, found, CommitStore.chain_append ok (stored w tip found).2 ▸ mem⟩
  · rintro (⟨w, tip, found, mem⟩ | here)
    · by_cases same : a.writer = w
      · subst same
        exact ⟨a.writer, a.sha, by simp, mine.mpr (Or.inl ⟨tip, found, mem⟩)⟩
      · refine ⟨w, tip, by simp [same, found], ?_⟩
        exact (CommitStore.chain_append ok (stored w tip found).2).symm ▸ mem
    · exact ⟨a.writer, a.sha, by simp, mine.mpr (Or.inr here)⟩

end Repository
end GitWarp
