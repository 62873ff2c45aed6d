import GitWarp.Runtime.Exchanging
import GitWarp.Runtime.WarpStateSnapshotIndex
import Mathlib.Data.Nat.Log

/-!
# Bisecting a writer's chain

Bisect halves the part of a writer's chain between a good and a bad commit. Each candidate
that it tries is tested on what the host materializes at the lamport of the candidate, so on
the patches of all writers up to that lamport. The last candidate is never tried: it is the
bad commit.
-/
namespace GitWarp

open Js Lib List

variable {V : Type}

namespace CommitStore

theorem nodup_walkBack {commits : List (JsString × Commit V)} (nodup : (commits.map Prod.fst).Nodup)
    (current) : ((walkBack stop commits current).map PatchEntry.sha).Nodup := by
  induction commits generalizing current with
  | nil => exact nodup_nil
  | cons first older ih =>
    obtain ⟨sha, commit⟩ := first
    rw [map_cons, nodup_cons] at nodup
    rw [walkBack]
    split
    · exact nodup_nil
    · split
      · cases commit.parent with
        | none => simp
        | some parent =>
          -- the patches behind the parent are of older commits
          simp only [map_append, map_cons, map_nil]
          apply (ih nodup.2 parent).append (nodup_singleton sha)
          intro x before last
          obtain ⟨entry, member, same⟩ := mem_map.mp before
          obtain ⟨found, stored, -⟩ := mem_walkBack parent member
          have here := mem_singleton.mp last
          subst here
          exact nodup.1 (mem_map.mpr ⟨_, stored, same⟩)
      · exact ih nodup.2 current

theorem nodup_chain (store : CommitStore V) (tip) :
    ((store.chain tip).map PatchEntry.sha).Nodup := by
  unfold chain loadPatchChainFromSha
  split
  · exact nodup_nil
  · exact nodup_walkBack store.nodup tip

end CommitStore

namespace Repository

/-- `loadWriterPatches`, without a sha to stop at. -/
def getWriterPatches (r : Repository V) (writerId : JsString) : List (PatchEntry V) :=
  match r.refs.get writerId with
  | none => []
  | some tipSha => r.store.chain tipSha

def upTo (r : Repository V) (entry : PatchEntry V) : Coordinate :=
  ⟨r.refs, some entry.patch.lamport.toNat⟩

end Repository

/-! ### The service -/

inductive BisectResult
  | found (firstBadPatch writerId : JsString) (lamport : Int) (steps totalCandidates : Nat)
  | rangeError (message : String)
  deriving DecidableEq

/-- A call of the test function and its answer. -/
structure BisectTest (V : Type) where
  candidate : PatchEntry V
  state : WarpState V
  isGood : Bool

def resolveCandidates (patches : List (PatchEntry V)) (good bad : JsString) :
    Except String (List (PatchEntry V)) :=
  match patches.findIdx? (fun p => p.sha = good), patches.findIdx? (fun p => p.sha = bad) with
  | some goodIdx, some badIdx =>
    if goodIdx ≥ badIdx then .error "good is not an ancestor of bad"
    else .ok ((patches.take (badIdx + 1)).drop (goodIdx + 1))
  | _, _ => .error "good or bad SHA not found in writer chain"

section

variable [StrictEq V] (stateHash : WarpState V → JsString)

/-- `materialize` with a ceiling, and the state it returns. Which retained state it starts from
depends on what the host still holds. -/
def RuntimeHost.materializeAt (base : RuntimeHost V → Nat → Base) (h : RuntimeHost V)
    (ceiling : Nat) : Except Failure (WarpState V × RuntimeHost V) :=
  (h.repo.materializeCoordinate ⟨h.repo.refs, some ceiling⟩ (base h ceiling)).map fun state =>
    (state, h.materialize stateHash (some ceiling) (base h ceiling) [])

namespace BisectService

variable (base : RuntimeHost V → Nat → Base) (testFn : WarpState V → JsString → Bool)

/-- `_binarySearch` from a window on, with the calls of the test function; their number is the
number of steps. -/
def binarySearch (candidates : List (PatchEntry V)) (lo hi : Nat) (h : RuntimeHost V) :
    Except Failure (Nat × List (BisectTest V)) :=
  if _open : lo < hi then
    let mid := (lo + hi) / 2
    match candidates[mid]? with
    | none => .ok (lo, [])
    | some candidate =>
      match h.materializeAt stateHash base candidate.patch.lamport.toNat with
      | .error e => .error e
      | .ok (state, h) =>
        let isGood := testFn state candidate.sha
        let rest :=
          if isGood then binarySearch candidates (mid + 1) hi h
          else binarySearch candidates lo mid h
        rest.map fun found => (found.1, ⟨candidate, state, isGood⟩ :: found.2)
  else .ok (lo, [])
termination_by hi - lo

/-- `run`, with the calls of the test function. -/
def run (h : RuntimeHost V) (good bad writerId : JsString) :
    Except Failure (BisectResult × List (BisectTest V)) :=
  if good = bad then .ok (.rangeError "good and bad SHAs are the same", [])
  else
    match resolveCandidates (h.repo.getWriterPatches writerId) good bad with
    | .error message => .ok (.rangeError message, [])
    | .ok [only] => .ok (.found only.sha writerId only.patch.lamport 0 1, [])
    | .ok candidates =>
      match binarySearch stateHash base testFn candidates 0 (candidates.length - 1) h with
      | .error e => .error e
      | .ok (index, tests) =>
        match candidates[index]? with
        | some entry => .ok (.found entry.sha writerId entry.patch.lamport tests.length
            candidates.length, tests)
        | none => .error ⟨.typeError, [], lit "Cannot read properties of undefined"⟩

end BisectService

/-! ### What is tested -/

/-- A host on the commits and refs of the repository that loses nothing when it resumes from a
retained state. -/
structure RuntimeHost.Reading (r : Repository V) (h : RuntimeHost V) : Prop where
  coherent : h.Coherent
  store : h.repo.store = r.store
  refs : h.repo.refs = r.refs
  resumes : ∀ ceiling i, h.repo.Resumable ⟨h.repo.refs, some ceiling⟩ false (.predecessor i)

omit [StrictEq V] in
theorem absorbed_of_same_refs {r : Repository V} :
    Absorbed (historyFacts (r.store.streamForFrontier ⟨r.refs, some low⟩ ++
        r.store.streamForFrontierSinceCoordinate ⟨r.refs, some high⟩ ⟨r.refs, some low⟩))
      (historyFacts (r.store.betweenFilters ⟨r.refs, some high⟩ ⟨r.refs, some low⟩)) := by
  have nothing : r.store.betweenFilters ⟨r.refs, some high⟩ ⟨r.refs, some low⟩ = [] := by
    apply eq_nil_iff_forall_not_mem.mpr
    intro entry member
    simp only [CommitStore.betweenFilters, mem_filter, Bool.and_eq_true, Bool.not_eq_true',
      contains_eq_mem, decide_eq_false_iff_not] at member
    obtain ⟨inside, -, unreached⟩ := member
    obtain ⟨reached, -⟩ := r.store.mem_streamForFrontier.mp inside
    exact unreached (mem_map_of_mem (r.store.mem_streamForFrontier.mpr ⟨reached, rfl⟩))
  rw [nothing]
  apply absorbed_of_subset
  rintro fact ⟨entry, member, -⟩
  cases member

theorem RuntimeHost.materialize_repo (h : RuntimeHost V) :
    let after := (h.materialize stateHash (some ceiling) base []).repo
    after.store = h.repo.store ∧ after.refs = h.repo.refs ∧ (after.retained = h.repo.retained ∨
        ∃ s, after.retained = h.repo.retained ++ [(⟨h.repo.refs, some ceiling⟩, s)]) := by
  unfold RuntimeHost.materialize
  dsimp only
  split
  · exact ⟨rfl, rfl, Or.inl rfl⟩
  next state diff reduced =>
    unfold RuntimeHost.onMaterialized
    rw [if_neg (by simp), buildView_repo]
    refine ⟨rfl, rfl, ?_⟩
    split
    · exact Or.inr ⟨state, rfl⟩
    · exact Or.inl rfl

theorem RuntimeHost.Reading.materializeAt {h : RuntimeHost V} (reading : h.Reading r) (base)
    (ceiling) :
    ∃ state after, h.materializeAt stateHash base ceiling = .ok (state, after) ∧
      after.Reading r ∧ r.ReducesTo ⟨r.refs, some ceiling⟩ state := by
  have resumable : ∀ b, h.repo.Resumable ⟨h.repo.refs, some ceiling⟩ false b := by
    intro b
    cases b with
    | predecessor i => exact reading.resumes ceiling i
    | _ => trivial
  obtain ⟨state, materialized, reduces⟩ := WarpStateSnapshotIndex.materializeCoordinate_spec
    reading.coherent.repo (resumable _)
  refine ⟨state, h.materialize stateHash (some ceiling) (base h ceiling) [], ?_, ?_, ?_⟩
  · rw [RuntimeHost.materializeAt, materialized]
    rfl
  · obtain ⟨store, refs, retained⟩ := h.materialize_repo stateHash
    refine ⟨reading.coherent.materialize stateHash (by simp) ⟨by simp, ?_⟩,
      store.trans reading.store, refs.trans reading.refs, ?_⟩
    · rw [Option.isNone_some, Bool.and_false]
      exact resumable _
    · intro high i wanted c s found accepted
      rw [refs] at accepted ⊢
      rw [store] at accepted ⊢
      rcases retained with same | ⟨own, added⟩
      · rw [same] at found
        exact reading.resumes high i wanted c s found accepted
      · rw [added] at found
        rcases mem_append.mp (mem_of_getElem? found) with old | new
        · obtain ⟨k, there⟩ := mem_iff_getElem?.mp old
          exact reading.resumes high k wanted c s there accepted
        · cases mem_singleton.mp new
          exact absorbed_of_same_refs
  · unfold Repository.ReducesTo at *
    rwa [reading.store, reading.refs] at reduces

/-! ### The boundary -/

omit [StrictEq V]

/-- A call of the test function on the patches up to the candidate. -/
structure BisectTest.Sound (r : Repository V) (testFn : WarpState V → JsString → Bool)
    (t : BisectTest V) : Prop where
  reduces : r.ReducesTo (r.upTo t.candidate) t.state
  verdict : t.isGood = testFn t.state t.candidate.sha

/-- The test passes on the patches up to the entry. -/
def Repository.Passes (r : Repository V) (testFn : WarpState V → JsString → Bool)
    (entry : PatchEntry V) : Prop :=
  ∃ state, r.ReducesTo (r.upTo entry) state ∧ testFn state entry.sha = true

def Repository.Fails (r : Repository V) (testFn : WarpState V → JsString → Bool)
    (entry : PatchEntry V) : Prop :=
  ∃ state, r.ReducesTo (r.upTo entry) state ∧ testFn state entry.sha = false

namespace BisectService

variable [StrictEq V]

theorem binarySearch_spec (base testFn candidates) (lo hi) (ordered : lo ≤ hi)
    (inside : hi < candidates.length) (h) (reading : h.Reading r) :
    ∃ index tests, binarySearch stateHash base testFn candidates lo hi h = .ok (index, tests) ∧
      lo ≤ index ∧ index ≤ hi ∧ (∀ t ∈ tests, t.candidate ∈ candidates ∧ t.Sound r testFn) ∧
      (index = hi ∨ ∀ entry, candidates[index]? = some entry → r.Fails testFn entry) ∧
      (index = lo ∨ ∀ entry, candidates[index - 1]? = some entry → r.Passes testFn entry) := by
  -- the window always ends at a failing candidate and starts behind a passing one
  induction width : hi - lo using Nat.strong_induction_on generalizing lo hi h with
  | _ width ih =>
    rw [binarySearch]
    split
    next gap =>
      obtain ⟨candidate, here⟩ : ∃ c, candidates[(lo + hi) / 2]? = some c :=
        ⟨_, List.getElem?_eq_getElem (by omega)⟩
      obtain ⟨state, after, materialized, next, reduces⟩ :=
        reading.materializeAt stateHash base candidate.patch.lamport.toNat
      have sound : BisectTest.Sound r testFn ⟨candidate, state, testFn state candidate.sha⟩ :=
        ⟨reduces, rfl⟩
      simp only [here, materialized]
      cases verdict : testFn state candidate.sha with
      | true =>
        -- the first half is passed by
        obtain ⟨index, tests, found, low, high, tested, fails, passes⟩ :=
          ih (hi - ((lo + hi) / 2 + 1)) (by omega) ((lo + hi) / 2 + 1) hi (by omega) inside after
            next rfl
        refine ⟨index, _ :: tests, by rw [if_pos rfl, found]; rfl, by omega, high, ?_, fails, ?_⟩
        · rw [verdict] at sound
          exact forall_mem_cons.mpr ⟨⟨mem_of_getElem? here, sound⟩, tested⟩
        · right
          rcases passes with first | later
          · intro entry there
            rw [first, Nat.add_sub_cancel, here] at there
            cases there
            exact ⟨state, reduces, verdict⟩
          · exact later
      | false =>
        -- the second half is left, but for the candidate itself
        obtain ⟨index, tests, found, low, high, tested, fails, passes⟩ :=
          ih ((lo + hi) / 2 - lo) (by omega) lo ((lo + hi) / 2) (by omega) (by omega) after
            next rfl
        refine ⟨index, _ :: tests, by rw [if_neg (by simp), found]; rfl, low, by omega, ?_, ?_,
          passes⟩
        · rw [verdict] at sound
          exact forall_mem_cons.mpr ⟨⟨mem_of_getElem? here, sound⟩, tested⟩
        · right
          rcases fails with last | earlier
          · intro entry there
            rw [last, here] at there
            cases there
            exact ⟨state, reduces, verdict⟩
          · exact earlier
    next closed => exact ⟨lo, [], rfl, Nat.le_refl lo, ordered, by simp, by omega, Or.inl rfl⟩

omit [StrictEq V] in
theorem findIdx_sha {patches : List (PatchEntry V)} (nodup : (patches.map PatchEntry.sha).Nodup)
    (here : patches[i]? = some entry) : patches.findIdx? (fun p => p.sha = entry.sha) = some i := by
  obtain ⟨inside, there⟩ := List.getElem?_eq_some_iff.mp here
  rw [List.findIdx?_eq_some_iff_getElem]
  refine ⟨inside, by simp [there], fun k earlier => ?_⟩
  have apart := pairwise_iff_getElem.mp nodup k i (by rw [length_map]; omega)
    (by rw [length_map]; omega) earlier
  simpa [there] using apart

omit [StrictEq V] in
theorem resolveCandidates_spec (patches : List (PatchEntry V))
    (nodup : (patches.map PatchEntry.sha).Nodup) (isGood : patches[i]? = some good)
    (isBad : patches[j]? = some bad) (before : i < j) :
    ∃ candidates, resolveCandidates patches good.sha bad.sha = .ok candidates ∧
      candidates.length = j - i ∧ ∀ k, k < j - i → candidates[k]? = patches[i + 1 + k]? := by
  have inside : j < patches.length := (List.getElem?_eq_some_iff.mp isBad).1
  refine ⟨(patches.take (j + 1)).drop (i + 1), ?_, ?_, fun k early => ?_⟩
  · rw [resolveCandidates, findIdx_sha nodup isGood, findIdx_sha nodup isBad]
    simp only
    rw [if_neg (by omega)]
  · rw [length_drop, length_take]
    omega
  · rw [List.getElem?_drop, List.getElem?_take, if_pos (by omega)]

omit [StrictEq V] in
theorem mem_upTo_iff (r : Repository V) (valid : r.store.Valid)
    (rising : (r.getWriterPatches writerId).Pairwise fun a b => a.patch.lamport < b.patch.lamport)
    {m n : Nat} (isCandidate : (r.getWriterPatches writerId)[m]? = some candidate)
    (listed : (r.getWriterPatches writerId)[n]? = some entry) :
    entry ∈ r.store.streamForFrontier (r.upTo candidate) ↔ n ≤ m := by
  -- of the writer's own patches those up to the candidate are read, when the lamports rise
  -- along its chain
  have own : ∀ e ∈ r.getWriterPatches writerId, 0 < e.patch.lamport ∧
      ∃ w tip, r.refs.get w = some tip ∧ e ∈ r.store.chain tip := by
    intro e mem
    unfold Repository.getWriterPatches at mem
    split at mem
    · cases mem
    next tip found =>
      exact ⟨(valid.load mem).positive, writerId, tip, found, mem⟩
  obtain ⟨positive, -⟩ := own candidate (mem_of_getElem? isCandidate)
  have order : entry.patch.lamport ≤ candidate.patch.lamport ↔ n ≤ m := by
    obtain ⟨bound, here⟩ := List.getElem?_eq_some_iff.mp isCandidate
    obtain ⟨bound', there⟩ := List.getElem?_eq_some_iff.mp listed
    have ordered := pairwise_iff_getElem.mp rising
    constructor
    · intro low
      by_contra late
      have above := ordered m n bound bound' (by omega)
      rw [here, there] at above
      omega
    · intro early
      rcases Nat.lt_or_eq_of_le early with strict | same
      · have below := ordered n m bound' bound strict
        rw [here, there] at below
        omega
      · subst same
        rw [isCandidate, Option.some.injEq] at listed
        rw [listed]
  have reached := (own entry (mem_of_getElem? listed)).2
  rw [CommitStore.mem_streamForFrontier, ← order]
  simp only [Repository.upTo, patchWithinCeiling, decide_eq_true_eq]
  rw [and_iff_right reached]
  omega

end BisectService
end

/-! ### Two writers -/

def addsNode (writer node : String) (lamport counter : Int) : PatchLike Nat :=
  ⟨lit writer, lamport, [.decoded { OpLike.bare (lit "NodeAdd") 0 with
    node := some (lit node), dot := some (.raw ⟨some (lit writer), some (.int counter)⟩) }], .absent⟩

/-- Writer `a` adds three nodes, and writer `b` adds `y` beside the second one. -/
def besideSecond : Repository Nat :=
  Repository.blank.appendAll
    [⟨lit "a", none, addsNode "a" "w" 1 1, lit "aaaa"⟩,
      ⟨lit "a", some (lit "aaaa"), addsNode "a" "x" 2 2, lit "bbbb"⟩,
      ⟨lit "b", none, addsNode "b" "y" 2 1, lit "dddd"⟩,
      ⟨lit "a", some (lit "bbbb"), addsNode "a" "z" 3 3, lit "cccc"⟩]

theorem besideSecond_sound : besideSecond.Sound := by
  apply (Repository.sound_blank.appendAll _).1
  simp only [mem_cons, not_mem_nil, or_false, forall_eq_or_imp, forall_eq]
  refine ⟨?_, ?_, ?_, ?_⟩
  all_goals
    refine ⟨by decide, ?_, by decide, by decide, by decide, ⟨_, rfl⟩⟩
    simp only [Append.entry, addsNode, mem_singleton, forall_eq]
    exact ⟨_, rfl⟩

theorem reading_besideSecond : (RuntimeHost.opened besideSecond).Reading besideSecond where
  coherent := RuntimeHost.coherent_opened besideSecond_sound
  store := rfl
  refs := rfl
  resumes := fun ceiling i _ c s found => by cases found

/-- Neither `y` nor `z` is visible. -/
def hidesYZ (s : WarpState Nat) (_ : JsString) : Bool :=
  !visibleNode s (lit "y") && !visibleNode s (lit "z")

namespace BisectService

section

variable [StrictEq V] (stateHash : WarpState V → JsString)

theorem binarySearch_tests (base testFn candidates) (lo hi h)
    (found : binarySearch stateHash base testFn candidates lo hi h = .ok (index, tests))
    (ordered : lo ≤ hi) (inside : hi < candidates.length) :
    Nat.log 2 (hi - lo + 1) ≤ tests.length ∧ tests.length ≤ Nat.clog 2 (hi - lo + 1) := by
  -- a test leaves half of the possible answers, rounded up or down
  induction width : hi - lo using Nat.strong_induction_on generalizing lo hi h index tests with
  | _ n ih =>
    rw [binarySearch] at found
    split at found
    next gap =>
      simp only [List.getElem?_eq_getElem (show (lo + hi) / 2 < candidates.length by omega)] at found
      split at found
      · cases found
      next state after _ =>
        simp only [Except.map] at found
        split at found
        · cases found
        next answer rest =>
          cases found
          have log := Nat.log_of_one_lt_of_le (b := 2) (n := n + 1) (by decide) (by omega)
          have clog := Nat.clog_of_two_le (b := 2) (n := n + 1) (by decide) (by omega)
          rw [length_cons]
          split at rest
          · have half := ih _ (by omega) _ _ _ rest (by omega) inside rfl
            have low := Nat.log_mono_right (b := 2)
              (show (n + 1) / 2 ≤ hi - ((lo + hi) / 2 + 1) + 1 by omega)
            have high := Nat.clog_mono_right 2
              (show hi - ((lo + hi) / 2 + 1) + 1 ≤ (n + 1 + 2 - 1) / 2 by omega)
            omega
          · have half := ih _ (by omega) _ _ _ rest (by omega) (by omega) rfl
            have low := Nat.log_mono_right (b := 2)
              (show (n + 1) / 2 ≤ (lo + hi) / 2 - lo + 1 by omega)
            have high := Nat.clog_mono_right 2
              (show (lo + hi) / 2 - lo + 1 ≤ (n + 1 + 2 - 1) / 2 by omega)
            omega
    next closed =>
      cases found
      have none : n = 0 := by omega
      simp [none]

/-- Whatever the test answers, and whatever states the host resumes from, a bisection among `total`
candidates makes one test for each halving of them: at least `⌊log₂ total⌋` and at most
`⌈log₂ total⌉`. -/
theorem bisect_steps (base : RuntimeHost V → Nat → Base) (testFn : WarpState V → JsString → Bool)
    (h : RuntimeHost V) (good bad writerId : JsString) (sha owner : JsString) (lamport : Int)
    (steps total : Nat) (tests : List (BisectTest V))
    (ran : run stateHash base testFn h good bad writerId =
      .ok (.found sha owner lamport steps total, tests)) :
    steps = tests.length ∧ Nat.log 2 total ≤ steps ∧ steps ≤ Nat.clog 2 total := by
  rw [run] at ran
  split at ran
  · cases ran
  · split at ran
    · cases ran
    · cases ran
      simp
    next candidates _ _ =>
      split at ran
      · cases ran
      next index made searched =>
        split at ran
        next entry here =>
          cases ran
          have some_ := (List.getElem?_eq_some_iff.mp here).1
          have bounds := binarySearch_tests stateHash base testFn candidates 0 _ h searched
            (Nat.zero_le _) (by omega)
          rw [Nat.sub_zero, Nat.sub_add_cancel (by omega)] at bounds
          exact ⟨rfl, bounds⟩
        · cases ran

end

/-- The one test passes, and the second candidate is left. -/
theorem run_besideSecond : ∃ sha tests, run RuntimeHost.numberHash (fun _ _ => .scratch)
    (fun _ _ => true) (.opened besideSecond) (lit "aaaa") (lit "cccc") (lit "a") =
      .ok (.found sha (lit "a") 3 1 2, tests) := by
  obtain ⟨state, materialized⟩ : ∃ state, RuntimeHost.materializeAt RuntimeHost.numberHash
      (fun _ _ => .scratch) (.opened besideSecond) (addsNode "a" "x" 2 2).lamport.toNat =
        .ok state := ⟨_, rfl⟩
  have resolved : resolveCandidates ((RuntimeHost.opened besideSecond).repo.getWriterPatches
      (lit "a")) (lit "aaaa") (lit "cccc") = .ok [⟨addsNode "a" "x" 2 2, lit "bbbb"⟩,
        ⟨addsNode "a" "z" 3 3, lit "cccc"⟩] := rfl
  have apart : lit "aaaa" ≠ lit "cccc" := by decide
  simp [run, apart, resolved, binarySearch, materialized, Except.map]
  rfl

theorem bisect_steps_besideSecond :
    ∃ tests : List (BisectTest Nat), 1 = tests.length ∧ Nat.log 2 2 ≤ 1 ∧ 1 ≤ Nat.clog 2 2 := by
  obtain ⟨sha, tests, ran⟩ := run_besideSecond
  exact ⟨tests, bisect_steps _ _ _ _ _ _ _ _ _ _ _ _ _ ran⟩

end BisectService
end GitWarp
