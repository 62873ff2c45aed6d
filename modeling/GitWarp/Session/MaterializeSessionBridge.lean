import GitWarp.Session.Mirroring

/-!
# From states to sessions and back

A materialization seeds a session with the sets of a base state, replays patches on it
and projects the frame back. A trie tombstones a dot only where its element has it; the
projection gathers the tombstones of all elements.
-/
namespace GitWarp

open Js Lib KeyCodec List

variable {S V : Type}

/-! ### Seeding -/

section Seeding

variable {A : Type} (methods : SessionOps A)

/-- `reducePatchesInSession` without options. -/
def reducePatchesInSession :
    List (PatchEntry ReducerPropInput) → ReducerSessionFrame A →
      Except Failure (ReducerSessionFrame A)
  | [], frame => .ok frame
  | entry :: rest, frame => do
    let next ← frame.applyFastInSession methods entry
    reducePatchesInSession rest next

def seedDots (which : AliveSet) (element : JsString) : List JsString → A → Except Failure A
  | [], session => .ok session
  | encodedDot :: rest, session => do
    let dot ← Dot.decode encodedDot
    let added ← methods.add which element dot session
    seedDots which element rest added

/-- The loop of `seedSessionWithORSet`: what is tombstoned is removed after the additions. -/
def seedEntries (which : AliveSet) (source : ORSet) :
    List (JsString × OrdSet JsString) → A → Except Failure A
  | [], session => .ok session
  | (element, dots) :: rest, session => do
    let added ← seedDots methods which element dots.toList session
    let tombstones := OrdSet.ofList (dots.toList.filter source.isTombstoned)
    let removed ← if tombstones.size = 0 then pure added
      else methods.remove which element tombstones added
    seedEntries which source rest removed

def seedSessionWithORSet (which : AliveSet) (source : ORSet) (session : A) : Except Failure A :=
  seedEntries methods which source source.entries.entries session

/-- Opens a frame on an empty session, seeded with a base state if there is one. -/
def openReducerSessionFrame (session : A) (baseState : Option (WarpState ReducerPropInput)) :
    Except Failure (ReducerSessionFrame A) :=
  match baseState with
  | none => .ok ⟨session, .empty, .empty, .empty⟩
  | some base => do
    let nodes ← seedSessionWithORSet methods .nodes base.nodeAlive session
    let edges ← seedSessionWithORSet methods .edges base.edgeAlive nodes
    pure ⟨edges, base.prop, base.observedFrontier, base.edgeBirthEvent⟩

/-! ### Projecting -/

/-- One step of `projectORSet`. An element without any dot shows nothing, so it is left out
of the set where the source keeps an empty entry. -/
def projectElement (orset : ORSet) (state : ORSetElementState) : ORSet :=
  let dots := state.dots.toList ++ state.tombstonedDots.toList
  if inhabited : dots = [] then orset
  else
    { entries := orset.entries.set state.element (OrdSet.ofList dots)
      tombstones := orset.tombstones.addAll state.tombstonedDots.toList
      inhabited := by
        intro element found held
        rw [OrdMap.get_set] at held
        split at held
        · cases held
          intro none_
          obtain ⟨d, member⟩ := List.exists_mem_of_ne_nil dots inhabited
          have listed : d ∈ (OrdSet.ofList dots).toList := OrdSet.mem_ofList.mpr member
          rw [none_] at listed
          cases listed
        · exact orset.inhabited element found held }

def projectORSet (states : List ORSetElementState) : ORSet := states.foldl projectElement .empty

def projectFrameToState (frame : ReducerSessionFrame A) :
    Except Failure (WarpState ReducerPropInput) := do
  let (nodes, afterNodes) ← methods.scanElementStates .nodes frame.session
  let (edges, _) ← methods.scanElementStates .edges afterNodes
  pure ⟨projectORSet nodes, projectORSet edges, frame.prop, frame.observedFrontier,
    frame.edgeBirthEvent⟩

end Seeding

/-! ### What a scan lists -/

namespace Trie

variable {g : TrieGeometry} {blake3 : Blake3}

theorem leads_of_placed (t depth) (leadsHere) (placed : Placed g blake3 t depth leadsHere) :
    ∀ page ∈ t.leaves g, ∀ entry ∈ page.entries, leadsHere (routeOf blake3 entry.element) := by
  induction t generalizing depth leadsHere with
  | absent => simp [leaves]
  | leaf page =>
    simp only [leaves, mem_singleton, forall_eq]
    exact fun entry mem => placed.1.here entry mem
  | branch children ih =>
    intro page mem entry inside
    obtain ⟨n, -, below⟩ := mem_flatMap.mp mem
    exact (ih n (depth + 1) _ (placed.2 n) page below entry inside).1

theorem mem_leaves_iff (t depth) (leadsHere) (placed : Placed g blake3 t depth leadsHere) (x marks) :
    (∃ page ∈ t.leaves g, ∃ entry ∈ page.entries, entry.element = x ∧ entry.marks = marks) ↔
      t.marksAt g blake3 depth x = some marks := by
  induction t generalizing depth leadsHere with
  | absent => simp [leaves, marksAt, find]
  | leaf page =>
    rw [marksAt_leaf placed.1, TrieLeaf.marksOf_iff placed.1.one]
    simp [leaves]
  | branch children ih =>
    rw [marksAt_branch placed.1, ← ih _ (depth + 1) _ (placed.2 _)]
    constructor
    · rintro ⟨page, member, entry, inside, named, marked⟩
      obtain ⟨n, -, below⟩ := mem_flatMap.mp member
      -- the entry lies under the nibble of its own route
      have own := (leads_of_placed _ _ _ (placed.2 n) page below entry inside).2
      rw [named] at own
      exact ⟨page, own ▸ below, entry, inside, named, marked⟩
    · rintro ⟨page, below, entry, inside, named, marked⟩
      have listed := mem_range.mpr (nibble_lt g (routeOf blake3 x) depth)
      exact ⟨page, mem_flatMap.mpr ⟨_, listed, below⟩, entry, inside, named, marked⟩

end Trie

/-- The states list the elements that the map knows, with their marks. -/
def Lists (contents : Contents) (states : List ORSetElementState) : Prop :=
  ∀ x marks, (∃ state ∈ states, state.element = x ∧ (⟨state.dots, state.tombstonedDots⟩ : Marks) = marks) ↔
    contents x = some marks

theorem collect_mem (yieldOf pages) (all) (collected : collect yieldOf pages = .ok all) (a : A) :
    a ∈ all ↔ ∃ page ∈ pages, ∃ yielded, yieldOf page = .ok yielded ∧ a ∈ yielded := by
  induction pages generalizing all with
  | nil =>
    cases collected
    simp
  | cons page rest ih =>
    obtain ⟨yielded, first, collected⟩ := bind_eq_ok.mp collected
    obtain ⟨others, later_, collected⟩ := bind_eq_ok.mp collected
    cases collected
    rw [mem_append, ih others later_, exists_mem_cons_iff]
    apply or_congr_left
    constructor
    · exact fun inside => ⟨yielded, first, inside⟩
    · rintro ⟨again, found, inside⟩
      cases Except.ok.inj (first.symm.trans found)
      exact inside

/-- A scan of placed trees lists every element with its marks. -/
theorem SessionTrees.scanElementStates_ok {env : TrieEnv S} (trees) (placed : trees.Placed env) :
    ∃ states, (SessionTrees.ops env workspace).scanElementStates which trees = .ok (states, trees) ∧
      Lists (trees.marks env which) states := by
  have named := Trie.named_of_placed (trees which) 0 _ (placed which)
  obtain ⟨states, collected⟩ := Trie.collect_ok_of_forall
    fun page member => by
      obtain ⟨made, ok, -⟩ := mapM_ok_of_forall elementStateOfEntry
        fun entry inside => Trie.elementStateOfEntry_ok (named page member entry inside)
      exact ⟨made, ok⟩
  refine ⟨states, ?_, fun x marks => ?_⟩
  · change (collect _ _ >>= _) = _
    rw [collected]
    rfl
  · rw [SessionTrees.marks, ← Trie.mem_leaves_iff (trees which) 0 _ (placed which)]
    simp only [collect_mem _ _ _ collected]
    constructor
    · rintro ⟨state, ⟨page, member, yielded, ok, inside⟩, rfl, rfl⟩
      obtain ⟨entry, listed, made⟩ := mem_of_mapM_ok _ ok state inside
      unfold elementStateOfEntry at made
      split at made
      · cases made
      · cases made
        exact ⟨page, member, entry, listed, rfl, rfl⟩
    · rintro ⟨page, member, entry, listed, rfl, rfl⟩
      obtain ⟨yielded, ok, -⟩ := mapM_ok_of_forall elementStateOfEntry
        fun entry inside => Trie.elementStateOfEntry_ok (named page member entry inside)
      obtain ⟨state, inside, made⟩ := result_of_mapM_ok _ ok entry listed
      refine ⟨state, ⟨page, member, yielded, ok, inside⟩, ?_⟩
      unfold elementStateOfEntry at made
      split at made
      · cases made
      · cases made
        exact ⟨rfl, rfl⟩

/-! ### What a projection keeps -/

def allDots (marks : Option Marks) (d : JsString) : Prop := d ∈ liveDots marks ∨ d ∈ deadDots marks

theorem tombstones_projectElement (orset) (state) (d) :
    d ∈ (projectElement orset state).tombstones ↔ d ∈ orset.tombstones ∨ d ∈ state.tombstonedDots := by
  unfold projectElement
  dsimp only
  split
  next bare =>
    obtain ⟨-, none_⟩ := append_eq_nil_iff.mp bare
    constructor
    · exact Or.inl
    · rintro (old | new)
      · exact old
      · have listed : d ∈ state.tombstonedDots.toList := new
        rw [none_] at listed
        cases listed
  next => simp

theorem dotsOf_projectElement (x d)
    (kept : d ∈ orset.dotsOf state.element → d ∈ state.dots ∨ d ∈ state.tombstonedDots) :
    d ∈ (projectElement orset state).dotsOf x ↔ d ∈ orset.dotsOf x ∨
      state.element = x ∧ (d ∈ state.dots ∨ d ∈ state.tombstonedDots) := by
  have listed : d ∈ state.dots.toList ++ state.tombstonedDots.toList ↔
      d ∈ state.dots ∨ d ∈ state.tombstonedDots := mem_append
  unfold projectElement
  dsimp only
  split
  next bare =>
    rw [bare] at listed
    rw [← listed]
    simp
  next =>
    rw [← listed]
    by_cases same : state.element = x
    · subst same
      simp only [ORSet.dotsOf, OrdMap.get_set, if_true, Option.getD_some, OrdSet.mem_ofList, true_and]
      exact ⟨Or.inr, fun either => either.elim (fun old => listed.mpr (kept old)) id⟩
    · simp [ORSet.dotsOf, same]

theorem project_fold {contents : Contents} {states : List ORSetElementState}
    (knows : ∀ state ∈ states, contents state.element = some ⟨state.dots, state.tombstonedDots⟩)
    (orset) (inside : ∀ x d, d ∈ orset.dotsOf x → allDots (contents x) d) :
    (∀ x d, d ∈ (states.foldl projectElement orset).dotsOf x ↔ d ∈ orset.dotsOf x ∨
        ∃ state ∈ states, state.element = x ∧ (d ∈ state.dots ∨ d ∈ state.tombstonedDots)) ∧
      ∀ d, d ∈ (states.foldl projectElement orset).tombstones ↔ d ∈ orset.tombstones ∨
        ∃ state ∈ states, d ∈ state.tombstonedDots := by
  induction states generalizing orset with
  | nil => simp
  | cons state rest ih =>
    rw [forall_mem_cons] at knows
    have all : ∀ d, allDots (contents state.element) d ↔ d ∈ state.dots ∨ d ∈ state.tombstonedDots := by
      intro d
      rw [knows.1]
      rfl
    have step := fun x d => dotsOf_projectElement x d fun old =>
      (all d).mp (inside state.element d old)
    obtain ⟨dots, tombstones⟩ := ih knows.2 (projectElement orset state) fun x d given => by
      rcases (step x d).mp given with old | ⟨rfl, new⟩
      · exact inside x d old
      · exact (all d).mpr new
    constructor
    · intro x d
      rw [foldl_cons, dots, step, exists_mem_cons_iff, or_assoc]
    · intro d
      rw [foldl_cons, tombstones, tombstones_projectElement, exists_mem_cons_iff, or_assoc]

/-- The projection gives every element all its dots, and gathers the dead ones. -/
theorem projectORSet_spec (lists : Lists contents states) :
    (∀ x d, d ∈ (projectORSet states).dotsOf x ↔ allDots (contents x) d) ∧
      ∀ d, d ∈ (projectORSet states).tombstones ↔ ∃ x, d ∈ deadDots (contents x) := by
  have knows : ∀ state ∈ states, contents state.element = some ⟨state.dots, state.tombstonedDots⟩ :=
    fun state member => (lists _ _).mp ⟨state, member, rfl, rfl⟩
  obtain ⟨dots, tombstones⟩ := project_fold knows .empty (by simp [ORSet.dotsOf, ORSet.empty])
  constructor
  · intro x d
    rw [projectORSet, dots]
    constructor
    · rintro (old | ⟨state, member, rfl, given⟩)
      · simp [ORSet.dotsOf, ORSet.empty] at old
      · rw [knows state member]
        exact given
    · intro given
      cases found : contents x with
      | none => simp [found, allDots, liveDots, deadDots] at given
      | some marks =>
        rw [found] at given
        obtain ⟨state, member, same, rfl⟩ := (lists x marks).mpr found
        exact Or.inr ⟨state, member, same, given⟩
  · intro d
    rw [projectORSet, tombstones]
    constructor
    · rintro (old | ⟨state, member, dead⟩)
      · exact (OrdSet.not_mem_empty d old).elim
      · exact ⟨state.element, by rw [knows state member]; exact dead⟩
    · rintro ⟨x, dead⟩
      cases found : contents x with
      | none => simp [found, deadDots] at dead
      | some marks =>
        rw [found] at dead
        obtain ⟨state, member, -, rfl⟩ := (lists x marks).mpr found
        exact Or.inr ⟨state, member, dead⟩

/-! ### What seeding leaves -/

section Seeded

variable {env : TrieEnv S} (workspace : Bool)

/-- The encoded dots of a set read back as themselves. -/
def ORSet.ReadsBack (orset : ORSet) : Prop :=
  ∀ x d, d ∈ orset.dotsOf x → ∃ dot, Dot.decode d = .ok dot ∧ dot.encode = d

theorem seedDots_spec (readable : ∀ d ∈ dots, ∃ dot, Dot.decode d = .ok dot ∧ dot.encode = d)
    (placed : trees.Placed env) (fresh : ∀ d, d ∉ deadDots (trees.marks env which element))
    (ok : seedDots (SessionTrees.ops env workspace) which element dots trees = .ok trees') :
    trees'.Placed env ∧
      (∀ other x, other ≠ which ∨ x ≠ element → trees'.marks env other x = trees.marks env other x) ∧
      (∀ d, d ∈ liveDots (trees'.marks env which element) ↔
        d ∈ liveDots (trees.marks env which element) ∨ d ∈ dots) ∧
      ∀ d, d ∉ deadDots (trees'.marks env which element) := by
  induction dots generalizing trees with
  | nil =>
    cases ok
    exact ⟨placed, fun _ _ _ => rfl, by simp, fresh⟩
  | cons encodedDot rest ih =>
    rw [forall_mem_cons] at readable
    obtain ⟨⟨dot, decoded, encoded⟩, others⟩ := readable
    rw [seedDots, decoded, ok_bind] at ok
    obtain ⟨added, called, ok⟩ := bind_eq_ok.mp ok
    obtain ⟨placed', marks⟩ := SessionTrees.act_spec placed (by simp) called
    have here : added.marks env which element =
        some (Marks.add encodedDot (trees.marks env which element)) := by
      rw [marks, if_pos rfl, TrieAction.mark, Function.update_self, encoded]
    have elsewhere : ∀ other x, other ≠ which ∨ x ≠ element →
        added.marks env other x = trees.marks env other x := by
      intro other x apart
      rw [marks]
      split
      next same =>
        subst same
        exact Function.update_of_ne (apart.resolve_left fun differ => differ rfl) _ _
      · rfl
    obtain ⟨placed'', kept, live, dead⟩ := ih others placed' (fun d gone => by
      rw [here, deadDots_add] at gone
      exact fresh d gone) ok
    refine ⟨placed'', fun other x apart => (kept other x apart).trans (elsewhere other x apart),
      fun d => ?_, dead⟩
    rw [live, here, liveDots_add, mem_cons, or_assoc]
    have notDead := fresh encodedDot
    tauto

theorem seedEntries_spec (nodup : (entries.map Prod.fst).Nodup)
    (readable : ∀ entry ∈ entries, ∀ d ∈ entry.2, ∃ dot, Dot.decode d = .ok dot ∧ dot.encode = d)
    (placed : trees.Placed env) (fresh : ∀ entry ∈ entries, trees.marks env which entry.1 = none)
    (ok : seedEntries (SessionTrees.ops env workspace) which source entries trees = .ok trees') :
    trees'.Placed env ∧ (∀ other, other ≠ which → trees'.marks env other = trees.marks env other) ∧
      (∀ x d, d ∈ liveDots (trees'.marks env which x) ↔ d ∈ liveDots (trees.marks env which x) ∨
        ∃ entry ∈ entries, entry.1 = x ∧ d ∈ entry.2 ∧ d ∉ source.tombstones) ∧
      ∀ x d, d ∈ deadDots (trees'.marks env which x) ↔ d ∈ deadDots (trees.marks env which x) ∨
        ∃ entry ∈ entries, entry.1 = x ∧ d ∈ entry.2 ∧ d ∈ source.tombstones := by
  -- what the seeded entries say of an element: their live dots and their tombstoned ones
  induction entries generalizing trees with
  | nil =>
    cases ok
    exact ⟨placed, fun _ _ => rfl, by simp, by simp⟩
  | cons entry rest ih =>
    obtain ⟨element, dots⟩ := entry
    rw [map_cons, nodup_cons] at nodup
    rw [forall_mem_cons] at readable fresh
    obtain ⟨added, first, ok⟩ := bind_eq_ok.mp ok
    have bare : trees.marks env which element = none := fresh.1
    obtain ⟨placed', kept, live, dead⟩ := seedDots_spec workspace readable.1
      placed (by simp [bare, deadDots]) first
    obtain ⟨removed, second, ok⟩ : ∃ removed,
        (if (OrdSet.ofList (dots.toList.filter source.isTombstoned)).size = 0 then .ok added
          else (SessionTrees.ops env workspace).remove which element
            (OrdSet.ofList (dots.toList.filter source.isTombstoned)) added) = .ok removed ∧
        seedEntries (SessionTrees.ops env workspace) which source rest removed = .ok trees' := by
      dsimp only at ok
      split at ok
      next empty_ => exact ⟨added, if_pos empty_, ok⟩
      next present =>
        obtain ⟨removed, second, ok⟩ := bind_eq_ok.mp ok
        exact ⟨removed, (if_neg present).trans second, ok⟩
    -- the element's own marks once its tombstoned dots are removed
    have seeded : removed.Placed env ∧
        (∀ other x, other ≠ which ∨ x ≠ element → removed.marks env other x = trees.marks env other x) ∧
        (∀ d, d ∈ liveDots (removed.marks env which element) ↔ d ∈ dots ∧ d ∉ source.tombstones) ∧
        ∀ d, d ∈ deadDots (removed.marks env which element) ↔ d ∈ dots ∧ d ∈ source.tombstones := by
      have tombs : ∀ d, d ∈ OrdSet.ofList (dots.toList.filter source.isTombstoned) ↔
          d ∈ dots ∧ d ∈ source.tombstones := by
        intro d
        rw [OrdSet.mem_ofList, mem_filter, ORSet.isTombstoned_iff, OrdSet.mem_toList]
      have live' : ∀ d, d ∈ liveDots (added.marks env which element) ↔ d ∈ dots := by
        intro d
        rw [live, bare]
        simp [liveDots]
      split at second
      next empty_ =>
        cases second
        have none_ := (OrdSet.size_eq_zero_iff _).mp empty_
        refine ⟨placed', kept, fun d => ?_, fun d => ?_⟩
        · have untouched := mt (tombs d).mpr (none_ d)
          rw [live']
          tauto
        · have untouched := mt (tombs d).mpr (none_ d)
          exact ⟨fun gone => absurd gone (dead d), fun gone => absurd gone untouched⟩
      next =>
        obtain ⟨placed'', marks⟩ := SessionTrees.act_spec placed'
          (by simp) second
        have here : removed.marks env which element =
            (added.marks env which element).map (Marks.remove
              (OrdSet.ofList (dots.toList.filter source.isTombstoned))) := by
          rw [marks, if_pos rfl, TrieAction.mark, Function.update_self]
        refine ⟨placed'', fun other x apart => ?_, fun d => ?_, fun d => ?_⟩
        · rw [← kept other x apart, marks]
          split
          next same =>
            subst same
            exact Function.update_of_ne (apart.resolve_left fun differ => differ rfl) _ _
          · rfl
        · rw [here, liveDots_remove, live', tombs]
          tauto
        · rw [here, deadDots_remove, live', tombs]
          have never := dead d
          tauto
    obtain ⟨placed₁, kept₁, live₁, dead₁⟩ := seeded
    have fresh' : ∀ entry ∈ rest, removed.marks env which entry.1 = none := by
      intro entry member
      have apart : entry.1 ≠ element := by
        rintro rfl
        exact nodup.1 (mem_map.mpr ⟨entry, member, rfl⟩)
      rw [kept₁ which entry.1 (Or.inr apart)]
      exact fresh.2 entry member
    obtain ⟨placed₂, kept₂, live₂, dead₂⟩ := ih nodup.2 readable.2 placed₁ fresh' ok
    refine ⟨placed₂, fun other differ => ?_, fun x d => ?_, fun x d => ?_⟩
    · rw [kept₂ other differ]
      exact funext fun x => kept₁ other x (Or.inl differ)
    · rw [live₂, exists_mem_cons_iff, ← or_assoc]
      apply or_congr_left
      by_cases own : x = element
      · subst own
        rw [live₁, bare]
        simp [liveDots]
      · rw [kept₁ which x (Or.inr own)]
        simp [Ne.symm own]
    · rw [dead₂, exists_mem_cons_iff, ← or_assoc]
      apply or_congr_left
      by_cases own : x = element
      · subst own
        rw [dead₁, bare]
        simp [deadDots]
      · rw [kept₁ which x (Or.inr own)]
        simp [Ne.symm own]

theorem seedSession_mirrors (readable : source.ReadsBack) (placed : trees.Placed env)
    (bare : trees.marks env which = fun _ => none)
    (ok : seedSessionWithORSet (SessionTrees.ops env workspace) which source trees = .ok trees') :
    trees'.Placed env ∧ (∀ other, other ≠ which → trees'.marks env other = trees.marks env other) ∧
      source.Mirrors (trees'.marks env which) := by
  -- seeding an empty trie mirrors the set
  have listed : ∀ x d, (∃ entry ∈ source.entries.entries, entry.1 = x ∧ d ∈ entry.2) ↔
      d ∈ source.dotsOf x := by
    intro x d
    constructor
    · rintro ⟨⟨element, dots⟩, member, rfl, given⟩
      simpa [ORSet.dotsOf, (source.entries.mem_entries_iff _).mp member] using given
    · intro given
      cases found : source.entries.get x with
      | none => simp [ORSet.dotsOf, found] at given
      | some dots =>
        refine ⟨(x, dots), (source.entries.mem_entries_iff _).mpr found, rfl, ?_⟩
        simpa [ORSet.dotsOf, found] using given
  obtain ⟨placed', kept, live, dead⟩ := seedEntries_spec workspace
    source.entries.nodup (fun entry member d given =>
      readable entry.1 d ((listed entry.1 d).mp ⟨entry, member, rfl, given⟩)) placed
    (fun entry _ => by rw [bare]) ok
  refine ⟨placed', kept, fun x d => ?_, fun x d => ?_⟩
  · rw [live, bare, ORSet.mem_getDots, ← listed]
    simp only [liveDots, Option.map_none, Option.getD_none, OrdSet.not_mem_empty, false_or]
    constructor
    · rintro ⟨entry, member, same, given, untouched⟩
      exact ⟨⟨entry, member, same, given⟩, untouched⟩
    · rintro ⟨⟨entry, member, same, given⟩, untouched⟩
      exact ⟨entry, member, same, given, untouched⟩
  · rw [dead, bare, ← listed]
    simp only [deadDots, Option.map_none, Option.getD_none, OrdSet.not_mem_empty, false_or]
    constructor
    · rintro ⟨entry, member, same, given, gone⟩
      exact ⟨⟨entry, member, same, given⟩, gone⟩
    · rintro ⟨⟨entry, member, same, given⟩, gone⟩
      exact ⟨entry, member, same, given, gone⟩

/-- A frame over trees that was opened mirrors the base state, sets by set. -/
theorem openReducerSessionFrame_mirrors
    (readable : ∀ base ∈ baseState, base.nodeAlive.ReadsBack ∧ base.edgeAlive.ReadsBack)
    (ok : openReducerSessionFrame (SessionTrees.ops env workspace) SessionTrees.empty baseState =
      .ok frame) :
    frame.session.Placed env ∧
      (∀ which, ((baseState.getD .empty).alive which).Mirrors (frame.session.marks env which)) ∧
      frame.prop = (baseState.getD .empty).prop ∧
      frame.observedFrontier = (baseState.getD .empty).observedFrontier ∧
      frame.edgeBirthEvent = (baseState.getD .empty).edgeBirthEvent := by
  cases baseState with
  | none =>
    cases ok
    refine ⟨fun _ => trivial, fun which => ?_, rfl, rfl, rfl⟩
    cases which with
    | nodes | edges => exact mirrors_empty
  | some base =>
    obtain ⟨nodesReadable, edgesReadable⟩ := readable base rfl
    obtain ⟨nodes, first, ok⟩ := bind_eq_ok.mp ok
    obtain ⟨edges, second, ok⟩ := bind_eq_ok.mp ok
    cases ok
    have emptyPlaced : SessionTrees.empty.Placed env := fun _ => trivial
    obtain ⟨placed, other, mirrorsNodes⟩ := seedSession_mirrors workspace
      nodesReadable emptyPlaced rfl first
    obtain ⟨placed', other', mirrorsEdges⟩ := seedSession_mirrors workspace
      edgesReadable placed (other .edges (by simp)) second
    refine ⟨placed', fun which => ?_, rfl, rfl, rfl⟩
    cases which with
    | nodes =>
      rw [other' .nodes (by simp)]
      exact mirrorsNodes
    | edges => exact mirrorsEdges

end Seeded

/-! ### Related sessions -/

section Related

variable {A B : Type} {spec : SessionOps A} {impl : SessionOps B} {R : A → B → Prop}

section

variable (refines : spec.Refines impl R)
include refines

theorem seedDots_related (related : R a b) :
    Agree (fun _ _ => True) R (seedDots spec which element dots a)
      (seedDots impl which element dots b) := by
  induction dots generalizing a b with
  | nil => exact related
  | cons encodedDot rest ih =>
    rw [seedDots, seedDots]
    cases Dot.decode encodedDot with
    | error e => trivial
    | ok dot =>
      apply (refines.add which element dot a b related).bind
      exact fun _ _ _ _ kept => ih kept

theorem seedEntries_related (related : R a b) :
    Agree (fun _ _ => True) R (seedEntries spec which source entries a)
      (seedEntries impl which source entries b) := by
  induction entries generalizing a b with
  | nil => exact related
  | cons entry rest ih =>
    obtain ⟨element, dots⟩ := entry
    apply (seedDots_related refines related).bind
    intro added added' _ _ kept
    dsimp only
    split
    · exact ih kept
    · apply (refines.remove which element _ added added' kept).bind
      exact fun _ _ _ _ kept' => ih kept'

theorem openReducerSessionFrame_related (related : R a b) :
    Agree (fun _ _ => True) (ReducerSessionFrame.Related R)
      (openReducerSessionFrame spec a baseState) (openReducerSessionFrame impl b baseState) := by
  cases baseState with
  | none => exact ⟨related, rfl, rfl, rfl⟩
  | some base =>
    apply (seedEntries_related refines related).bind
    intro nodes nodes' _ _ kept
    apply (seedEntries_related refines kept).bind
    exact fun _ _ _ _ kept' => ⟨kept', rfl, rfl, rfl⟩

theorem reducePatches_related (related : ReducerSessionFrame.Related R frame frame') :
    Agree (fun _ _ => True) (ReducerSessionFrame.Related R)
      (reducePatchesInSession spec entries frame) (reducePatchesInSession impl entries frame') := by
  induction entries generalizing frame frame' with
  | nil => exact related
  | cons entry rest ih =>
    rw [reducePatchesInSession, reducePatchesInSession, ReducerSessionFrame.applyFastInSession,
      ReducerSessionFrame.applyFastInSession, bind_assoc, bind_assoc]
    apply (ReducerSessionFrame.applyPatch_related refines related).bind
    rintro ⟨receipt, next⟩ ⟨receipt', next'⟩ - - ⟨-, kept⟩
    exact ih kept

theorem projectFrameToState_related (related : ReducerSessionFrame.Related R frame frame') :
    Agree (fun _ _ => True) Eq (projectFrameToState spec frame) (projectFrameToState impl frame') := by
  apply (refines.scanElementStates .nodes _ _ related.session).bind
  rintro ⟨nodes, a⟩ ⟨nodes', b⟩ - - ⟨sameNodes, kept⟩
  apply (refines.scanElementStates .edges _ _ kept).bind
  rintro ⟨edges, a'⟩ ⟨edges', b'⟩ - - ⟨sameEdges, -⟩
  cases sameNodes
  cases sameEdges
  change (⟨_, _, _, _, _⟩ : WarpState ReducerPropInput) = ⟨_, _, _, _, _⟩
  rw [related.prop, related.observedFrontier, related.edgeBirthEvent]

end

end Related

end GitWarp
