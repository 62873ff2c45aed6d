import GitWarp.Session.MaterializeSessionBridge
import GitWarp.Session.SessionReceipts

/-!
# What a session forgets

The sets in memory keep every dot that was observed; a trie keeps a removal only if its
element has the dot by then. So the projected session shows the state in memory exactly
when every dot that was both given and removed was removed once from an element that had
been given it.
-/
namespace GitWarp

open Js Lib KeyCodec List

variable {S V : Type}

/-! ### Removals that land -/

/-- The operation gives the dot to the element. -/
def Op.Gives (which : AliveSet) (x d : JsString) (op : Op V) : Prop :=
  ∃ dot, op.actOn which = some (.add x dot) ∧ dot.encode = d

/-- The operation removes the element, and has observed the dot. -/
def Op.Observes (which : AliveSet) (x d : JsString) (op : Op V) : Prop :=
  ∃ observedDots, op.actOn which = some (.removeElement x observedDots) ∧ d ∈ observedDots

/-- The dot was removed from an element that had been given it, in the base state or by an
operation since. -/
def Landed (which : AliveSet) (base : ORSet) (ops : List (Op V)) (d : JsString) : Prop :=
  (∃ x, d ∈ base.dotsOf x) ∧ d ∈ base.tombstones ∨
    ∃ before op after x, ops = before ++ op :: after ∧ op.Observes which x d ∧
      (d ∈ base.dotsOf x ∨ ∃ earlier ∈ before, earlier.Gives which x d)

/-- Every dot that was given and that was removed, by whatever removal and in whatever order,
has one removal that landed. -/
def RemovalsLand (which : AliveSet) (base : ORSet) (ops : List (Op V)) : Prop :=
  ∀ d, (∃ x, d ∈ base.dotsOf x ∨ ∃ op ∈ ops, op.Gives which x d) →
    (d ∈ base.tombstones ∨ ∃ op ∈ ops, ∃ x, op.Observes which x d) → Landed which base ops d

theorem actOn_cases (op : Op V) (which) :
    op.actOn which = none ∨ (∃ x dot, op.actOn which = some (.add x dot)) ∨
      ∃ x observedDots, op.actOn which = some (.removeElement x observedDots) := by
  cases op with
  | nodeAdd node dot =>
    cases which with
    | nodes => exact Or.inr (Or.inl ⟨_, _, rfl⟩)
    | edges => exact Or.inl rfl
  | nodeRemove node observedDots =>
    cases which with
    | nodes => exact Or.inr (Or.inr ⟨_, _, rfl⟩)
    | edges => exact Or.inl rfl
  | edgeAdd src dst label dot =>
    cases which with
    | nodes => exact Or.inl rfl
    | edges => exact Or.inr (Or.inl ⟨_, _, rfl⟩)
  | edgeRemove src dst label observedDots =>
    cases which with
    | nodes => exact Or.inl rfl
    | edges => exact Or.inr (Or.inr ⟨_, _, rfl⟩)
  | nodePropSet node key value | edgePropSet src dst label key value | blobValue node oid =>
    cases which <;> exact Or.inl rfl

theorem landed_append (which base) (ops) (op : Op V) (d) :
    Landed which base (ops ++ [op]) d ↔ Landed which base ops d ∨ ∃ x, op.Observes which x d ∧
        (d ∈ base.dotsOf x ∨ ∃ earlier ∈ ops, earlier.Gives which x d) := by
  constructor
  · rintro (seeded | ⟨before, removal, after, x, whole, observes, given⟩)
    · exact Or.inl (Or.inl seeded)
    · -- the removal is the last operation, or one of those before
      rcases eq_nil_or_concat after with rfl | ⟨rest, last, rfl⟩
      · obtain ⟨rfl, same⟩ := append_inj' whole rfl
        cases same
        exact Or.inr ⟨x, observes, given⟩
      · have split_ : ops ++ [op] = (before ++ removal :: rest) ++ [last] := by simpa using whole
        obtain ⟨rfl, -⟩ := append_inj' split_ rfl
        exact Or.inl (Or.inr ⟨before, removal, rest, x, rfl, observes, given⟩)
  · rintro ((seeded | ⟨before, removal, after, x, rfl, observes, given⟩) | ⟨x, observes, given⟩)
    · exact Or.inl seeded
    · exact Or.inr ⟨before, removal, after ++ [op], x, by simp, observes, given⟩
    · exact Or.inr ⟨ops, op, [], x, rfl, observes, given⟩

/-! ### One set -/

/-- A set in memory and the marks of a trie after the same operations. -/
structure TracksMarks (which : AliveSet) (base : ORSet) (ops : List (Op V)) (orset : ORSet)
    (contents : Contents) : Prop where
  given : ∀ x d, d ∈ orset.dotsOf x ↔ d ∈ base.dotsOf x ∨ ∃ op ∈ ops, op.Gives which x d
  removed : ∀ d, d ∈ orset.tombstones ↔ d ∈ base.tombstones ∨ ∃ op ∈ ops, ∃ x, op.Observes which x d
  held : ∀ x d, allDots (contents x) d ↔ d ∈ orset.dotsOf x
  landed : ∀ d, (∃ x, d ∈ deadDots (contents x)) ↔ Landed which base ops d

variable {s : WarpState ReducerPropInput} {ops : List (Op ReducerPropInput)} {contents : Contents}

theorem ORSet.Mirrors.tracksMarks (mirrors : orset.Mirrors contents) :
    TracksMarks which orset ([] : List (Op V)) orset contents := by
  constructor
  · simp
  · simp
  · intro x d
    rw [allDots, mirrors.live, mirrors.dead, ORSet.mem_getDots]
    tauto
  · intro d
    simp only [mirrors.dead, Landed]
    constructor
    · rintro ⟨x, given, gone⟩
      exact Or.inl ⟨⟨x, given⟩, gone⟩
    · rintro (⟨⟨x, given⟩, gone⟩ | ⟨before, op, after, x, impossible, -⟩)
      · exact ⟨x, given, gone⟩
      · simp at impossible

theorem exists_append_single {A : Type} (P : A → Prop) (items) (a : A) :
    (∃ b ∈ items ++ [a], P b) ↔ (∃ b ∈ items, P b) ∨ P a := by
  simp [or_and_right, exists_or]

/-- One operation, whatever it removes or adds. -/
theorem TracksMarks.step {which base orset ops} (tracks : TracksMarks which base ops orset contents)
    (op : Op V) :
    TracksMarks which base (ops ++ [op]) (((op.actOn which).map (TrieAction.change orset)).getD orset)
      (((op.actOn which).map (TrieAction.mark contents)).getD contents) := by
  have gives : ∀ x d, op.Gives which x d ↔
      ∃ dot, op.actOn which = some (.add x dot) ∧ dot.encode = d := fun _ _ => Iff.rfl
  have observes : ∀ x d, op.Observes which x d ↔
      ∃ observedDots, op.actOn which = some (.removeElement x observedDots) ∧ d ∈ observedDots :=
    fun _ _ => Iff.rfl
  rcases actOn_cases op which with acts | ⟨element, dot, acts⟩ | ⟨element, observedDots, acts⟩
  · simp only [acts, reduceCtorEq, false_and, exists_false] at gives observes
    rw [acts]
    constructor
    · intro x d
      rw [exists_append_single, gives, or_false]
      exact tracks.given x d
    · intro d
      simp only [exists_append_single, observes, exists_false, or_false]
      exact tracks.removed d
    · exact tracks.held
    · intro d
      simp only [landed_append, observes, false_and, exists_false, or_false]
      exact tracks.landed d
  · simp only [acts, Option.some.injEq, TrieAction.add.injEq, reduceCtorEq, false_and,
      exists_false] at gives observes
    have own : ∀ x d, op.Gives which x d ↔ x = element ∧ d = dot.encode := by
      intro x d
      rw [gives]
      constructor
      · rintro ⟨dot', ⟨rfl, rfl⟩, rfl⟩
        exact ⟨rfl, rfl⟩
      · rintro ⟨rfl, rfl⟩
        exact ⟨dot, ⟨rfl, rfl⟩, rfl⟩
    rw [acts]
    simp only [Option.map_some, Option.getD_some, TrieAction.change, TrieAction.mark]
    have dead : ∀ x d, d ∈ deadDots (Function.update contents element
        (some (Marks.add dot.encode (contents element))) x) ↔ d ∈ deadDots (contents x) := by
      intro x d
      rw [Function.update_apply]
      split
      next same => rw [deadDots_add, same]
      next => rfl
    constructor
    · intro x d
      rw [ORSet.mem_dotsOf_add, tracks.given, exists_append_single, own, or_assoc]
    · intro d
      simp only [ORSet.tombstones_add, exists_append_single, observes, exists_false, or_false]
      exact tracks.removed d
    · intro x d
      rw [ORSet.mem_dotsOf_add, ← tracks.held, allDots, allDots, dead, Function.update_apply]
      split
      next same =>
        subst same
        rw [liveDots_add]
        by_cases gone : dot.encode ∈ deadDots (contents x)
        · constructor
          · tauto
          · rintro (old | ⟨-, rfl⟩)
            · tauto
            · exact Or.inr gone
        · tauto
      next differ => simp [differ]
    · intro d
      simp only [dead, landed_append, observes, false_and, exists_false, or_false]
      exact tracks.landed d
  · simp only [acts, Option.some.injEq, TrieAction.removeElement.injEq, reduceCtorEq, false_and,
      exists_false] at gives observes
    have own : ∀ x d, op.Observes which x d ↔ x = element ∧ d ∈ observedDots := by
      intro x d
      rw [observes]
      constructor
      · rintro ⟨_, ⟨rfl, rfl⟩, mem⟩
        exact ⟨rfl, mem⟩
      · rintro ⟨rfl, mem⟩
        exact ⟨observedDots, ⟨rfl, rfl⟩, mem⟩
    rw [acts]
    simp only [Option.map_some, Option.getD_some, TrieAction.change, TrieAction.mark]
    constructor
    · intro x d
      rw [ORSet.dotsOf_remove, exists_append_single, gives, or_false]
      exact tracks.given x d
    · intro d
      rw [ORSet.mem_tombstones_remove, tracks.removed, exists_append_single, or_assoc]
      simp [own]
    · intro x d
      rw [ORSet.dotsOf_remove, ← tracks.held, Function.update_apply]
      split
      next same =>
        subst same
        rw [allDots, allDots, liveDots_remove, deadDots_remove]
        tauto
      next => rfl
    · intro d
      rw [landed_append, ← tracks.landed]
      have here : ∀ x, d ∈ deadDots (Function.update contents element
          ((contents element).map (Marks.remove observedDots)) x) ↔ d ∈ deadDots (contents x) ∨
            x = element ∧ d ∈ liveDots (contents x) ∧ d ∈ observedDots := by
        intro x
        rw [Function.update_apply]
        split
        next same =>
          subst same
          rw [deadDots_remove]
          simp
        next differ => simp [differ]
      have had : (d ∈ base.dotsOf element ∨ ∃ earlier ∈ ops, earlier.Gives which element d) ↔
          allDots (contents element) d := by
        rw [tracks.held, tracks.given]
      simp only [here, own]
      constructor
      · rintro ⟨x, old | ⟨rfl, live, observed⟩⟩
        · exact Or.inl ⟨x, old⟩
        · exact Or.inr ⟨x, ⟨rfl, observed⟩, had.mpr (Or.inl live)⟩
      · rintro (⟨x, old⟩ | ⟨x, ⟨rfl, observed⟩, given⟩)
        · exact ⟨x, Or.inl old⟩
        · rcases had.mp given with live | dead
          · exact ⟨x, Or.inr ⟨rfl, live, observed⟩⟩
          · exact ⟨x, Or.inl dead⟩

theorem TracksMarks.projected_iff {ops : List (Op V)}
    (tracks : TracksMarks which base ops orset contents) (lists : Lists contents states) :
    (∀ x d, d ∈ orset.getDots x ↔ d ∈ (projectORSet states).getDots x) ↔
      RemovalsLand which base ops := by
  -- a projected trie shows the live dots of the set exactly when all removals landed
  obtain ⟨dots, tombstones⟩ := projectORSet_spec lists
  simp only [ORSet.mem_getDots, dots, tombstones, tracks.held, tracks.landed]
  constructor
  · intro same d given removed
    obtain ⟨x, given⟩ := given
    have tagged := (tracks.given x d).mpr given
    by_contra missed
    exact ((same x d).mpr ⟨tagged, missed⟩).2 ((tracks.removed d).mpr removed)
  · intro land x d
    apply and_congr_right
    intro tagged
    rw [not_iff_not]
    constructor
    · exact fun gone => land d ⟨x, (tracks.given x d).mp tagged⟩ ((tracks.removed d).mp gone)
    · -- what landed was removed
      rintro (⟨-, gone⟩ | ⟨before, op, after, y, rfl, observes, -⟩)
      · exact (tracks.removed d).mpr (Or.inl gone)
      · exact (tracks.removed d).mpr (Or.inr ⟨op, by simp, y, observes⟩)

/-! ### Property values -/

/-- A property value that the session copies as it is. Objects in it have no own entry for
`__proto__`, which assignment by key would lose. -/
def Op.Plain : Op ReducerPropInput → Prop
  | .nodePropSet _ _ value => normalizePropValue value = .ok value
  | .edgePropSet _ _ _ _ value => normalizePropValue value = .ok value
  | _ => True

namespace WarpState

def Plain (s : WarpState ReducerPropInput) : Prop :=
  ∀ key register, s.prop.get key = some register →
    normalizePropValue register.value = .ok register.value

theorem Plain.mutate (plain : s.Plain) (op : Op ReducerPropInput) (copied : op.Plain) :
    (op.mutate s eventId).Plain := by
  have written : ∀ key value, normalizePropValue value = .ok value →
      (s.mutatePropLWW key eventId value).Plain := by
    intro key value same k register held
    rw [get_mutatePropLWW] at held
    split at held
    · -- the register keeps what it held or takes the new value
      cases found : s.prop.get k with
      | none =>
        rw [found] at held
        cases held
        exact same
      | some current =>
        rw [found] at held
        simp only [later] at held
        split at held
        · cases held
          exact plain k _ found
        · cases held
          exact same
    · exact plain k register held
  cases op with
  | nodePropSet node key value | edgePropSet src dst label key value => exact written _ value copied
  | nodeAdd node dot | nodeRemove node observedDots | edgeAdd src dst label dot
  | edgeRemove src dst label observedDots | blobValue node oid => exact plain

theorem prop_foldPatch {s s' : WarpState V} {entry : PatchEntry V}
    (folded : s.foldPatch entry.patch = .ok s') : s'.prop = s.prop := by
  rw [foldPatch_eq] at folded
  obtain ⟨context, -, folded⟩ := bind_eq_ok.mp folded
  obtain ⟨tick, -, folded⟩ := bind_eq_ok.mp folded
  cases folded
  rfl

theorem Beside.prop_eq {frame : ReducerSessionFrame A} (beside : s.Beside frame) (plain : s.Plain)
    (key) : s.prop.get key = frame.prop.get key := by
  -- copies of plain values are the values
  have mirrors := beside.prop key
  cases register : s.prop.get key with
  | none =>
    cases mirror : frame.prop.get key with
    | none => rfl
    | some mirror_ =>
      rw [register, mirror] at mirrors
      exact mirrors.elim
  | some register_ =>
    cases mirror : frame.prop.get key with
    | none =>
      rw [register, mirror] at mirrors
      exact mirrors.elim
    | some mirror_ =>
      rw [register, mirror] at mirrors
      obtain ⟨stamp, copy⟩ := mirrors
      have value := Except.ok.inj ((plain key register_ register).symm.trans copy)
      cases register_
      cases mirror_
      cases stamp
      cases value
      rfl

end WarpState

/-! ### Whole sequences -/

def historyOps (entries : List (PatchEntry V)) : List (Op V) :=
  entries.flatMap fun entry => canonicalOps entry.patch.ops

theorem canonicalOps_none {rest : List (PatchOp V)} (normalized : normalizeRawOp rawOp = .ok none) :
    canonicalOps (rawOp :: rest) = canonicalOps rest := by
  simp only [canonicalOps, filterMap_cons, normalized]

theorem canonicalOps_some {canonOp : CanonicalOp V}
    (normalized : normalizeRawOp rawOp = .ok (some canonOp)) :
    canonicalOps (rawOp :: rest) = canonOp.op :: canonicalOps rest := by
  simp only [canonicalOps, filterMap_cons, normalized]

/-- A frame over trees and a state after the same operations on the same base. -/
structure Alongside (env : TrieEnv S) (base : WarpState ReducerPropInput)
    (ops : List (Op ReducerPropInput)) (s : WarpState ReducerPropInput)
    (frame : ReducerSessionFrame SessionTrees) : Prop extends s.Beside frame where
  placed : frame.session.Placed env
  plain : s.Plain
  tracks : ∀ which, TracksMarks which (base.alive which) ops (s.alive which)
    (frame.session.marks env which)

section Runs

variable {env : TrieEnv S} (workspace : Bool) {base : WarpState ReducerPropInput}

theorem Alongside.mutate (along : Alongside env base ops s frame) (copied : op.Plain)
    (ok : frame.mutateInSession (SessionTrees.ops env workspace) op eventId = .ok frame') :
    Alongside env base (ops ++ [op]) (op.mutate s eventId) frame' := by
  obtain ⟨placed, marks⟩ := WarpState.marks_mutate along.placed ok
  refine ⟨WarpState.beside_mutate along.toBeside ok, placed,
    along.plain.mutate op copied, fun which => ?_⟩
  rw [alive_mutate, marks]
  exact (along.tracks which).step op

theorem Alongside.applyOps (i) (along : Alongside env base ops s frame)
    (copied : ∀ op ∈ canonicalOps rawOps, op.Plain)
    (applied : GitWarp.applyOps entry i rawOps s = .ok s')
    (ok : ReducerSessionFrame.applyOpsInSession (SessionTrees.ops env workspace) .fast entry i rawOps
      frame = .ok (outcomes, frame')) :
    Alongside env base (ops ++ canonicalOps rawOps) s' frame' := by
  induction rawOps generalizing i ops s frame outcomes with
  | nil =>
    cases applied
    cases ok
    rw [show canonicalOps ([] : List (PatchOp ReducerPropInput)) = [] from rfl, append_nil]
    exact along
  | cons rawOp rest ih =>
    obtain ⟨known, -, applied⟩ := bind_eq_ok.mp applied
    obtain ⟨canonOp, normalized, applied⟩ := bind_eq_ok.mp applied
    rw [ReducerSessionFrame.applyOpsInSession, normalized, ok_bind] at ok
    cases canonOp with
    | none =>
      rw [canonicalOps_none normalized] at copied ⊢
      exact ih (i + 1) along copied applied ok
    | some canonOp =>
      obtain ⟨eventId, stamped, applied⟩ := bind_eq_ok.mp applied
      dsimp only at ok
      rw [stamped, ok_bind] at ok
      obtain ⟨⟨first, read⟩, looked, read_⟩ := bind_eq_ok.mp ok
      cases looked
      obtain ⟨mutated, changed, mutated_⟩ := bind_eq_ok.mp read_
      obtain ⟨⟨others, last⟩, later_, done⟩ := bind_eq_ok.mp mutated_
      cases done
      rw [canonicalOps_some normalized] at copied ⊢
      rw [forall_mem_cons] at copied
      have next := along.mutate workspace copied.1 changed
      rw [append_cons]
      exact ih (i + 1) next copied.2 applied later_

/-- After any sequence that both accept, frame and state are alongside. -/
theorem Alongside.reduce (along : Alongside env base ops s frame)
    (copied : ∀ op ∈ historyOps entries, op.Plain) (reduced : reducePatches entries s = .ok s')
    (ok : reducePatchesInSession (SessionTrees.ops env workspace) entries frame = .ok frame') :
    Alongside env base (ops ++ historyOps entries) s' frame' := by
  induction entries generalizing ops s frame with
  | nil =>
    cases reduced
    cases ok
    rw [show historyOps ([] : List (PatchEntry ReducerPropInput)) = [] from rfl, append_nil]
    exact along
  | cons entry rest ih =>
    rw [historyOps, flatMap_cons] at copied ⊢
    obtain ⟨next, applied, reduced⟩ := bind_eq_ok.mp reduced
    obtain ⟨next', applied', ok⟩ := bind_eq_ok.mp ok
    obtain ⟨mutated, ran, folded⟩ := bind_eq_ok.mp applied
    obtain ⟨⟨receipt, last⟩, patched, done⟩ := bind_eq_ok.mp applied'
    cases done
    obtain ⟨⟨outcomes, changed⟩, ran', patched⟩ := bind_eq_ok.mp patched
    obtain ⟨folded', fold, patched⟩ := bind_eq_ok.mp patched
    obtain ⟨made, -, patched⟩ := bind_eq_ok.mp patched
    cases patched
    have step := along.applyOps workspace 0
      (fun op mem => copied op (mem_append_left _ mem)) ran ran'
    obtain ⟨beside, session, sets⟩ := WarpState.beside_fold step.toBeside folded fold
    have next_ : Alongside env base (ops ++ canonicalOps entry.patch.ops) next next' := by
      refine ⟨beside, session ▸ step.placed, ?_, fun which => ?_⟩
      · rw [WarpState.Plain, WarpState.prop_foldPatch folded]
        exact step.plain
      · rw [sets, session]
        exact step.tracks which
    rw [← append_assoc]
    exact ih next_ (fun op mem => copied op (mem_append_right _ mem)) reduced ok

end Runs

/-! ### Refinement -/

/-- Two states with the same alive elements, live dots, registers, frontier and births. -/
structure WarpState.SameProjection (s t : WarpState V) : Prop where
  alive : ∀ which x, (s.alive which).contains x = (t.alive which).contains x
  dots : ∀ which x d, d ∈ (s.alive which).getDots x ↔ d ∈ (t.alive which).getDots x
  prop : ∀ key, s.prop.get key = t.prop.get key
  observedFrontier : s.observedFrontier.Equiv t.observedFrontier
  edgeBirthEvent : ∀ key, s.edgeBirthEvent.get key = t.edgeBirthEvent.get key

theorem ORSet.contains_of_dots {left right : ORSet}
    (dots : ∀ x d, d ∈ left.getDots x ↔ d ∈ right.getDots x) (x) :
    left.contains x = right.contains x := by
  have live : ∀ orset : ORSet, orset.contains x = true ↔ ∃ d, d ∈ orset.getDots x := by
    intro orset
    rw [ORSet.contains_iff]
    simp only [ORSet.mem_getDots]
  rw [Bool.eq_iff_iff, live, live]
  exact exists_congr fun d => dots x d

/-- A base state whose dots read back and whose values are copied as they are. -/
structure WarpState.Seedable (base : WarpState ReducerPropInput) : Prop where
  nodes : base.nodeAlive.ReadsBack
  edges : base.edgeAlive.ReadsBack
  plain : base.Plain

theorem seedable_empty : (WarpState.empty : WarpState ReducerPropInput).Seedable := by
  constructor
  · intro x d given
    simp [WarpState.empty, ORSet.dotsOf, ORSet.empty] at given
  · intro x d given
    simp [WarpState.empty, ORSet.dotsOf, ORSet.empty] at given
  · intro key register held
    cases held

/-- A session that was seeded with a base state, if there is one, and that replayed a sequence
of patches projects to the state that `reducePatches` makes of it exactly when all removals
land, of nodes and of edges. -/
theorem session_projects_iff (env : TrieEnv S) (lawful : env.Lawful) (store : S) (workspace : Bool)
    (maxDirtyPages : Nat) (baseState : Option (WarpState ReducerPropInput))
    (seedable : ∀ base ∈ baseState, base.Seedable) (entries : List (PatchEntry ReducerPropInput))
    (copied : ∀ op ∈ historyOps entries, op.Plain) (s : WarpState ReducerPropInput)
    (reduced : reducePatches entries (baseState.getD .empty) = .ok s)
    (frame last : ReducerSessionFrame (StateSession env))
    (opened : openReducerSessionFrame (StateSession.ops env)
      (StateSession.opened env ⟨none, none⟩ store workspace maxDirtyPages) baseState = .ok frame)
    (replayed : reducePatchesInSession (StateSession.ops env) entries frame = .ok last) :
    ∃ t, projectFrameToState (StateSession.ops env) last = .ok t ∧ (s.SameProjection t ↔
        RemovalsLand .nodes (baseState.getD .empty).nodeAlive (historyOps entries) ∧
          RemovalsLand .edges (baseState.getD .empty).edgeAlive (historyOps entries)) := by
  have refines := StateSession.ops_refines lawful workspace
  -- the same over the trees that the session shows
  obtain ⟨onTrees, openedTrees, related⟩ := (openReducerSessionFrame_related refines
    ⟨StateSession.holds_opened_none, rfl⟩).ok_left opened
  obtain ⟨lastTrees, replayedTrees, related'⟩ :=
    (reducePatches_related refines related).ok_left replayed
  have base_ : (baseState.getD .empty).Seedable := by
    cases baseState with
    | none => exact seedable_empty
    | some base => exact seedable base rfl
  obtain ⟨placed, mirrors, prop, frontier, births⟩ := openReducerSessionFrame_mirrors workspace (fun base given => ⟨(seedable base given).nodes, (seedable base given).edges⟩)
    openedTrees
  have start : Alongside env (baseState.getD .empty) [] (baseState.getD .empty) onTrees := by
    refine ⟨⟨fun key => ?_, ?_, ?_⟩, placed, base_.plain, fun which => (mirrors which).tracksMarks⟩
    · rw [prop]
      cases held : (baseState.getD .empty).prop.get key with
      | none => trivial
      | some register => exact ⟨rfl, base_.plain key register held⟩
    · rw [frontier]
      exact .refl _
    · rw [births]
      exact fun _ => rfl
  have along := start.reduce workspace copied reduced replayedTrees
  rw [nil_append] at along
  obtain ⟨nodes, scannedNodes, listsNodes⟩ := SessionTrees.scanElementStates_ok
    lastTrees.session along.placed
  obtain ⟨edges, scannedEdges, listsEdges⟩ := SessionTrees.scanElementStates_ok
    lastTrees.session along.placed
  let t : WarpState ReducerPropInput := ⟨projectORSet nodes, projectORSet edges, lastTrees.prop,
    lastTrees.observedFrontier, lastTrees.edgeBirthEvent⟩
  have projected : projectFrameToState (SessionTrees.ops env workspace) lastTrees = .ok t := by
    rw [projectFrameToState, scannedNodes, ok_bind]
    dsimp only
    rw [scannedEdges, ok_bind]
    rfl
  obtain ⟨shown, done, same⟩ := (projectFrameToState_related refines related').ok_right projected
  cases same
  refine ⟨t, done, ?_⟩
  have nodesIff := (along.tracks .nodes).projected_iff listsNodes
  have edgesIff := (along.tracks .edges).projected_iff listsEdges
  constructor
  · intro same
    exact ⟨nodesIff.mp (same.dots .nodes), edgesIff.mp (same.dots .edges)⟩
  · rintro ⟨nodesLand, edgesLand⟩
    have dots : ∀ which x d, d ∈ (s.alive which).getDots x ↔ d ∈ (t.alive which).getDots x := by
      intro which
      cases which with
      | nodes => exact nodesIff.mpr nodesLand
      | edges => exact edgesIff.mpr edgesLand
    exact ⟨fun which => ORSet.contains_of_dots (dots which), dots, along.toBeside.prop_eq along.plain,
      along.observedFrontier, along.edgeBirthEvent⟩

/-- Seeds nothing, replays the patches and projects. -/
def replayAndProject (entries : List (PatchEntry ReducerPropInput)) :
    Except Failure (WarpState ReducerPropInput) :=
  reducePatchesInSession (StateSession.ops _) entries (emptyFrame true 1) >>=
    projectFrameToState (StateSession.ops _)

theorem historyOps_added_removed : historyOps [addition, removal] =
    [.nodeAdd (lit "a") ⟨lit "w", 1, by decide, by decide⟩, .nodeRemove (lit "a") [lit "w:1"]] := rfl

/-- A node that is added and removed is gone from both. -/
theorem session_projects_added_removed :
    ∃ s t, reducePatches [addition, removal] .empty = .ok s ∧
      replayAndProject [addition, removal] = .ok t ∧ s.SameProjection t := by
  have accepted : (reducePatches [addition, removal] .empty).isOk = true := by decide +kernel
  have replays : (reducePatchesInSession (StateSession.ops _) [addition, removal]
      (emptyFrame true 1)).isOk = true := by
    decide +kernel
  have copied : ∀ op ∈ historyOps [addition, removal], op.Plain := by
    intro op member
    rw [historyOps_added_removed] at member
    rcases mem_cons.mp member with rfl | member
    · trivial
    · rw [mem_singleton.mp member]
      trivial
  obtain ⟨s, reduced⟩ := exists_of_isOk accepted
  obtain ⟨last, replayed⟩ := exists_of_isOk replays
  obtain ⟨t, projected, same⟩ := session_projects_iff (memoryEnv .default16way letterBlake3)
    memoryEnv_lawful [] true 1 none (fun _ absent => nomatch absent)
    [addition, removal] copied s reduced (emptyFrame true 1) last rfl replayed
  refine ⟨s, t, reduced, ?_, same.mpr ⟨?_, ?_⟩⟩
  · rw [replayAndProject, replayed, ok_bind]
    exact projected
  · -- the removal observes the one dot, after the addition
    intro d given _
    rw [historyOps_added_removed] at given ⊢
    have own : d = lit "w:1" := by
      obtain ⟨x, impossible | ⟨op, member, dot, acts, rfl⟩⟩ := given
      · simp [WarpState.empty, ORSet.dotsOf, ORSet.empty] at impossible
      · rcases mem_cons.mp member with rfl | member
        · cases acts
          rfl
        · rw [mem_singleton.mp member] at acts
          cases acts
    subst own
    exact Or.inr ⟨[_], _, [], lit "a", rfl, ⟨_, rfl, by decide⟩, Or.inr ⟨_, mem_cons_self, _, rfl,
      rfl⟩⟩
  · -- nothing is done to edges
    intro d given _
    rw [historyOps_added_removed] at given
    obtain ⟨x, impossible | ⟨op, member, dot, acts, -⟩⟩ := given
    · simp [WarpState.empty, ORSet.dotsOf, ORSet.empty] at impossible
    · rcases mem_cons.mp member with rfl | member
      · cases acts
      · rw [mem_singleton.mp member] at acts
        cases acts

/-- A removal that is read before the addition it observed is lost on a session. -/
theorem early_removal_lost :
    ∃ s t, reducePatches [removal, addition] .empty = .ok s ∧
      replayAndProject [removal, addition] = .ok t ∧ ¬ s.SameProjection t := by
  have memory : ((reducePatches [removal, addition] .empty).toOption.map fun s =>
      s.nodeAlive.contains (lit "a")) = some false := by
    decide +kernel
  have session : ((replayAndProject [removal, addition]).toOption.map fun t =>
      t.nodeAlive.contains (lit "a")) = some true := by
    decide +kernel
  cases reduced : reducePatches [removal, addition] .empty with
  | error e =>
    rw [reduced] at memory
    cases memory
  | ok s =>
    cases replayed : replayAndProject [removal, addition] with
    | error e =>
      rw [replayed] at session
      cases session
    | ok t =>
      rw [reduced] at memory
      rw [replayed] at session
      refine ⟨s, t, rfl, rfl, fun same => ?_⟩
      have dead : s.nodeAlive.contains (lit "a") = false := Option.some.inj memory
      have live : t.nodeAlive.contains (lit "a") = true := Option.some.inj session
      have equal := same.alive .nodes (lit "a")
      rw [show (s.alive .nodes) = s.nodeAlive from rfl, show (t.alive .nodes) = t.nodeAlive from rfl,
        dead, live] at equal
      cases equal

end GitWarp
