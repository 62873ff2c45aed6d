import GitWarp.Session.Acceptance

/-!
# Tries that mirror OR-sets

A set in memory tombstones a dot for all elements at once and before any of them has
it; a trie does so for one element, and only if it has the dot. So the marks of a trie
are the dots of the set as long as every operation names the elements of its dots.
-/
namespace GitWarp

open Js Lib KeyCodec Option Function VersionVector

/-! ### One set -/

def liveDots (marks : Option Marks) : OrdSet JsString := (marks.map Marks.dots).getD .empty

def deadDots (marks : Option Marks) : OrdSet JsString := (marks.map Marks.tombstonedDots).getD .empty

/-- The marks of every element are its dots, the tombstoned ones apart. -/
structure ORSet.Mirrors (orset : ORSet) (contents : Contents) : Prop where
  live : ∀ x d, d ∈ liveDots (contents x) ↔ d ∈ orset.getDots x
  dead : ∀ x d, d ∈ deadDots (contents x) ↔ d ∈ orset.dotsOf x ∧ d ∈ orset.tombstones

theorem mirrors_empty : ORSet.empty.Mirrors fun _ => none := by
  constructor
  · simp [liveDots]
  · simp [deadDots]

theorem liveDots_add (encodedDot d) (marks) :
    d ∈ liveDots (some (Marks.add encodedDot marks)) ↔
      d ∈ liveDots marks ∨ d = encodedDot ∧ encodedDot ∉ deadDots marks := by
  cases marks with
  | none => simp [liveDots, deadDots, Marks.add]
  | some marks =>
    simp only [liveDots, deadDots, Marks.add, map_some, getD_some]
    by_cases dead : marks.tombstonedDots.has encodedDot = true
    · have inside := (OrdSet.has_iff _ _).mp dead
      simp [dead, inside]
    · have outside := mt (OrdSet.has_iff _ _).mpr dead
      simp [dead, outside]

theorem deadDots_add (encodedDot d) (marks) :
    d ∈ deadDots (some (Marks.add encodedDot marks)) ↔ d ∈ deadDots marks := by
  cases marks with
  | none => simp [deadDots, Marks.add]
  | some marks =>
    simp only [deadDots, Marks.add, map_some, getD_some]
    split <;> rfl

theorem liveDots_remove (observedDots) (d) (marks) :
    d ∈ liveDots (marks.map (Marks.remove observedDots)) ↔ d ∈ liveDots marks ∧ d ∉ observedDots := by
  cases marks with
  | none => simp [liveDots]
  | some marks => simp [liveDots, Marks.remove]

theorem deadDots_remove (observedDots) (d) (marks) :
    d ∈ deadDots (marks.map (Marks.remove observedDots)) ↔
      d ∈ deadDots marks ∨ d ∈ liveDots marks ∧ d ∈ observedDots := by
  cases marks with
  | none => simp [deadDots, liveDots]
  | some marks => simp [deadDots, liveDots, Marks.remove]

variable {s : WarpState ReducerPropInput} {contents : Contents}

/-- An addition is mirrored unless its dot was tombstoned before the element had it. -/
theorem ORSet.Mirrors.add {orset : ORSet} (mirrors : orset.Mirrors contents)
    (known : dot.encode ∈ orset.tombstones → dot.encode ∈ orset.dotsOf element) :
    (orset.add element dot).Mirrors (TrieAction.mark contents (.add element dot)) := by
  have dead := mirrors.dead element dot.encode
  constructor
  · intro x d
    rw [mem_getDots, mem_dotsOf_add, tombstones_add, TrieAction.mark, update_apply]
    by_cases same : x = element
    · subst same
      rw [if_pos rfl, liveDots_add, mirrors.live, mem_getDots, dead]
      constructor
      · rintro (⟨tagged, untouched⟩ | ⟨rfl, alive⟩)
        · exact ⟨Or.inl tagged, untouched⟩
        · exact ⟨Or.inr ⟨rfl, rfl⟩, fun gone => alive ⟨known gone, gone⟩⟩
      · rintro ⟨tagged | ⟨-, rfl⟩, untouched⟩
        · exact Or.inl ⟨tagged, untouched⟩
        · exact Or.inr ⟨rfl, fun gone => untouched gone.2⟩
    · simp [same, mirrors.live]
  · intro x d
    rw [mem_dotsOf_add, tombstones_add, TrieAction.mark, update_apply]
    by_cases same : x = element
    · subst same
      rw [if_pos rfl, deadDots_add, mirrors.dead]
      constructor
      · exact fun gone => ⟨Or.inl gone.1, gone.2⟩
      · rintro ⟨tagged | ⟨-, rfl⟩, gone⟩
        · exact ⟨tagged, gone⟩
        · exact ⟨known gone, gone⟩
    · simp [same, mirrors.dead]

/-- A removal is mirrored unless it takes a live dot from an element that it does not name. -/
theorem ORSet.Mirrors.remove {orset : ORSet} (mirrors : orset.Mirrors contents) (observedDots)
    (own : ∀ d ∈ observedDots, ∀ x, d ∈ orset.getDots x → x = element) :
    (orset.remove observedDots).Mirrors
      (TrieAction.mark contents (.removeElement element observedDots)) := by
  constructor
  · intro x d
    rw [mem_getDots, dotsOf_remove, mem_tombstones_remove, TrieAction.mark, update_apply]
    by_cases same : x = element
    · subst same
      rw [if_pos rfl, liveDots_remove, mirrors.live, mem_getDots]
      tauto
    · rw [if_neg same, mirrors.live, mem_getDots]
      constructor
      · rintro ⟨tagged, untouched⟩
        refine ⟨tagged, fun gone => ?_⟩
        rcases gone with gone | observed
        · exact untouched gone
        · exact same (own d observed x ((mem_getDots _).mpr ⟨tagged, untouched⟩))
      · exact fun alive => ⟨alive.1, fun gone => alive.2 (Or.inl gone)⟩
  · intro x d
    rw [dotsOf_remove, mem_tombstones_remove, TrieAction.mark, update_apply]
    by_cases same : x = element
    · subst same
      rw [if_pos rfl, deadDots_remove, mirrors.dead, mirrors.live, mem_getDots]
      tauto
    · rw [if_neg same, mirrors.dead]
      constructor
      · exact fun gone => ⟨gone.1, Or.inl gone.2⟩
      · rintro ⟨tagged, gone | observed⟩
        · exact ⟨tagged, gone⟩
        · -- a dot of another element that the removal observes was dead already
          refine ⟨tagged, ?_⟩
          by_contra untouched
          exact same (own d observed x ((mem_getDots _).mpr ⟨tagged, untouched⟩))

/-! ### Frames -/

variable {S V : Type}

namespace SessionTrees

variable (env : TrieEnv S)

/-- What a tree says of every element. -/
def marks (trees : SessionTrees) (which : AliveSet) : Contents := fun x =>
  (trees which).marksAt env.geometry env.blake3 0 x

variable {env}

section

variable (placed : trees.Placed env) (keeps : ∀ vv, action ≠ .compact vv)
  (called : act env which action trees = .ok trees')
include placed keeps called

theorem marks_act (other) :
    trees'.marks env other =
      if other = which then action.mark (trees.marks env which) else trees.marks env other := by
  obtain ⟨t', performed, made⟩ := bind_eq_ok.mp called
  cases made
  have permits := Trie.permits_of_perform (trees which) (placed which) keeps performed
  obtain ⟨same, again, says'⟩ := Trie.perform_says (trees which) (trees.marks env which)
    ⟨placed which, fun _ => rfl⟩ permits
  cases Except.ok.inj (performed.symm.trans again)
  funext x
  unfold marks setTree
  by_cases own : other = which
  · subst own
    rw [update_self, if_pos rfl, says'.marks]
    rfl
  · rw [update_of_ne own, if_neg own]

theorem act_spec :
    trees'.Placed env ∧ ∀ other, trees'.marks env other =
      if other = which then action.mark (trees.marks env which) else trees.marks env other := by
  have permits := permits_of_act placed keeps called
  obtain ⟨next, again, placed'⟩ := act_placed placed action permits
  cases Except.ok.inj (called.symm.trans again)
  exact ⟨placed', marks_act placed keeps called⟩

end

end SessionTrees

/-- A register of a session holds what the one in memory holds, normalized. -/
def RegisterMirrors (register : Option (LWWRegister ReducerPropInput))
    (mirror : Option (LWWRegister ReducerPropInput)) : Prop :=
  match register, mirror with
  | none, none => True
  | some register, some mirror => mirror.eventId = register.eventId ∧
    normalizePropValue register.value = .ok mirror.value
  | _, _ => False

theorem ReducerSessionFrame.setProperty_session (frame frame' : ReducerSessionFrame A)
    (ok : frame.setProperty key eventId value = .ok frame') : frame'.session = frame.session := by
  obtain ⟨normalized, -, ok⟩ := bind_eq_ok.mp ok
  split at ok <;> (cases ok; rfl)

/-- Registers, frontier and births of a frame, as in a state. -/
structure WarpState.Beside {A : Type} (s : WarpState ReducerPropInput)
    (frame : ReducerSessionFrame A) : Prop where
  prop : ∀ key, RegisterMirrors (s.prop.get key) (frame.prop.get key)
  observedFrontier : s.observedFrontier.Equiv frame.observedFrontier
  edgeBirthEvent : ∀ key, s.edgeBirthEvent.get key = frame.edgeBirthEvent.get key

def WarpState.alive (s : WarpState V) : AliveSet → ORSet
  | .nodes => s.nodeAlive
  | .edges => s.edgeAlive

/-- What an operation does to one of the two sets. -/
def Op.actOn : AliveSet → Op V → Option TrieAction
  | .nodes, .nodeAdd node dot => some (.add node dot)
  | .nodes, .nodeRemove node observedDots => some (.removeElement node (OrdSet.ofList observedDots))
  | .edges, .edgeAdd src dst label dot => some (.add (encodeEdgeKey src dst label) dot)
  | .edges, .edgeRemove src dst label observedDots =>
    some (.removeElement (encodeEdgeKey src dst label) (OrdSet.ofList observedDots))
  | _, _ => none

/-- The same on a set in memory, where a removal names no element. -/
def TrieAction.change (orset : ORSet) : TrieAction → ORSet
  | .add element dot => orset.add element dot
  | .removeElement _ observedDots => orset.remove observedDots
  | _ => orset

theorem alive_mutate (s) (op : Op V) (eventId which) :
    (op.mutate s eventId).alive which =
      ((op.actOn which).map (TrieAction.change (s.alive which))).getD (s.alive which) := by
  have written : ∀ key value, (s.mutatePropLWW key eventId value).alive which = s.alive which := by
    intro key value
    obtain ⟨nodes, edges, -, -⟩ := s.mutatePropLWW_frame key eventId value
    cases which with
    | nodes => exact nodes
    | edges => exact edges
  cases op with
  | nodeAdd node dot | nodeRemove node observedDots | edgeAdd src dst label dot
  | edgeRemove src dst label observedDots | blobValue node oid => cases which <;> rfl
  | nodePropSet node key value =>
    rw [show (Op.nodePropSet node key value : Op V).actOn which = none by cases which <;> rfl]
    exact written _ value
  | edgePropSet src dst label key value =>
    rw [show (Op.edgePropSet src dst label key value : Op V).actOn which = none by
      cases which <;> rfl]
    exact written _ value

namespace WarpState

variable {env : TrieEnv S}

theorem beside_initial (session : A) :
    (WarpState.empty : WarpState ReducerPropInput).Beside ⟨session, .empty, .empty, .empty⟩ where
  prop := fun _ => trivial
  observedFrontier := .refl _
  edgeBirthEvent := fun _ => rfl

theorem registerMirrors_later (mirrors : RegisterMirrors register mirror)
    (ok : normalizePropValue value = .ok normalized) :
    RegisterMirrors (later LWWRegister.eventId register (some ⟨eventId, value⟩))
      (later LWWRegister.eventId mirror (some ⟨eventId, normalized⟩)) := by
  cases register with
  | none =>
    cases mirror with
    | none => exact ⟨rfl, ok⟩
    | some mirror => exact mirrors.elim
  | some register =>
    cases mirror with
    | none => exact mirrors.elim
    | some mirror =>
      obtain ⟨same, value_⟩ := mirrors
      simp only [later, same]
      split
      · exact ⟨same, value_⟩
      · exact ⟨rfl, ok⟩

theorem beside_setProperty {frame frame' : ReducerSessionFrame A} (beside : s.Beside frame)
    (ok : frame.setProperty key eventId value = .ok frame') :
    (s.mutatePropLWW key eventId value).Beside frame' ∧ frame'.session = frame.session := by
  obtain ⟨normalized, valid, ok⟩ := bind_eq_ok.mp ok
  obtain ⟨-, -, frontier, births⟩ := s.mutatePropLWW_frame key eventId value
  -- the frame differs in the one register
  have changed : frame'.session = frame.session ∧ frame'.observedFrontier = frame.observedFrontier ∧
      frame'.edgeBirthEvent = frame.edgeBirthEvent ∧ ∀ k, frame'.prop.get k =
        if key = k then later LWWRegister.eventId (frame.prop.get k) (some ⟨eventId, normalized⟩)
        else frame.prop.get k := by
    rw [lwwMax_eq_later] at ok
    cases wins : later LWWRegister.eventId (frame.prop.get key) (some ⟨eventId, normalized⟩) with
    | none =>
      cases found : frame.prop.get key with
      | none => simp [later, found] at wins
      | some current =>
        simp only [later, found] at wins
        split at wins <;> cases wins
    | some next =>
      rw [wins] at ok
      cases ok
      refine ⟨rfl, rfl, rfl, fun k => ?_⟩
      rw [OrdMap.get_set]
      by_cases same : key = k
      · subst same
        rw [if_pos rfl, if_pos rfl, wins]
      · rw [if_neg same, if_neg same]
  obtain ⟨session, frontier', births', register⟩ := changed
  refine ⟨⟨?_, ?_, ?_⟩, session⟩
  · intro k
    rw [get_mutatePropLWW, register]
    split
    · exact registerMirrors_later (beside.prop k) valid
    · exact beside.prop k
  · rw [frontier, frontier']
    exact beside.observedFrontier
  · rw [births, births']
    exact beside.edgeBirthEvent

/-- An operation that goes through changes what is beside the sets alike. -/
theorem beside_mutate {frame frame' : ReducerSessionFrame A} (beside : s.Beside frame)
    (ok : frame.mutateInSession methods op eventId = .ok frame') :
    (op.mutate s eventId).Beside frame' := by
  cases op with
  | nodeAdd node dot | nodeRemove node observedDots | edgeRemove src dst label observedDots =>
    obtain ⟨session, -, ok⟩ := bind_eq_ok.mp ok
    cases ok
    exact ⟨beside.prop, beside.observedFrontier, beside.edgeBirthEvent⟩
  | edgeAdd src dst label dot =>
    obtain ⟨session, -, ok⟩ := bind_eq_ok.mp ok
    cases ok
    refine ⟨beside.prop, beside.observedFrontier, fun key => ?_⟩
    change (bumpBirthEvent s.edgeBirthEvent _ eventId).get key =
      (bumpBirthEvent frame.edgeBirthEvent _ eventId).get key
    rw [get_bumpBirthEvent, get_bumpBirthEvent, beside.edgeBirthEvent]
  | nodePropSet node key value | edgePropSet src dst label key value =>
    exact (beside_setProperty beside ok).1
  | blobValue node oid =>
    cases ok
    exact beside

/-- An operation that goes through does to the tries what it does to plain maps of marks. -/
theorem marks_mutate {frame frame' : ReducerSessionFrame SessionTrees}
    (placed : frame.session.Placed env)
    (ok : frame.mutateInSession (SessionTrees.ops env workspace) op eventId = .ok frame') :
    frame'.session.Placed env ∧ ∀ which, frame'.session.marks env which =
      ((op.actOn which).map (TrieAction.mark (frame.session.marks env which))).getD
        (frame.session.marks env which) := by
  have untouched : frame'.session = frame.session → (∀ which, op.actOn which = none) →
      frame'.session.Placed env ∧ ∀ which, frame'.session.marks env which =
        ((op.actOn which).map (TrieAction.mark (frame.session.marks env which))).getD
          (frame.session.marks env which) := by
    intro same idle
    rw [same]
    exact ⟨placed, fun which => by rw [idle]; rfl⟩
  cases op with
  | nodeAdd node dot | nodeRemove node observedDots | edgeAdd src dst label dot
  | edgeRemove src dst label observedDots =>
    obtain ⟨session, called, ok⟩ := bind_eq_ok.mp ok
    cases ok
    obtain ⟨placed', marks⟩ := SessionTrees.act_spec placed (by simp) called
    exact ⟨placed', fun which => by rw [marks]; cases which <;> rfl⟩
  | nodePropSet node key value | edgePropSet src dst label key value =>
    exact untouched (ReducerSessionFrame.setProperty_session _ _ ok) fun which => by
      cases which <;> rfl
  | blobValue node oid =>
    cases ok
    exact untouched rfl fun which => by cases which <;> rfl

theorem counter_setCounters (entries) (nodup : (entries.map Prod.fst).Nodup) (vv merged)
    (ok : ReducerSessionFrame.setCounters entries vv = .ok merged) (w) :
    merged.counter w = (assocGet entries w).getD (vv.counter w) := by
  induction entries generalizing vv with
  | nil =>
    cases ok
    rfl
  | cons entry rest ih =>
    obtain ⟨writerId, counter⟩ := entry
    rw [List.map_cons, List.nodup_cons] at nodup
    obtain ⟨next, set, ok⟩ := bind_eq_ok.mp ok
    rw [ih nodup.2 next ok]
    unfold VersionVector.set at set
    split at set
    · cases set
    · cases set
      rw [counter_put]
      by_cases same : writerId = w
      · subst same
        have absent : assocGet rest writerId = none := (assocGet_eq_none_iff rest writerId).mpr nodup.1
        simp [assocGet, absent]
      · simp [assocGet, same, Ne.symm same]

/-- Folding a patch advances both frontiers alike. -/
theorem beside_fold {frame frame' : ReducerSessionFrame A} (beside : s.Beside frame)
    (folded : s.foldPatch patch = .ok s') (ok : frame.foldPatchIntoFrame patch = .ok frame') :
    s'.Beside frame' ∧ frame'.session = frame.session ∧ ∀ which, s'.alive which = s.alive which := by
  unfold ReducerSessionFrame.foldPatchIntoFrame at ok
  obtain ⟨contextVV, context, folded⟩ := bind_eq_ok.mp folded
  rw [context, ok_bind] at ok
  obtain ⟨merged, counted, ok⟩ := bind_eq_ok.mp ok
  -- writing the merged counters back gives the merged vector
  have counters : ∀ w, merged.counter w = (s.observedFrontier.merge contextVV).counter w := by
    intro w
    have sameFrontier := (equiv_iff_counter _ _).mp beside.observedFrontier w
    have whole := counter_merge frame.observedFrontier contextVV w
    rw [counter_setCounters _ (OrdMap.nodup _) _ _ counted, counter_merge, sameFrontier]
    change ((frame.observedFrontier.merge contextVV).entries.get w).getD _ = _
    rw [VersionVector.counter, VersionVector.get] at whole
    cases found : (frame.observedFrontier.merge contextVV).entries.get w with
    | none =>
      rw [found] at whole
      simp only [getD_none] at whole ⊢
      omega
    | some counter =>
      rw [found] at whole
      exact whole
  rw [counters] at ok
  dsimp only at folded
  split at folded
  next newer =>
    obtain ⟨advanced, set, folded⟩ := bind_eq_ok.mp folded
    rw [if_pos newer] at ok
    obtain ⟨advanced', set', ok⟩ := bind_eq_ok.mp ok
    cases folded
    cases ok
    refine ⟨⟨beside.prop, ?_, beside.edgeBirthEvent⟩, rfl, fun which => by cases which <;> rfl⟩
    unfold VersionVector.set at set set'
    split at set
    · cases set
    next named =>
      rw [dif_neg named] at set'
      cases set
      cases set'
      rw [equiv_iff_counter]
      intro w
      rw [counter_put, counter_put, counters]
  next older =>
    rw [if_neg older] at ok
    cases folded
    cases ok
    refine ⟨⟨beside.prop, ?_, beside.edgeBirthEvent⟩, rfl, fun which => by cases which <;> rfl⟩
    rw [equiv_iff_counter]
    exact fun w => (counters w).symm

/-! ### Mirrored operations -/

/-- A frame over two trees that shows what a state in memory holds. -/
structure Mirrors (env : TrieEnv S) (s : WarpState ReducerPropInput)
    (frame : ReducerSessionFrame SessionTrees) : Prop extends s.Beside frame where
  placed : frame.session.Placed env
  nodeAlive : s.nodeAlive.Mirrors (frame.session.marks env .nodes)
  edgeAlive : s.edgeAlive.Mirrors (frame.session.marks env .edges)

theorem Mirrors.alive {frame} (mirrors : s.Mirrors env frame) :
    (s.alive which).Mirrors (frame.session.marks env which) := by
  cases which with
  | nodes => exact mirrors.nodeAlive
  | edges => exact mirrors.edgeAlive

theorem mirrors_initial :
    (WarpState.empty : WarpState ReducerPropInput).Mirrors env
      ⟨SessionTrees.empty, .empty, .empty, .empty⟩ where
  toBeside := beside_initial _
  placed := fun _ => trivial
  nodeAlive := mirrors_empty
  edgeAlive := mirrors_empty

end WarpState

/-- An operation that the tries mirror: its dot was not tombstoned before its element had
it, or it takes live dots from its own element only. -/
def Op.Mirrored (s : WarpState V) : Op V → Prop
  | .nodeAdd node dot => dot.encode ∈ s.nodeAlive.tombstones → dot.encode ∈ s.nodeAlive.dotsOf node
  | .nodeRemove node observedDots =>
    ∀ d ∈ observedDots, ∀ x, d ∈ s.nodeAlive.getDots x → x = node
  | .edgeAdd src dst label dot => dot.encode ∈ s.edgeAlive.tombstones →
    dot.encode ∈ s.edgeAlive.dotsOf (encodeEdgeKey src dst label)
  | .edgeRemove src dst label observedDots =>
    ∀ d ∈ observedDots, ∀ x, d ∈ s.edgeAlive.getDots x → x = encodeEdgeKey src dst label
  | _ => True

/-- One mirrored operation on one set. -/
theorem Op.Mirrored.change {s} {op : Op V} (mirrored : op.Mirrored s)
    (mirrors : (s.alive which).Mirrors contents) :
    (((op.actOn which).map (TrieAction.change (s.alive which))).getD (s.alive which)).Mirrors
      (((op.actOn which).map (TrieAction.mark contents)).getD contents) := by
  cases op with
  | nodeAdd node dot =>
    cases which with
    | nodes => exact mirrors.add mirrored
    | edges => exact mirrors
  | nodeRemove node observedDots =>
    cases which with
    | nodes =>
      apply mirrors.remove
      exact fun d observed => mirrored d (OrdSet.mem_ofList.mp observed)
    | edges => exact mirrors
  | edgeAdd src dst label dot =>
    cases which with
    | nodes => exact mirrors
    | edges => exact mirrors.add mirrored
  | edgeRemove src dst label observedDots =>
    cases which with
    | nodes => exact mirrors
    | edges =>
      apply mirrors.remove
      exact fun d observed => mirrored d (OrdSet.mem_ofList.mp observed)
  | nodePropSet node key value | edgePropSet src dst label key value | blobValue node oid =>
    cases which <;> exact mirrors

namespace WarpState

variable {env : TrieEnv S}

theorem mirrors_mutate (mirrors : s.Mirrors env frame) (mirrored : op.Mirrored s)
    (ok : frame.mutateInSession (SessionTrees.ops env workspace) op eventId = .ok frame') :
    (op.mutate s eventId).Mirrors env frame' := by
  obtain ⟨placed, marks⟩ := marks_mutate mirrors.placed ok
  have sets : ∀ which, ((op.mutate s eventId).alive which).Mirrors
      (frame'.session.marks env which) := by
    intro which
    rw [alive_mutate, marks]
    exact mirrored.change (mirrors.alive)
  exact ⟨beside_mutate mirrors.toBeside ok, placed, sets .nodes, sets .edges⟩

theorem mirrors_fold (mirrors : s.Mirrors env frame) (folded : s.foldPatch patch = .ok s')
    (ok : frame.foldPatchIntoFrame patch = .ok frame') : s'.Mirrors env frame' := by
  obtain ⟨beside, session, sets⟩ := beside_fold mirrors.toBeside folded ok
  refine ⟨beside, session ▸ mirrors.placed, ?_, ?_⟩
  · have nodes : s'.nodeAlive = s.nodeAlive := sets .nodes
    rw [session, nodes]
    exact mirrors.nodeAlive
  · have edges : s'.edgeAlive = s.edgeAlive := sets .edges
    rw [session, edges]
    exact mirrors.edgeAlive

end WarpState

/-! ### Patches -/

/-- The operations of a patch with the states in memory that they meet. -/
def opStates (entry : PatchEntry V) : Nat → List (PatchOp V) → WarpState V → List (WarpState V × Op V)
  | _, [], _ => []
  | i, rawOp :: rest, s =>
    match normalizeRawOp rawOp, EventId.create entry.patch.lamport entry.patch.writer entry.sha i with
    | .ok (some canonOp), .ok eventId =>
      (s, canonOp.op) :: opStates entry (i + 1) rest (canonOp.op.mutate s eventId)
    | _, _ => opStates entry (i + 1) rest s

theorem opStates_none (i) (s) (normalized : normalizeRawOp rawOp = .ok none) :
    opStates entry i (rawOp :: rest) s = opStates entry (i + 1) rest s := by
  rw [opStates, normalized]

theorem opStates_some (i) (s) (normalized : normalizeRawOp rawOp = .ok (some canonOp))
    (stamped : EventId.create entry.patch.lamport entry.patch.writer entry.sha i = .ok eventId) :
    opStates entry i (rawOp :: rest) s =
      (s, canonOp.op) :: opStates entry (i + 1) rest (canonOp.op.mutate s eventId) := by
  rw [opStates, normalized, stamped]

/-- What holds of every operation and the state that it meets, over a whole sequence of
patches. -/
def AlongPatches (P : WarpState V → Op V → Prop) : List (PatchEntry V) → WarpState V → Prop
  | [], _ => True
  | entry :: rest, s => (∀ met ∈ opStates entry 0 entry.patch.ops s, P met.1 met.2) ∧
    ∀ s', applyFast s entry = .ok s' → AlongPatches P rest s'

namespace SessionTrees

variable {env : TrieEnv S}

theorem dots_ok (ok : (SessionTrees.ops env workspace).dots which element trees = .ok result) :
    result = (liveDots (trees.marks env which element), trees) := by
  obtain ⟨checked, -, read⟩ := bind_eq_ok.mp ok
  cases read
  unfold liveDots marks Trie.marksAt Trie.entryOf
  rw [Option.map_map]
  rfl

end SessionTrees

namespace ReducerSessionFrame

variable {env : TrieEnv S}

/-- Computing an outcome over trees changes nothing. -/
theorem receiptOps_frame {frame read : ReducerSessionFrame SessionTrees}
    (ok : frame.receiptOps (SessionTrees.ops env workspace) mode op eventId = .ok (outcomes, read)) :
    read = frame := by
  cases mode with
  | fast => exact (Prod.ext_iff.mp (Except.ok.inj ok)).2.symm
  | receipt =>
    obtain ⟨⟨outcome, next⟩, computed, ok⟩ := bind_eq_ok.mp ok
    cases ok
    have dotted : ∀ which element f,
        frame.computeDotOutcome (SessionTrees.ops env workspace) which element f = .ok (outcome, read) →
          read = frame := by
      intro which element f ok
      obtain ⟨result, found, ok⟩ := bind_eq_ok.mp ok
      have same := SessionTrees.dots_ok found
      subst same
      cases ok
      rfl
    unfold computeOutcome at computed
    cases op with
    | nodeAdd node dot | nodeRemove node observedDots | edgeAdd src dst label dot
    | edgeRemove src dst label observedDots => exact dotted _ _ _ computed
    | nodePropSet node key value | edgePropSet src dst label key value | blobValue node oid =>
      cases computed
      rfl

end ReducerSessionFrame

namespace WarpState

variable {env : TrieEnv S}

end WarpState

end GitWarp
