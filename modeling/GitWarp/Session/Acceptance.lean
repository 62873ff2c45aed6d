import GitWarp.Session.JoinReducerSession

/-!
# Which patches a reducer accepts

Both reducers normalize the operations of a patch, make an event for each and fold the
context. Beyond that the one in memory rejects unknown types, and the one of sessions
unsupported values, elements that a trie does not admit and patches without a receipt.
-/
namespace GitWarp

open Js Lib KeyCodec List Option

variable {V : Type}

/-! ### What the reducers look at -/

/-- The operations that are left after normalization. -/
def canonicalOps (ops : List (PatchOp V)) : List (Op V) :=
  ops.filterMap fun rawOp =>
    match normalizeRawOp rawOp with
    | .ok (some canonOp) => some canonOp.op
    | _ => none

/-- An event can be made for every operation of the patch. -/
def PatchEntry.Stamped (entry : PatchEntry V) : Prop :=
  0 < entry.patch.lamport ∧ entry.patch.writer ≠ [] ∧ isHexOid entry.sha = true

/-- What both reducers ask of a patch. -/
structure PatchEntry.Decodes (entry : PatchEntry V) : Prop where
  normalized : ∀ rawOp ∈ entry.patch.ops, ∃ canonOp, normalizeRawOp rawOp = .ok canonOp
  stamped : canonicalOps entry.patch.ops ≠ [] → entry.Stamped
  context : ∃ vv, entry.patch.context.toVersionVector = .ok vv
  advances : entry.patch.writer = [] → entry.patch.lamport ≤ 0

def PatchEntry.Known (entry : PatchEntry V) : Prop :=
  ∀ rawOp ∈ entry.patch.ops, assertKnownReducerOp rawOp = .ok ()

def PatchEntry.Receiptable (entry : PatchEntry V) : Prop :=
  entry.sha ≠ [] ∧ entry.patch.writer ≠ [] ∧ 0 ≤ entry.patch.lamport

mutual

def isSupported : ReducerPropInput → Bool
  | .array items => areSupported items
  | .object entries => entriesAreSupported entries
  | .unsupported _ => false
  | _ => true

def areSupported : List ReducerPropInput → Bool
  | [] => true
  | item :: rest => isSupported item && areSupported rest

def entriesAreSupported : List (JsString × ReducerPropInput) → Bool
  | [] => true
  | (_, entry) :: rest => isSupported entry && entriesAreSupported rest

end

def Op.Supported : Op ReducerPropInput → Prop
  | .nodePropSet _ _ value => isSupported value = true
  | .edgePropSet _ _ _ _ value => isSupported value = true
  | _ => True

/-! ### Steps -/

variable (entry : PatchEntry V)

theorem create_ok_iff :
    (∃ eventId, EventId.create entry.patch.lamport entry.patch.writer entry.sha i = .ok eventId) ↔
      entry.Stamped := by
  unfold EventId.create PatchEntry.Stamped
  by_cases positive : entry.patch.lamport ≤ 0
  · rw [dif_pos positive]
    exact ⟨fun ⟨_, impossible⟩ => (nomatch impossible), fun stamped => absurd stamped.1 (not_lt.mpr positive)⟩
  rw [dif_neg positive]
  by_cases named : entry.patch.writer = []
  · rw [dif_pos named]
    exact ⟨fun ⟨_, impossible⟩ => (nomatch impossible), fun stamped => absurd named stamped.2.1⟩
  rw [dif_neg named]
  by_cases hex : isHexOid entry.sha = true
  · rw [dif_pos hex]
    exact ⟨fun _ => ⟨not_le.mp positive, named, hex⟩, fun _ => ⟨_, rfl⟩⟩
  · rw [dif_neg hex]
    exact ⟨fun ⟨_, impossible⟩ => (nomatch impossible), fun stamped => absurd stamped.2.2 hex⟩

mutual

theorem normalizePropValue_ok_iff (value : ReducerPropInput) :
    (∃ normalized, normalizePropValue value = .ok normalized) ↔ isSupported value = true := by
  cases value with
  | array items =>
    rw [isSupported, ← normalizePropItems_ok_iff items, normalizePropValue]
    constructor
    · rintro ⟨normalized, ok⟩
      obtain ⟨inner, each, -⟩ := bind_eq_ok.mp ok
      exact ⟨inner, each⟩
    · rintro ⟨inner, each⟩
      exact ⟨_, by rw [each]; rfl⟩
  | object entries =>
    rw [isSupported, ← normalizePropEntries_ok_iff entries, normalizePropValue]
    constructor
    · rintro ⟨normalized, ok⟩
      obtain ⟨inner, each, -⟩ := bind_eq_ok.mp ok
      exact ⟨inner, each⟩
    · rintro ⟨inner, each⟩
      exact ⟨_, by rw [each]; rfl⟩
  | unsupported type | null | boolean value | number value | string text | bytes payload =>
    simp [normalizePropValue, isSupported]

theorem normalizePropItems_ok_iff (items : List ReducerPropInput) :
    (∃ normalized, normalizePropItems items = .ok normalized) ↔ areSupported items = true := by
  cases items with
  | nil => simp [normalizePropItems, areSupported]
  | cons item rest =>
    rw [areSupported, Bool.and_eq_true, ← normalizePropValue_ok_iff item,
      ← normalizePropItems_ok_iff rest, normalizePropItems]
    constructor
    · rintro ⟨normalized, ok⟩
      obtain ⟨first, here, ok⟩ := bind_eq_ok.mp ok
      obtain ⟨later_, there, -⟩ := bind_eq_ok.mp ok
      exact ⟨⟨first, here⟩, ⟨later_, there⟩⟩
    · rintro ⟨⟨first, here⟩, ⟨later_, there⟩⟩
      exact ⟨_, by rw [here, ok_bind, there]; rfl⟩

theorem normalizePropEntries_ok_iff (entries : List (JsString × ReducerPropInput)) :
    (∃ normalized, normalizePropEntries entries = .ok normalized) ↔
      entriesAreSupported entries = true := by
  cases entries with
  | nil => simp [normalizePropEntries, entriesAreSupported]
  | cons head rest =>
    obtain ⟨key, entry⟩ := head
    rw [entriesAreSupported, Bool.and_eq_true, ← normalizePropValue_ok_iff entry,
      ← normalizePropEntries_ok_iff rest, normalizePropEntries]
    constructor
    · rintro ⟨normalized, ok⟩
      obtain ⟨first, here, ok⟩ := bind_eq_ok.mp ok
      obtain ⟨later_, there, -⟩ := bind_eq_ok.mp ok
      exact ⟨⟨first, here⟩, ⟨later_, there⟩⟩
    · rintro ⟨⟨first, here⟩, ⟨later_, there⟩⟩
      exact ⟨_, by rw [here, ok_bind, there]; rfl⟩

end

/-! ### The reducer in memory -/

theorem canonicalOps_cons {canonOp : Option (CanonicalOp V)}
    (normalized : normalizeRawOp rawOp = .ok canonOp) :
    canonicalOps (rawOp :: rest) = (canonOp.map CanonicalOp.op).toList ++ canonicalOps rest := by
  rw [canonicalOps, filterMap_cons, normalized]
  cases canonOp <;> rfl

theorem applyOps_ok_iff {ops} (i) (s) :
    (∃ s', applyOps entry i ops s = .ok s') ↔ (∀ rawOp ∈ ops, assertKnownReducerOp rawOp = .ok ()) ∧
      (∀ rawOp ∈ ops, ∃ canonOp, normalizeRawOp rawOp = .ok canonOp) ∧
      (canonicalOps ops ≠ [] → entry.Stamped) := by
  induction ops generalizing i s with
  | nil => simp [applyOps, canonicalOps]
  | cons rawOp rest ih =>
    rw [applyOps, forall_mem_cons, forall_mem_cons]
    cases known : assertKnownReducerOp rawOp with
    | error e => simp [bind, Except.bind]
    | ok unit_ =>
      simp only [ok_bind, true_and]
      cases normalized : normalizeRawOp rawOp with
      | error e => simp [bind, Except.bind]
      | ok canonOp =>
        rw [canonicalOps_cons normalized]
        cases canonOp with
        | none =>
          simp only [ok_bind, map_none, toList_none, nil_append, ih]
          simp
        | some canonOp =>
          simp only [ok_bind, map_some, toList_some, cons_append,
            nil_append, ne_eq, reduceCtorEq, not_false_eq_true, forall_const]
          rw [← create_ok_iff entry]
          constructor
          · rintro ⟨s', ok⟩
            obtain ⟨eventId, stamped, ok⟩ := bind_eq_ok.mp ok
            obtain ⟨knownRest, others, -⟩ := (ih (i + 1) _).mp ⟨s', ok⟩
            exact ⟨knownRest, ⟨⟨_, rfl⟩, others⟩, ⟨eventId, stamped⟩⟩
          · rintro ⟨knownRest, ⟨-, others⟩, ⟨eventId, stamped⟩⟩
            rw [stamped, ok_bind]
            exact (ih (i + 1) _).mpr
              ⟨knownRest, others, fun _ => (create_ok_iff entry).mp ⟨eventId, stamped⟩⟩

theorem advance_ok_iff {vv : VersionVector} (writer lamport) :
    ((vv.counter writer : Int) < lamport → ∃ advanced, vv.set writer lamport.toNat = .ok advanced) ↔
      (writer = [] → lamport ≤ 0) := by
  unfold VersionVector.set
  by_cases named : writer = []
  · have unknown : vv.counter writer = 0 := by
      rw [VersionVector.counter, VersionVector.get]
      cases found : vv.entries.get writer with
      | none => rfl
      | some counter => exact absurd named (vv.valid writer counter found).1
    rw [dif_pos named, unknown]
    simp [named]
  · rw [dif_neg named]
    simp [named]

theorem foldPatch_ok_iff {s : WarpState V} :
    (∃ s', s.foldPatch patch = .ok s') ↔
      (∃ vv, patch.context.toVersionVector = .ok vv) ∧ (patch.writer = [] → patch.lamport ≤ 0) := by
  unfold WarpState.foldPatch
  cases patch.context.toVersionVector with
  | error e => simp [bind, Except.bind]
  | ok contextVV =>
    simp only [ok_bind, Except.ok.injEq, exists_eq', true_and]
    rw [← advance_ok_iff]
    split
    next newer =>
      constructor
      · rintro ⟨s', ok⟩ -
        obtain ⟨advanced, set, -⟩ := bind_eq_ok.mp ok
        exact ⟨advanced, set⟩
      · intro each
        obtain ⟨advanced, set⟩ := each newer
        exact ⟨_, by rw [set]; rfl⟩
    next older => exact ⟨fun _ newer => absurd newer older, fun _ => ⟨_, rfl⟩⟩

theorem applyFast_ok_iff (s) (entry : PatchEntry V) :
    (∃ s', applyFast s entry = .ok s') ↔ entry.Decodes ∧ entry.Known := by
  constructor
  · rintro ⟨s', ok⟩
    obtain ⟨mutated, applied, folded⟩ := bind_eq_ok.mp ok
    obtain ⟨known, normalized, stamped⟩ := (applyOps_ok_iff entry 0 s).mp ⟨mutated, applied⟩
    obtain ⟨context, advances⟩ := foldPatch_ok_iff.mp ⟨s', folded⟩
    exact ⟨⟨normalized, stamped, context, advances⟩, known⟩
  · rintro ⟨⟨normalized, stamped, context, advances⟩, known⟩
    obtain ⟨mutated, applied⟩ := (applyOps_ok_iff entry 0 s).mpr ⟨known, normalized, stamped⟩
    obtain ⟨s', folded⟩ := foldPatch_ok_iff.mpr ⟨context, advances⟩
    exact ⟨s', by rw [applyFast, applied, ok_bind, folded]⟩

/-! ### The session reducer -/

namespace ReducerSessionFrame

variable {A : Type} (methods : SessionOps A)

theorem setProperty_ok_iff (frame : ReducerSessionFrame A) (storageKey eventId) (value)
    (session : A) :
    (∃ frame', frame.setProperty storageKey eventId value = .ok frame' ∧ frame'.session = session) ↔
      isSupported value = true ∧ frame.session = session := by
  rw [← normalizePropValue_ok_iff, setProperty]
  cases normalizePropValue value with
  | error e => simp [bind, Except.bind]
  | ok normalized =>
    rw [ok_bind]
    cases lwwMax (frame.prop.get storageKey) (some ⟨eventId, normalized⟩) with
    | none | some next =>
      exact ⟨fun ⟨_, ok, same⟩ => ⟨⟨_, rfl⟩, by cases ok; exact same⟩, fun both => ⟨_, rfl, both.2⟩⟩

theorem mutateInSession_ok_iff (frame : ReducerSessionFrame A) {session} :
    (∃ frame', frame.mutateInSession methods op eventId = .ok frame' ∧ frame'.session = session) ↔
      op.Supported ∧ mutateLiveness methods op frame.session = .ok session := by
  -- an operation goes through when its value is supported and the session takes its liveness
  -- part
  have liveness : ∀ (x : Except Failure A) (births : OrdMap JsString EventId),
      (∃ frame', (x >>= fun session => pure { frame with session, edgeBirthEvent := births }) =
        Except.ok frame' ∧ frame'.session = session) ↔ True ∧ x = .ok session := by
    intro x births
    cases x with
    | error e => simp [bind, Except.bind]
    | ok a =>
      constructor
      · rintro ⟨_, ok, same⟩
        cases ok
        exact ⟨trivial, congrArg Except.ok same⟩
      · rintro ⟨-, same⟩
        exact ⟨_, rfl, Except.ok.inj same⟩
  cases op with
  | nodeAdd node dot | nodeRemove node observedDots | edgeRemove src dst label observedDots =>
    exact liveness _ frame.edgeBirthEvent
  | edgeAdd src dst label dot => exact liveness _ _
  | nodePropSet node key value | edgePropSet src dst label key value =>
    rw [mutateInSession, setProperty_ok_iff]
    simp [Op.Supported, mutateLiveness]
  | blobValue node oid =>
    simp [mutateInSession, Op.Supported, mutateLiveness]

/-- The operations of a patch go through one after another. -/
def livenessRun (ops : List (Op ReducerPropInput)) (session : A) : Except Failure A :=
  ops.foldlM (fun session op => mutateLiveness methods op session) session

theorem applyOpsInSession_ok_iff {entry ops} (i) (frame) :
    (∃ frame', applyOpsInSession methods .fast entry i ops frame = .ok ([], frame')) ↔
      (∀ rawOp ∈ ops, ∃ canonOp, normalizeRawOp rawOp = .ok canonOp) ∧
      (canonicalOps ops ≠ [] → entry.Stamped) ∧ (∀ op ∈ canonicalOps ops, op.Supported) ∧
      ∃ session, livenessRun methods (canonicalOps ops) frame.session = .ok session := by
  induction ops generalizing i frame with
  | nil => simp [applyOpsInSession, canonicalOps, livenessRun, pure, Except.pure]
  | cons rawOp rest ih =>
    rw [applyOpsInSession, forall_mem_cons]
    cases normalized : normalizeRawOp rawOp with
    | error e => simp [bind, Except.bind]
    | ok canonOp =>
      rw [canonicalOps_cons normalized]
      cases canonOp with
      | none =>
        simp only [ok_bind, map_none, toList_none, nil_append, ih]
        simp
      | some canonOp =>
        simp only [ok_bind, map_some, toList_some, cons_append, nil_append,
          ne_eq, reduceCtorEq, not_false_eq_true, forall_const, forall_mem_cons]
        rw [← create_ok_iff entry]
        constructor
        · rintro ⟨frame', ok⟩
          obtain ⟨eventId, stamped, ok⟩ := bind_eq_ok.mp ok
          rw [receiptOps, ok_bind] at ok
          obtain ⟨mutated, changed, ok⟩ := bind_eq_ok.mp ok
          obtain ⟨⟨outcomes, applied⟩, later_, ok⟩ := bind_eq_ok.mp ok
          obtain ⟨supported, step⟩ := (mutateInSession_ok_iff methods frame).mp ⟨mutated, changed, rfl⟩
          -- no outcome is collected on the way
          have nothing : outcomes = [] := (Prod.ext_iff.mp (Except.ok.inj ok)).1
          subst nothing
          obtain ⟨others, -, values, session, ran⟩ := (ih (i + 1) mutated).mp ⟨applied, later_⟩
          refine ⟨⟨⟨_, rfl⟩, others⟩, ⟨eventId, stamped⟩, ⟨supported, values⟩, session, ?_⟩
          rw [livenessRun, foldlM_cons, step, ok_bind]
          exact ran
        · rintro ⟨⟨-, others⟩, ⟨eventId, stamped⟩, ⟨supported, values⟩, session, ran⟩
          obtain ⟨middle, step, ran⟩ := bind_eq_ok.mp ran
          obtain ⟨mutated, changed, same⟩ := (mutateInSession_ok_iff methods frame).mpr ⟨supported, step⟩
          obtain ⟨applied, later_⟩ := (ih (i + 1) mutated).mpr ⟨others,
            fun _ => (create_ok_iff entry).mp ⟨eventId, stamped⟩, values, session, same ▸ ran⟩
          refine ⟨applied, ?_⟩
          rw [stamped, ok_bind, receiptOps, ok_bind]
          rw [changed, ok_bind, later_]
          rfl

theorem setCounters_ok (entries : List (JsString × Nat)) (named : ∀ entry ∈ entries, entry.1 ≠ [])
    (vv) : ∃ merged, setCounters entries vv = .ok merged := by
  induction entries generalizing vv with
  | nil => exact ⟨vv, rfl⟩
  | cons entry rest ih =>
    rw [forall_mem_cons] at named
    obtain ⟨merged, ok⟩ := ih named.2 (vv.put entry.1 named.1 entry.2)
    refine ⟨merged, ?_⟩
    rw [setCounters, VersionVector.set, dif_neg named.1, ok_bind]
    exact ok

theorem foldPatchIntoFrame_ok_iff (frame : ReducerSessionFrame A) :
    (∃ frame', frame.foldPatchIntoFrame patch = .ok frame') ↔
      (∃ vv, patch.context.toVersionVector = .ok vv) ∧ (patch.writer = [] → patch.lamport ≤ 0) := by
  unfold foldPatchIntoFrame
  cases patch.context.toVersionVector with
  | error e => simp [bind, Except.bind]
  | ok contextVV =>
    obtain ⟨merged, counted⟩ := setCounters_ok _
      (frame.observedFrontier.merge contextVV).named_of_mem frame.observedFrontier
    simp only [ok_bind, counted, Except.ok.injEq, exists_eq', true_and]
    rw [← advance_ok_iff]
    split
    next newer =>
      constructor
      · rintro ⟨frame', ok⟩ -
        obtain ⟨advanced, set, -⟩ := bind_eq_ok.mp ok
        exact ⟨advanced, set⟩
      · intro each
        obtain ⟨advanced, set⟩ := each newer
        exact ⟨_, by rw [set]; rfl⟩
    next older => exact ⟨fun _ newer => absurd newer older, fun _ => ⟨_, rfl⟩⟩

theorem createTickReceipt_ok_iff :
    (∃ receipt, createTickReceipt entry.sha entry.patch.writer entry.patch.lamport [] = .ok receipt) ↔
      entry.Receiptable := by
  unfold createTickReceipt PatchEntry.Receiptable
  by_cases unsigned : entry.sha = []
  · simp [unsigned, bind, Except.bind]
  by_cases unnamed : entry.patch.writer = []
  · simp [unsigned, unnamed, bind, Except.bind]
  by_cases negative : entry.patch.lamport < 0
  · simp [unsigned, unnamed, negative, bind, Except.bind]
  · simp [unsigned, unnamed, negative, not_lt.mp negative, assertOpsArray, bind, Except.bind, pure,
      Except.pure]

theorem outcomes_nil {entry} (ops) (i) (frame frame' outcomes)
    (ok : applyOpsInSession methods .fast entry i ops frame = .ok (outcomes, frame')) :
    outcomes = [] := by
  induction ops generalizing i frame outcomes frame' with
  | nil =>
    cases ok
    rfl
  | cons rawOp rest ih =>
    obtain ⟨canonOp, -, ok⟩ := bind_eq_ok.mp ok
    cases canonOp with
    | none => exact ih (i + 1) frame frame' outcomes ok
    | some canonOp =>
      obtain ⟨eventId, -, ok⟩ := bind_eq_ok.mp ok
      rw [receiptOps, ok_bind] at ok
      obtain ⟨mutated, -, ok⟩ := bind_eq_ok.mp ok
      obtain ⟨⟨later_, applied⟩, rest_, ok⟩ := bind_eq_ok.mp ok
      have nothing := ih (i + 1) mutated applied later_ rest_
      subst nothing
      exact (Prod.ext_iff.mp (Except.ok.inj ok)).1.symm

theorem applyFastInSession_ok_iff (frame : ReducerSessionFrame A) (entry) :
    (∃ frame', frame.applyFastInSession methods entry = .ok frame') ↔
      entry.Decodes ∧ (∀ op ∈ canonicalOps entry.patch.ops, op.Supported) ∧ entry.Receiptable ∧
      ∃ session, livenessRun methods (canonicalOps entry.patch.ops) frame.session = .ok session := by
  constructor
  · rintro ⟨frame', ok⟩
    obtain ⟨⟨receipt, applied⟩, ok, -⟩ := bind_eq_ok.mp ok
    obtain ⟨⟨outcomes, mutated⟩, ran, ok⟩ := bind_eq_ok.mp ok
    obtain ⟨folded, fold, ok⟩ := bind_eq_ok.mp ok
    obtain ⟨made, receipted, -⟩ := bind_eq_ok.mp ok
    have nothing := outcomes_nil methods _ 0 frame mutated outcomes ran
    subst nothing
    obtain ⟨normalized, stamped, supported, taken⟩ :=
      (applyOpsInSession_ok_iff methods 0 frame).mp ⟨mutated, ran⟩
    obtain ⟨context, advances⟩ := (foldPatchIntoFrame_ok_iff mutated).mp ⟨folded, fold⟩
    exact ⟨⟨normalized, stamped, context, advances⟩, supported,
      (createTickReceipt_ok_iff entry).mp ⟨made, receipted⟩, taken⟩
  · rintro ⟨⟨normalized, stamped, context, advances⟩, supported, receiptable, taken⟩
    obtain ⟨mutated, ran⟩ := (applyOpsInSession_ok_iff methods 0 frame).mpr
      ⟨normalized, stamped, supported, taken⟩
    obtain ⟨folded, fold⟩ := (foldPatchIntoFrame_ok_iff mutated).mpr ⟨context, advances⟩
    obtain ⟨made, receipted⟩ := (createTickReceipt_ok_iff entry).mpr receiptable
    refine ⟨folded, ?_⟩
    rw [applyFastInSession, applyPatchInSession, ran, ok_bind]
    dsimp only
    rw [fold, ok_bind, receipted]
    rfl

end ReducerSessionFrame

open ReducerSessionFrame

theorem applyLivenessInSession_ok_iff (methods ops) (session : A) :
    (∃ session', applyLivenessInSession methods ops session = .ok session') ↔
      (∀ rawOp ∈ ops, ∃ canonOp, normalizeRawOp rawOp = .ok canonOp) ∧
      ∃ session', livenessRun methods (canonicalOps ops) session = .ok session' := by
  induction ops generalizing session with
  | nil => simp [applyLivenessInSession, canonicalOps, livenessRun, pure, Except.pure]
  | cons rawOp rest ih =>
    rw [applyLivenessInSession, forall_mem_cons]
    cases normalized : normalizeRawOp rawOp with
    | error e => simp [bind, Except.bind]
    | ok canonOp =>
      rw [canonicalOps_cons normalized]
      cases canonOp with
      | none =>
        simp only [ok_bind, map_none, toList_none, nil_append, ih]
        simp
      | some canonOp =>
        simp only [ok_bind, map_some, toList_some, cons_append, nil_append,
          livenessRun, foldlM_cons]
        cases mutateLiveness methods canonOp.op session with
        | error e => simp [bind, Except.bind]
        | ok middle =>
          simp only [ok_bind, ih, livenessRun]
          simp

/-! ### What the tries admit -/

theorem mutateLiveness_related (refines : spec.Refines impl R) (op) {a : A} {b : B}
    (related : R a b) :
    Agree (fun _ _ => True) R (mutateLiveness spec op a) (mutateLiveness impl op b) := by
  cases op with
  | nodeAdd node dot | edgeAdd src dst label dot => exact refines.add _ _ _ _ _ related
  | nodeRemove node observedDots | edgeRemove src dst label observedDots =>
    exact refines.remove _ _ _ _ _ related
  | nodePropSet node key value | edgePropSet src dst label key value | blobValue node oid =>
    exact related

variable (workspace : Bool)

namespace SessionTrees

variable {S : Type} (env : TrieEnv S)

/-- Both trees hold their entries in place. -/
def Placed (trees : SessionTrees) : Prop :=
  ∀ which, (trees which).Placed env.geometry env.blake3 0 fun _ => True

/-- An added node or edge is admitted by its trie. -/
def Admits (trees : SessionTrees) : Op ReducerPropInput → Prop
  | .nodeAdd node _ => (trees .nodes).Admits env.geometry env.blake3 node 0
  | .edgeAdd src dst label _ =>
    (trees .edges).Admits env.geometry env.blake3 (encodeEdgeKey src dst label) 0
  | _ => True

/-- Every operation is admitted by the trees that it meets. -/
def AdmitsAll (workspace : Bool) : SessionTrees → List (Op ReducerPropInput) → Prop
  | _, [] => True
  | trees, op :: rest => trees.Admits env op ∧ ∀ trees',
    mutateLiveness (SessionTrees.ops env workspace) op trees = .ok trees' →
      AdmitsAll workspace trees' rest

variable {env}

theorem act_placed (placed : trees.Placed env) (action) (permits : (trees which).Permits env action) :
    ∃ trees', act env which action trees = .ok trees' ∧ trees'.Placed env := by
  obtain ⟨t', called, says'⟩ := Trie.perform_says (trees which)
    (fun x => (trees which).marksAt env.geometry env.blake3 0 x) ⟨placed which, fun _ => rfl⟩
    permits
  refine ⟨trees.setTree which t', by rw [act, called]; rfl, fun other => ?_⟩
  rw [setTree, Function.update_apply]
  split
  · exact says'.placed
  · exact placed other

theorem permits_of_act (placed : trees.Placed env) (keeps : ∀ vv, action ≠ .compact vv)
    (called : act env which action trees = .ok trees') : (trees which).Permits env action := by
  obtain ⟨t', performed, -⟩ := bind_eq_ok.mp called
  exact Trie.permits_of_perform (trees which) (placed which) keeps performed

theorem edgeKey_named : encodeEdgeKey src dst label ≠ [] := by
  simp [encodeEdgeKey]

theorem mutateLiveness_ok_iff (placed : trees.Placed env) (canonOp : CanonicalOp ReducerPropInput) :
    (∃ trees', mutateLiveness (SessionTrees.ops env workspace) canonOp.op trees = .ok trees') ↔
      trees.Admits env canonOp.op := by
  -- the liveness part of an operation goes through exactly when it is admitted
  obtain ⟨op, checked⟩ := canonOp
  have node_named : ∀ (opName : String) (node : JsString) (rest : Unit → Except Failure Unit),
      (assertNonEmptyString opName (lit "node") node >>= rest) = .ok () → node ≠ [] := by
    intro opName node rest ok
    exact assertNonEmptyString_ok.mp (check_then_eq_ok.mp ok).1
  cases op with
  | nodeAdd node dot =>
    have named := node_named _ node _ checked
    constructor
    · rintro ⟨trees', ok⟩
      exact (permits_of_act placed (by simp) ok).2
    · intro admits
      obtain ⟨trees', ok, -⟩ := act_placed placed (.add node dot) ⟨named, admits⟩
      exact ⟨trees', ok⟩
  | edgeAdd src dst label dot =>
    constructor
    · rintro ⟨trees', ok⟩
      exact (permits_of_act placed (by simp) ok).2
    · intro admits
      obtain ⟨trees', ok, -⟩ := act_placed placed (.add (encodeEdgeKey src dst label) dot)
        ⟨edgeKey_named, admits⟩
      exact ⟨trees', ok⟩
  | nodeRemove node observedDots =>
    have named := node_named _ node _ checked
    obtain ⟨trees', ok, -⟩ := act_placed placed
      (.removeElement node (OrdSet.ofList observedDots)) named
    exact ⟨fun _ => trivial, fun _ => ⟨trees', ok⟩⟩
  | edgeRemove src dst label observedDots =>
    obtain ⟨trees', ok, -⟩ := act_placed placed
      (.removeElement (encodeEdgeKey src dst label) (OrdSet.ofList observedDots))
      (edgeKey_named)
    exact ⟨fun _ => trivial, fun _ => ⟨trees', ok⟩⟩
  | nodePropSet node key value | edgePropSet src dst label key value | blobValue node oid =>
    exact ⟨fun _ => trivial, fun _ => ⟨trees, rfl⟩⟩

theorem mutateLiveness_placed (placed : trees.Placed env)
    (ok : mutateLiveness (SessionTrees.ops env workspace) op trees = .ok trees') :
    trees'.Placed env := by
  have acted : ∀ which action, (∀ vv, action ≠ .compact vv) →
      act env which action trees = .ok trees' → trees'.Placed env := by
    intro which action keeps called
    obtain ⟨next, again, placed'⟩ := act_placed placed action
      (permits_of_act placed keeps called)
    cases Except.ok.inj (called.symm.trans again)
    exact placed'
  cases op with
  | nodeAdd node dot => exact acted .nodes (.add node dot) (by simp) ok
  | nodeRemove node observedDots => exact acted .nodes (.removeElement node _) (by simp) ok
  | edgeAdd src dst label dot => exact acted .edges (.add _ dot) (by simp) ok
  | edgeRemove src dst label observedDots => exact acted .edges (.removeElement _ _) (by simp) ok
  | nodePropSet node key value | edgePropSet src dst label key value | blobValue node oid =>
    exact Except.ok.inj ok ▸ placed

theorem livenessRun_ok_iff (ops) (checked : ∀ op ∈ ops, op.check = .ok ()) (trees)
    (placed : trees.Placed env) :
    (∃ trees', livenessRun (SessionTrees.ops env workspace) ops trees = .ok trees') ↔
      trees.AdmitsAll env workspace ops := by
  induction ops generalizing trees with
  | nil => exact ⟨fun _ => trivial, fun _ => ⟨trees, rfl⟩⟩
  | cons op rest ih =>
    rw [forall_mem_cons] at checked
    rw [AdmitsAll, ← mutateLiveness_ok_iff workspace placed ⟨op, checked.1⟩]
    constructor
    · rintro ⟨trees', ran⟩
      obtain ⟨middle, step, ran⟩ := bind_eq_ok.mp ran
      refine ⟨⟨middle, step⟩, fun next again => ?_⟩
      cases Except.ok.inj (step.symm.trans again)
      exact (ih checked.2 middle (mutateLiveness_placed workspace placed step)).mp ⟨trees', ran⟩
    · rintro ⟨⟨middle, step⟩, later_⟩
      obtain ⟨trees', ran⟩ := (ih checked.2 middle
        (mutateLiveness_placed workspace placed step)).mpr (later_ middle step)
      refine ⟨trees', ?_⟩
      rw [livenessRun, foldlM_cons, step, ok_bind]
      exact ran

end SessionTrees

theorem canonicalOps_checked {ops : List (PatchOp V)} :
    ∀ op ∈ canonicalOps ops, op.check = .ok () := by
  intro op mem
  obtain ⟨rawOp, -, found⟩ := mem_filterMap.mp mem
  split at found
  next canonOp normalized =>
    cases found
    exact canonOp.checked
  · cases found

theorem ok_iff_of_agree {x : Except Failure A} {y : Except Failure B}
    (both : Agree (fun _ _ => True) R x y) : (∃ a, x = .ok a) ↔ ∃ b, y = .ok b := by
  constructor
  · rintro ⟨a, ok⟩
    obtain ⟨b, ok', -⟩ := both.ok_right ok
    exact ⟨b, ok'⟩
  · rintro ⟨b, ok⟩
    obtain ⟨a, ok', -⟩ := both.ok_left ok
    exact ⟨a, ok'⟩

theorem session_takes_iff {env : TrieEnv S} (lawful : env.Lawful) {st trees}
    (holds : st.Holds trees) (placed : trees.Placed env) (ops) :
    (∃ st', livenessRun (StateSession.ops env) (canonicalOps ops) st = .ok st') ↔
      trees.AdmitsAll env st.workspace (canonicalOps ops) := by
  rw [← SessionTrees.livenessRun_ok_iff st.workspace _ canonicalOps_checked trees placed]
  have both : Agree (fun _ _ => True) (StateSession.Shown st.workspace)
      (livenessRun (SessionTrees.ops env st.workspace) (canonicalOps ops) trees)
      (livenessRun (StateSession.ops env) (canonicalOps ops) st) :=
    Agree.foldlM (R := fun _ trees st' => StateSession.Shown st.workspace trees st') _
      (fun _ op _ _ _ _ shown =>
        mutateLiveness_related (StateSession.ops_refines lawful st.workspace) op shown)
      ⟨holds, rfl⟩
  exact (ok_iff_of_agree both).symm

/-! ### Agreement -/

/-- The session reducer and the one in memory accept the same patch exactly when a patch
that both can decode has no operation of unknown type if and only if its values are
supported, its receipt can be made and its additions are admitted. The reducer of the
liveness part looks at the operations and the tries alone. -/
theorem reducers_accept_same_iff {S : Type} (env : TrieEnv S) (lawful : env.Lawful)
    (frame : ReducerSessionFrame (StateSession env)) (trees : SessionTrees)
    (holds : frame.session.Holds trees) (placed : trees.Placed env) (s : WarpState ReducerPropInput)
    (entry : PatchEntry ReducerPropInput) :
    (((∃ frame', frame.applyFastInSession (StateSession.ops env) entry = .ok frame') ↔
        ∃ s', applyFast s entry = .ok s') ↔
      (entry.Decodes → (entry.Known ↔
        (∀ op ∈ canonicalOps entry.patch.ops, op.Supported) ∧ entry.Receiptable ∧
          trees.AdmitsAll env frame.session.workspace (canonicalOps entry.patch.ops)))) ∧
    (((∃ session, applyLivenessInSession (StateSession.ops env) entry.patch.ops frame.session =
          .ok session) ↔ ∃ s', applyFast s entry = .ok s') ↔
      ((∀ rawOp ∈ entry.patch.ops, ∃ canonOp, normalizeRawOp rawOp = .ok canonOp) →
        (entry.Decodes ∧ entry.Known ↔
          trees.AdmitsAll env frame.session.workspace (canonicalOps entry.patch.ops)))) := by
  have takes := session_takes_iff lawful holds placed entry.patch.ops
  rw [applyFastInSession_ok_iff, applyLivenessInSession_ok_iff, applyFast_ok_iff, takes]
  constructor
  · tauto
  · have decodes : entry.Decodes → ∀ rawOp ∈ entry.patch.ops, ∃ canonOp,
        normalizeRawOp rawOp = .ok canonOp := PatchEntry.Decodes.normalized
    tauto

/-- A frame over an empty session in memory. -/
def emptyFrame (workspace : Bool) (maxDirtyPages : Nat) :
    ReducerSessionFrame (StateSession (memoryEnv .default16way letterBlake3)) where
  session := StateSession.opened _ ⟨none, none⟩ [] workspace maxDirtyPages
  prop := .empty
  observedFrontier := .empty
  edgeBirthEvent := .empty

def patchOf (ops : List (PatchOp ReducerPropInput)) : PatchEntry ReducerPropInput :=
  ⟨⟨lit "w", 1, ops, .absent⟩, lit "aaaa"⟩

/-- A decoded operation of a type that no reducer knows. -/
def unknownOp : OpLike ReducerPropInput where
  type := lit "NodeRename"
  node := some (lit "a")
  dot := none
  observedDots := none
  src := none
  dst := none
  label := none
  key := none
  value := .unsupported (lit "undefined")
  oid := none

def addNodeA : CanonicalOp ReducerPropInput :=
  ⟨.nodeAdd (lit "a") ⟨lit "w", 1, w_named, Nat.one_pos⟩, by decide⟩

theorem reducers_accept_same_one_node :
    (∃ frame', (emptyFrame true 1).applyFastInSession (StateSession.ops _)
        (patchOf [.runtime addNodeA]) = .ok frame') ↔
      ∃ s', applyFast .empty (patchOf [.runtime addNodeA]) = .ok s' := by
  apply (reducers_accept_same_iff _ memoryEnv_lawful (emptyFrame true 1)
    SessionTrees.empty StateSession.holds_opened_none (fun _ => trivial) .empty
    (patchOf [.runtime addNodeA])).1.mpr
  intro _
  apply iff_of_true
  · simp [PatchEntry.Known, patchOf, assertKnownReducerOp]
  · refine ⟨?_, ⟨by decide, by decide, by decide⟩, trivial, fun _ _ => trivial⟩
    intro op member
    rw [mem_singleton.mp member]
    trivial

/-- An unknown type is rejected in memory and skipped by a session. -/
theorem unknown_type_skipped :
    (applyFast .empty (patchOf [.runtime addNodeA, .decoded unknownOp])).isOk = false ∧
      ((emptyFrame true 1).applyFastInSession (StateSession.ops _)
        (patchOf [.runtime addNodeA, .decoded unknownOp])).isOk = true := by
  constructor
  · decide +kernel
  · decide +kernel

end GitWarp
