import GitWarp.Session.Mirroring

/-!
# Receipts of the session reducer

On a causally ordered sequence the tries mirror the sets, and the outcomes of the two
reducers differ in one place: an addition that is delivered again after its removal is
redundant in memory and applied in a session.
-/
namespace GitWarp

open Js Lib KeyCodec DiffCalculator ReceiptBuilder List

variable {V : Type}

/-! ### Receipts of a sequence -/

/-- `reducePatches` with receipts. -/
def reducePatchesWithReceipts :
    List (PatchEntry V) → WarpState V → Except Failure (WarpState V × List (TickReceipt OpOutcome))
  | [], s => .ok (s, [])
  | entry :: rest, s => do
    let (next, receipt) ← applyWithReceipt s entry
    let (last, receipts) ← reducePatchesWithReceipts rest next
    pure (last, receipt :: receipts)

/-- `reducePatchesInSession` with receipts. -/
def reducePatchesInSessionWithReceipts {A : Type} (methods : SessionOps A) :
    List (PatchEntry ReducerPropInput) → ReducerSessionFrame A →
      Except Failure (ReducerSessionFrame A × List (TickReceipt OpOutcome))
  | [], frame => .ok (frame, [])
  | entry :: rest, frame => do
    let (receipt, next) ← frame.applyWithReceiptInSession methods entry
    let (last, receipts) ← reducePatchesInSessionWithReceipts methods rest next
    pure (last, receipt :: receipts)

/-! ### Causal order -/

/-- What a causally ordered operation meets: a removal observes dots that its element was
given, and an addition brings a dot that was given to no other element. -/
def Op.Causal (s : WarpState V) : Op V → Prop
  | .nodeAdd node dot => ∀ x, dot.encode ∈ s.nodeAlive.dotsOf x → x = node
  | .nodeRemove node observedDots => ∀ d ∈ observedDots, d ∈ s.nodeAlive.dotsOf node
  | .edgeAdd src dst label dot =>
    ∀ x, dot.encode ∈ s.edgeAlive.dotsOf x → x = encodeEdgeKey src dst label
  | .edgeRemove src dst label observedDots =>
    ∀ d ∈ observedDots, d ∈ s.edgeAlive.dotsOf (encodeEdgeKey src dst label)
  | _ => True

/-- The operation does not add a dot again that was removed before. -/
def Op.NotRemoved (s : WarpState V) : Op V → Prop
  | .nodeAdd _ dot => dot.encode ∉ s.nodeAlive.tombstones
  | .edgeAdd _ _ _ dot => dot.encode ∉ s.edgeAlive.tombstones
  | _ => True

/-- A set built in causal order: each dot was given to one element, and only dots that were
given are removed. -/
structure ORSet.Causal (orset : ORSet) : Prop where
  unique : OneElement orset
  known : ∀ d ∈ orset.tombstones, ∃ x, d ∈ orset.dotsOf x

theorem ORSet.causal_empty : ORSet.empty.Causal := by
  constructor
  · simp [OneElement]
  · exact fun d gone => (OrdSet.not_mem_empty d gone).elim

variable {s : WarpState ReducerPropInput} {frame : ReducerSessionFrame SessionTrees} {orset : ORSet}

theorem ORSet.Causal.add (causal : orset.Causal)
    (own : ∀ x, dot.encode ∈ orset.dotsOf x → x = element) : (orset.add element dot).Causal := by
  constructor
  · intro x y d first second
    rw [mem_dotsOf_add] at first second
    rcases first with first | ⟨rfl, rfl⟩
    · rcases second with second | ⟨rfl, rfl⟩
      · exact causal.unique x y d first second
      · exact own x first
    · rcases second with second | ⟨rfl, -⟩
      · exact (own y second).symm
      · rfl
  · intro d gone
    obtain ⟨x, tagged⟩ := causal.known d gone
    exact ⟨x, (mem_dotsOf_add _).mpr (Or.inl tagged)⟩

theorem ORSet.Causal.remove (causal : orset.Causal) (observedDots)
    (given : ∀ d ∈ observedDots, d ∈ orset.dotsOf element) :
    (orset.remove observedDots).Causal := by
  constructor
  · intro x y d first second
    exact causal.unique x y d first second
  · intro d gone
    rcases (mem_tombstones_remove _).mp gone with gone | observed
    · exact causal.known d gone
    · exact ⟨element, given d observed⟩

namespace WarpState

/-- Both sets are built in causal order. -/
structure Causal (s : WarpState V) : Prop where
  nodeAlive : s.nodeAlive.Causal
  edgeAlive : s.edgeAlive.Causal

theorem Causal.mutate {s} (causal : s.Causal) {op : Op V} (ordered : op.Causal s) :
    (op.mutate s eventId).Causal := by
  have written : ∀ key value, (s.mutatePropLWW key eventId value).Causal := by
    intro key value
    obtain ⟨nodes, edges, -, -⟩ := s.mutatePropLWW_frame key eventId value
    exact ⟨nodes ▸ causal.nodeAlive, edges ▸ causal.edgeAlive⟩
  cases op with
  | nodeAdd node dot => exact ⟨causal.nodeAlive.add ordered, causal.edgeAlive⟩
  | nodeRemove node observedDots =>
    constructor
    · apply causal.nodeAlive.remove
      exact fun d observed => ordered d (OrdSet.mem_ofList.mp observed)
    · exact causal.edgeAlive
  | edgeAdd src dst label dot => exact ⟨causal.nodeAlive, causal.edgeAlive.add ordered⟩
  | edgeRemove src dst label observedDots =>
    constructor
    · exact causal.nodeAlive
    · apply causal.edgeAlive.remove
      exact fun d observed => ordered d (OrdSet.mem_ofList.mp observed)
  | nodePropSet node key value | edgePropSet src dst label key value => exact written _ value
  | blobValue node oid => exact causal

theorem Causal.mirrored (causal : s.Causal) {op : Op ReducerPropInput} (ordered : op.Causal s) :
    op.Mirrored s := by
  cases op with
  | nodeAdd node dot =>
    intro gone
    obtain ⟨x, tagged⟩ := causal.nodeAlive.known _ gone
    exact ordered x tagged ▸ tagged
  | nodeRemove node observedDots =>
    intro d observed x alive
    exact causal.nodeAlive.unique x node d ((ORSet.mem_getDots _).mp alive).1
      (ordered d observed)
  | edgeAdd src dst label dot =>
    intro gone
    obtain ⟨x, tagged⟩ := causal.edgeAlive.known _ gone
    exact ordered x tagged ▸ tagged
  | edgeRemove src dst label observedDots =>
    intro d observed x alive
    exact causal.edgeAlive.unique x _ d ((ORSet.mem_getDots _).mp alive).1 (ordered d observed)
  | nodePropSet node key value | edgePropSet src dst label key value | blobValue node oid => trivial

end WarpState

/-! ### One outcome -/

theorem addOutcome_agrees_iff (mirrors : orset.Mirrors contents) (causal : orset.Causal)
    (own : ∀ x, dot.encode ∈ orset.dotsOf x → x = element) :
    (if (liveDots (contents element)).has dot.encode then OpOutcomeResult.redundant element
        else .applied element) = addOutcome orset element dot ↔
      dot.encode ∉ orset.tombstones := by
  have shown := mirrors.live element dot.encode
  rw [ORSet.mem_getDots, ← OrdSet.has_iff] at shown
  unfold addOutcome
  by_cases gone : dot.encode ∈ orset.tombstones
  · -- a dot that was removed was given, to this element
    obtain ⟨x, tagged⟩ := causal.known _ gone
    have known : orset.hasDot element dot.encode = true :=
      (ORSet.hasDot_iff _).mpr (own x tagged ▸ tagged)
    have hidden : (liveDots (contents element)).has dot.encode = false := by
      rw [Bool.eq_false_iff]
      exact fun shows_ => (shown.mp shows_).2 gone
    simp [known, hidden, gone]
  · have same : (liveDots (contents element)).has dot.encode = orset.hasDot element dot.encode := by
      rw [Bool.eq_iff_iff, shown, ORSet.hasDot_iff]
      exact and_iff_left gone
    simp [same, gone]

theorem removeOutcome_agrees (mirrors : orset.Mirrors contents) (causal : orset.Causal)
    (given : ∀ d ∈ observedDots, d ∈ orset.dotsOf element) :
    ReducerSessionFrame.hasEffectiveRemoval (liveDots (contents element)) observedDots =
      ReceiptBuilder.hasEffectiveRemoval orset (OrdSet.ofList observedDots) := by
  rw [Bool.eq_iff_iff, ReducerSessionFrame.hasEffectiveRemoval, ReceiptBuilder.hasEffectiveRemoval]
  simp only [any_eq_true, Bool.and_eq_true, Bool.not_eq_true', OrdSet.mem_toList, OrdSet.mem_ofList]
  apply exists_congr
  intro d
  rw [OrdSet.has_iff, mirrors.live, ORSet.mem_getDots, ← ORSet.isTombstoned_iff, Bool.not_eq_true]
  apply and_congr_right
  intro observed
  have tagged := given d observed
  -- the walk knows every dot that it looks for
  have found : ((buildDotToElement orset (OrdSet.ofList observedDots)).get d).isSome = true := by
    rw [(get_buildDotToElement orset causal.unique _ d element).mpr
      ⟨tagged, OrdSet.mem_ofList.mpr observed⟩]
    rfl
  rw [and_iff_right tagged, and_iff_left found]

theorem propertyOutcome_agrees {prop} (mirrors : RegisterMirrors (s.prop.get key) (prop.get key)) :
    ReducerSessionFrame.propertyOutcome prop key eventId = propOutcomeForKey s key eventId := by
  unfold ReducerSessionFrame.propertyOutcome propOutcomeForKey
  cases register : s.prop.get key with
  | none =>
    cases mirror : prop.get key with
    | none => rfl
    | some mirror =>
      rw [register, mirror] at mirrors
      exact mirrors.elim
  | some register_ =>
    cases mirror : prop.get key with
    | none =>
      rw [register, mirror] at mirrors
      exact mirrors.elim
    | some mirror_ =>
      rw [register, mirror] at mirrors
      simp only [mirrors.1]

theorem toReceiptOutcome_inj (plain : outcome.reason = none) :
    ReducerSessionFrame.toReceiptOutcome receiptName outcome =
        ReducerSessionFrame.toReceiptOutcome receiptName other ↔ outcome = other := by
  constructor
  · intro same
    have target : outcome.target = other.target := congrArg OpOutcome.target same
    have result : outcome.result = other.result := congrArg OpOutcome.result same
    have reason : outcome.reason = other.reason := congrArg OpOutcome.reason same
    cases outcome with
    | superseded t w => cases plain
    | applied t =>
      cases other with
      | applied t' => exact congrArg _ target
      | superseded t' w => cases reason
      | redundant t' => exact absurd result (show lit "applied" ≠ lit "redundant" by decide)
    | redundant t =>
      cases other with
      | applied t' => exact absurd result (show lit "redundant" ≠ lit "applied" by decide)
      | superseded t' w => cases reason
      | redundant t' => exact congrArg _ target
  · exact congrArg _

theorem computeOutcome_agrees_iff {env : TrieEnv S} (mirrors : s.Mirrors env frame)
    (causal : s.Causal) {canonOp : CanonicalOp ReducerPropInput} (ordered : canonOp.op.Causal s)
    (read) (computed : frame.computeOutcome (SessionTrees.ops env workspace) canonOp.op eventId =
      .ok (outcome, read)) :
    ReducerSessionFrame.toReceiptOutcome canonOp.op.receiptName outcome =
        canonOp.op.outcomeEntry s eventId ↔ canonOp.op.NotRemoved s := by
  -- the entries of one operation agree unless it adds a dot that was removed
  obtain ⟨op, checked⟩ := canonOp
  -- both make their entries from an outcome in the same way
  change _ = ReducerSessionFrame.toReceiptOutcome op.receiptName (op.outcome s eventId) ↔ _
  unfold ReducerSessionFrame.computeOutcome at computed
  have dotted : ∀ which element f,
      frame.computeDotOutcome (SessionTrees.ops env workspace) which element f = .ok (outcome, read) →
        outcome = f (liveDots (frame.session.marks env which element)) := by
    intro which element f ok
    obtain ⟨result, found, ok⟩ := bind_eq_ok.mp ok
    cases SessionTrees.dots_ok found
    cases ok
    rfl
  cases op with
  | nodeAdd node dot =>
    rw [dotted _ _ _ computed, toReceiptOutcome_inj (by split <;> rfl)]
    exact addOutcome_agrees_iff mirrors.nodeAlive causal.nodeAlive ordered
  | nodeRemove node observedDots =>
    have named : node ≠ [] := assertNonEmptyString_ok.mp (check_then_eq_ok.mp checked).1
    have same := removeOutcome_agrees mirrors.nodeAlive causal.nodeAlive ordered
    rw [dotted _ _ _ computed]
    apply iff_of_true (congrArg _ _) trivial
    simp only [same, Op.outcome, removeOutcome, orWildcard, named, ne_eq, not_false_iff, decide_true,
      if_true]
  | edgeAdd src dst label dot =>
    rw [dotted _ _ _ computed, toReceiptOutcome_inj (by split <;> rfl)]
    exact addOutcome_agrees_iff mirrors.edgeAlive causal.edgeAlive ordered
  | edgeRemove src dst label observedDots =>
    obtain ⟨srcValid, dstValid, labelValid⟩ :=
      assertEdge_ok.mp (check_then_eq_ok.mp checked).1
    have same := removeOutcome_agrees mirrors.edgeAlive causal.edgeAlive ordered
    rw [dotted _ _ _ computed]
    apply iff_of_true (congrArg _ _) trivial
    simp only [same, Op.outcome, removeOutcome, orWildcard, srcValid.1, dstValid.1, labelValid.1, ne_eq,
      not_false_iff, and_self, decide_true, if_true]
  | nodePropSet node key value | edgePropSet src dst label key value =>
    cases computed
    exact iff_of_true (congrArg _ (propertyOutcome_agrees (mirrors.prop _))) trivial
  | blobValue node oid =>
    have named : oid ≠ [] := assertNonEmptyString_ok.mp
      (check_then_eq_ok.mp (check_then_eq_ok.mp checked).2).1
    cases computed
    apply iff_of_true (congrArg _ _) trivial
    simp only [Op.outcome, orWildcard, named, ne_eq, not_false_iff, decide_true, if_true]

/-! ### Whole patches -/

theorem applyOps_of_withReceipt (ops) (i) (s result)
    (ok : applyOpsWithReceipt entry i ops s = .ok result) :
    applyOps entry i ops s = .ok result.1 := by
  induction ops generalizing i s result with
  | nil =>
    cases ok
    rfl
  | cons rawOp rest ih =>
    obtain ⟨checked, known, ok⟩ := bind_eq_ok.mp ok
    obtain ⟨canonOp, normalized, ok⟩ := bind_eq_ok.mp ok
    rw [applyOps, known, ok_bind, normalized, ok_bind]
    cases canonOp with
    | none => exact ih (i + 1) s result ok
    | some canonOp =>
      obtain ⟨eventId, stamped, ok⟩ := bind_eq_ok.mp ok
      obtain ⟨later_, ran, ok⟩ := bind_eq_ok.mp ok
      cases ok
      dsimp only
      rw [stamped, ok_bind]
      exact ih (i + 1) _ later_ ran

theorem applyFast_of_withReceipt (s result) (ok : applyWithReceipt s entry = .ok result) :
    applyFast s entry = .ok result.1 := by
  obtain ⟨mutated, ran, ok⟩ := bind_eq_ok.mp ok
  obtain ⟨folded, fold, ok⟩ := bind_eq_ok.mp ok
  obtain ⟨receipt, -, ok⟩ := bind_eq_ok.mp ok
  cases ok
  exact bind_eq_ok.mpr ⟨_, applyOps_of_withReceipt _ 0 s mutated ran, fold⟩

theorem createTickReceipt_ok (ok : createTickReceipt patchSha writer lamport ops = .ok receipt) :
    receipt = ⟨patchSha, writer, lamport, ops⟩ := by
  unfold createTickReceipt at ok
  by_cases unsigned : patchSha = []
  · rw [if_pos unsigned] at ok
    cases ok
  by_cases unnamed : writer = []
  · rw [if_neg unsigned, if_pos unnamed] at ok
    cases ok
  by_cases negative : lamport < 0
  · rw [if_neg unsigned, if_neg unnamed, if_pos negative] at ok
    cases ok
  rw [if_neg unsigned, if_neg unnamed, if_neg negative] at ok
  simp only [ok_bind] at ok
  obtain ⟨-, -, made⟩ := bind_eq_ok.mp ok
  exact (Except.ok.inj made).symm

theorem WarpState.Causal.foldPatch {s s' : WarpState V} (causal : s.Causal) {entry : PatchEntry V}
    (folded : s.foldPatch entry.patch = .ok s') : s'.Causal := by
  rw [foldPatch_eq] at folded
  obtain ⟨context, -, folded⟩ := bind_eq_ok.mp folded
  obtain ⟨tick, -, folded⟩ := bind_eq_ok.mp folded
  cases folded
  exact ⟨causal.nodeAlive, causal.edgeAlive⟩

section Agreement

variable {S : Type} {env : TrieEnv S} (workspace : Bool)

theorem outcomes_agree_iff (i) (mirrors : s.Mirrors env frame) (causal : s.Causal)
    (ordered : ∀ met ∈ opStates entry i ops s, met.2.Causal met.1) (memory)
    (ran : applyOpsWithReceipt entry i ops s = .ok memory) (session)
    (ran' : ReducerSessionFrame.applyOpsInSession (SessionTrees.ops env workspace) .receipt entry i ops
      frame = .ok session) :
    (session.1 = memory.2 ↔ ∀ met ∈ opStates entry i ops s, met.2.NotRemoved met.1) ∧
      memory.1.Mirrors env session.2 ∧ memory.1.Causal := by
  -- the entries of the operations of a patch agree exactly when none adds a dot that was
  -- removed, and the frame goes on mirroring the state
  induction ops generalizing i s frame memory session with
  | nil =>
    cases ran
    cases ran'
    exact ⟨by simp [opStates], mirrors, causal⟩
  | cons rawOp rest ih =>
    obtain ⟨known, -, ran⟩ := bind_eq_ok.mp ran
    obtain ⟨canonOp, normalized, ran⟩ := bind_eq_ok.mp ran
    rw [ReducerSessionFrame.applyOpsInSession, normalized, ok_bind] at ran'
    cases canonOp with
    | none =>
      -- neither of them looks at an operation of unknown type
      rw [opStates_none i s normalized] at ordered ⊢
      exact ih (i + 1) mirrors causal ordered memory ran session ran'
    | some canonOp =>
      obtain ⟨eventId, stamped, ran⟩ := bind_eq_ok.mp ran
      obtain ⟨later_, ranRest, done⟩ := bind_eq_ok.mp ran
      cases done
      dsimp only at ran'
      rw [stamped, ok_bind] at ran'
      obtain ⟨⟨first, read⟩, looked, read_⟩ := bind_eq_ok.mp ran'
      cases ReducerSessionFrame.receiptOps_frame looked
      obtain ⟨mutated, changed, mutated_⟩ := bind_eq_ok.mp read_
      obtain ⟨⟨others, last⟩, ranRest', done⟩ := bind_eq_ok.mp mutated_
      cases done
      obtain ⟨⟨outcome, read⟩, computed, made⟩ := bind_eq_ok.mp looked
      cases made
      rw [opStates_some i s normalized stamped] at ordered ⊢
      rw [forall_mem_cons] at ordered ⊢
      have here := computeOutcome_agrees_iff mirrors causal ordered.1
        _ computed
      have mirrored := causal.mirrored ordered.1
      obtain ⟨agree, mirrors', causal'⟩ := ih (i + 1)
        (WarpState.mirrors_mutate mirrors mirrored changed)
        (causal.mutate ordered.1) ordered.2 later_ ranRest _ ranRest'
      refine ⟨?_, mirrors', causal'⟩
      rw [← here, ← agree]
      exact List.cons.injEq _ _ _ _ ▸ Iff.rfl

theorem receipt_agrees_iff (mirrors : s.Mirrors env frame) (causal : s.Causal)
    (ordered : ∀ met ∈ opStates entry 0 entry.patch.ops s, met.2.Causal met.1) (memory)
    (applied : applyWithReceipt s entry = .ok memory) (session)
    (applied' : frame.applyWithReceiptInSession (SessionTrees.ops env workspace) entry =
      .ok session) :
    (session.1 = memory.2 ↔ ∀ met ∈ opStates entry 0 entry.patch.ops s, met.2.NotRemoved met.1) ∧
      memory.1.Mirrors env session.2 ∧ memory.1.Causal := by
  -- the receipts of a patch agree exactly when its entries do
  obtain ⟨mutated, ran, applied⟩ := bind_eq_ok.mp applied
  obtain ⟨folded, fold, applied⟩ := bind_eq_ok.mp applied
  obtain ⟨receipt, made, applied⟩ := bind_eq_ok.mp applied
  obtain ⟨⟨outcomes, changed⟩, ran', applied'⟩ := bind_eq_ok.mp applied'
  obtain ⟨folded', fold', applied'⟩ := bind_eq_ok.mp applied'
  obtain ⟨receipt', made', applied'⟩ := bind_eq_ok.mp applied'
  cases applied
  cases applied'
  cases createTickReceipt_ok made
  cases createTickReceipt_ok made'
  obtain ⟨agree, mirrors', causal'⟩ := outcomes_agree_iff workspace 0 mirrors
    causal ordered mutated ran _ ran'
  refine ⟨?_, WarpState.mirrors_fold mirrors' fold fold', causal'.foldPatch fold⟩
  -- sha, writer and lamport are those of the patch in both
  rw [← agree]
  simp

theorem receipts_agree_iff (mirrors : s.Mirrors env frame) (causal : s.Causal)
    (ordered : AlongPatches (fun s op => op.Causal s) entries s) (memory)
    (inMemory : reducePatchesWithReceipts entries s = .ok memory) (session)
    (inSession : reducePatchesInSessionWithReceipts (SessionTrees.ops env workspace) entries frame =
      .ok session) :
    session.2 = memory.2 ↔ AlongPatches (fun s op => op.NotRemoved s) entries s := by
  -- over trees, the receipts of a sequence agree exactly when no patch adds a dot that was
  -- removed
  induction entries generalizing s frame memory session with
  | nil =>
    cases inMemory
    cases inSession
    exact iff_of_true rfl trivial
  | cons entry rest ih =>
    obtain ⟨⟨next, receipt⟩, applied, inMemory⟩ := bind_eq_ok.mp inMemory
    obtain ⟨⟨last, receipts⟩, ran, inMemory⟩ := bind_eq_ok.mp inMemory
    obtain ⟨⟨receipt', next'⟩, applied', inSession⟩ := bind_eq_ok.mp inSession
    obtain ⟨⟨last', receipts'⟩, ran', inSession⟩ := bind_eq_ok.mp inSession
    cases inMemory
    cases inSession
    have fast := applyFast_of_withReceipt s _ applied
    obtain ⟨agree, mirrors', causal'⟩ := receipt_agrees_iff workspace mirrors causal ordered.1 _
      applied _ applied'
    have others := ih mirrors' causal' (ordered.2 _ fast) _ ran _ ran'
    rw [AlongPatches, ← agree]
    constructor
    · intro same
      cases same
      refine ⟨rfl, fun s' again => ?_⟩
      cases Except.ok.inj (fast.symm.trans again)
      exact others.mp rfl
    · rintro ⟨same, along⟩
      exact congrArg₂ List.cons same (others.mpr (along _ fast))

end Agreement

theorem receipts_related (refines : spec.Refines impl R) (entries) {frame : ReducerSessionFrame A}
    {frame' : ReducerSessionFrame B} (related : ReducerSessionFrame.Related R frame frame') :
    Agree (fun _ _ => True) (fun x y => x.2 = y.2 ∧ ReducerSessionFrame.Related R x.1 y.1)
      (reducePatchesInSessionWithReceipts spec entries frame)
      (reducePatchesInSessionWithReceipts impl entries frame') := by
  induction entries generalizing frame frame' with
  | nil => exact ⟨rfl, related⟩
  | cons entry rest ih =>
    apply (ReducerSessionFrame.applyPatch_related refines related).bind
    rintro ⟨receipt, next⟩ ⟨receipt', next'⟩ - - ⟨same, kept⟩
    apply (ih kept).bind
    rintro ⟨last, receipts⟩ ⟨last', receipts'⟩ - - ⟨others, kept'⟩
    exact ⟨congrArg₂ List.cons same others, kept'⟩

/-! ### Agreement -/

/-- A frame over an empty session. -/
def ReducerSessionFrame.opened {S : Type} (env : TrieEnv S) (s : S) (workspace : Bool)
    (maxDirtyPages : Nat) : ReducerSessionFrame (StateSession env) where
  session := StateSession.opened env ⟨none, none⟩ s workspace maxDirtyPages
  prop := .empty
  observedFrontier := .empty
  edgeBirthEvent := .empty

theorem ReducerSessionFrame.opened_related (s : S) (workspace maxDirtyPages) :
    Related (StateSession.Shown workspace) ⟨SessionTrees.empty, .empty, .empty, .empty⟩
      (opened env s workspace maxDirtyPages) where
  session := ⟨StateSession.holds_opened_none, rfl⟩
  prop := rfl
  observedFrontier := rfl
  edgeBirthEvent := rfl

/-- A causally ordered sequence gives the same receipts in a session as in memory exactly
when no addition is delivered again after its dot was removed. -/
theorem session_receipts_agree_iff {S : Type} (env : TrieEnv S) (lawful : env.Lawful) (store : S)
    (workspace : Bool) (maxDirtyPages : Nat) (entries : List (PatchEntry ReducerPropInput))
    (ordered : AlongPatches (fun s op => op.Causal s) entries .empty)
    (memory : WarpState ReducerPropInput × List (TickReceipt OpOutcome))
    (inMemory : reducePatchesWithReceipts entries .empty = .ok memory)
    (session : ReducerSessionFrame (StateSession env) × List (TickReceipt OpOutcome))
    (inSession : reducePatchesInSessionWithReceipts (StateSession.ops env) entries
      (.opened env store workspace maxDirtyPages) = .ok session) :
    session.2 = memory.2 ↔ AlongPatches (fun s op => op.NotRemoved s) entries .empty := by
  have both := receipts_related (StateSession.ops_refines lawful workspace) entries
    (ReducerSessionFrame.opened_related store workspace maxDirtyPages)
  -- the trees under the session give the same receipts
  obtain ⟨overTrees, ran, same, -⟩ := both.ok_left inSession
  rw [← same]
  exact receipts_agree_iff workspace (WarpState.mirrors_initial)
    ⟨ORSet.causal_empty, ORSet.causal_empty⟩ ordered memory inMemory overTrees ran

/-- A patch that adds a node, and one that removes it. -/
def addition : PatchEntry ReducerPropInput := patchOf [.runtime addNodeA]

def removal : PatchEntry ReducerPropInput :=
  ⟨⟨lit "w", 2, [.runtime ⟨.nodeRemove (lit "a") [lit "w:1"], by decide⟩], .absent⟩, lit "bbbb"⟩

theorem addition_sets (ok : applyFast s addition = .ok s') :
    s'.nodeAlive = s.nodeAlive.add (lit "a") ⟨lit "w", 1, by decide, by decide⟩ := by
  rw [applyFast_eq] at ok
  cases ok
  rfl

theorem removal_sets (ok : applyFast s removal = .ok s') :
    s'.nodeAlive = s.nodeAlive.remove (OrdSet.ofList [lit "w:1"]) := by
  rw [applyFast_eq] at ok
  cases ok
  rfl

theorem addition_causal (own : ∀ x, lit "w:1" ∈ s.nodeAlive.dotsOf x → x = lit "a") :
    ∀ met ∈ opStates addition 0 addition.patch.ops s, met.2.Causal met.1 := by
  intro met mem
  rw [mem_singleton.mp mem]
  exact own

theorem given_empty : lit "w:1" ∉ ORSet.empty.dotsOf x := by
  simp [ORSet.dotsOf, ORSet.empty]

theorem given_once
    (tagged : lit "w:1" ∈ (ORSet.empty.add (lit "a") ⟨lit "w", 1, by decide, by decide⟩).dotsOf x) :
    x = lit "a" := by
  rcases (ORSet.mem_dotsOf_add _).mp tagged with old | ⟨same, -⟩
  · exact absurd old (given_empty)
  · exact same

theorem redelivery_causal :
    AlongPatches (fun s op => op.Causal s) [addition, removal, addition] .empty := by
  refine ⟨addition_causal fun x tagged => absurd tagged given_empty, fun s₁ ok₁ => ⟨?_, ?_⟩⟩
  · intro met mem
    rw [mem_singleton.mp mem]
    change ∀ d ∈ [lit "w:1"], d ∈ s₁.nodeAlive.dotsOf (lit "a")
    rw [addition_sets ok₁]
    decide
  · refine fun s₂ ok₂ => ⟨addition_causal fun x tagged => ?_, fun _ _ => trivial⟩
    rw [removal_sets ok₂, ORSet.dotsOf_remove, addition_sets ok₁] at tagged
    exact given_once tagged

/-- What the receipts say of every operation. -/
def reportedResults (receipts : List (TickReceipt OpOutcome)) : List (List JsString) :=
  receipts.map fun receipt => receipt.ops.map OpOutcome.result

/-- An addition that is delivered twice is redundant the second time for both. -/
theorem session_receipts_agree_delivered_twice :
    ∃ memory, reducePatchesWithReceipts [addition, addition] .empty = .ok memory ∧
      ∃ session, reducePatchesInSessionWithReceipts
          (StateSession.ops (memoryEnv .default16way letterBlake3)) [addition, addition]
          (.opened _ [] false 1) = .ok session ∧
        session.2 = memory.2 := by
  have accepted : (reducePatchesWithReceipts [addition, addition] .empty).isOk = true := by
    decide +kernel
  have accepted' : (reducePatchesInSessionWithReceipts
      (StateSession.ops (memoryEnv .default16way letterBlake3)) [addition, addition]
      (.opened _ [] false 1)).isOk = true := by
    decide +kernel
  obtain ⟨memory, inMemory⟩ := exists_of_isOk accepted
  obtain ⟨session, inSession⟩ := exists_of_isOk accepted'
  refine ⟨memory, inMemory, session, inSession, ?_⟩
  apply (session_receipts_agree_iff _ memoryEnv_lawful [] false 1
    [addition, addition] ?_ memory inMemory session inSession).mpr
  · refine ⟨?_, fun s' ok => ⟨?_, fun _ _ => trivial⟩⟩
    · intro met member
      rw [mem_singleton.mp member]
      exact fun gone => OrdSet.not_mem_empty _ gone
    · intro met member
      rw [mem_singleton.mp member]
      change lit "w:1" ∉ s'.nodeAlive.tombstones
      rw [addition_sets ok]
      exact fun gone => OrdSet.not_mem_empty _ gone
  · refine ⟨addition_causal fun x tagged => absurd tagged given_empty, fun s' ok =>
      ⟨addition_causal fun x tagged => ?_, fun _ _ => trivial⟩⟩
    rw [addition_sets ok] at tagged
    exact given_once tagged

/-- Delivered again after its removal, it is redundant in memory and applied in a session. -/
theorem addition_after_removal_applied :
    AlongPatches (fun s op => op.Causal s) [addition, removal, addition] .empty ∧
      ∃ memory, reducePatchesWithReceipts [addition, removal, addition] .empty = .ok memory ∧
        ∃ session, reducePatchesInSessionWithReceipts
            (StateSession.ops (memoryEnv .default16way letterBlake3)) [addition, removal, addition]
            (.opened _ [] false 1) = .ok session ∧
          session.2 ≠ memory.2 := by
  have reported : ((reducePatchesWithReceipts [addition, removal, addition] .empty).toOption.map
      fun memory => reportedResults memory.2) =
        some [[lit "applied"], [lit "applied"], [lit "redundant"]] := by
    decide +kernel
  have reported' : ((reducePatchesInSessionWithReceipts
      (StateSession.ops (memoryEnv .default16way letterBlake3)) [addition, removal, addition]
      (.opened _ [] false 1)).toOption.map fun session => reportedResults session.2) =
        some [[lit "applied"], [lit "applied"], [lit "applied"]] := by
    decide +kernel
  refine ⟨redelivery_causal, ?_⟩
  cases inMemory : reducePatchesWithReceipts [addition, removal, addition] .empty with
  | error e =>
    rw [inMemory] at reported
    cases reported
  | ok memory =>
    cases inSession : reducePatchesInSessionWithReceipts
        (StateSession.ops (memoryEnv .default16way letterBlake3)) [addition, removal, addition]
        (.opened _ [] false 1) with
    | error e =>
      rw [inSession] at reported'
      cases reported'
    | ok session =>
      rw [inMemory] at reported
      rw [inSession] at reported'
      refine ⟨memory, rfl, session, rfl, fun same => ?_⟩
      have first : reportedResults memory.2 = _ := Option.some.inj reported
      have second : reportedResults session.2 = _ := Option.some.inj reported'
      rw [same, first] at second
      exact absurd second (by decide)

end GitWarp
