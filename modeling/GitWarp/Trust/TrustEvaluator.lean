import GitWarp.Lib.SortBy
import GitWarp.Trust.TrustStateBuilder

/-!
# The trust evaluator

Writers are judged against a built trust state. Any error in the evidence fails
all of them; otherwise a writer is trusted when it has a binding to a key that
is active.
-/
namespace GitWarp.Trust

open Js Lib List

/-! ### Assessments -/

inductive TrustStatus
  | configured | pinned | error | notConfigured
  deriving DecidableEq

inductive TrustSource
  | ref | cliPin | envPin | none
  deriving DecidableEq

inductive TrustVerdict
  | pass | fail | notConfigured
  deriving DecidableEq

structure TrustExplanation where
  writerId : JsString
  trusted : Bool
  reasonCode : JsString
  reason : JsString
  deriving DecidableEq

structure EvidenceSummary where
  recordsScanned : Nat
  activeKeys : Nat
  revokedKeys : Nat
  activeBindings : Nat
  revokedBindings : Nat
  deriving DecidableEq

structure TrustDetail where
  status : TrustStatus
  source : TrustSource
  sourceDetail : Option JsString
  evaluatedWriters : List JsString
  untrustedWriters : List JsString
  explanations : List TrustExplanation
  evidenceSummary : EvidenceSummary

def deriveTrustVerdict (status : TrustStatus) (untrustedWriters : List JsString) : TrustVerdict :=
  match status with
  | .notConfigured => .notConfigured
  | .error => .fail
  | _ => if untrustedWriters.length > 0 then .fail else .pass

structure TrustAssessment where
  trustVerdict : TrustVerdict
  trust : TrustDetail

def TrustAssessment.create (detail : TrustDetail) : TrustAssessment :=
  ⟨deriveTrustVerdict detail.status detail.untrustedWriters, detail⟩

/-- A policy as it comes from the outside. -/
structure TrustPolicy where
  schemaVersion : Nat
  mode : JsString
  writerPolicy : JsString

/-- `TrustPolicySchema`. -/
def TrustPolicy.isValid (policy : TrustPolicy) : Bool :=
  decide (policy.schemaVersion = 1) &&
    decide (policy.mode = lit "warn" ∨ policy.mode = lit "enforce") &&
    decide (policy.writerPolicy = lit "all_writers_must_be_trusted")

/-! ### Evaluation -/

def buildEvidenceSummary (state : TrustState) : EvidenceSummary :=
  ⟨state.recordsProcessed, state.activeKeys.size, state.revokedKeys.size,
    state.writerBindings.size, state.revokedBindings.size⟩

def quoted (writerId : JsString) (rest : String) : JsString :=
  lit "Writer '" ++ writerId ++ lit "' " ++ lit rest

/-- The loop over the bound keys: the first active one makes the writer trusted. -/
def evaluateBoundKeys (writerId : JsString) (state : TrustState) :
    List JsString → Except Failure TrustExplanation
  | [] => pure ⟨writerId, false, lit "WRITER_BOUND_KEY_REVOKED",
      quoted writerId "is bound only to revoked keys"⟩
  | keyId :: rest => do
    if ← state.hasActiveKey keyId then
      pure ⟨writerId, true, lit "WRITER_BOUND_TO_ACTIVE_KEY",
        quoted writerId "is bound to active key " ++ keyId⟩
    else evaluateBoundKeys writerId state rest

def evaluateSingleWriter (writerId : JsString) (state : TrustState) :
    Except Failure TrustExplanation := do
  let bindings ← state.getBindingsForWriter writerId
  if bindings = [] then
    let revoked ← state.hasRevokedBindingsForWriter writerId
    if revoked then
      pure ⟨writerId, false, lit "BINDING_REVOKED",
        quoted writerId "has no active bindings (all revoked)"⟩
    else
      pure ⟨writerId, false, lit "WRITER_HAS_NO_ACTIVE_BINDING",
        quoted writerId "has no active bindings"⟩
  else evaluateBoundKeys writerId state (bindings.map BindingInfo.keyId)

def buildInvalidWriterExplanation (writerId : JsString) : TrustExplanation :=
  ⟨writerId, false, lit "WRITER_HAS_NO_ACTIVE_BINDING",
    lit "Writer id is not valid for trust binding lookup"⟩

def evaluateSingleWriterSafely (writerId : JsString) (state : TrustState) :
    Except Failure TrustExplanation :=
  match evaluateSingleWriter writerId state with
  | .ok explanation => .ok explanation
  | .error err =>
    if err.kind = .trustError then .ok (buildInvalidWriterExplanation writerId) else .error err

def failAll (writers : List JsString) (reasonCode reason : JsString) : List TrustExplanation :=
  if writers = [] then [⟨lit "*", false, reasonCode, reason⟩]
  else writers.map fun writerId => ⟨writerId, false, reasonCode, reason⟩

def evaluateWriters (writerIds : List JsString) (trustState : TrustState) (policy : TrustPolicy) :
    Except Failure TrustAssessment := do
  let sorted := sortBy id writerIds
  if policy.isValid = false then
    pure (.create ⟨.error, .none, none, sorted, sorted, failAll sorted (lit "TRUST_POLICY_INVALID")
        (lit "Policy validation failed: TRUST_POLICY_INVALID"), ⟨0, 0, 0, 0, 0⟩⟩)
  else
    match trustState.errors with
    | firstError :: _ =>
      pure (.create ⟨.error, .ref, none, sorted, sorted,
        failAll sorted (lit "TRUST_RECORD_CHAIN_INVALID")
          (lit "Trust evidence invalid: " ++ firstError.error), buildEvidenceSummary trustState⟩)
    | [] =>
      let explanations ← sorted.mapM fun w => evaluateSingleWriterSafely w trustState
      let untrusted := (explanations.filter fun e => !e.trusted).map TrustExplanation.writerId
      pure (.create ⟨.configured, .ref, none, sorted, untrusted, explanations,
        buildEvidenceSummary trustState⟩)

/-! ### What a trusted writer has -/

variable (writerId : JsString)

theorem assertWriterId_ok {field} :
    assertWriterId writerId field = .ok () ↔ writerId ≠ [] ∧ bindingKeySeparator ∉ writerId := by
  unfold assertWriterId assertNonEmptyString
  by_cases blank : writerId = []
  · simp [blank, bind, Except.bind]
  · by_cases separated : bindingKeySeparator ∈ writerId
    · simp [blank, separated, bind, Except.bind, throw, throwThe, MonadExceptOf.throw]
    · simp [blank, separated, bind, Except.bind, pure, Except.pure]

theorem parseBindingKey_ok {field} (parsed) (ran : parseBindingKey bindingKey field = .ok parsed) :
    bindingKey = bindingText parsed.writerId parsed.keyId ∧
      bindingKeySeparator ∉ parsed.writerId := by
  unfold parseBindingKey at ran
  rw [check_then_eq_ok] at ran
  replace ran := ran.2
  cases found : bindingKey.idxOf? bindingKeySeparator with
  | none => simp [found, throw, throwThe, MonadExceptOf.throw] at ran
  | some i =>
    simp only [found] at ran
    split at ran
    · simp [throw, throwThe, MonadExceptOf.throw] at ran
    rw [check_then_eq_ok, check_then_eq_ok] at ran
    rw [← Except.ok.inj ran.2.2]
    -- the separator stands where the text was cut
    obtain ⟨inside, same, -⟩ := List.idxOf?_eq_some_iff.mp found
    constructor
    · rw [bindingText]
      conv_lhs => rw [← take_append_drop i bindingKey, drop_eq_getElem_cons inside, same]
    · exact ((assertWriterId_ok _).mp ran.1).2

theorem bindingText_inj (absent : bindingKeySeparator ∉ writerId)
    (absent' : bindingKeySeparator ∉ writerId')
    (same : bindingText writerId keyId = bindingText writerId' keyId') :
    writerId = writerId' ∧ keyId = keyId' := by
  have halves := congrArg (split bindingKeySeparator) same
  rw [bindingText, bindingText, split_append_cons _ absent, split_append_cons _ absent'] at halves
  have named := (List.cons.inj halves).1
  subst named
  exact ⟨rfl, (List.cons.inj (append_cancel_left same)).2⟩

variable (state : TrustState)

theorem mem_getBindingsForWriter {writerId bindings}
    (ran : state.getBindingsForWriter writerId = .ok bindings) (mem : binding ∈ bindings) :
    ∃ keyId, bindingKeySeparator ∉ writerId ∧
      state.writerBindings.get (bindingText writerId keyId) = some binding := by
  unfold TrustState.getBindingsForWriter at ran
  rw [check_then_eq_ok, bind_eq_ok] at ran
  obtain ⟨-, parsed, traversed, whole⟩ := ran
  cases whole
  obtain ⟨⟨owner, found⟩, kept, rfl⟩ := mem_map.mp mem
  obtain ⟨listed, same⟩ := mem_filter.mp kept
  have owned : owner = writerId := of_decide_eq_true same
  subst owned
  obtain ⟨entry, held, read⟩ := mem_of_mapM_ok _ traversed _ listed
  obtain ⟨key, split_, paired⟩ := bind_eq_ok.mp read
  cases paired
  -- the entry's key is the text of what it parses to
  obtain ⟨text, absent⟩ := parseBindingKey_ok _ split_
  refine ⟨key.keyId, absent, ?_⟩
  rw [← text]
  exact (OrdMap.mem_entries_iff _ _).mp held

theorem evaluateBoundKeys_trusted (keyIds e) (ran : evaluateBoundKeys writerId state keyIds = .ok e) :
    e.writerId = writerId ∧
      (e.trusted = true → ∃ keyId ∈ keyIds, state.activeKeys.has keyId = true) := by
  induction keyIds with
  | nil =>
    cases ran
    exact ⟨rfl, fun trusted => Bool.noConfusion trusted⟩
  | cons keyId rest ih =>
    obtain ⟨active, asked, ran⟩ := bind_eq_ok.mp ran
    cases active with
    | false =>
      obtain ⟨named, later⟩ := ih ran
      refine ⟨named, fun trusted => ?_⟩
      obtain ⟨k, member, held⟩ := later trusted
      exact ⟨k, mem_cons_of_mem keyId member, held⟩
    | true =>
      cases ran
      refine ⟨rfl, fun _ => ⟨keyId, mem_cons_self, ?_⟩⟩
      rw [TrustState.hasActiveKey, check_then_eq_ok] at asked
      exact Except.ok.inj asked.2

theorem evaluateSingleWriterSafely_trusted (e)
    (ran : evaluateSingleWriterSafely writerId state = .ok e) (trusted : e.trusted = true) :
    ∃ keyId binding, bindingKeySeparator ∉ e.writerId ∧
      state.writerBindings.get (bindingText e.writerId keyId) = some binding ∧
      state.activeKeys.has binding.keyId = true := by
  unfold evaluateSingleWriterSafely at ran
  split at ran
  next found judged =>
    cases ran
    obtain ⟨bindings, looked, judged⟩ := bind_eq_ok.mp judged
    split at judged
    · -- without a binding the answer is no, for one reason or another
      obtain ⟨revoked, -, judged⟩ := bind_eq_ok.mp judged
      split at judged
      · cases judged
        cases trusted
      · cases judged
        cases trusted
    · obtain ⟨named, bound⟩ := evaluateBoundKeys_trusted writerId state _ e judged
      obtain ⟨keyId, member, active⟩ := bound trusted
      obtain ⟨binding, listed, rfl⟩ := mem_map.mp member
      obtain ⟨key, absent, held⟩ := mem_getBindingsForWriter state looked listed
      rw [named]
      exact ⟨key, binding, absent, held, active⟩
  · split at ran
    · cases ran
      cases trusted
    · cases ran

theorem failAll_untrusted : ∀ e ∈ failAll writers reasonCode reason, e.trusted = false := by
  intro e mem
  unfold failAll at mem
  split at mem
  · rw [mem_singleton.mp mem]
  · obtain ⟨w, -, rfl⟩ := mem_map.mp mem
    rfl

theorem evaluateWriters_trusted {writerIds state policy assessment}
    (ran : evaluateWriters writerIds state policy = .ok assessment) (e)
    (mem : e ∈ assessment.trust.explanations) (trusted : e.trusted = true) :
    ∃ keyId binding, bindingKeySeparator ∉ e.writerId ∧
      state.writerBindings.get (bindingText e.writerId keyId) = some binding ∧
      state.activeKeys.has binding.keyId = true := by
  unfold evaluateWriters at ran
  split at ran
  · cases ran
    rw [failAll_untrusted e mem] at trusted
    cases trusted
  · split at ran
    · cases ran
      rw [failAll_untrusted e mem] at trusted
      cases trusted
    · obtain ⟨explanations, traversed, ran⟩ := bind_eq_ok.mp ran
      cases ran
      obtain ⟨w, -, judged⟩ := mem_of_mapM_ok _ traversed e mem
      exact evaluateSingleWriterSafely_trusted w state e judged trusted

end GitWarp.Trust
