import GitWarp.Audit.AuditChainVerifier

/-!
# What the verifier accepts

The verifier accepts a log exactly when the commits from its tip form a chain of
well-formed receipts, down to the genesis commit or to the commit that the caller
asked for. The ticks of a chain fall, so no commit is walked twice and the walk
ends in every log, tampered or not.
-/
namespace GitWarp

open Js Lib List

/-! ### Chains -/

/-- An object id of either length, in any case. -/
def IsOid (text : JsString) : Prop :=
  (toLowerCase text).all isLowerHexUnit = true ∧ (text.length = 40 ∨ text.length = 64)

namespace AuditReceipt

structure WellFormed (receipt : AuditReceipt) : Prop where
  version : receipt.version = 1
  graph : receipt.graphName ≠ []
  writer : receipt.writerId ≠ []
  started : 1 ≤ receipt.tickStart
  single : receipt.tickStart = receipt.tickEnd
  stamped : 0 ≤ receipt.timestamp

/-- The receipt says what the trailers of its commit say. -/
structure Agrees (receipt : AuditReceipt) (trailers : AuditMessage) : Prop where
  schema : trailers.schema = 1
  graph : trailers.graph = receipt.graphName
  writer : trailers.writer = receipt.writerId
  dataCommit : toLowerCase trailers.dataCommit = toLowerCase receipt.dataCommit
  opsDigest : toLowerCase trailers.opsDigest = toLowerCase receipt.opsDigest

/-- The null id, which stands for no previous commit. -/
def First (receipt : AuditReceipt) : Prop :=
  receipt.prevAuditCommit = zeroHash receipt.dataCommit.length

end AuditReceipt

variable {O Bytes : Type} (config : AuditConfig O Bytes) (log : AuditLog Bytes)

/-- The commit holds a receipt of the requested graph and writer. -/
structure Records (sha : JsString) (entry : AuditLogEntry Bytes) (receipt : AuditReceipt) :
    Prop where
  found : log.entries.get sha = some entry
  decoded : config.decode entry.receipt = .ok receipt
  wellFormed : receipt.WellFormed
  agrees : ∃ trailers, decodeAuditMessage entry.message = .ok trailers ∧ receipt.Agrees trailers
  dataCommit : IsOid receipt.dataCommit
  prevAuditCommit : IsOid receipt.prevAuditCommit
  sized : receipt.prevAuditCommit.length = receipt.dataCommit.length
  writer : receipt.writerId = config.writerId
  graph : receipt.graphName = config.graphName

/-- The commits from one down to the genesis commit or to the commit `since`: each names its
only parent, whose ids have the same length and whose ticks are below its own. -/
inductive AuditChain (since : Option JsString) : JsString → AuditReceipt → Prop
  | reached {sha entry receipt} (records : Records config log sha entry receipt)
      (cut : since = some sha) : AuditChain since sha receipt
  | genesis {sha entry receipt} (records : Records config log sha entry receipt)
      (whole : since = none) (first : receipt.First) (root : entry.parents = []) :
      AuditChain since sha receipt
  | link {sha entry receipt older} (records : Records config log sha entry receipt)
      (above : since ≠ some sha) (later : ¬ receipt.First)
      (parent : entry.parents = [receipt.prevAuditCommit])
      (chain : AuditChain since receipt.prevAuditCommit older)
      (sized : older.dataCommit.length = receipt.dataCommit.length)
      (falls : older.tickEnd < receipt.tickStart) : AuditChain since sha receipt

/-! ### What each check decides -/

def ChainResult.Rejected (result : ChainResult) : Prop :=
  result.status ≠ .valid ∧ result.status ≠ .partial_

@[simp] theorem rejected_setStatus (result : ChainResult) (status) :
    (result.setStatus status).Rejected ↔ status ≠ .valid ∧ status ≠ .partial_ := Iff.rfl

@[simp] theorem addError_rejected (result : ChainResult) (code message) (commit) :
    (result.addError code message commit).Rejected := by
  unfold ChainResult.Rejected ChainResult.addError
  split
  · simp
  next other => exact not_or.mp other

/-- A check passes with a good value if `P` holds, and else it rejects the log. -/
def Decides {A : Type} (P : Prop) (check : Except ChainResult A) (good : A → Prop) : Prop :=
  (P ∧ ∃ value, check = .ok value ∧ good value) ∨
    (¬ P ∧ ∃ stopped, check = .error stopped ∧ stopped.Rejected)

theorem readReceipt_decides (current) (entry result) :
    Decides (∃ receipt trailers, config.decode entry.receipt = .ok receipt ∧
        decodeAuditMessage entry.message = .ok trailers)
      (readReceipt config current entry result) fun read =>
        config.decode entry.receipt = .ok read.1 ∧ decodeAuditMessage entry.message = .ok read.2 := by
  unfold readReceipt
  cases config.decode entry.receipt with
  | error e => exact Or.inr ⟨by simp, _, rfl, by simp⟩
  | ok receipt =>
    cases decodeAuditMessage entry.message with
    | error e =>
      exact Or.inr ⟨by simp, _, rfl, by simp⟩
    | ok trailers => exact Or.inl ⟨⟨_, _, rfl, rfl⟩, _, rfl, rfl, rfl⟩

theorem some_unless_eq_none {c : Prop} [Decidable c] {text : JsString} {rest : Option JsString} :
    (if c then some text else rest) = none ↔ ¬ c ∧ rest = none := by
  split <;> simp_all

theorem receiptSchemaError_eq_none (receipt) :
    receiptSchemaError receipt = none ↔ receipt.WellFormed := by
  simp only [receiptSchemaError, some_unless_eq_none, not_not, not_lt, and_true]
  constructor
  · rintro ⟨version, graph, writer, started, -, single, stamped⟩
    exact ⟨version, graph, writer, started, single, stamped⟩
  · rintro ⟨version, graph, writer, started, single, stamped⟩
    exact ⟨version, graph, writer, started, single.le, single, stamped⟩

theorem trailerError_eq_none (receipt trailers) :
    trailerError receipt trailers = none ↔ receipt.Agrees trailers := by
  simp only [trailerError, some_unless_eq_none, not_not, and_true]
  constructor
  · rintro ⟨schema, graph, writer, dataCommit, opsDigest⟩
    exact ⟨schema, graph, writer, dataCommit, opsDigest⟩
  · rintro ⟨schema, graph, writer, dataCommit, opsDigest⟩
    exact ⟨schema, graph, writer, dataCommit, opsDigest⟩

theorem oidFormatError_eq_none (text) : oidFormatError text = none ↔ IsOid text := by
  have length : (toLowerCase text).length = text.length := length_map _
  simp only [oidFormatError, some_unless_eq_none, length, IsOid, not_or, Bool.not_eq_false,
    and_true]
  constructor
  · rintro ⟨⟨-, hex⟩, sized⟩
    exact ⟨hex, by omega⟩
  · rintro ⟨hex, sized⟩
    refine ⟨⟨?_, hex⟩, by omega⟩
    intro empty
    rw [empty, length_nil] at length
    omega

theorem isOid_zeroHash (sized : n = 40 ∨ n = 64) : IsOid (zeroHash n) := by
  refine ⟨?_, by rwa [zeroHash, length_replicate]⟩
  rw [zeroHash, toLowerCase, map_replicate, all_eq_true]
  intro u mem
  rw [eq_of_mem_replicate mem]
  decide

theorem validateOids_decides (receipt : AuditReceipt) (result) (sha) :
    Decides (IsOid receipt.dataCommit ∧ (IsOid receipt.prevAuditCommit ∨
        receipt.prevAuditCommit ≠ [] ∧
          receipt.prevAuditCommit = zeroHash receipt.prevAuditCommit.length))
      (validateOids receipt result sha) fun _ => True := by
  simp only [← oidFormatError_eq_none]
  unfold validateOids
  cases oidFormatError receipt.dataCommit with
  | some error =>
    exact Or.inr ⟨by simp, _, rfl, by simp⟩
  | none =>
    cases oidFormatError receipt.prevAuditCommit with
    | none => exact Or.inl ⟨by simp, (), rfl, trivial⟩
    | some error =>
      dsimp only
      split
      next zeros => exact Or.inl ⟨⟨rfl, Or.inr zeros⟩, (), rfl, trivial⟩
      next other =>
        exact Or.inr ⟨by simpa using other, _, rfl,
          by simp⟩

theorem checkOidLengthConsistency_decides (receipt chainOidLen result) (sha) :
    Decides ((∀ n ∈ chainOidLen, receipt.dataCommit.length = n) ∧
        receipt.prevAuditCommit.length = receipt.dataCommit.length)
      (checkOidLengthConsistency receipt chainOidLen result sha) (· = receipt.dataCommit.length) := by
  unfold checkOidLengthConsistency
  cases chainOidLen with
  | none =>
    dsimp only
    split
    next other => exact Or.inr ⟨by simpa using other, _, rfl, by simp⟩
    next same => exact Or.inl ⟨by simpa using same, _, rfl, rfl⟩
  | some n =>
    dsimp only
    split
    next changed =>
      exact Or.inr ⟨by simp [changed], _, rfl, by simp⟩
    next kept =>
      split
      next other => exact Or.inr ⟨by simp [other], _, rfl, by simp⟩
      next same => exact Or.inl ⟨by simpa using ⟨not_not.mp kept, not_not.mp same⟩, _, rfl,
          (not_not.mp kept).symm⟩

theorem checkLink_decides (receipt prevReceipt) (sha) (result) :
    Decides (∀ newer ∈ prevReceipt, receipt.tickEnd < newer.tickStart ∧
        receipt.writerId = newer.writerId ∧ receipt.graphName = newer.graphName)
      (checkLink receipt prevReceipt sha result) (·.errors = result.errors) := by
  cases prevReceipt with
  | none => exact Or.inl ⟨by simp, result, rfl, rfl⟩
  | some newer =>
    simp only [checkLink, validateChainLink, Option.mem_some_iff, forall_eq']
    split
    next reached =>
      exact Or.inr ⟨by omega, _, rfl, by simp⟩
    next above =>
      split
      next other =>
        exact Or.inr ⟨by simp [other], _, rfl, by simp⟩
      next writer =>
        split
        next other =>
          exact Or.inr ⟨by simp [other], _, rfl,
            by simp⟩
        next graph =>
          refine Or.inl ⟨⟨by omega, not_not.mp writer, not_not.mp graph⟩, _, rfl, ?_⟩
          -- a gap between two ticks is a warning and no error
          split <;> rfl

theorem validateWriterConsistency_decides (receipt) (sha) (result) :
    Decides (receipt.writerId = config.writerId ∧ receipt.graphName = config.graphName)
      (validateWriterConsistency config receipt sha result) fun _ => True := by
  unfold validateWriterConsistency
  split
  next other =>
    exact Or.inr ⟨by simp [other], _, rfl, by simp⟩
  next writer =>
    split
    next other =>
      exact Or.inr ⟨by simp [other], _, rfl, by simp⟩
    next graph => exact Or.inl ⟨⟨not_not.mp writer, not_not.mp graph⟩, (), rfl, trivial⟩

/-- The walk ends at a genesis commit, goes on to the parent that a later receipt names, or
rejects the log. -/
theorem handleGenesisOrContinuation_spec (receipt) (entry : AuditLogEntry Bytes)
    (since) (current) (result)
    (clean : result.errors = []) :
    let next := handleGenesisOrContinuation receipt entry since receipt.dataCommit.length current
      result
    let ends := since = none ∧ receipt.First ∧ entry.parents = []
    let later := ¬ receipt.First ∧ entry.parents = [receipt.prevAuditCommit]
    (ends ∧ ∃ stopped, next = .error stopped ∧ stopped.status = .valid) ∨
      (later ∧ next = .ok receipt.prevAuditCommit) ∨
      (¬ ends ∧ ¬ later ∧ ∃ stopped, next = .error stopped ∧ stopped.Rejected) := by
  unfold handleGenesisOrContinuation AuditReceipt.First
  by_cases first : receipt.prevAuditCommit = zeroHash receipt.dataCommit.length
  · rw [if_pos first]
    by_cases root : entry.parents = []
    · cases since with
      | some since => exact Or.inr (Or.inr ⟨by simp, by simp [first], _, by simp [root]; rfl, by simp⟩)
      | none =>
        refine Or.inl ⟨⟨rfl, first, root⟩, _, by simp [root, clean]; rfl, rfl⟩
    · exact Or.inr (Or.inr ⟨by simp [root], by simp [first], _, by simp [root]; rfl, by simp⟩)
  · rw [if_neg first]
    rcases shape : entry.parents with _ | ⟨parent, _ | ⟨other, rest⟩⟩
    · exact Or.inr (Or.inr ⟨by simp [first], by simp, _, rfl, by simp⟩)
    · by_cases same : parent = receipt.prevAuditCommit
      · exact Or.inr (Or.inl ⟨⟨first, by rw [same]⟩, by simp [same]⟩)
      · exact Or.inr (Or.inr ⟨by simp, by simp [same], _, by simp [same]; rfl, by simp⟩)
    · exact Or.inr (Or.inr ⟨by simp, by simp, _, rfl, by simp⟩)

/-! ### One round -/

variable {config log}

theorem Records.unique (records : Records config log sha entry receipt)
    (other : Records config log sha entry' receipt') : entry = entry' ∧ receipt = receipt' := by
  obtain rfl := Option.some.inj (records.found.symm.trans other.found)
  exact ⟨rfl, Except.ok.inj (records.decoded.symm.trans other.decoded)⟩

theorem AuditChain.records (chain : AuditChain config log since sha receipt) :
    ∃ entry, Records config log sha entry receipt := by
  cases chain with
  | reached records cut | genesis records whole first root
  | link records above later parent chain sized falls => exact ⟨_, records⟩

variable (config log) (since : Option JsString)

/-- What a receipt must have in common with those that were walked before it. -/
def Continues (prevReceipt : Option AuditReceipt) (chainOidLen : Option Nat)
    (receipt : AuditReceipt) : Prop :=
  (∀ n ∈ chainOidLen, receipt.dataCommit.length = n) ∧
    ∀ newer ∈ prevReceipt, receipt.tickEnd < newer.tickStart

/-- The receipts that were walked before are of the requested log. -/
def Owned (prevReceipt : Option AuditReceipt) : Prop :=
  ∀ newer ∈ prevReceipt, newer.writerId = config.writerId ∧ newer.graphName = config.graphName

variable (current : JsString) (prevReceipt : Option AuditReceipt) (chainOidLen : Option Nat)
  {before : ChainResult}

/-- The checks of a round pass exactly on a recorded receipt that continues the walk. -/
theorem walkStep_checks (owned : Owned config prevReceipt) :
    (∃ entry receipt verified, Records config log current entry receipt ∧
        Continues prevReceipt chainOidLen receipt ∧ verified.errors = before.errors ∧
        walkStep config log since current prevReceipt chainOidLen before =
          if since = some current then
            .error (if verified.errors = [] then
              ({ verified with stoppedAt := some current } : ChainResult).setStatus .partial_
              else { verified with stoppedAt := some current })
          else handleGenesisOrContinuation receipt entry since receipt.dataCommit.length current
            verified >>= fun parent => pure (parent, receipt, receipt.dataCommit.length, verified)) ∨
      (¬ ∃ entry receipt, Records config log current entry receipt ∧
        Continues prevReceipt chainOidLen receipt) ∧
        ∃ stopped, walkStep config log since current prevReceipt chainOidLen before =
          .error stopped ∧ stopped.Rejected := by
  unfold walkStep
  cases found : log.entries.get current with
  | none =>
    refine Or.inr ⟨?_, _, rfl, by simp⟩
    rintro ⟨entry, receipt, records, -⟩
    cases found.symm.trans records.found
  | some entry =>
    -- a receipt that the commit records is the one that was decoded
    have read : ∀ entry' receipt', Records config log current entry' receipt' → entry' = entry ∧
        config.decode entry.receipt = .ok receipt' := by
      intro entry' receipt' records
      obtain rfl := Option.some.inj (found.symm.trans records.found)
      exact ⟨rfl, records.decoded⟩
    simp only [bind, Except.bind, pure, Except.pure]
    rcases readReceipt_decides config current entry
        { before with receiptsScanned := before.receiptsScanned + 1 } with
      ⟨-, ⟨receipt, trailers⟩, ran, decoded, message⟩ | ⟨unread, stopped, ran, rejected⟩
    swap
    · refine Or.inr ⟨?_, stopped, by simp only [ran], rejected⟩
      rintro ⟨entry', receipt', records, -⟩
      obtain ⟨rfl, same⟩ := read entry' receipt' records
      obtain ⟨trailers, decodes, -⟩ := records.agrees
      exact unread ⟨_, _, same, decodes⟩
    have refuse : ¬ (Records config log current entry receipt ∧
        Continues prevReceipt chainOidLen receipt) → ¬ ∃ entry receipt,
          Records config log current entry receipt ∧ Continues prevReceipt chainOidLen receipt := by
      rintro fails ⟨entry', receipt', records, continues⟩
      obtain ⟨rfl, same⟩ := read entry' receipt' records
      obtain rfl := Except.ok.inj (same.symm.trans decoded)
      exact fails ⟨records, continues⟩
    simp only [ran]
    cases schema : receiptSchemaError receipt with
    | some error =>
      refine Or.inr ⟨refuse fun holds => ?_, _, rfl, by simp⟩
      cases schema.symm.trans ((receiptSchemaError_eq_none receipt).mpr holds.1.wellFormed)
    | none =>
      dsimp only
      rcases validateOids_decides receipt
          { before with receiptsScanned := before.receiptsScanned + 1 } current with
        ⟨⟨dataOid, prevOid⟩, ⟨⟩, oids, -⟩ | ⟨fails, stopped, oids, rejected⟩
      swap
      · exact Or.inr ⟨refuse fun holds => fails ⟨holds.1.dataCommit, Or.inl holds.1.prevAuditCommit⟩,
          stopped, by simp only [oids], rejected⟩
      rcases checkOidLengthConsistency_decides receipt chainOidLen
          { before with receiptsScanned := before.receiptsScanned + 1 } current with
        ⟨⟨same, sized⟩, _, lengths, rfl⟩ | ⟨fails, stopped, lengths, rejected⟩
      swap
      · exact Or.inr ⟨refuse fun holds => fails ⟨holds.2.1, holds.1.sized⟩, stopped,
          by simp only [oids, lengths], rejected⟩
      simp only [oids, lengths]
      cases agreement : trailerError receipt trailers with
      | some error =>
        refine Or.inr ⟨refuse fun holds => ?_, _, rfl, by simp⟩
        obtain ⟨other, decodes, agrees⟩ := holds.1.agrees
        obtain rfl := Except.ok.inj (message.symm.trans decodes)
        cases agreement.symm.trans ((trailerError_eq_none receipt trailers).mpr agrees)
      | none =>
        dsimp only
        rcases checkLink_decides receipt prevReceipt current
            { before with receiptsScanned := before.receiptsScanned + 1 } with
          ⟨linked, next, link, clean⟩ | ⟨fails, stopped, link, rejected⟩
        swap
        · refine Or.inr ⟨refuse fun holds => fails fun newer mem => ?_, stopped,
            by simp only [link], rejected⟩
          -- the receipt above is of the requested log, as this one would be
          exact ⟨holds.2.2 newer mem, holds.1.writer.trans (owned newer mem).1.symm,
            holds.1.graph.trans (owned newer mem).2.symm⟩
        rcases validateWriterConsistency_decides config receipt current next with
          ⟨⟨writer, graph⟩, ⟨⟩, consistent, -⟩ | ⟨fails, stopped, consistent, rejected⟩
        swap
        · exact Or.inr ⟨refuse fun holds => fails ⟨holds.1.writer, holds.1.graph⟩, stopped,
            by simp only [link, consistent], rejected⟩
        have nullOid : IsOid receipt.prevAuditCommit := by
          rcases prevOid with oid | ⟨-, zeros⟩
          · exact oid
          · rw [zeros, sized]
            exact isOid_zeroHash dataOid.2
        refine Or.inl ⟨entry, receipt,
          { next with receiptsVerified := next.receiptsVerified + 1 },
          ⟨found, decoded, (receiptSchemaError_eq_none receipt).mp schema,
            ⟨trailers, message, (trailerError_eq_none receipt trailers).mp agreement⟩, dataOid,
            nullOid, sized, writer, graph⟩,
          ⟨same, fun newer mem => (linked newer mem).1⟩, clean, ?_⟩
        simp only [link, consistent]

/-- The status of a log that was verified in full, or down to the commit that was asked for. -/
def verifiedStatus (since : Option JsString) : ChainStatus :=
  if since = none then .valid else .partial_

/-- From a commit on, the rest of the walk finds a chain. -/
def ChainBelow : Prop :=
  ∃ receipt, AuditChain config log since current receipt ∧ Continues prevReceipt chainOidLen receipt

variable {config log since current prevReceipt chainOidLen}

/-- Above the commit that was asked for, a chain ends at genesis or goes on at the parent. -/
theorem chainBelow_iff (records : Records config log current entry receipt)
    (continues : Continues prevReceipt chainOidLen receipt) (above : since ≠ some current) :
    ChainBelow config log since current prevReceipt chainOidLen ↔
      (since = none ∧ receipt.First ∧ entry.parents = []) ∨
        (¬ receipt.First ∧ entry.parents = [receipt.prevAuditCommit]) ∧
          ChainBelow config log since receipt.prevAuditCommit (some receipt)
            (some receipt.dataCommit.length) := by
  constructor
  · rintro ⟨receipt', chain, -⟩
    cases chain with
    | reached records' cut => exact absurd cut above
    | genesis records' whole first root =>
      obtain ⟨rfl, rfl⟩ := records.unique records'
      exact Or.inl ⟨whole, first, root⟩
    | link records' above' later parent chain sized falls =>
      obtain ⟨rfl, rfl⟩ := records.unique records'
      exact Or.inr ⟨⟨later, parent⟩, _, chain, by simpa [Continues] using ⟨sized, falls⟩⟩
  · rintro (⟨whole, first, root⟩ | ⟨⟨later, parent⟩, older, chain, sized, falls⟩)
    · exact ⟨receipt, .genesis records whole first root, continues⟩
    · exact ⟨receipt, .link records above later parent chain (sized _ rfl) (falls _ rfl), continues⟩

/-- The walk may stop with a result: it accepts exactly the chains. -/
def Verdict (since : Option JsString) (chain : Prop) (result : ChainResult) : Prop :=
  (chain ∧ result.status = verifiedStatus since) ∨ (¬ chain ∧ result.Rejected)

/-- A round decides on the chain or hands the question on to the parent. -/
theorem walkStep_spec (owned : Owned config prevReceipt) (clean : before.errors = []) :
    (∃ stopped, walkStep config log since current prevReceipt chainOidLen before = .error stopped ∧
      Verdict since (ChainBelow config log since current prevReceipt chainOidLen) stopped) ∨
    ∃ entry receipt next, walkStep config log since current prevReceipt chainOidLen before =
        .ok (receipt.prevAuditCommit, receipt, receipt.dataCommit.length, next) ∧
      next.errors = [] ∧ Records config log current entry receipt ∧
      Continues prevReceipt chainOidLen receipt ∧
      (ChainBelow config log since current prevReceipt chainOidLen ↔
        ChainBelow config log since receipt.prevAuditCommit (some receipt)
          (some receipt.dataCommit.length)) := by
  rcases walkStep_checks config log since current prevReceipt chainOidLen owned with
    ⟨entry, receipt, verified, records, continues, errors, step⟩ | ⟨fails, stopped, step, rejected⟩
  swap
  · refine Or.inl ⟨stopped, step, Or.inr ⟨?_, rejected⟩⟩
    rintro ⟨receipt, chain, continues⟩
    obtain ⟨entry, records⟩ := chain.records
    exact fails ⟨entry, receipt, records, continues⟩
  rw [clean] at errors
  rw [step, errors, if_pos rfl]
  by_cases cut : since = some current
  · rw [if_pos cut]
    refine Or.inl ⟨_, rfl, Or.inl ⟨⟨receipt, .reached records cut, continues⟩, ?_⟩⟩
    simp [ChainResult.setStatus, verifiedStatus, cut]
  rw [if_neg cut, chainBelow_iff records continues cut]
  rcases handleGenesisOrContinuation_spec receipt entry since current verified errors with
    ⟨ends, stopped, next, valid⟩ | ⟨later, next⟩ | ⟨endless, stray, stopped, next, rejected⟩
  · rw [next]
    exact Or.inl ⟨stopped, rfl, Or.inl ⟨Or.inl ends, by rw [valid, verifiedStatus, if_pos ends.1]⟩⟩
  · rw [next]
    exact Or.inr ⟨entry, receipt, verified, rfl, errors, records, continues,
      ⟨fun below => (below.resolve_left fun ends => later.1 ends.2.1).2, fun below => Or.inr ⟨later, below⟩⟩⟩
  · rw [next]
    exact Or.inl ⟨stopped, rfl, Or.inr ⟨fun below => below.elim endless fun below => stray below.1,
      rejected⟩⟩

/-! ### The walk -/

/-- An entry whose receipt can still come below the one that was walked before. -/
def recordedBelow (config : AuditConfig O Bytes) (prevReceipt : Option AuditReceipt)
    (entry : JsString × AuditLogEntry Bytes) : Bool :=
  match config.decode entry.2.receipt with
  | .ok receipt => prevReceipt.all fun newer => decide (receipt.tickStart < newer.tickStart)
  | .error _ => false

/-- The commits that the walk can still visit. -/
def remaining (config : AuditConfig O Bytes) (log : AuditLog Bytes)
    (prevReceipt : Option AuditReceipt) : Nat :=
  (log.entries.entries.filter (recordedBelow config prevReceipt)).length

theorem remaining_lt (records : Records config log current entry receipt)
    (continues : Continues prevReceipt chainOidLen receipt) :
    remaining config log (some receipt) < remaining config log prevReceipt := by
  have single := records.wellFormed.single
  have narrower : log.entries.entries.filter (recordedBelow config (some receipt)) =
      (log.entries.entries.filter (recordedBelow config prevReceipt)).filter
        (recordedBelow config (some receipt)) := by
    rw [filter_filter]
    apply filter_congr
    intro other _
    unfold recordedBelow
    cases config.decode other.2.receipt with
    | error e => rfl
    | ok recorded =>
      cases prevReceipt with
      | none => simp
      | some newer =>
        have falls := continues.2 newer rfl
        simp only [Option.all_some, Bool.eq_self_and, decide_eq_true_eq]
        omega
  rw [remaining, narrower, remaining, length_filter_lt_length_iff_exists]
  -- the commit of the receipt itself is not below it
  refine ⟨(current, entry), mem_filter.mpr ⟨?_, ?_⟩, ?_⟩
  · exact (log.entries.mem_entries_iff _).mpr records.found
  · simp only [recordedBelow, records.decoded]
    cases prevReceipt with
    | none => rfl
    | some newer =>
      have falls := continues.2 newer rfl
      simp only [Option.all_some, decide_eq_true_eq]
      omega
  · simp [recordedBelow, records.decoded]

theorem walkChain_spec (current chainOidLen before fuel) (enough : remaining config log prevReceipt < fuel)
    (owned : Owned config prevReceipt) (clean : before.errors = []) :
    ∃ result, walkChain config log since fuel current prevReceipt chainOidLen before = some result ∧
      Verdict since (ChainBelow config log since current prevReceipt chainOidLen) result := by
  induction fuel generalizing current prevReceipt chainOidLen before with
  | zero => omega
  | succ fuel ih =>
    rw [walkChain]
    rcases walkStep_spec owned clean with
      ⟨stopped, step, verdict⟩ | ⟨entry, receipt, next, step, errors, records, continues, below⟩
    · rw [step]
      exact ⟨stopped, rfl, verdict⟩
    · have filled : receipt.prevAuditCommit ≠ [] := by
        intro empty
        have sized := records.prevAuditCommit.2
        simp [empty] at sized
      have fewer := remaining_lt records continues
      have same : Owned config (some receipt) := by
        rintro newer ⟨⟩
        exact ⟨records.writer, records.graph⟩
      obtain ⟨result, walked, verdict⟩ :=
        ih receipt.prevAuditCommit (some receipt.dataCommit.length) _
          (fewer.trans_le (Nat.le_of_lt_succ enough)) same errors
      rw [step, below]
      simp only [if_neg filled]
      exact ⟨result, walked, verdict⟩

theorem status_checkTipMoved (tipAfter result) :
    (checkTipMoved tipAfter result).status = result.status := by
  unfold checkTipMoved
  split
  · split <;> rfl
  · rfl

/-- Verification ends for every log. Where the log has a tip, it reports `valid` exactly for a
chain down to genesis when the whole log was asked for, and `partial` exactly for a chain
down to the commit that was asked for. -/
theorem verifyChain_exact (config : AuditConfig O Bytes) (log : AuditLog Bytes)
    (since : Option JsString) (tipAfter : Option (Option JsString)) :
    ∃ result, verifyChain config log since tipAfter = some result ∧
      ∀ tip, log.head = some tip → tip ≠ [] →
        let requested := since.filter fun sha => decide (sha ≠ [])
        (result.status = .valid ↔
          requested = none ∧ ∃ receipt, AuditChain config log none tip receipt) ∧
        (result.status = .partial_ ↔
          ∃ sha, requested = some sha ∧ ∃ receipt, AuditChain config log (some sha) tip receipt) := by
  unfold verifyChain
  cases published : log.head with
  | none => exact ⟨_, rfl, by simp⟩
  | some tip =>
    dsimp only
    split
    next empty => exact ⟨_, rfl, by simp [empty]⟩
    next filled =>
      have enough : remaining config log none < log.entries.size + 1 :=
        Nat.lt_succ_of_le (length_filter_le _ _)
      generalize (since.filter fun sha => decide (sha ≠ [])) = requested
      obtain ⟨result, walked, verdict⟩ := walkChain_spec tip none
        { ChainResult.start requested with tipCommit := some tip, tipAtStart := some tip }
        (log.entries.size + 1) enough (by rintro newer ⟨⟩) rfl
      rw [walked]
      refine ⟨_, rfl, ?_⟩
      rintro _ ⟨⟩ -
      have chained : ChainBelow config log requested tip none none ↔
          ∃ receipt, AuditChain config log requested tip receipt := by
        simp [ChainBelow, Continues]
      rw [chained] at verdict
      rw [status_checkTipMoved]
      cases requested with
      | none =>
        simp only [Verdict, verifiedStatus, if_true, ChainResult.Rejected] at verdict
        aesop
      | some sha =>
        simp only [Verdict, verifiedStatus, reduceCtorEq, if_false, ChainResult.Rejected] at verdict
        aesop

end GitWarp
